import Mathlib.Data.UInt
import OperatingSystems.Library.Decimal
import OperatingSystems.Library.Words

/-!
# Counting words: `wc.c`

`wc_init` cuts an array of characters into words and counts them in a hash table with as many
buckets as the array has characters; `wc_output` prints the table. A bucket is its chain of
elements. A word is added to the table at the space that follows it, so a word that the array ends
with is not added.

The loop of `wc_init` counts its turns in an `int`, and copies a word into an array of 100
characters. Running over either is an error of the model.
-/

set_option autoImplicit false
set_option relaxedAutoImplicit false

namespace OperatingSystems.Warmup

open Library

/-- `isspace` in the C locale. -/
def isspace (c : UInt8) : Bool := c = 32 || (9 ≤ c && c ≤ 13)

/-- `hash`. The characters are signed. -/
def hash (str : List UInt8) : UInt64 :=
  str.foldl (fun hash c ↦ (hash <<< 5) + hash + c.toInt8.toInt64.toUInt64) 5381

/-- `struct wc_ele` without its `next` pointer. -/
structure WcEle where
  word : List UInt8
  numOccurrences : ℕ
  deriving DecidableEq

/-- `struct wc`. -/
structure Wc where
  hashTable : ℕ → List WcEle
  size : ℕ
  capacity : ℕ

/-- Why `wc_init` has no result. -/
inductive Fault
  /-- The counter of the loop is incremented past its type. -/
  | intOverflow
  /-- A word is longer than the array it is copied into. -/
  | bufferOverflow
  deriving DecidableEq

/-- The search of a chain for a word, which counts an occurrence or appends an element. Tells
whether it has appended one. -/
def addToChain (word : List UInt8) : List WcEle → List WcEle × Bool
  | [] => ([⟨word, 1⟩], true)
  | ele :: rest =>
    if ele.word = word then (⟨ele.word, ele.numOccurrences + 1⟩ :: rest, false)
    else (ele :: (addToChain word rest).1, (addToChain word rest).2)

/-- Add a word to the hash table. -/
def addWord (wc : Wc) (word : List UInt8) : Wc :=
  let hashedWord := (hash word).toNat % wc.capacity
  let result := addToChain word (wc.hashTable hashedWord)
  { wc with
    hashTable := Function.update wc.hashTable hashedWord result.1
    size := if result.2 then wc.size + 1 else wc.size }

/-- The text in `current_word`. -/
def cString (buf : List UInt8) : List UInt8 := buf.takeWhile (· ≠ 0)

/-- The loop of `wc_init` at index `i`, with the characters up to `word_buffer`. -/
def wcLoop : ℕ → List UInt8 → Wc → List UInt8 → Except Fault Wc
  | _, _, wc, [] => .ok wc
  | i, currentWord, wc, c :: rest =>
    -- The increment at the end of the turn.
    let next := fun currentWord wc ↦
      if i + 1 = 2 ^ 31 then .error .intOverflow else wcLoop (i + 1) currentWord wc rest
    if isspace c then
      if cString currentWord = [] then next currentWord wc
      else next [] (addWord wc (cString currentWord))
    else if currentWord.length + 1 < 100 then next (currentWord ++ [c]) wc
    else .error .bufferOverflow

/-- `wc_init`. -/
def wcInit (wordArray : List UInt8) : Except Fault Wc :=
  wcLoop 0 [] ⟨fun _ ↦ [], 0, wordArray.length⟩ wordArray

/-- The loop of `wc_output` from bucket `i` on, for a number of buckets. -/
def outputLoop (wc : Wc) : ℕ → ℕ → ℕ → List WcEle
  | 0, _, _ => []
  | n + 1, i, numPrinted =>
    let numPrinted := numPrinted + (wc.hashTable i).length
    wc.hashTable i ++ if numPrinted = wc.size then [] else outputLoop wc n (i + 1) numPrinted

/-- The line printed for an element. -/
def outputLine (ele : WcEle) : List UInt8 := ele.word ++ 58 :: digitBytes ele.numOccurrences ++ [10]

/-- `wc_output`. -/
def wcOutput (wc : Wc) : List UInt8 := (outputLoop wc wc.capacity 0 0).flatMap outputLine

/-- What is printed for an array. -/
def wcRun (wordArray : List UInt8) : Except Fault (List UInt8) := (wcInit wordArray).map wcOutput

end OperatingSystems.Warmup
