import Mathlib.Data.List.Basic
import Mathlib.Tactic.Common

/-!
# Copying a file: `cpr.c`

`copy_file` reads the source in pieces of at most 4096 bytes and writes each piece to the
destination. How many bytes a call of `read` or `write` transfers is up to the kernel; `Kernel`
holds its answers, within what POSIX allows. A call that fails ends the process (`syserror`). The
source and the destination are different files, and no other process changes them. The permissions
of the files are left out, since no content depends on them.

The loop goes on after a `write` that has transferred less than it was asked to. So the copy is
exact if and only if each `write` transfers its whole piece (`copyFile_eq_iff`).
-/

set_option autoImplicit false
set_option relaxedAutoImplicit false

namespace OperatingSystems.Warmup

/-- The system calls of `copy_file` whose result is tested. -/
inductive SysCall
  | openSrc
  | creatDest
  | read
  | write
  | chmod
  deriving DecidableEq

/-- What the kernel answers. `read i unread` is the result of the `i`-th call of `read`, before
which that many bytes of the source are unread, and `write i count` the result of the `i`-th call of
`write`, which is asked to transfer `count` bytes; there is none if the call fails. -/
structure Kernel where
  opens : Bool
  creates : Bool
  read : ℕ → ℕ → Option ℕ
  write : ℕ → ℕ → Option ℕ
  changesMode : Bool
  read_le : ∀ i unread n, read i unread = some n → n ≤ min 4096 unread
  read_pos : ∀ i unread n, read i unread = some n → 0 < unread → 0 < n
  write_le : ∀ i count n, write i count = some n → n ≤ count
  write_pos : ∀ i count n, write i count = some n → 0 < count → 0 < n

/-- The loop of `copy_file`, with the number of turns so far, the bytes of the source that are not
read yet and the content of the destination: the content after the loop, or the call that failed. -/
def copyLoop (k : Kernel) (i : ℕ) (unread dest : List UInt8) : Except SysCall (List UInt8) :=
  match _ : k.read i unread.length with
  | none => .error .read
  | some ret =>
    if _ : ret = 0 then .ok dest
    else
      match k.write i ret with
      | none => .error .write
      | some n => copyLoop k (i + 1) (unread.drop ret) (dest ++ (unread.take ret).take n)
termination_by unread.length
decreasing_by
  have hle := k.read_le i unread.length ret ‹_›
  rw [List.length_drop]
  omega

/-- `copy_file`: the content of the destination when it returns, or the call that failed. -/
def copyFile (k : Kernel) (src : List UInt8) : Except SysCall (List UInt8) :=
  if k.opens then
    if k.creates then
      match copyLoop k 0 src [] with
      | .error call => .error call
      | .ok dest => if k.changesMode then .ok dest else .error .chmod
    else .error .creatDest
  else .error .openSrc

namespace Kernel

variable (k : Kernel)

/-- The number of unread bytes before the `i`-th turn, of a file with `size` bytes. -/
def unreadAt (size : ℕ) : ℕ → ℕ
  | 0 => size
  | i + 1 => unreadAt size i - (k.read i (unreadAt size i)).getD 0

/-- Each call of `write` transfers the whole piece that was read before it. -/
def WritesAll (size : ℕ) : Prop :=
  ∀ i ret n, 0 < ret → k.read i (k.unreadAt size i) = some ret → k.write i ret = some n → n = ret

/-- The kernel whose calls succeed and transfer so many bytes at most, the whole request otherwise.
-/
def atMost (readMost writeMost : ℕ) (hread : 0 < readMost) (hwrite : 0 < writeMost) : Kernel where
  opens := true
  creates := true
  read _ unread := some (min readMost (min 4096 unread))
  write _ count := some (min writeMost count)
  changesMode := true
  read_le i unread n hn := by
    obtain rfl := Option.some.inj hn
    exact Nat.min_le_right _ _
  read_pos i unread n hn hunread := by
    obtain rfl := Option.some.inj hn
    omega
  write_le i count n hn := by
    obtain rfl := Option.some.inj hn
    exact Nat.min_le_right _ _
  write_pos i count n hn hcount := by
    obtain rfl := Option.some.inj hn
    omega

end Kernel

variable {k : Kernel} {i : ℕ} {src unread dest result : List UInt8}

/-- The turn in which the source is at its end. -/
theorem copyLoop_end (hread : k.read i unread.length = some 0) :
    copyLoop k i unread dest = .ok dest ∧ unread = [] := by
  refine ⟨?_, ?_⟩
  · rw [copyLoop]
    split
    · rename_i hnone
      rw [hread] at hnone
      cases hnone
    · rename_i ret hsome
      rw [hread, Option.some.injEq] at hsome
      rw [dif_pos hsome.symm]
  · by_contra hne
    have hpos := k.read_pos i _ 0 hread (List.length_pos_iff.mpr hne)
    exact absurd hpos (Nat.lt_irrefl 0)

/-- The loop returns only if no call of `read` fails. -/
theorem exists_read (hloop : copyLoop k i unread dest = .ok result) :
    ∃ ret, k.read i unread.length = some ret := by
  rw [copyLoop] at hloop
  split at hloop
  · cases hloop
  · exact ⟨_, ‹_›⟩

/-- A turn in which a piece is copied. -/
theorem copyLoop_turn (hloop : copyLoop k i unread dest = .ok result) {ret : ℕ}
    (hread : k.read i unread.length = some ret) (hret : ret ≠ 0) :
    ∃ n, k.write i ret = some n ∧
      copyLoop k (i + 1) (unread.drop ret) (dest ++ (unread.take ret).take n) = .ok result := by
  rw [copyLoop] at hloop
  split at hloop
  · cases hloop
  · rename_i ret' hread'
    rw [hread, Option.some.injEq] at hread'
    subst hread'
    rw [dif_neg hret] at hloop
    split at hloop
    · cases hloop
    · rename_i n hwrite
      exact ⟨n, hwrite, hloop⟩

/-- The unread bytes after a turn. -/
theorem Kernel.unreadAt_succ {size ret : ℕ} (hunread : unread.length = k.unreadAt size i)
    (hread : k.read i unread.length = some ret) :
    (unread.drop ret).length = k.unreadAt size (i + 1) := by
  rw [List.length_drop, unreadAt, ← hunread, hread, Option.getD_some]

/-- Past the end of the source nothing is read. -/
theorem Kernel.unreadAt_end {size j : ℕ} (hend : k.unreadAt size i = 0) (hij : i ≤ j) :
    k.unreadAt size j = 0 := by
  induction hij with
  | refl => exact hend
  | step _ ih => rw [unreadAt, ih, Nat.zero_sub]

/-- While every piece is written as a whole, what is written and what is unread make up the
source. -/
theorem copyLoop_of_writesAll {size : ℕ} (hall : k.WritesAll size)
    (hunread : unread.length = k.unreadAt size i) (hloop : copyLoop k i unread dest = .ok result) :
    result = dest ++ unread := by
  induction hlength : unread.length using Nat.strongRecOn generalizing i unread dest with
  | _ length ih =>
    subst hlength
    obtain ⟨ret, hread⟩ := exists_read hloop
    by_cases hret : ret = 0
    · subst hret
      obtain ⟨hend, rfl⟩ := copyLoop_end hread
      rw [hloop, Except.ok.injEq] at hend
      rw [hend, List.append_nil]
    · obtain ⟨n, hwrite, hnext⟩ := copyLoop_turn hloop hread hret
      have hn : n = ret := hall i ret n (Nat.pos_of_ne_zero hret) (hunread ▸ hread) hwrite
      have hle := k.read_le i _ ret hread
      have hsucc := Kernel.unreadAt_succ hunread hread
      rw [ih _ (by rw [List.length_drop]; omega) hsucc hnext rfl, hn, List.take_take,
        Nat.min_self, List.append_assoc, List.take_append_drop]

/-- The copy is no longer than the source, and shorter if a piece is not written as a whole. -/
theorem copyLoop_length {size : ℕ} (hunread : unread.length = k.unreadAt size i)
    (hloop : copyLoop k i unread dest = .ok result) :
    result.length ≤ dest.length + unread.length ∧
      (result.length = dest.length + unread.length → ∀ j, i ≤ j → ∀ ret n, 0 < ret →
        k.read j (k.unreadAt size j) = some ret → k.write j ret = some n → n = ret) := by
  induction hlength : unread.length using Nat.strongRecOn generalizing i unread dest with
  | _ length ih =>
    subst hlength
    obtain ⟨ret, hread⟩ := exists_read hloop
    by_cases hret : ret = 0
    · subst hret
      obtain ⟨hend, rfl⟩ := copyLoop_end hread
      rw [hloop, Except.ok.injEq] at hend
      refine ⟨by simp [hend], fun _ j hij ret n hpos hread' _ ↦ ?_⟩
      have hle := k.read_le j _ ret hread'
      rw [Kernel.unreadAt_end hunread.symm hij] at hle
      omega
    · obtain ⟨n, hwrite, hnext⟩ := copyLoop_turn hloop hread hret
      have hle := k.read_le i _ ret hread
      have hn := k.write_le i ret n hwrite
      have hsucc := Kernel.unreadAt_succ hunread hread
      obtain ⟨hbound, hfull⟩ := ih _ (by rw [List.length_drop]; omega) hsucc hnext rfl
      have hwritten : (dest ++ (unread.take ret).take n).length = dest.length + n := by
        rw [List.length_append, List.length_take, List.length_take]
        omega
      rw [hwritten, List.length_drop] at hbound hfull
      refine ⟨by omega, fun heq j hij ret' n' hpos hread' hwrite' ↦ ?_⟩
      rcases Nat.eq_or_lt_of_le hij with rfl | hlt
      · rw [← hunread, hread, Option.some.injEq] at hread'
        subst hread'
        rw [hwrite, Option.some.injEq] at hwrite'
        omega
      · exact hfull (by omega) j hlt ret' n' hpos hread' hwrite'

/-- `copy_file` has returned from its loop. -/
theorem copyFile_eq_ok (hcopy : copyFile k src = .ok result) : copyLoop k 0 src
    [] = .ok result := by
  cases hloop : copyLoop k 0 src [] with
  | error call =>
    rw [copyFile, hloop] at hcopy
    split_ifs at hcopy
  | ok dest =>
    rw [copyFile, hloop] at hcopy
    split_ifs at hcopy
    exact hcopy

/-- The loop has copied the source if and only if each `write` has transferred its whole piece. -/
theorem copyLoop_eq_iff (hloop : copyLoop k 0 src [] = .ok result) :
    result = src ↔ k.WritesAll src.length := by
  constructor
  · rintro rfl
    have hunread : result.length = k.unreadAt result.length 0 := rfl
    obtain ⟨-, hfull⟩ := copyLoop_length hunread hloop
    intro i ret n
    exact hfull (by simp) i (Nat.zero_le i) ret n
  · intro hall
    simpa using copyLoop_of_writesAll hall rfl hloop

/-- For every source and all results of `read` and `write`: when `copy_file` returns, the
destination has the content of the source if and only if each `write` has transferred its whole
piece. -/
theorem copyFile_eq_iff (hcopy : copyFile k src = .ok result) :
    result = src ↔ k.WritesAll src.length :=
  copyLoop_eq_iff (copyFile_eq_ok hcopy)

/-- A file of two bytes is copied one by one. -/
theorem copyFile_eq_iff_bytewise :
    copyFile (.atMost 1 1 (by decide) (by decide)) [1, 2] = .ok [1, 2] ∧
      (([1, 2] : List UInt8) = [1, 2] ↔
        (Kernel.atMost 1 1 (by decide) (by decide)).WritesAll 2) := by
  have hcopy : copyFile (.atMost 1 1 (by decide) (by decide)) [1, 2] = .ok [1, 2] := by
    simp [copyFile, copyLoop, Kernel.atMost]
  exact ⟨hcopy, copyFile_eq_iff hcopy⟩

/-- A `write` transfers one byte of two, and the other one is lost. -/
theorem copyFile_loses_byte : ∃ (k : Kernel) (src dest : List UInt8),
    copyFile k src = .ok dest ∧ dest ≠ src := by
  refine ⟨.atMost 4096 1 (by decide) (by decide), [1, 2], [1], ?_, by decide⟩
  simp [copyFile, copyLoop, Kernel.atMost]

end OperatingSystems.Warmup
