import Mathlib.Data.UInt
import OperatingSystems.Library.LinkedQueue
import OperatingSystems.Library.Program

/-!
# The file cache of the web server

The cache of `server_thread.c`: a hash table of 5000 chains of entries, and a list of the same
entries in the order of their last use, which `cache_evict` walks to make room. Both are linked
lists in memory. An address is a number; `entries` and `nodes` are the allocated `CacheEntry` and
`LRUEntry` structs, and following a pointer to a struct that is not allocated is a fault. The
chains start at the dummy entries of the table, so the `next` pointers belong to dummies and
allocated entries alike.

A function that walks a list is given a bound on the number of its turns and ends in a fault of its
own when the bound is too small. `malloc` may return any address that is not allocated: a function
that allocates is given the addresses.
-/

set_option autoImplicit false
set_option relaxedAutoImplicit false

namespace OperatingSystems.Webserver

open Library Library.LinkedQueue

/-- `struct file_data`. -/
structure FileData where
  fileName : List UInt8
  fileBuf : List UInt8
  fileSize : ℤ
  deriving DecidableEq

/-- `CacheEntry` without its `next` pointer. -/
structure CacheEntry where
  data : FileData
  inUse : ℤ
  deriving DecidableEq

/-- A pointer to an entry: a dummy in the table or an allocated one. -/
inductive EntryPtr
  | bucket (key : ℕ)
  | node (address : ℕ)
  deriving DecidableEq

/-- `cache->capacity`. -/
abbrev capacity : ℕ := 5000

/-- `Cache`. -/
structure Cache where
  entries : ℕ → Option CacheEntry
  next : EntryPtr → Option ℕ
  nodes : ℕ → Option ℕ
  nodeNext : ℕ → Option ℕ
  lru : Queue ℕ
  size : ℤ
  maxCacheSize : ℤ

/-- The cache that `server_init` makes. -/
def Cache.init (maxCacheSize : ℤ) : Cache :=
  ⟨fun _ ↦ none, fun _ ↦ none, fun _ ↦ none, fun _ ↦ none, Queue.empty, 0, maxCacheSize⟩

/-- Why a function of the cache does not return. -/
inductive Fault
  /-- A null pointer or a pointer to a struct that is not allocated was followed. -/
  | segv
  /-- An assertion failed. -/
  | assertion
  /-- The address is not one that `malloc` can return. -/
  | malloc
  /-- A loop was given too few turns. -/
  | turns
  deriving DecidableEq

/-- `hash`. The characters are signed. -/
def hash (str : List UInt8) : UInt64 :=
  str.foldl (fun hash c ↦ (hash <<< 5) + hash + c.toInt8.toInt64.toUInt64) 5381

/-- The bucket of a name. -/
def bucketOf (fileName : List UInt8) : ℕ := (hash fileName).toNat % capacity

/-- The conversion of a signed number to `unsigned long`. -/
def asUnsignedLong (x : ℤ) : ℕ := (x % 2 ^ 64).toNat

namespace Cache

/-! ### Following pointers -/

/-- The entry at an address. -/
def deref (a : ℕ) : Program Cache Fault CacheEntry := do
  match ← Program.gets fun c ↦ c.entries a with
  | some e => pure e
  | none => Program.halt .segv

/-- The entry that an LRU node is for. -/
def derefNode (n : ℕ) : Program Cache Fault ℕ := do
  match ← Program.gets fun c ↦ c.nodes n with
  | some a => pure a
  | none => Program.halt .segv

/-- `entry->next`. -/
def nextOf : EntryPtr → Program Cache Fault (Option ℕ)
  | .bucket key => Program.gets fun c ↦ c.next (.bucket key)
  | .node a => do
    let _ ← deref a
    Program.gets fun c ↦ c.next (.node a)

/-- The loop of `cache_lookup` and `cache_exists` over a chain: the entry with a name. -/
def findName (fileName : List UInt8) : ℕ → EntryPtr → Program Cache Fault (Option ℕ)
  | 0, _ => Program.halt .turns
  | n + 1, entry => do
    match ← nextOf entry with
    | none => pure none
    | some a =>
      let e ← deref a
      if e.data.fileName = fileName then pure (some a) else findName fileName n (.node a)

/-- The loop of `remove_from_cache` over a chain: the predecessor of an entry. -/
def findPrev (target : ℕ) : ℕ → EntryPtr → Program Cache Fault (Option EntryPtr)
  | 0, _ => Program.halt .turns
  | n + 1, entry => do
    match ← nextOf entry with
    | none => pure none
    | some a => if a = target then pure (some entry) else findPrev target n (.node a)

/-- The loop of `cache_insert` over a chain: its last entry. -/
def findLast : ℕ → EntryPtr → Program Cache Fault EntryPtr
  | 0, _ => Program.halt .turns
  | n + 1, entry => do
    match ← nextOf entry with
    | none => pure entry
    | some a => findLast n (.node a)

/-! ### The list in the order of use -/

/-- Apply an operation on a queue of nodes to the list. -/
def onLRU (op : (ℕ → Option ℕ) → Queue ℕ → Option ((ℕ → Option ℕ) × Queue ℕ)) :
    Program Cache Fault Unit := do
  match ← Program.gets fun c ↦ op c.nodeNext c.lru with
  | some (nodeNext, lru) => Program.modify fun c ↦ { c with nodeNext := nodeNext, lru := lru }
  | none => Program.halt .segv

/-- The loop of `find_in_LRU_with_prev`: the predecessor and the node of an entry. -/
def findInLRUWithPrev (target : ℕ) :
    ℕ → Option ℕ → Option ℕ → Program Cache Fault (Option ℕ × Option ℕ)
  | 0, _, _ => Program.halt .turns
  | _ + 1, prev, none => pure (prev, none)
  | n + 1, prev, some current => do
    if (← derefNode current) = target then pure (prev, some current)
    else findInLRUWithPrev target n (some current) (← Program.gets fun c ↦ c.nodeNext current)

/-- `add_to_LRU`, with the address that `malloc` returns. -/
def addToLRU (node entry : ℕ) : Program Cache Fault Unit := do
  Program.check ((← Program.gets fun c ↦ c.nodes node) = none) .malloc
  Program.modify fun c ↦
    { c with
      nodes := Function.update c.nodes node (some entry)
      nodeNext := Function.update c.nodeNext node none }
  onLRU fun nodeNext lru ↦ append nodeNext lru node

/-- `move_head_to_end`. -/
def moveHeadToEnd : Program Cache Fault Unit := onLRU LinkedQueue.moveHeadToEnd

/-- `move_node_to_end` once the node is found. -/
def moveFoundToEnd (prev : Option ℕ) (node : ℕ) : Program Cache Fault Unit := do
  let lru ← Program.gets Cache.lru
  if lru.head = some node then moveHeadToEnd
  else if lru.tail ≠ some node then
    match prev with
    | none => Program.halt .segv
    | some p => onLRU fun nodeNext lru ↦ moveToEnd nodeNext lru p node
  else pure ()

/-- `move_node_to_end`. -/
def moveNodeToEnd (turns entry : ℕ) : Program Cache Fault Unit := do
  let lru ← Program.gets Cache.lru
  if lru.size ≤ 1 then pure ()
  else
    match ← findInLRUWithPrev entry turns none lru.head with
    | (_, none) => pure ()
    | (prev, some node) => moveFoundToEnd prev node

/-- The pointer changes of `remove_node_from_LRU`, with the node it returns. -/
def unlinkNode (target : ℕ) (prev : Option ℕ) (nodeNext : ℕ → Option ℕ) (lru : Queue ℕ) :
    Option (Option ℕ × (ℕ → Option ℕ) × Queue ℕ) :=
  if lru.size = 1 then some (none, nodeNext, ⟨none, none, lru.size - 1⟩)
  else
    match prev with
    | none => do
      let head ← lru.head
      some (nodeNext head, Function.update nodeNext target none,
        ⟨nodeNext head, lru.tail, lru.size - 1⟩)
    | some p =>
      let (nodeNext, lru) := unlink nodeNext lru p target
      some (nodeNext p, nodeNext, lru)

/-- `remove_node_from_LRU`. -/
def removeNodeFromLRU (target : ℕ) (prev : Option ℕ) : Program Cache Fault (Option ℕ) := do
  match ← Program.gets fun c ↦ unlinkNode target prev c.nodeNext c.lru with
  | none => Program.halt .segv
  | some (ret, nodeNext, lru) =>
    Program.modify fun c ↦
      { c with
        nodes := Function.update c.nodes target none
        nodeNext := nodeNext
        lru := lru }
    pure ret

/-! ### The hash table -/

/-- Unlink an entry from its chain, take its size off and free it. -/
def dropEntry (target : ℕ) (e : CacheEntry) (prev : EntryPtr) (c : Cache) : Cache :=
  { c with
    next := Function.update (Function.update c.next prev (c.next (.node target)))
      (.node target) none
    size := c.size - e.data.fileSize
    entries := Function.update c.entries target none }

/-- `remove_from_cache`. The data of the entry is not freed. -/
def removeFromCache (turns target : ℕ) : Program Cache Fault Unit := do
  let e ← deref target
  match ← findPrev target turns (.bucket (bucketOf e.data.fileName)) with
  | none => pure ()
  | some prev => Program.modify (dropEntry target e prev)

/-- The loop of `cache_evict`. -/
def evictLoop (turns amount : ℕ) :
    ℕ → Option ℕ → Option ℕ → ℕ → Program Cache Fault ℕ
  | 0, _, _, _ => Program.halt .turns
  | _ + 1, none, _, evicted => pure evicted
  | n + 1, some current, prev, evicted => do
    let entry ← derefNode current
    let e ← deref entry
    if e.inUse > 0 then
      evictLoop turns amount n (← Program.gets fun c ↦ c.nodeNext current) (some current) evicted
    else do
      let next ← removeNodeFromLRU current prev
      removeFromCache turns entry
      let evicted := (evicted + asUnsignedLong e.data.fileSize) % 2 ^ 64
      if evicted ≥ amount then pure evicted else evictLoop turns amount n next prev evicted

/-- `cache_evict`. -/
def cacheEvict (turns amount : ℕ) : Program Cache Fault ℕ := do
  evictLoop turns amount turns (← Program.gets fun c ↦ c.lru.head) none 0

/-- Store a new entry after the last one of its chain. -/
def newEntry (address : ℕ) (file : FileData) (last : EntryPtr) (c : Cache) : Cache :=
  { c with
    next := Function.update (Function.update c.next last (some address)) (.node address) none
    entries := Function.update c.entries address (some ⟨file, 0⟩)
    size := c.size + file.fileSize }

/-- The end of `cache_insert`: append a new entry to its chain and to the list. -/
def appendEntry (turns address node : ℕ) (file : FileData) : Program Cache Fault Unit := do
  let last ← findLast turns (.bucket (bucketOf file.fileName))
  Program.check ((← Program.gets fun c ↦ c.entries address) = none) .malloc
  Program.modify (newEntry address file last)
  addToLRU node address

/-- The middle of `cache_insert`: make room if there is not enough. Tells whether there is. -/
def makeRoom (turns : ℕ) (file : FileData) : Program Cache Fault Bool := do
  let c ← Program.get
  if c.size + file.fileSize > c.maxCacheSize then do
    let _ ← cacheEvict turns (asUnsignedLong (file.fileSize - (c.maxCacheSize - c.size)))
    Program.gets fun c ↦ decide (c.size + file.fileSize ≤ c.maxCacheSize)
  else pure true

/-- `cache_insert`, with the addresses that `malloc` returns. -/
def cacheInsert (turns address node : ℕ) (file : FileData) : Program Cache Fault ℕ := do
  match ← findName file.fileName turns (.bucket (bucketOf file.fileName)) with
  | some _ => pure 0
  | none =>
    if file.fileSize > (← Program.gets Cache.maxCacheSize) then pure 0
    else if ← makeRoom turns file then do
      appendEntry turns address node file
      pure 1
    else pure 0

/-- Add to the use count of an entry. -/
def addUse (a : ℕ) (k : ℤ) (c : Cache) : Cache :=
  { c with
    entries := Function.update c.entries a
      ((c.entries a).map fun e ↦ { e with inUse := e.inUse + k }) }

/-- `cache_lookup`. -/
def cacheLookup (turns : ℕ) (fileName : List UInt8) : Program Cache Fault (Option ℕ) := do
  match ← findName fileName turns (.bucket (bucketOf fileName)) with
  | none => pure none
  | some a => do
    Program.modify (addUse a 1)
    moveNodeToEnd turns a
    pure (some a)

/-- The end of `do_server_request` for a request that was served from the cache. -/
def cacheRelease (a : ℕ) : Program Cache Fault Unit := do
  let _ ← deref a
  Program.modify (addUse a (-1))
  let e ← deref a
  Program.check (0 ≤ e.inUse) .assertion

end Cache

end OperatingSystems.Webserver
