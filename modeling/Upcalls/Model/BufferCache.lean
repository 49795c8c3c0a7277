import Upcalls.Library.Bytes
import Upcalls.Library.Machine

/-! # The object caches in memory

`init_cache`, `cache_alloc` and `cache_free` of `event-tester/tcp_echo.c`. A pointer is an
address, and 0 is `NULL`. The test in `cache_free` whether the buffer comes from another CPU
has no effect.
-/

namespace Upcalls.BufferCache

open Library

/-! ## Entries

`struct buffer_entry` has `next` at 0, `alloc_cpu` at 8 and `buffer` from 16 on.
-/

def hdrSize : ℕ := 16

/-- `&entry->buffer[0]`. -/
def buffer (entry : ℕ) : ℕ := entry + hdrSize

/-- The entry of a buffer. -/
def entryOf (buff : ℕ) : ℕ := buff - hdrSize

def next (mem : ByteMem) (entry : ℕ) : ℕ := mem.loadWord 8 entry

def setNext (entry v : ℕ) (mem : ByteMem) : ByteMem := mem.storeWord 8 entry v

def setAllocCpu (entry : ℕ) (cpu : Int32) (mem : ByteMem) : ByteMem :=
  mem.storeWord 8 (entry + 8) cpu.toInt64.toUInt64.toNat

/-- `memset` to 0. -/
def clear (p len : ℕ) (mem : ByteMem) : ByteMem := mem.store p (List.replicate len 0)

/-! ## The cache -/

structure Cache where
  head : ℕ
  tail : ℕ
  entrySz : ℕ
  deriving DecidableEq, Repr

/-- `blocks` are the entries out of `calloc`, and `held` those of them that users have. -/
structure State where
  cache : Cache
  mem : ByteMem
  blocks : List ℕ
  held : List ℕ

inductive Input
  | alloc (cpu : Int32) (answer : ℕ)
  | free (buff : ℕ)
  | store (p : ℕ) (v : UInt8)

/-- `bytes` is what a user finds in the buffer. -/
inductive Output
  | allocated (buff : ℕ) (bytes : List UInt8)
  | silent
  deriving DecidableEq, Repr

namespace State

/-- The block of an entry ends ahead of `p`, or begins behind `p + len`. -/
def Clear (s : State) (p len : ℕ) : Prop :=
  ∀ e ∈ s.blocks, e + (hdrSize + s.cache.entrySz) ≤ p ∨ p + len ≤ e

instance (s : State) (p len : ℕ) : Decidable (s.Clear p len) :=
  inferInstanceAs (Decidable (∀ e ∈ s.blocks, _))

/-- `calloc` for an entry. `NULL` is no answer: what uses it writes to the first page. -/
def calloc (answer : ℕ) (s : State) : Option State :=
  let size := hdrSize + s.cache.entrySz
  if answer ≠ 0 ∧ answer + size ≤ 2 ^ 64 ∧ s.Clear answer size then
    some { s with mem := clear answer size s.mem, blocks := s.blocks ++ [answer] }
  else none

def cacheFree (buff : ℕ) (s : State) : State :=
  let entry := entryOf buff
  if s.cache.tail ≠ 0 then
    { s with mem := setNext s.cache.tail entry s.mem, cache := { s.cache with tail := entry } }
  else { s with cache := { s.cache with head := entry, tail := entry } }

/-- The entry that `cache_alloc` takes, with the state ahead of its `memset`. -/
def takeEntry (cpu : Int32) (answer : ℕ) (s : State) : Option (ℕ × State) :=
  if s.cache.head ≠ 0 then
    let entry := s.cache.head
    let head := next s.mem entry
    let tail := if head = 0 then 0 else s.cache.tail
    some (entry, { s with
      mem := setNext entry 0 s.mem, cache := { s.cache with head := head, tail := tail } })
  else do
    let s ← s.calloc answer
    return (answer, { s with mem := setAllocCpu answer cpu s.mem })

def cacheAlloc (cpu : Int32) (answer : ℕ) (s : State) : Option (ℕ × State) := do
  let (entry, s) ← s.takeEntry cpu answer
  return (buffer entry, { s with mem := clear (buffer entry) s.cache.entrySz s.mem })

/-- The loop of `init_cache`, with what `calloc` answers in each turn. -/
def initEntries : List ℕ → State → Option State
  | [], s => some s
  | answer :: answers, s => do
      let s ← s.calloc answer
      initEntries answers (s.cacheFree (buffer answer))

def initCache (entrySz : ℕ) (answers : List ℕ) (mem : ByteMem) : Option State :=
  initEntries answers ⟨⟨0, 0, entrySz⟩, mem, [], []⟩

/-! ## Users of the cache -/

/-- A byte that is not in the header of an entry. -/
def Writable (s : State) (p : ℕ) : Prop := ∀ e ∈ s.blocks, p < e ∨ buffer e ≤ p

instance (s : State) (p : ℕ) : Decidable (s.Writable p) :=
  inferInstanceAs (Decidable (∀ e ∈ s.blocks, _))

/-- Users free what they have, and write anywhere but to the headers. -/
def step (s : State) : Input → Option (State × Output)
  | .alloc cpu answer => do
      let (buff, s) ← s.cacheAlloc cpu answer
      let bytes := s.mem.load buff s.cache.entrySz
      return ({ s with held := entryOf buff :: s.held }, .allocated buff bytes)
  | .free buff =>
      if buff ∈ s.held.map buffer then
        some ({ s.cacheFree buff with held := s.held.erase (entryOf buff) }, .silent)
      else none
  | .store p v =>
      if s.Writable p then some ({ s with mem := Function.update s.mem p v }, .silent) else none

end State

/-- A cache of `count` entries at first. -/
def bufferCache (entrySz count : ℕ) : Machine State Input Output where
  Init s := ∃ mem answers, answers.length = count ∧ State.initCache entrySz answers mem = some s
  step := State.step

/-! ## Its purpose: a queue of entries -/

/-- The free entries in the order in which they became free, and those that users have. -/
structure Fifo where
  free : List ℕ
  held : List ℕ
  deriving DecidableEq, Repr

namespace Fifo

inductive Input
  | alloc (fresh : ℕ)
  | free (entry : ℕ)
  deriving DecidableEq, Repr

inductive Output
  | allocated (entry : ℕ) (bytes : List UInt8)
  | freed
  deriving DecidableEq, Repr

/-- The entry that is free for the longest time, or one that nobody has yet, cleared. -/
def step (entrySz : ℕ) (q : Fifo) : Input → Option (Fifo × Output)
  | .alloc fresh =>
      let bytes := List.replicate entrySz 0
      match q.free with
      | entry :: free => some (⟨free, entry :: q.held⟩, .allocated entry bytes)
      | [] =>
          if fresh ∈ q.held then none
          else some (⟨[], fresh :: q.held⟩, .allocated fresh bytes)
  | .free entry =>
      if entry ∈ q.held then some (⟨q.free ++ [entry], q.held.erase entry⟩, .freed) else none

end Fifo

def fifo (entrySz count : ℕ) : Machine Fifo Fifo.Input Fifo.Output where
  Init q := q.free.length = count ∧ q.free.Nodup ∧ q.held = []
  step := Fifo.step entrySz

/-- The calls of the cache as those of the queue. -/
def observe : Input × Output → Option (Fifo.Input × Fifo.Output)
  | (.alloc _ answer, .allocated buff bytes) =>
      some (.alloc answer, .allocated (entryOf buff) bytes)
  | (.free buff, .silent) => some (.free (entryOf buff), .freed)
  | _ => none

end Upcalls.BufferCache
