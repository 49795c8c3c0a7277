import Mathlib.Logic.Function.Basic
import Upcalls.Library.Machine
import Upcalls.Library.Team

/-! # The batch statistics of libupcall

The counters that `run_event_loop` keeps, and the monitor thread of `libupcall/upcall.c`
that prints and resets them. A load and a store of a counter are steps of their own. What
`batch_monitor_fn` and `batch_ctl_poll` print of a counter is an output.
-/

namespace Upcalls.BatchStats

open Library

def UPCALL_CACHELINE : ℕ := 64

def UPCALL_TIME_BUCKETS : ℕ := 40

/-- `g_batch_hist_len`, `g_time_hist_len` and `g_batch_stride`. -/
structure Layout where
  batchHistLen : ℕ
  timeHistLen : ℕ
  batchStride : ℕ
  deriving DecidableEq, Repr

/-- The slot of a worker, rounded up to a cache line. -/
def upcallInit (batchSz : ℕ) : Layout :=
  let perLine := UPCALL_CACHELINE / 8
  let batchHistLen := batchSz + 1
  let timeHistLen := UPCALL_TIME_BUCKETS
  let batchStride := (1 + batchHistLen + 2 * timeHistLen + (perLine - 1)) / perLine * perLine
  ⟨batchHistLen, timeHistLen, batchStride⟩

/-- The leading zeros of a 64-bit word that is not zero. -/
def builtinClzll (d : ℕ) : ℕ := 63 - Nat.log2 d

namespace Layout

def timeBucket (L : Layout) (d : ℕ) : ℕ :=
  let tb := if d ≠ 0 then 63 - builtinClzll d else 0
  if L.timeHistLen ≤ tb then L.timeHistLen - 1 else tb

def batchBucket (L : Layout) (ret : ℕ) : ℕ :=
  if L.batchHistLen ≤ ret then L.batchHistLen - 1 else ret

def utimeSlot (L : Layout) (d : ℕ) : ℕ := 1 + L.batchHistLen + L.timeBucket d

def ktimeSlot (L : Layout) (k : ℕ) : ℕ := 1 + L.batchHistLen + L.timeHistLen + L.timeBucket k

def batchSlot (L : Layout) (ret : ℕ) : ℕ := 1 + L.batchBucket ret

/-- The slots of a row, in the order of the loops that print it. -/
def columns (L : Layout) : List ℕ :=
  0 :: ((List.range L.batchHistLen).map (1 + ·) ++
    (List.range L.timeHistLen).map (1 + L.batchHistLen + ·) ++
    (List.range L.timeHistLen).map (1 + L.batchHistLen + L.timeHistLen + ·))

end Layout

/-! ## The dump -/

/-- A section of the dump: its header, and the label and count of each line. -/
structure Section where
  header : String
  lines : List (ℕ × ℕ)
  deriving DecidableEq, Repr

/-- `c`, summed over the `n` workers. -/
def total (n : ℕ) (stats : ℕ → ℕ) (L : Layout) (slot : ℕ) : ℕ :=
  ((List.range n).map fun w => stats (w * L.batchStride + slot)).sum

/-- The lines of a section: `slot b` is counted under `label b`, and a zero is left out. -/
def linesOf (n : ℕ) (stats : ℕ → ℕ) (L : Layout) (len : ℕ) (slot label : ℕ → ℕ) :
    List (ℕ × ℕ) :=
  (List.range len).filterMap fun b =>
    let c := total n stats L (slot b)
    if c ≠ 0 then some (label b, c) else none

def dump (n : ℕ) (stats : ℕ → ℕ) (L : Layout) : List Section :=
  [⟨"=utime upper_ns count", linesOf n stats L L.timeHistLen
      (1 + L.batchHistLen + ·) (fun b => 2 ^ (b + 1))⟩,
    ⟨"=ktime upper_ns count", linesOf n stats L L.timeHistLen
      (1 + L.batchHistLen + L.timeHistLen + ·) (fun b => 2 ^ (b + 1))⟩,
    ⟨"=batch size count", linesOf n stats L L.batchHistLen (1 + ·) (fun b => b)⟩]

/-! ## Threads -/

/-- `todo` are the slots to increment, and `loaded` is the value that an increment under
way has loaded. -/
structure Worker where
  inSubmit : Bool
  procStart : ℕ
  t0 : ℕ
  todo : List ℕ
  loaded : Option ℕ

/-- The content of the control file. -/
inductive Command
  | reset (tag : String)
  | dump (path : String)
  | other (text : String)
  deriving DecidableEq, Repr

/-- What the monitor does next: `print w cols` and `copy w k` are in the row of worker `w`,
and `zero k` and `zeroPrev k` in the two `memset`s. -/
inductive Monitor
  | sleep
  | print (w : ℕ) (cols : List ℕ)
  | copy (w k : ℕ)
  | poll
  | zero (k : ℕ)
  | zeroPrev (k : ℕ)

structure Shared where
  stats : ℕ → ℕ
  prev : ℕ → ℕ
  monitor : Monitor
  last : Command

abbrev Process (n : ℕ) := Team n Worker Shared

/-- `enter` is the head of the loop up to `upcall_submit`, which `leave` returns from. -/
inductive Input (n : ℕ)
  | enter (w : Fin n) (t0 : ℕ)
  | leave (w : Fin n) (ret t1 : ℕ)
  | load (w : Fin n)
  | store (w : Fin n)
  | monitor
  | poll (cmd : Option Command)

inductive Output
  | silent
  | stored (k : ℕ)
  | loaded (k v : ℕ)
  | printed (k cur pv : ℕ)
  | copied (k : ℕ)
  | zeroed (k : ℕ)
  | zeroedPrev (k : ℕ)
  | dumped (path : String) (sections : List Section)
  deriving DecidableEq, Repr

namespace Process

variable {n : ℕ}

/-- The place of slot `i` of a worker in `g_batch_stats`. -/
def place (L : Layout) (w : Fin n) (i : ℕ) : ℕ := w * L.batchStride + i

def enter (L : Layout) (w : Fin n) (t0 : ℕ) (s : Process n) : Option (Process n) :=
  let me := s.worker w
  if me.inSubmit = false ∧ me.todo = [] ∧ me.procStart ≤ t0 ∧ 0 < t0 ∧ t0 < 2 ^ 64 then
    some (s.set w { me with
      inSubmit := true
      t0 := t0
      todo := if me.procStart ≠ 0 then [L.utimeSlot (t0 - me.procStart)] else [] })
  else none

/-- At most as many completions come back as were asked for. -/
def leave (L : Layout) (w : Fin n) (ret t1 : ℕ) (s : Process n) : Option (Process n) :=
  let me := s.worker w
  if me.inSubmit = true ∧ me.todo = [] ∧ me.t0 ≤ t1 ∧ t1 < 2 ^ 64 ∧ ret < L.batchHistLen then
    some (s.set w { me with
      inSubmit := false
      procStart := t1
      todo := [L.ktimeSlot (t1 - me.t0), 0, L.batchSlot ret] })
  else none

def load (L : Layout) (w : Fin n) (s : Process n) : Option (Process n × Output) :=
  let me := s.worker w
  match me.todo, me.loaded with
  | i :: _, none =>
      let v := s.shared.stats (place L w i)
      some (s.set w { me with loaded := some v }, .loaded (place L w i) v)
  | _, _ => none

def store (L : Layout) (w : Fin n) (s : Process n) : Option (Process n × Output) :=
  let me := s.worker w
  match me.todo, me.loaded with
  | i :: todo, some v =>
      some ((s.set w { me with todo := todo, loaded := none }).share { s.shared with
        stats := Function.update s.shared.stats (place L w i) (v + 1) }, .stored (place L w i))
  | _, _ => none

/-- The head of the loop over the workers. -/
def row (n : ℕ) (L : Layout) (w : ℕ) : Monitor := if w < n then .print w L.columns else .poll

def goTo (pc : Monitor) (s : Process n) : Process n := s.share { s.shared with monitor := pc }

def monitor (L : Layout) (s : Process n) : Option (Process n × Output) :=
  let sh := s.shared
  match sh.monitor with
  | .sleep => some (s.goTo (row n L 0), .silent)
  | .print w (i :: cols) =>
      let k := w * L.batchStride + i
      some (s.goTo (.print w cols), .printed k (sh.stats k) (sh.prev k))
  | .print w [] => some (s.goTo (.copy w 0), .silent)
  | .copy w i =>
      if i < L.batchStride then
        let k := w * L.batchStride + i
        some (s.share { sh with
          prev := Function.update sh.prev k (sh.stats k)
          monitor := .copy w (i + 1) }, .copied k)
      else some (s.goTo (row n L (w + 1)), .silent)
  | .zero k =>
      if k < n * L.batchStride then
        some (s.share { sh with
          stats := Function.update sh.stats k 0
          monitor := .zero (k + 1) }, .zeroed k)
      else some (s.goTo (.zeroPrev 0), .silent)
  | .zeroPrev k =>
      if k < n * L.batchStride then
        some (s.share { sh with
          prev := Function.update sh.prev k 0
          monitor := .zeroPrev (k + 1) }, .zeroedPrev k)
      else some (s.goTo .sleep, .silent)
  | .poll => none

/-- `batch_ctl_poll` with what it reads from the control file, up to the `memset`s. The
loads of a dump are one step. -/
def poll (L : Layout) (cmd : Option Command) (s : Process n) : Option (Process n × Output) :=
  let sh := s.shared
  match sh.monitor, cmd with
  | .poll, none => some (s.goTo .sleep, .silent)
  | .poll, some cmd =>
      if cmd = sh.last then some (s.goTo .sleep, .silent)
      else
        match cmd with
        | .reset _ => some (s.share { sh with monitor := .zero 0, last := cmd }, .silent)
        | .dump path =>
            some (s.share { sh with monitor := .sleep, last := cmd },
              .dumped path (dump n sh.stats L))
        | .other _ => some (s.share { sh with monitor := .sleep, last := cmd }, .silent)
  | _, _ => none

def step (L : Layout) (s : Process n) : Input n → Option (Process n × Output)
  | .enter w t0 => (s.enter L w t0).map (·, .silent)
  | .leave w ret t1 => (s.leave L w ret t1).map (·, .silent)
  | .load w => s.load L w
  | .store w => s.store L w
  | .monitor => s.monitor L
  | .poll cmd => s.poll L cmd

end Process

def Worker.start : Worker := ⟨false, 0, 0, [], none⟩

/-- `last` is empty, and all counters are zero. -/
def process (n batchSz : ℕ) : Machine (Process n) (Input n) Output where
  Init s := (∀ w, s.worker w = .start) ∧
    s.shared = ⟨fun _ => 0, fun _ => 0, .sleep, .other ""⟩
  step := Process.step (upcallInit batchSz)

end Upcalls.BatchStats
