import Upcalls.Library.Numerals
import Upcalls.Library.Strings
import Upcalls.Library.Words
import Upcalls.Model.BatchStats

/-! # The files of the batch monitor

`batch_monitor_fn` and `batch_ctl_poll` of `libupcall/upcall.c` with the bytes that they read
and write: the control file, the CSV file and the dumps. The counters and the steps of the
monitor are those of the model of the statistics.
-/

namespace Upcalls.BatchFiles

open Library BatchStats

/-! ## Calls of the C library -/

/-- `strncmp(s, prefix, strlen(prefix)) == 0`. -/
def strncmp (s pre : List UInt8) : Bool := pre.isPrefixOf s

def isSpace (b : UInt8) : Bool := b = 32 ∨ 9 ≤ b.toNat ∧ b.toNat ≤ 13

/-- `sscanf` with `"%199s"`. -/
def scanPath (s : List UInt8) : Option (List UInt8) :=
  let word := ((s.dropWhile isSpace).takeWhile fun b => !isSpace b).take 199
  if word = [] then none else some word

/-! ## The CSV file -/

def csvHeader (L : Layout) : List UInt8 :=
  let names (letter : String) (len : ℕ) : List UInt8 :=
    (List.range len).flatMap fun b => ascii letter ++ decimal b
  ascii "time_ms,worker,submits" ++ names ",h" L.batchHistLen ++ names ",t" L.timeHistLen ++
    names ",k" L.timeHistLen ++ ascii "\n"

/-- What the next step of the monitor prints; slot 0 is the first one of a row. -/
def printed (L : Layout) (tms : ℤ) (sh : Shared) : List UInt8 :=
  match sh.monitor with
  | .print w (i :: _) =>
      let k := w * L.batchStride + i
      (if i = 0 then decimalInt tms ++ ascii "," ++ decimal w else []) ++
        ascii "," ++ decimal (sub64 (sh.stats k) (sh.prev k))
  | .print _ [] => ascii "\n"
  | _ => []

/-! ## The dump -/

/-- One of the loops, behind its title. -/
def printSection (title : String) (n : ℕ) (stats : ℕ → ℕ) (L : Layout) (len : ℕ)
    (slot label : ℕ → ℕ) : List UInt8 :=
  ascii title ++ ascii "\n" ++ (List.range len).flatMap fun b =>
    let c := total n stats L (slot b)
    if c ≠ 0 then decimal (label b) ++ ascii " " ++ decimal c ++ ascii "\n" else []

def dumpFile (n : ℕ) (stats : ℕ → ℕ) (L : Layout) : List UInt8 :=
  printSection "=utime upper_ns count" n stats L L.timeHistLen (1 + L.batchHistLen + ·)
      (fun b => 2 ^ (b + 1)) ++
    printSection "=ktime upper_ns count" n stats L L.timeHistLen
      (1 + L.batchHistLen + L.timeHistLen + ·) (fun b => 2 ^ (b + 1)) ++
    printSection "=batch size count" n stats L L.batchHistLen (1 + ·) (fun b => b)

/-! ## The monitor -/

/-- The size of `cmd` and `last`. -/
def cmdSize : ℕ := 256

/-- The counters and the monitor, with `tms` of the rows under way, the array `last`, what is
printed of the CSV file, and the dumps with their paths. The commands of `process` are not
used. -/
structure Files (n : ℕ) where
  process : Process n
  tms : ℤ
  last : List UInt8
  csv : List UInt8
  dumps : List (List UInt8 × List UInt8)

/-- `tms` counts when the monitor wakes up. `file` is what there is to read of the control file,
`junk` is what `cmd` holds behind it, and `opened` says whether `fopen` opens the dump. -/
inductive Input (n : ℕ)
  | worker (a : BatchStats.Input n)
  | monitor (tms : ℤ)
  | poll (file : Option (List UInt8)) (junk : List UInt8) (opened : Bool)

/-- `text` is what a poll has taken for a command. -/
inductive Output
  | stats (out : BatchStats.Output)
  | woken (tms : ℤ)
  | unchanged
  | reset (text : List UInt8)
  | dumped (text path : List UInt8) (sections : List Section)
  | other (text : List UInt8)

def ofWorker {n : ℕ} : BatchStats.Input n → Bool
  | .monitor | .poll _ => false
  | _ => true

namespace Files

variable {n : ℕ}

def goTo (pc : Monitor) (s : Files n) : Files n := { s with process := s.process.goTo pc }

def worker (L : Layout) (a : BatchStats.Input n) (s : Files n) : Option (Files n × Output) :=
  if ofWorker a then
    (s.process.step L a).map fun (process, out) => ({ s with process := process }, .stats out)
  else none

def batchMonitor (L : Layout) (tms : ℤ) (s : Files n) : Option (Files n × Output) :=
  (s.process.monitor L).map fun (process, out) =>
    match s.process.shared.monitor with
    | .sleep => ({ s with process := process, tms := tms }, .woken tms)
    | _ => ({ s with process := process, csv := s.csv ++ printed L s.tms s.process.shared },
        .stats out)

def batchCtlPoll (L : Layout) (file : Option (List UInt8)) (junk : List UInt8) (opened : Bool)
    (s : Files n) : Option (Files n × Output) :=
  let sh := s.process.shared
  match sh.monitor, file with
  | .poll, none => some (s.goTo .sleep, .unchanged)
  | .poll, some bytes =>
      let cmd := bytes.take (cmdSize - 1) ++ 0 :: junk
      let text := cString cmd
      if text = cString s.last then some (s.goTo .sleep, .unchanged)
      else
        let s := { s with last := cmd.take cmdSize }
        if strncmp cmd (ascii "reset") then some (s.goTo (.zero 0), .reset text)
        else if strncmp cmd (ascii "dump ") then
          match scanPath (cString (cmd.drop 5)) with
          | none => some (s.goTo .sleep, .other text)
          | some path =>
              if opened then
                some ({ s with dumps := s.dumps ++ [(path, dumpFile n sh.stats L)] }.goTo .sleep,
                  .dumped text path (dump n sh.stats L))
              else some (s.goTo .sleep, .other text)
        else some (s.goTo .sleep, .other text)
  | _, _ => none

def step (L : Layout) (s : Files n) : Input n → Option (Files n × Output)
  | .worker a => s.worker L a
  | .monitor tms => s.batchMonitor L tms
  | .poll file junk opened => s.batchCtlPoll L file junk opened

end Files

/-- `last` is cleared, and the CSV file has its header. -/
def files (n batchSz : ℕ) : Machine (Files n) (Input n) Output where
  Init s := (process n batchSz).Init s.process ∧ s.last = List.replicate cmdSize 0 ∧
    s.csv = csvHeader (upcallInit batchSz) ∧ s.dumps = []
  step := Files.step (upcallInit batchSz)

end Upcalls.BatchFiles
