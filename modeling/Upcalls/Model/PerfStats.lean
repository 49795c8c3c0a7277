import Mathlib.Data.Int.Notation
import Mathlib.Data.List.FinRange
import Mathlib.Logic.Function.Basic
import Upcalls.Library.Framing
import Upcalls.Library.Machine
import Upcalls.Library.Numerals
import Upcalls.Model.Session

/-! # The statistics connection

`write_perf_stats` and `on_stats` of `tcp_echo.c`, and the part of `main` of `tcp_client.c`
that writes what it receives into the stats file, as long as no call fails. A write or read
may stop short anywhere, except the write of the length.
-/

namespace Upcalls.PerfStats

open Library

abbrev TOTAL_EVENTS : ℕ := 5

/-! ## `write_perf_stats` -/

/-- What is read of a worker thread; `stats` are the values and ids of its events. -/
structure Thread where
  index : Int32
  perfIds : Fin TOTAL_EVENTS → Int32
  stats : List (UInt64 × UInt64)
  acceptCount : UInt64
  connCount : UInt64

abbrev PerfValues : Type := Fin TOTAL_EVENTS → UInt64

/-- An id is compared with an `int`. -/
def perfValue (perfIds : Fin TOTAL_EVENTS → Int32) (values : PerfValues)
    (event : UInt64 × UInt64) : PerfValues :=
  match (List.finRange TOTAL_EVENTS).find? fun j =>
      (event.2.toNat : ℤ) = (perfIds j).toInt % 2 ^ 64 with
  | some j => Function.update values j event.1
  | none => values

/-- `snprintf`, without the terminator. -/
def snprintf (size : ℕ) (text : List UInt8) : List UInt8 := text.take (size - 1)

def perfText (t : Thread) (values : PerfValues) : List UInt8 :=
  decimalInt t.index.toInt ++
    (List.ofFn values ++ [t.acceptCount, t.connCount]).flatMap
      (fun v => ascii "\t" ++ decimal v.toNat) ++
    ascii "\n"

def perfLine (t : Thread) (values : PerfValues) : List UInt8 :=
  snprintf (23 + 21 * (TOTAL_EVENTS + 2)) (perfText t values)

/-- `perf_values` is cleared once, ahead of all threads. -/
def perfLines : PerfValues → List Thread → List (List UInt8)
  | _, [] => []
  | values, t :: threads =>
      let values := t.stats.foldl (perfValue t.perfIds) values
      perfLine t values :: perfLines values threads

def writePerfStats (threads : List Thread) : List (List UInt8) := perfLines (fun _ => 0) threads

/-! ## `on_stats` -/

def header : List UInt8 :=
  ascii "CPU\tCYCLES\tINSTRUCTIONS\tCACHE_READS\tCACHE_MISSES\tICACHE_MISSES\tACCEPT_COUNT\tCONNECTION_COUNT\n"

/-- The header and the lines, which are written one by one. -/
def texts (threads : List Thread) : List (List UInt8) := header :: writePerfStats threads

inductive OnStats
  | size
  | text (text : List UInt8) (cursor : ℕ) (rest : List (List UInt8))
  | shutdown

/-! ## `main` -/

/-- `size` is ahead of the read of `perf_sz`. The variable `index` is an `int`: `overflow`
stands for what follows when it leaves the range. -/
inductive Main
  | size
  | read (perfSz : ℕ) (perfBuf : List UInt8) (index : ℕ)
  | write (perfSz : ℕ) (perfBuf : List UInt8) (index : ℕ)
  | closed
  | overflow

/-- Both sides, with the bytes that are under way and the stats file. -/
structure Stats where
  onStats : OnStats
  stream : List UInt8
  main : Main
  file : List UInt8

inductive Input
  | sendSize
  | send (k : ℕ)
  | readSize (k : ℕ)
  | read (k : ℕ)
  | write (k : ℕ)
  deriving DecidableEq, Repr

namespace Stats

def sendSize (threads : List Thread) (s : Stats) : Option Stats :=
  match s.onStats with
  | .size =>
      let size := ((texts threads).map List.length).sum
      some { s with
        onStats := .text header 0 (writePerfStats threads)
        stream := s.stream ++ littleEndian 8 size }
  | _ => none

def send (k : ℕ) (s : Stats) : Option Stats :=
  match s.onStats with
  | .text text cursor rest =>
      if 1 ≤ k ∧ cursor + k ≤ text.length then
        let next : OnStats :=
          if cursor + k < text.length then .text text (cursor + k) rest
          else
            match rest with
            | [] => .shutdown
            | text :: rest => .text text 0 rest
        some { s with onStats := next, stream := s.stream ++ (text.drop cursor).take k }
      else none
  | _ => none

/-- `perf_sz` is zero at first, and `k` of its bytes are overwritten. -/
def readSize (k : ℕ) (s : Stats) : Option Stats :=
  match s.main with
  | .size =>
      if 1 ≤ k ∧ k ≤ 8 ∧ k ≤ s.stream.length then
        let perfSz := ofLittleEndian (s.stream.take k)
        some { s with
          stream := s.stream.drop k
          main := .read perfSz (List.replicate perfSz 0) 0 }
      else none
  | _ => none

/-- The end of the stream. -/
def ended (s : Stats) : Bool :=
  match s.onStats with
  | .shutdown => s.stream.isEmpty
  | _ => false

/-- `read` returns 0 at the end of the stream, and when it is asked for 0 bytes. -/
def read (k : ℕ) (s : Stats) : Option Stats :=
  match s.main with
  | .read perfSz perfBuf index =>
      if k ≤ perfSz - index ∧ k ≤ s.stream.length ∧ k ≤ Session.MAX_RW_COUNT ∧
          (k = 0 → perfSz - index = 0 ∨ s.ended) then
        let perfBuf := perfBuf.take index ++ s.stream.take k ++ perfBuf.drop (index + k)
        let next : Main :=
          if 2 ^ 31 ≤ index + k then .overflow
          else if 0 < k ∧ index + k < perfSz then .read perfSz perfBuf (index + k)
          else .write perfSz perfBuf 0
        some { s with stream := s.stream.drop k, main := next }
      else none
  | _ => none

def write (k : ℕ) (s : Stats) : Option Stats :=
  match s.main with
  | .write perfSz perfBuf index =>
      if k ≤ perfSz - index ∧ k ≤ Session.MAX_RW_COUNT ∧ (k = 0 → perfSz - index = 0) then
        let next : Main :=
          if 2 ^ 31 ≤ index + k then .overflow
          else if 0 < k ∧ index + k < perfSz then .write perfSz perfBuf (index + k)
          else .closed
        some { s with main := next, file := s.file ++ (perfBuf.drop index).take k }
      else none
  | _ => none

def step (threads : List Thread) (s : Stats) : Input → Option Stats
  | .sendSize => s.sendSize threads
  | .send k => s.send k
  | .readSize k => s.readSize k
  | .read k => s.read k
  | .write k => s.write k

end Stats

def statsConnection (threads : List Thread) : Machine Stats Input Unit where
  Init s := s = ⟨.size, [], .size, []⟩
  step s a := (s.step threads a).map (·, ())

end Upcalls.PerfStats
