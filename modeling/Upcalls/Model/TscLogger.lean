import Upcalls.Library.Bytes
import Upcalls.Library.Machine
import Upcalls.Library.Numerals
import Upcalls.Library.Team

/-! # The time stamp logger

`event-tester/tsc_logger.h`, with the allocation of a log in `worker_func` of `tcp_client.c`
and the loop of its `main` that prints the logs. Pointers are addresses of bytes. `fin` is
the field `end`.
-/

namespace Upcalls.TscLogger

open Library

def L1_CACHE_BYTES : ℕ := 64

/-! ## Entries

`struct TscLogEntry` has `cpu` at 0, `tid` at 4, `tsc` at 8 and `values` from 16 on.
-/

def TscLogEntrySize (numvals : ℕ) : ℕ := 16 + numvals * 8

/-- What a call logs: its values, and what `now_with_procid` has read for it. -/
structure Record where
  tsc : UInt64
  cpu : UInt32
  values : List UInt64
  deriving DecidableEq, Repr

def writeNti64 (p : ℕ) (v : UInt64) (mem : ByteMem) : ByteMem := mem.storeWord 8 p v.toNat

def writeNti32 (p : ℕ) (v : UInt32) (mem : ByteMem) : ByteMem := mem.storeWord 4 p v.toNat

/-- `pid` is `current->pid`. -/
def tsclogHdr (pid : UInt32) (e : ℕ) (now : UInt64) (cpuid : UInt32) (mem : ByteMem) : ByteMem :=
  writeNti32 (e + 4) pid (writeNti32 e cpuid (writeNti64 (e + 8) now mem))

def tscWriteval (e i : ℕ) (v : UInt64) (mem : ByteMem) : ByteMem :=
  writeNti64 (e + 16 + i * 8) v mem

/-- The values of a call, from index `i` on. -/
def tscWritevals (e : ℕ) : ℕ → List UInt64 → ByteMem → ByteMem
  | _, [], mem => mem
  | i, v :: values, mem => tscWritevals e (i + 1) values (tscWriteval e i v mem)

def writeEntry (pid : UInt32) (e : ℕ) (r : Record) (mem : ByteMem) : ByteMem :=
  tscWritevals e 0 r.values (tsclogHdr pid e r.tsc r.cpu mem)

/-! ## Calls of a thread that has the log for itself -/

/-- `hdr.info`, the memory, and `my_pid.pid` of the process, which `main` has set. -/
structure TscLog where
  cur : ℕ
  fin : ℕ
  overflow : Bool
  mem : ByteMem
  pid : UInt32

/-- What `tsclog_getentry` asks for: the parameter is a `uint32_t`. -/
def bytesFor (numvals : ℕ) : ℕ := TscLogEntrySize numvals % 2 ^ 32

/-- The pointer behind what is asked for. -/
def fresh (bytes old : ℕ) : ℕ := (old + bytes) % 2 ^ 64

def tscBufferReserve (bytes : ℕ) (log : TscLog) : Option ℕ × TscLog :=
  if log.fin < fresh bytes log.cur then (none, log)
  else (some log.cur, { log with cur := fresh bytes log.cur })

def tsclogGetentry (numvals : ℕ) (log : TscLog) : Option ℕ × TscLog :=
  match tscBufferReserve (bytesFor numvals) log with
  | (none, log) => (none, { log with overflow := true })
  | (some e, log) => (some e, log)

/-- `TSCLOG_INFO` and the values. -/
def tsclog (r : Record) (log : TscLog) : TscLog :=
  match tsclogGetentry r.values.length log with
  | (none, log) => log
  | (some e, log) => { log with mem := writeEntry log.pid e r log.mem }

def tsclog0 (now : UInt64) (cpuid : UInt32) : TscLog → TscLog := tsclog ⟨now, cpuid, []⟩

def tsclog1 (now : UInt64) (cpuid : UInt32) (v0 : UInt64) : TscLog → TscLog :=
  tsclog ⟨now, cpuid, [v0]⟩

def tsclog2 (now : UInt64) (cpuid : UInt32) (v0 v1 : UInt64) : TscLog → TscLog :=
  tsclog ⟨now, cpuid, [v0, v1]⟩

def tsclog3 (now : UInt64) (cpuid : UInt32) (v0 v1 v2 : UInt64) : TscLog → TscLog :=
  tsclog ⟨now, cpuid, [v0, v1, v2]⟩

def tsclog4 (now : UInt64) (cpuid : UInt32) (v0 v1 v2 v3 : UInt64) : TscLog → TscLog :=
  tsclog ⟨now, cpuid, [v0, v1, v2, v3]⟩

/-! ## Threads that share a log

Each load, test and swap of `tsc_buffer_reserve` is a step. Nobody reads an entry while it
is written, so that its stores are one step.
-/

/-- `reserve` is at the label `retry`, and `full` is ahead of the store to `overflow`. -/
inductive Pc
  | idle
  | reserve (r : Record)
  | test (r : Record) (old : ℕ)
  | swap (r : Record) (old : ℕ)
  | full
  | write (r : Record) (e : ℕ)
  deriving DecidableEq, Repr

abbrev Threads (n : ℕ) := Team n Pc TscLog

inductive Input (n : ℕ)
  | tsclog (w : Fin n) (r : Record)
  | run (w : Fin n)

inductive Output (n : ℕ)
  | silent
  | reserved (w : Fin n) (e bytes : ℕ)
  | refused (w : Fin n)
  deriving DecidableEq, Repr

namespace Threads

variable {n : ℕ}

def run (w : Fin n) (s : Threads n) : Option (Threads n × Output n) :=
  let log := s.shared
  match s.worker w with
  | .idle => none
  | .reserve r => some (s.set w (.test r log.cur), .silent)
  | .test r old =>
      if log.fin < fresh (bytesFor r.values.length) old then some (s.set w .full, .refused w)
      else some (s.set w (.swap r old), .silent)
  | .swap r old =>
      let bytes := bytesFor r.values.length
      if log.cur = old then
        some ((s.set w (.write r old)).share { log with cur := fresh bytes old },
          .reserved w old bytes)
      else some (s.set w (.reserve r), .silent)
  | .full => some ((s.set w .idle).share { log with overflow := true }, .silent)
  | .write r e =>
      some ((s.set w .idle).share { log with mem := writeEntry log.pid e r log.mem }, .silent)

def step (s : Threads n) : Input n → Option (Threads n × Output n)
  | .tsclog w r => if s.worker w = .idle then some (s.set w (.reserve r), .silent) else none
  | .run w => s.run w

/-- The sum that the limit test uses is an address. -/
def noWrap (s : Threads n) : Input n → Bool
  | .run w =>
      match s.worker w with
      | .test r old => old + bytesFor r.values.length < 2 ^ 64
      | _ => true
  | .tsclog _ _ => true

end Threads

/-- At first the log has no entries, and its capacity is that of `[entries, fin)`. -/
def threads (n entries fin : ℕ) : Machine (Threads n) (Input n) (Output n) where
  Init s := (∀ w, s.worker w = .idle) ∧ s.shared.cur = entries ∧ s.shared.fin = fin ∧
    s.shared.overflow = false ∧ entries ≤ fin
  step := Threads.step

/-! ## The log of a worker of the load generator -/

/-- `sizeof(struct TscLog)`. -/
def hdrSize : ℕ := 64

/-- The size that `worker_func` allocates. -/
def blockSize (entrySize : ℕ) : ℕ := (hdrSize + entrySize + L1_CACHE_BYTES) % 2 ^ 64

/-- The address of the log in the block at `raw`: the next multiple of a cache line. -/
def alignLog (raw : ℕ) : ℕ :=
  if raw &&& (L1_CACHE_BYTES - 1) ≠ 0 then
    (raw + L1_CACHE_BYTES) % 2 ^ 64 &&& (2 ^ 64 - 1 - (L1_CACHE_BYTES - 1))
  else raw

/-- The address of `entries[0]`. -/
def entriesOf (log : ℕ) : ℕ := log + hdrSize

/-- The log that `worker_func` sets up in a cleared block. -/
def workerLog (pid : UInt32) (raw entrySize : ℕ) : TscLog where
  cur := entriesOf (alignLog raw)
  fin := (entriesOf (alignLog raw) + entrySize) % 2 ^ 64
  overflow := false
  mem _ := 0
  pid := pid

/-- A call of `tsclog_4`. -/
structure Call where
  tsc : UInt64
  cpu : UInt32
  v0 : UInt64
  v1 : UInt64
  v2 : UInt64
  v3 : UInt64
  deriving DecidableEq, Repr

def call (c : Call) : TscLog → TscLog := tsclog4 c.tsc c.cpu c.v0 c.v1 c.v2 c.v3

/-! ## The dump -/

/-- A field of the entry at `cursor`. -/
def word (mem : ByteMem) (cursor off : ℕ) : UInt64 := .ofNat (mem.loadWord 8 (cursor + off))

/-- `dprintf` with `"%lu\t%lu\t%lu\t%lu\t%lu\t%lu\n"`. -/
def line (fields : List UInt64) (tscKhz : UInt64) : List UInt8 :=
  fields.flatMap (fun v => decimal v.toNat ++ ascii "\t") ++ decimal tscKhz.toNat ++ ascii "\n"

def dumpEntry (tscKhz : UInt64) (mem : ByteMem) (cursor : ℕ) : List UInt8 :=
  line [word mem cursor 16, word mem cursor 24, word mem cursor 32, word mem cursor 40,
    word mem cursor 8] tscKhz

/-- The `while` loop over one log, for at most `fuel` turns: `none` when it goes on. -/
def dump (tscKhz : UInt64) (log : TscLog) : ℕ → ℕ → Option (List UInt8)
  | fuel, cursor =>
      if cursor = log.cur then some []
      else
        match fuel with
        | 0 => none
        | fuel + 1 =>
            (dump tscKhz log fuel ((cursor + TscLogEntrySize 4) % 2 ^ 64)).map
              (dumpEntry tscKhz log.mem cursor ++ ·)

end Upcalls.TscLogger
