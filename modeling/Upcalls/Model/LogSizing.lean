import Upcalls.Model.TcpClient
import Upcalls.Model.TscLogger

/-! # The options of the load generator and the size of its logs

What `main` of `event-tester/tcp_client.c` reads from its command line and computes from it.
A value that `strtol` has parsed is a `long`.
-/

namespace Upcalls.TcpClient

open Library
open TscLogger (hdrSize TscLogEntrySize L1_CACHE_BYTES)

/-! ## Options -/

structure Settings where
  port : Int32
  stats : Int32
  msgSize : UInt64
  clientsPerThread : UInt64
  batchSize : UInt64
  transactionCount : UInt64
  nrThreads : UInt64
  outFile : String
  statFile : String
  deriving DecidableEq, Repr

def Settings.default : Settings where
  port := 1072
  stats := 1073
  msgSize := 32
  clientsPerThread := 1
  batchSize := 1
  transactionCount := 1000
  nrThreads := 0
  outFile := "timers.tsv"
  statFile := "perf-stats.tsv"

/-- An option as `getopt_long` reports it, with its parsed argument. -/
inductive Opt
  | help
  | port (v : Int64)
  | stats (v : Int64)
  | msgSize (v : Int64)
  | clients (v : Int64)
  | batchSize (v : Int64)
  | txnCount (v : Int64)
  | threadCount (v : Int64)
  | output (name : String)
  | perfStats (name : String)
  | unknown

/-- The body of the loop: `none` when `main` returns. -/
def Settings.set (s : Settings) : Opt → Option Settings
  | .help | .unknown => none
  | .port v => some { s with port := v.toInt32 }
  | .stats v => some { s with stats := v.toInt32 }
  | .msgSize v => some { s with msgSize := v.toUInt64 }
  | .clients v => some { s with clientsPerThread := v.toUInt64 }
  | .batchSize v => some { s with batchSize := v.toUInt64 }
  | .txnCount v => some { s with transactionCount := v.toUInt64 }
  | .threadCount v => some { s with nrThreads := v.toUInt64 }
  | .output name => some { s with outFile := name }
  | .perfStats name => some { s with statFile := name }

/-- The settings of a command line with the given options and other arguments, when the
client goes on with them. -/
def readOptions (nrCpus : UInt64) (opts : List Opt) (args : List String) : Option Settings := do
  let s ← opts.foldlM Settings.set Settings.default
  if s.port ≤ 0 ∨ 65536 < s.port then none
  else if s.stats ≤ 0 ∨ 65536 < s.stats then none
  else if args.length < 2 then none
  else if s.nrThreads = 0 ∨ nrCpus < s.nrThreads then some { s with nrThreads := nrCpus }
  else some s

/-! ## Log sizing -/

/-- The sizes in the order they are computed: `ios`, `connects`, `perClient` and `perThread`
are what `max_events` adds up from. `logSize` is what `worker_func` allocates. -/
structure Sizing (α : Type) where
  minIo : α
  ios : α
  connects : α
  perClient : α
  perThread : α
  maxEvents : α
  entrySize : α
  logSize : α
  deriving DecidableEq, Repr

def Sizing.map {α β : Type} (f : α → β) (z : Sizing α) : Sizing β where
  minIo := f z.minIo
  ios := f z.ios
  connects := f z.connects
  perClient := f z.perClient
  perThread := f z.perThread
  maxEvents := f z.maxEvents
  entrySize := f z.entrySize
  logSize := f z.logSize

/-- The computation in `size_t`: `none` stands for the division by zero. -/
def logSizing (s : Settings) : Option (Sizing UInt64) :=
  if s.batchSize = 0 then none
  else
    let minIo := 1 + s.msgSize / 1380
    let ios := 4 * minIo * s.transactionCount
    let connects := 2 * (1 + s.transactionCount / s.batchSize)
    let perClient := ios + connects
    let perThread := perClient * s.clientsPerThread
    let maxEvents := perThread * 8
    let entrySize := .ofNat (TscLogEntrySize 4) * maxEvents
    let logSize := .ofNat hdrSize + entrySize + .ofNat L1_CACHE_BYTES
    some ⟨minIo, ios, connects, perClient, perThread, maxEvents, entrySize, logSize⟩

/-- What the formulas mean, with numbers of any size. -/
def intendedSizing (s : Settings) : Sizing ℕ :=
  let minIo := 1 + s.msgSize.toNat / 1380
  let ios := 4 * minIo * s.transactionCount.toNat
  let connects := 2 * (1 + s.transactionCount.toNat / s.batchSize.toNat)
  let perClient := ios + connects
  let perThread := perClient * s.clientsPerThread.toNat
  let maxEvents := perThread * 8
  let entrySize := TscLogEntrySize 4 * maxEvents
  let logSize := hdrSize + entrySize + L1_CACHE_BYTES
  ⟨minIo, ios, connects, perClient, perThread, maxEvents, entrySize, logSize⟩

/-- No division by zero, and no sum and no product that wraps. -/
def SizedRight (s : Settings) : Prop :=
  (logSizing s).map (Sizing.map UInt64.toNat) = some (intendedSizing s)

/-! ## A worker with its log -/

/-- `CONNECT_START` to `RECV_DONE`. -/
def LogEvent.code : LogEvent → UInt64
  | .connectStart => 0
  | .connectDone => 1
  | .sendStart => 2
  | .sendDone => 3
  | .recvStart => 4
  | .recvDone => 5

/-- The call of `tsclog_4` for an entry. -/
def Entry.call (tsc : UInt64) (cpu : UInt32) (e : Entry) : TscLogger.Call :=
  ⟨tsc, cpu, .ofNat e.index, .ofNat e.client, .ofNat e.txn, e.event.code⟩

/-- The options of a worker. -/
def Settings.options (s : Settings) : Options where
  msgSize := s.msgSize.toNat
  batchSize := s.batchSize.toNat
  transactionCount := s.transactionCount.toNat
  batchSize_lt := s.batchSize.toNat_lt
  transactionCount_lt := s.transactionCount.toNat_lt

/-- The parameter `j` of `do_state_transition` is a `uint32_t`. -/
def index32 {n : ℕ} (j : Fin n) : Fin n :=
  ⟨j % 2 ^ 32, Nat.lt_of_le_of_lt (Nat.mod_le j (2 ^ 32)) j.isLt⟩

/-- A worker ahead of its first loop, with room for some number of entries in its log. The
loop takes the clients by their 32-bit index. -/
structure Worker.Started {n : ℕ} (o : Options) (room : ℕ) (s : Worker n) : Prop where
  clients : ∀ j, ∃ buf, buf.length = o.msgSize ∧ s.clients j =
    ⟨0, buf, 0, .init, o.msgSize, o.transactionCount, o.batchSize⟩
  interest : ∀ fd, s.interest fd = none
  log : s.log = ⟨[], room, false⟩
  dying : s.dying = false
  complete : s.complete = 0
  todo : s.todo = (List.finRange n).map index32
  pc : s.pc = .loop

def loggingWorker (n room : ℕ) (o : Options) : Machine (Worker n) Input (Output n) where
  Init := Worker.Started o room
  step := Worker.step o

/-- The client that the step dispatches in `SENT`. -/
def sentDispatch {n : ℕ} (s : Worker n) : Input → List (Fin n)
  | .run =>
      match s.pc, s.todo with
      | .loop, j :: _ => if (s.clients j).state = .sent then [j] else []
      | _, _ => []
  | _ => []

end Upcalls.TcpClient
