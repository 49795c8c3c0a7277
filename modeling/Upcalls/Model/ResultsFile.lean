import Upcalls.Model.LogSizing
import Upcalls.Model.TscLogger

/-! # The results of the client program

The end of `main` of `event-tester/tcp_client.c`, behind the statistics of the server, as long
as no call fails: it looks for logs that have overflowed and prints all logs into `out_file`.
-/

namespace Upcalls.ClientMain

open Library TscLogger

def outHeader : List UInt8 := ascii "WORKER\tCLIENT\tTRANSACTION ID\tEVENT ID\tTSC\tTSC_KHZ\n"

variable {m : ℕ}

/-- The threads that an error message is about. -/
def overflowed (logs : Fin m → TscLog) : List (Fin m) :=
  (List.finRange m).filter fun i => (logs i).overflow

/-- What is printed, with at most `fuel` entries of each log; `raw` are the blocks that hold
the logs. -/
def outFile (tscKhz : UInt64) (raw : Fin m → ℕ) (fuel : ℕ) (logs : Fin m → TscLog) :
    Option (List UInt8) :=
  ((List.finRange m).mapM fun i => dump tscKhz (logs i) fuel (entriesOf (alignLog (raw i)))).map
    fun texts => outHeader ++ texts.flatten

/-- The log of a worker of the process `pid` after its calls: `stamps i` is what the clock and
the number of the CPU were for the `i`-th one. -/
def memLog (pid : UInt32) (raw maxEvents : ℕ) (stamps : ℕ → UInt64 × UInt32)
    (es : List TcpClient.Entry) : TscLog :=
  (es.mapIdx fun i e => e.call (stamps i).1 (stamps i).2).foldl (fun log c => call c log)
    (workerLog pid raw (TscLogEntrySize 4 * maxEvents))

end Upcalls.ClientMain
