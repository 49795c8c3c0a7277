import Upcalls.Library.Numerals
import Upcalls.Library.Printing
import Upcalls.Library.Words
import Upcalls.Model.TcpEcho

/-! # The error report

`on_error` of `tcp_echo.c`, behind its `accept`: it prints the connections that are open
into a buffer, and writes the length of the report and the report.
-/

namespace Upcalls.ErrorReport

open Library TcpEcho

def ERR_BUF_SZ : ℕ := 8192

/-- What is read of a connection. -/
structure Conn where
  port : UInt64
  state : ConnState
  cursor : UInt64
  eventCount : UInt64

def errStr : ConnState → List UInt8
  | .connect => ascii "CONNECTING"
  | .waiting => ascii "WAITING"
  | .reading => ascii "READING"
  | .writing => ascii "WRITING"
  | .closing => ascii "CLOSING"

def header : List UInt8 := ascii "FD\tPORT\tSTATE\tCURSOR\tEVENT_COUNT\n"

def line (fd : ℕ) (conn : Conn) : List UInt8 :=
  decimal fd ++ ascii "\t" ++ decimal conn.port.toNat ++ ascii "\t" ++ errStr conn.state ++
    ascii "\t" ++ decimal conn.cursor.toNat ++ ascii "\t" ++ decimal conn.eventCount.toNat ++
    ascii "\n"

/-- The local variables of `on_error`. `given` are the offset and the size that each
`snprintf` was given. -/
structure Report where
  output : List UInt8
  cursor : ℕ
  dangling : Bool
  given : List (ℕ × ℕ)

namespace Report

def start : Report := ⟨List.replicate ERR_BUF_SZ 0, 0, false, []⟩

def printHeader (r : Report) : Report where
  output := Library.snprintf 0 ERR_BUF_SZ header r.output
  cursor := header.length
  dangling := true
  given := r.given ++ [(0, ERR_BUF_SZ)]

/-- `ERR_BUF_SZ - cursor` is a `size_t`. -/
def print (text : List UInt8) (r : Report) : Report :=
  let size := sub64 ERR_BUF_SZ r.cursor
  { r with
    output := Library.snprintf r.cursor size text r.output
    cursor := r.cursor + text.length
    given := r.given ++ [(r.cursor, size)] }

/-- The loop over the descriptors. -/
def loop (conns : ℕ → Option Conn) (r : Report) : List ℕ → Report
  | [] => r
  | fd :: fds =>
      match conns fd with
      | none => r.loop conns fds
      | some conn =>
          let r := if r.dangling then r else r.printHeader
          let r := r.print (line fd conn)
          if ERR_BUF_SZ - 32 < r.cursor then r else r.loop conns fds

end Report

def report (maxFd : ℕ) (conns : ℕ → Option Conn) : Report :=
  Report.start.loop conns (List.range' 3 (maxFd - 3))

/-- What a `write` of `k` bytes takes from the buffer; there is nothing beyond its end. -/
def taken (output : List UInt8) (cursor k : ℕ) : List (Option UInt8) :=
  (List.range' cursor k).map fun i => output[i]?

/-- The loop of `write`, given what the calls return up to the end of the loop. -/
def writeLoop (output : List UInt8) (size : ℕ) : ℕ → List ℕ → Option (List (Option UInt8))
  | _, [] => none
  | cursor, ret :: rets =>
      if 1 ≤ ret ∧ cursor + ret ≤ size then
        if cursor + ret < size then
          (writeLoop output size (cursor + ret) rets).map (taken output cursor ret ++ ·)
        else if rets = [] then some (taken output cursor ret)
        else none
      else none

end Upcalls.ErrorReport
