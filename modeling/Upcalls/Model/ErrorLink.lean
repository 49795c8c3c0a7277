import Mathlib.Data.List.FinRange
import Upcalls.Library.Framing
import Upcalls.Library.Strings
import Upcalls.Model.ClientMain
import Upcalls.Model.ErrorReport

/-! # The error report at the client

The connection of `do_error_report` of `tcp_client.c` to `on_error`, as long as no call fails,
and the list of its own clients that it prints behind it. A write or a read may stop short
anywhere. `on_error` does not look at how much of the length it has written.
-/

namespace Upcalls.ErrorLink

open Library TcpClient ErrorReport

/-! ## The connection -/

/-- `on_error` behind its printing. -/
inductive OnError
  | size
  | text (cursor : ℕ)
  | closed

/-- `do_error_report` up to `local`. -/
inductive Reader
  | size
  | text (size : ℕ) (buf : List UInt8) (cursor : ℕ)
  | ended
  deriving DecidableEq

/-- Both sides, with the bytes that are under way and what is printed. -/
structure Link where
  onError : OnError
  stream : List UInt8
  reader : Reader
  printed : List UInt8

/-- `found` says whether `calloc` finds memory for the length. -/
inductive Input
  | sendSize (k : ℕ)
  | send (k : ℕ)
  | readSize (k : ℕ) (found : Bool)
  | read (k : ℕ)
  deriving DecidableEq, Repr

namespace Link

/-- The report goes with its NUL. -/
def sendSize (r : Report) (k : ℕ) (s : Link) : Option Link :=
  match s.onError with
  | .size =>
      if k ≤ 8 then
        some { s with
          onError := .text 0
          stream := s.stream ++ (littleEndian 8 (r.cursor + 1)).take k }
      else none
  | _ => none

/-- There is nothing to send behind the end of `output`. -/
def send (r : Report) (k : ℕ) (s : Link) : Option Link :=
  match s.onError with
  | .text cursor =>
      if 1 ≤ k ∧ cursor + k ≤ r.cursor + 1 ∧ cursor + k ≤ r.output.length then
        some { s with
          onError := if cursor + k < r.cursor + 1 then .text (cursor + k) else .closed
          stream := s.stream ++ (r.output.drop cursor).take k }
      else none
  | _ => none

/-- The end of the stream. -/
def ended (s : Link) : Bool :=
  match s.onError with
  | .closed => s.stream.isEmpty
  | _ => false

/-- A `read` of less than the whole length ends it. Without memory the first `read` of the
text fails. -/
def readSize (k : ℕ) (found : Bool) (s : Link) : Option Link :=
  match s.reader with
  | .size =>
      if k ≤ 8 ∧ k ≤ s.stream.length ∧ (k = 0 → s.ended) then
        let size := ofLittleEndian (s.stream.take k)
        some { s with
          stream := s.stream.drop k
          reader :=
            if k < 8 ∨ found = false then .ended
            else .text size (List.replicate size 0) 0 }
      else none
  | _ => none

/-- `read` returns 0 at the end of the stream, and when it is asked for 0 bytes. -/
def read (k : ℕ) (s : Link) : Option Link :=
  match s.reader with
  | .text size buf cursor =>
      if k ≤ size - cursor ∧ k ≤ s.stream.length ∧ (k = 0 → size - cursor = 0 ∨ s.ended) then
        let buf := buf.take cursor ++ s.stream.take k ++ buf.drop (cursor + k)
        let s := { s with stream := s.stream.drop k }
        some (
          if k = 0 then { s with reader := .ended }
          else if cursor + k < size then { s with reader := .text size buf (cursor + k) }
          else { s with reader := .ended, printed := cString buf ++ ascii "\n\n" })
      else none
  | _ => none

def step (r : Report) (s : Link) : Input → Option Link
  | .sendSize k => s.sendSize r k
  | .send k => s.send r k
  | .readSize k found => s.readSize k found
  | .read k => s.read k

end Link

/-- When no connection is open, `on_error` closes at once. -/
def link (r : Report) : Machine Link Input Unit where
  Init s := s = ⟨if r.dangling then .size else .closed, [], .size, []⟩
  step s a := (s.step r a).map (·, ())

/-! ## The clients -/

def localHeader : List UInt8 :=
  ascii "THREAD\tCLIENT\tPORT\tSTATE\tCURSOR\tTXN_REMAIN\tBATCH_REMAIN\n"

def stateText : State → List UInt8
  | .connecting => ascii "CONNECTING\t"
  | .new => ascii "NEW\t"
  | .ready => ascii "READY\t"
  | .sent => ascii "SENT\t"
  | .init | .done => []

def localLine (i j : ℕ) (port : UInt16) (c : Client) : List UInt8 :=
  decimal i ++ ascii "\t" ++ decimal j ++ ascii "\t" ++ decimal port.toNat ++ ascii "\t" ++
    stateText c.state ++ decimal c.cursor ++ ascii "\t" ++ decimal c.txnRemaining ++
    ascii "\t" ++ decimal c.batchRemaining ++ ascii "\n"

/-- The clients that the loops pass over. -/
def skips (freed : Bool) (c : Client) : Bool :=
  freed ∨ c.state = .init ∨ c.state = .done ∨ c.txnRemaining = 0

/-- The list, where `port w fd` is what `getsockname` finds. -/
def localReport {m n : ℕ} (s : ClientMain.Program m n) (port : Fin m → ℤ → UInt16) :
    List UInt8 :=
  localHeader ++ (List.finRange m).flatMap fun i => (List.finRange n).flatMap fun j =>
    let c := (s.workers i).clients j
    if skips (s.freed i) c then [] else localLine i j (port i c.sock) c

end Upcalls.ErrorLink
