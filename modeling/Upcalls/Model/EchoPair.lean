import Upcalls.Model.TcpClient
import Upcalls.Model.UpcallEcho

/-! # A client and its upcall server

One client of the load generator together with the handlers of `event-tester/upcall.c`
over reliable byte streams, as long as no call fails. A stream loses nothing and keeps the
order, and hands over any part of what is in it.
-/

namespace Upcalls.EchoPair

open Library LibUpcall TcpEcho UpcallEcho

/-- A connection: the server's record of it and the bytes of its message buffer, the
requests that the handlers have made for it, the completions with what came into the pool
buffer, and the bytes under way in both directions. -/
structure Link where
  conn : Connection
  buffer : List UInt8
  requests : List (Request Handler)
  completions : List (UpEvent Handler × List UInt8)
  toServer : List UInt8
  toClient : List UInt8
  deriving DecidableEq

structure Pair where
  client : TcpClient.Worker 1
  link : Option Link

/-- `connect` opens a connection, and `fd`, `block` and `buffer` are what the server gives
it. `kernel` answers the `i`-th request for `k` bytes. -/
inductive Input
  | client (a : TcpClient.Input)
  | connect (a : TcpClient.Opened) (fd : ℤ) (block : ℕ) (buffer : List UInt8)
  | kernel (i k : ℕ) (buf : Ptr) (len : ℕ)
  | dispatch

/-- The bytes that the client has sent and received in a step, and whether that completes
a transaction. -/
structure Output where
  sent : List UInt8
  received : List UInt8
  completed : Bool
  deriving DecidableEq, Repr

def silent : Output := ⟨[], [], false⟩

/-! ## The server -/

namespace Link

/-- A connection behind `my_accept`. -/
def accepted (fd : ℤ) (block : ℕ) (buffer : List UInt8) : Link :=
  ⟨{ newConn fd with state := .waiting, buffer := block }, buffer,
    [.read fd (some .myRead)], [], [], []⟩

/-- The effects of a handler, with what is in the pool buffer. -/
def perform (data : List UInt8) : List Effect → Link → Link
  | [], l => l
  | .memcpy dst _ len :: rest, l =>
      perform data rest { l with
        buffer := l.buffer.take dst.off ++ data.take len ++ l.buffer.drop (dst.off + len) }
  | .returnBuffer _ _ :: rest, l => perform data rest l
  | .addRead fd :: rest, l =>
      perform data rest { l with requests := l.requests ++ [.read fd (some .myRead)] }
  | .addWrite fd buf len :: rest, l =>
      perform data rest { l with requests := l.requests ++ [.write fd buf len (some .myWrite)] }
  | .onClose :: rest, l =>
      let state := if 0 ≤ l.conn.fd then .closing else l.conn.state
      perform data rest { l with conn := { l.conn with fd := -1, state := state } }

def dispatch (msgSize : ℕ) (l : Link) : Option Link :=
  match l.completions with
  | [] => none
  | (e, data) :: rest =>
      let l := { l with completions := rest }
      match e.workFn with
      | some .myRead =>
          let (conn, effects) := myRead msgSize l.conn e
          some (perform data effects { l with conn := conn })
      | some .myWrite =>
          let (conn, effects) := myWrite msgSize l.conn e
          some (perform data effects { l with conn := conn })
      | _ => none

/-- A read takes bytes that have come in, and a write sends bytes of the message buffer. -/
def kernel (i k : ℕ) (buf : Ptr) (len : ℕ) (l : Link) : Option Link :=
  match l.requests[i]? with
  | some (.read fd workFn) =>
      if 1 ≤ k ∧ k ≤ l.toServer.length then
        some { l with
          requests := l.requests.eraseIdx i
          completions :=
            l.completions ++ [(completion (.read fd workFn) k buf len, l.toServer.take k)]
          toServer := l.toServer.drop k }
      else none
  | some (.write fd src size workFn) =>
      if 1 ≤ k ∧ k ≤ size then
        some { l with
          requests := l.requests.eraseIdx i
          completions := l.completions ++ [(completion (.write fd src size workFn) k buf len, [])]
          toClient := l.toClient ++ (l.buffer.drop src.off).take k }
      else none
  | _ => none

end Link

/-! ## The client -/

namespace Pair

/-- What a call of the client does to its connection, when it does not fail. -/
def transfer (a : TcpClient.Input) (s : Pair) : Option (Option Link × Output) :=
  match a with
  | .run | .wait _ | .timeout | .connected .ok | .add true | .recv .again =>
      some (s.link, silent)
  | .send (some k) =>
      match s.client.pc, s.link with
      | .call j _ cursor, some l =>
          let bytes := ((s.client.clients j).buf.drop cursor).take k
          some (some { l with toServer := l.toServer ++ bytes }, ⟨bytes, [], false⟩)
      | _, _ => none
  | .recv (.data bytes) =>
      match s.link with
      | some l =>
          if bytes ≠ [] ∧ bytes <+: l.toClient then
            some (some { l with toClient := l.toClient.drop bytes.length }, ⟨[], bytes, false⟩)
          else none
      | none => none
  | _ => none

def completes (out : TcpClient.Output 1) : Bool :=
  match out with
  | .completed _ _ => true
  | _ => false

def closes (out : TcpClient.Output 1) : Bool :=
  match out with
  | .completed _ closed => closed
  | _ => false

/-- A transaction may end the batch, which closes the connection. -/
def call (o : TcpClient.Options) (a : TcpClient.Input) (s : Pair) : Option (Pair × Output) := do
  let (client, out) ← s.client.step o a
  let (link, seen) ← s.transfer a
  return (⟨client, if closes out then none else link⟩, { seen with completed := completes out })

def connect (o : TcpClient.Options) (a : TcpClient.Opened) (fd : ℤ) (block : ℕ)
    (buffer : List UInt8) (s : Pair) : Option (Pair × Output) := do
  let (client, _) ← s.client.step o (.connect a)
  match a with
  | .ready _ | .inProgress _ true =>
      if 0 ≤ fd ∧ buffer.length = o.msgSize then
        return (⟨client, some (.accepted fd block buffer)⟩, silent)
      else none
  | _ => none

def step (o : TcpClient.Options) (s : Pair) : Input → Option (Pair × Output)
  | .client a => s.call o a
  | .connect a fd block buffer => s.connect o a fd block buffer
  | .kernel i k buf len => do
      let l ← s.link
      let l ← l.kernel i k buf len
      return ({ s with link := some l }, silent)
  | .dispatch => do
      let l ← s.link
      let l ← l.dispatch o.msgSize
      return ({ s with link := some l }, silent)

end Pair

def echoPair (o : TcpClient.Options) : Machine Pair Input Output where
  Init s := s.client.Start o ∧ s.link = none
  step := Pair.step o

end Upcalls.EchoPair
