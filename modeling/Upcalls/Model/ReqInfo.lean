import Upcalls.Model.IoUring

/-! # The request records of the io_uring server

`add_accept_request`, `add_read_request` and `add_write_request` take a `struct req_info` from
`info_cache` for each request, and its address comes back with the completion. What a worker
does with a completion is decided by that record.
-/

namespace Upcalls.IoUring

open Library TcpEcho

/-- `fail` completes the `i`-th request that the kernel has with an error. -/
inductive Attempt (n : ℕ)
  | act (a : Input n)
  | fail (w : Fin n) (i : ℕ) (res : ℤ)

namespace Server

variable {n : ℕ}

/-- A request that fails has no effect but its completion. -/
def fail (w : Fin n) (i : ℕ) (res : ℤ) (s : Server n) : Option (Server n × Output n) := do
  let info ← (s.worker w).kernel[i]?
  if res < 0 then
    some (s.set w { s.worker w with
      kernel := (s.worker w).kernel.eraseIdx i
      cq := (s.worker w).cq ++ [⟨info, res⟩] }, .silent)
  else none

def attempt (msgSize : ℕ) (s : Server n) : Attempt n → Option (Server n × Output n)
  | .act a => s.step msgSize a
  | .fail w i res => s.fail w i res

/-- How often block `b` is in a message cache. -/
def msgFree (s : Server n) (b : ℕ) : ℕ := s.tally fun me => me.msgCache.count b

end Server

/-! ## Records -/

/-- The `info_cache` of a worker, and the user data of its requests and completions in the
order in which `Worker` has these. -/
structure UserData where
  infoCache : List ℕ
  sq : List ℕ
  kernel : List ℕ
  cq : List ℕ

/-- The records by block, and the allocator. -/
structure Infos (n : ℕ) where
  info : ℕ → Req n
  next : ℕ

abbrev Records (n : ℕ) := Team n UserData (Infos n)

namespace Records

variable {n : ℕ}

/-- A record from the cache is filled in and goes with the request. -/
def addRequest (w : Fin n) (r : Records n) (req : Req n) : Records n :=
  let me := r.worker w
  let info := cacheAlloc me.infoCache r.shared.next
  (r.set w { me with infoCache := info.cache, sq := me.sq ++ [info.entry] }).share
    { info := Function.update r.shared.info info.entry req, next := info.next }

def addRequests (w : Fin n) (reqs : List (Req n)) (r : Records n) : Records n :=
  reqs.foldl (addRequest w) r

def complete (w : Fin n) (i : ℕ) (r : Records n) : Option (Records n) :=
  let me := r.worker w
  me.kernel[i]?.map fun p =>
    r.set w { me with kernel := me.kernel.eraseIdx i, cq := me.cq ++ [p] }

def submit (w : Fin n) (r : Records n) : Records n :=
  let me := r.worker w
  r.set w { me with sq := [], kernel := me.kernel ++ me.sq }

/-- `cache_free` for the record of the completion that is handled. -/
def free (w : Fin n) (r : Records n) : Records n :=
  let me := r.worker w
  match me.cq with
  | [] => r
  | p :: cq => r.set w { me with infoCache := cacheFree me.infoCache p, cq := cq }

/-- How often block `b` is in an `info_cache`, or the user data of a request or completion. -/
def places (r : Records n) (b : ℕ) : ℕ :=
  r.tally fun me => (me.infoCache ++ me.sq ++ me.kernel ++ me.cq).count b

end Records

/-! ## Steps -/

structure Uring (n : ℕ) where
  server : Server n
  records : Records n

namespace Uring

variable {n : ℕ}

/-- The completion that is handled is what its record says. -/
def fetch (w : Fin n) (u : Uring n) : Server n :=
  let me := u.server.worker w
  match me.cq, (u.records.worker w).cq with
  | c :: cq, p :: _ => u.server.set w { me with cq := ⟨u.records.shared.info p, c.res⟩ :: cq }
  | _, _ => u.server

/-- A step of a worker. The record of a completion is freed before the completion is handled,
and each request that is queued gets one. -/
def work (msgSize : ℕ) (a : Input n) (u : Uring n) : Option (Uring n × Output n) :=
  let w := a.worker
  let me := u.server.worker w
  match me.pc, me.cq with
  | .loop, [] => (u.server.step msgSize a).map fun x => (⟨x.1, u.records.submit w⟩, x.2)
  | .loop, _ :: _ => ((u.fetch w).step msgSize a).map fun x =>
      (⟨x.1, (u.records.free w).addRequests w ((x.1.worker w).sq.drop me.sq.length)⟩, x.2)
  | _, _ => (u.server.step msgSize a).map fun x =>
      (⟨x.1, u.records.addRequests w ((x.1.worker w).sq.drop me.sq.length)⟩, x.2)

def step (msgSize : ℕ) (u : Uring n) (a : Attempt n) : Option (Uring n × Output n) :=
  match a with
  | .fail w i _ | .act (.complete w i _) => do
      let x ← u.server.attempt msgSize a
      let records ← u.records.complete w i
      return (⟨x.1, records⟩, x.2)
  | .act a => u.work msgSize a

/-- The state behind the setup of `worker_func`, which has queued an accept and a read of the
eventfd. -/
structure Start (u : Uring n) : Prop where
  server : u.server.Start
  buffers : ∀ b, u.server.msgFree b ≤ 1
  freshBuffers : ∀ b, u.server.shared.next ≤ b → u.server.msgFree b = 0
  sq : ∀ w, (u.records.worker w).sq.map u.records.shared.info = [.accept, .evRead]
  kernel : ∀ w, (u.records.worker w).kernel = []
  cq : ∀ w, (u.records.worker w).cq = []
  records : ∀ b, u.records.places b ≤ 1
  freshRecords : ∀ b, u.records.shared.next ≤ b → u.records.places b = 0

end Uring

def uringServer (n msgSize : ℕ) : Machine (Uring n) (Attempt n) (Output n) where
  Init := Uring.Start
  step := Uring.step msgSize

end Upcalls.IoUring
