import Upcalls.Model.UpcallEcho

/-! # What one step of the echo server does

The requests of a worker are counted by the handler they will run and the descriptor
they are for, whether they are queued, outstanding or completed.
-/

namespace Upcalls.UpcallEcho

open Library LibUpcall TcpEcho

/-! ## Requests and completions by handler -/

def requestFn : Request Handler → Option Handler
  | .read _ workFn | .write _ _ _ workFn | .accept _ workFn | .close _ workFn => workFn
  | .vec _ => none

def requestFd : Request Handler → ℤ
  | .read fd _ | .write fd _ _ _ | .accept fd _ | .close fd _ => fd
  | .vec _ => 0

def requestFor (h : Handler) (fd : ℤ) (r : Request Handler) : Bool :=
  requestFn r = some h ∧ requestFd r = fd

def eventFor (h : Handler) (fd : ℤ) (e : UpEvent Handler) : Bool :=
  e.workFn = some h ∧ e.fd = fd

/-- A completion is for the handler and the descriptor of its request. -/
theorem eventFor_completion (h : Handler) (fd : ℤ) (r : Request Handler) (result : ℤ)
    (buf : Ptr) (len : ℕ) :
    eventFor h fd (completion r result buf len) = requestFor h fd r := by
  cases r <;> rfl

/-- The server makes no other requests. -/
def Plain : Request Handler → Prop
  | .read _ workFn => workFn = some .myRead
  | .write _ _ _ workFn => workFn = some .myWrite
  | .accept _ workFn => workFn = some .myAccept
  | .vec _ => True
  | .close _ _ => False

/-- Only an accept request runs `my_accept`. -/
theorem Plain.accept {r : Request Handler} (h : Plain r) (hfn : requestFn r = some .myAccept) :
    ∃ fd, r = .accept fd (some .myAccept) := by
  cases r <;> simp_all [Plain, requestFn]

/-! ## Counting -/

namespace Worker

/-- The requests for `h` on `fd` that are queued, outstanding or not yet dispatched. -/
def jobs (h : Handler) (fd : ℤ) (me : Worker) : ℕ :=
  me.queue.pending.countP (requestFor h fd) + me.outstanding.countP (requestFor h fd) +
    me.queue.undispatched.countP (eventFor h fd)

/-- Reads and writes. -/
def ops (fd : ℤ) (me : Worker) : ℕ := me.jobs .myRead fd + me.jobs .myWrite fd

/-- Accept requests, on whatever descriptor. -/
def accepts (me : Worker) : ℕ :=
  me.queue.pending.countP (requestFn · = some .myAccept) +
    me.outstanding.countP (requestFn · = some .myAccept) +
    me.queue.undispatched.countP (·.workFn = some .myAccept)

/-- Completed accepts of `fd` that `my_accept` has not seen yet. -/
def opening (fd : ℤ) (me : Worker) : ℕ :=
  me.queue.undispatched.countP fun e => e.workFn = some .myAccept ∧ e.result = fd ∧ 0 ≤ fd

/-- How often block `b` is in the caches. -/
def cached (b : ℕ) (me : Worker) : ℕ := me.msgCache.count b + me.connCache.count b

/-! ### Queueing a request -/

@[simp] theorem jobs_request (h : Handler) (fd : ℤ) (me : Worker) (r : Request Handler) :
    (me.request r).jobs h fd = me.jobs h fd + if requestFor h fd r then 1 else 0 := by
  simp only [jobs, request, List.countP_append, List.countP_singleton]
  omega

@[simp] theorem accepts_request (me : Worker) (r : Request Handler) :
    (me.request r).accepts =
      me.accepts + if requestFn r = some .myAccept then 1 else 0 := by
  simp only [accepts, request, List.countP_append, List.countP_singleton, decide_eq_true_eq]
  omega

/-! ### Taking the next completion -/

/-- The worker after it took the first completion off the list. -/
def pop (me : Worker) : Worker :=
  { me with queue := { me.queue with undispatched := me.queue.undispatched.tail } }

theorem jobs_pop {me : Worker} {e : UpEvent Handler} {rest : List (UpEvent Handler)}
    (he : me.queue.undispatched = e :: rest) (h : Handler) (fd : ℤ) :
    me.jobs h fd = me.pop.jobs h fd + if eventFor h fd e then 1 else 0 := by
  simp only [jobs, pop, he, List.countP_cons, List.tail_cons]
  omega

theorem accepts_pop {me : Worker} {e : UpEvent Handler} {rest : List (UpEvent Handler)}
    (he : me.queue.undispatched = e :: rest) :
    me.accepts = me.pop.accepts + if e.workFn = some .myAccept then 1 else 0 := by
  simp only [accepts, pop, he, List.countP_cons, List.tail_cons, decide_eq_true_eq]
  omega

theorem opening_pop {me : Worker} {e : UpEvent Handler} {rest : List (UpEvent Handler)}
    (he : me.queue.undispatched = e :: rest) (fd : ℤ) :
    me.opening fd = me.pop.opening fd +
      if e.workFn = some .myAccept ∧ e.result = fd ∧ 0 ≤ fd then 1 else 0 := by
  simp only [opening, pop, he, List.countP_cons, List.tail_cons, decide_eq_true_eq]

/-! ### Completing a request -/

/-- The worker after the kernel answered its `i`-th outstanding request with `e`. -/
def arrive (i : ℕ) (e : UpEvent Handler) (me : Worker) : Worker :=
  { me with
    queue := { me.queue with
      undispatched := me.queue.undispatched ++ if e.workFn.isSome then [e] else [] }
    outstanding := me.outstanding.eraseIdx i }

theorem countP_arrived (q : UpEvent Handler → Bool) (e : UpEvent Handler)
    (hq : q e = true → e.workFn.isSome = true) :
    (if e.workFn.isSome then [e] else []).countP q = if q e then 1 else 0 := by
  cases hfn : e.workFn.isSome with
  | true => simp [List.countP_singleton]
  | false =>
      have : q e = false := by
        by_contra hne
        rw [hq (by simpa using hne)] at hfn
        cases hfn
      simp [this]

theorem jobs_arrive {me : Worker} {i : ℕ} {r : Request Handler}
    (hr : me.outstanding[i]? = some r) (h : Handler) (fd : ℤ) (result : ℤ) (buf : Ptr)
    (len : ℕ) : (me.arrive i (completion r result buf len)).jobs h fd = me.jobs h fd := by
  have herase := countP_eraseIdx (requestFor h fd) hr
  have harrived := countP_arrived (eventFor h fd) (completion r result buf len) (by
    intro hfor
    simp only [eventFor, decide_eq_true_eq] at hfor
    simp [hfor.1])
  rw [eventFor_completion] at harrived
  simp only [jobs, arrive, List.countP_append, harrived]
  omega

theorem completion_workFn (r : Request Handler) (result : ℤ) (buf : Ptr) (len : ℕ) :
    (completion r result buf len).workFn = requestFn r := by
  cases r <;> rfl

theorem accepts_arrive {me : Worker} {i : ℕ} {r : Request Handler}
    (hr : me.outstanding[i]? = some r) (result : ℤ) (buf : Ptr) (len : ℕ) :
    (me.arrive i (completion r result buf len)).accepts = me.accepts := by
  have herase := countP_eraseIdx (requestFn · = some .myAccept) hr
  have harrived := countP_arrived (·.workFn = some .myAccept) (completion r result buf len) (by
    intro hfor
    simp only [decide_eq_true_eq] at hfor
    simp [hfor])
  have hfn := completion_workFn r result buf len
  simp only [accepts, arrive, List.countP_append, harrived]
  simp only [hfn]
  omega

theorem opening_arrive (fd : ℤ) (me : Worker) (i : ℕ) (e : UpEvent Handler) :
    (me.arrive i e).opening fd = me.opening fd +
      if e.workFn = some .myAccept ∧ e.result = fd ∧ 0 ≤ fd then 1 else 0 := by
  have harrived := countP_arrived
    (fun e => e.workFn = some .myAccept ∧ e.result = fd ∧ 0 ≤ fd) e (by
      intro hfor
      simp only [decide_eq_true_eq] at hfor
      simp [hfor.1])
  simp only [opening, arrive, List.countP_append, harrived, decide_eq_true_eq]

theorem undispatched_arrive {me : Worker} {i : ℕ} {e e' : UpEvent Handler}
    (h : e' ∈ (me.arrive i e).queue.undispatched) :
    e' ∈ me.queue.undispatched ∨ e'.workFn.isSome = true := by
  rcases List.mem_append.mp h with h | h
  · exact .inl h
  · split at h
    · rename_i hfn
      rw [List.mem_singleton.mp h]
      exact .inr hfn
    · simp at h

@[simp] theorem cached_arrive (b : ℕ) (me : Worker) (i : ℕ) (e : UpEvent Handler) :
    (me.arrive i e).cached b = me.cached b := rfl

/-! ### Submitting the queue -/

/-- The worker inside `upcall_submit`. -/
def enter (me : Worker) : Worker :=
  { me with
    queue := ⟨[], 0, []⟩
    inKernel := true
    outstanding := me.outstanding ++ me.queue.batch }

/-- The trailing `UP_VEC` runs no handler. -/
theorem countP_batch {q : Request Handler → Bool} (hq : ∀ len, q (.vec len) = false)
    (queue : ListQueue Handler) : queue.batch.countP q = queue.pending.countP q := by
  rw [ListQueue.batch, List.countP_append]
  split
  · simp [hq]
  · simp

theorem jobs_enter {me : Worker} (hnil : me.queue.undispatched = []) (h : Handler) (fd : ℤ) :
    me.enter.jobs h fd = me.jobs h fd := by
  have hbatch := countP_batch (q := requestFor h fd)
    (by intro len; simp [requestFor, requestFn]) me.queue
  simp only [jobs, enter, hnil, List.countP_append, List.countP_nil, hbatch]
  omega

theorem accepts_enter {me : Worker} (hnil : me.queue.undispatched = []) :
    me.enter.accepts = me.accepts := by
  have hbatch := countP_batch (q := fun r => requestFn r = some .myAccept)
    (by intro len; simp [requestFn]) me.queue
  simp only [accepts, enter, hnil, List.countP_append, List.countP_nil, hbatch]
  omega

theorem opening_enter {me : Worker} (hnil : me.queue.undispatched = []) (fd : ℤ) :
    me.enter.opening fd = me.opening fd := by
  simp [opening, enter, hnil]

@[simp] theorem cached_enter (b : ℕ) (me : Worker) : me.enter.cached b = me.cached b := rfl

/-! ### All the requests of a worker -/

/-- The requests that wait for the kernel or are with it. -/
def requests (me : Worker) : List (Request Handler) := me.queue.pending ++ me.outstanding

theorem requests_enter (me : Worker) {r : Request Handler} (h : r ∈ me.enter.requests) :
    r ∈ me.requests ∨ ∃ len, r = .vec len := by
  simp only [requests, enter, ListQueue.batch, List.nil_append, List.mem_append] at h ⊢
  rcases h with h | h | h
  · exact .inl (.inr h)
  · exact .inl (.inl h)
  · split at h
    · exact .inr ⟨_, List.mem_singleton.mp h⟩
    · simp at h

theorem requests_arrive {me : Worker} {i : ℕ} {e : UpEvent Handler} {r : Request Handler}
    (h : r ∈ (me.arrive i e).requests) : r ∈ me.requests := by
  simp only [requests, arrive, List.mem_append] at h ⊢
  rcases h with h | h
  · exact .inl h
  · exact .inr (List.mem_of_mem_eraseIdx h)

theorem requests_request {me : Worker} {q r : Request Handler} :
    r ∈ (me.request q).requests ↔ r ∈ me.requests ∨ r = q := by
  simp only [requests, request, List.mem_append, List.mem_singleton]
  tauto

/-- A queued or outstanding request counts. -/
theorem jobs_pos {me : Worker} {h : Handler} {fd : ℤ} {r : Request Handler}
    (hr : r ∈ me.requests) (hfor : requestFor h fd r = true) : 0 < me.jobs h fd := by
  rw [jobs]
  rcases List.mem_append.mp hr with hr | hr
  · have := List.countP_pos_iff.mpr ⟨r, hr, hfor⟩
    omega
  · have := List.countP_pos_iff.mpr ⟨r, hr, hfor⟩
    omega

theorem jobs_pos_of_event {me : Worker} {h : Handler} {fd : ℤ} {e : UpEvent Handler}
    (he : e ∈ me.queue.undispatched) (hfor : eventFor h fd e = true) : 0 < me.jobs h fd := by
  have := List.countP_pos_iff.mpr ⟨e, he, hfor⟩
  rw [jobs]
  omega

end Worker

/-! ## The kernel's steps -/

namespace Server

variable {n msgSize : ℕ}

theorem submit_spec {s s' : Server n} {w : Fin n} {o : Output}
    (h : s.step msgSize (.submit w) = some (s', o)) :
    (s.worker w).queue.undispatched = [] ∧ s' = s.set w (s.worker w).enter ∧ o = .silent := by
  simp only [step, submit] at h
  split at h
  · rename_i hnil
    simp only [Option.map_some, Option.some.injEq, Prod.mk.injEq] at h
    obtain ⟨rfl, rfl⟩ := h
    exact ⟨hnil, rfl, rfl⟩
  · simp at h

theorem complete_spec {s s' : Server n} {w : Fin n} {i : ℕ} {result : ℤ} {buf : Ptr} {len : ℕ}
    {o : Output} (h : s.step msgSize (.complete w i result buf len) = some (s', o)) :
    ∃ r sh, (s.worker w).outstanding[i]? = some r ∧
      openFor (completion r result buf len) s.shared = some sh ∧
      s' = (s.set w ((s.worker w).arrive i (completion r result buf len))).share sh ∧
      o = .silent := by
  simp only [step, complete] at h
  split at h
  · obtain ⟨t, ht, hpair⟩ := Option.map_eq_some_iff.mp h
    obtain ⟨rfl, rfl⟩ := Prod.mk.inj hpair
    obtain ⟨r, hr, ht⟩ := Option.bind_eq_some_iff.mp ht
    obtain ⟨sh, hsh, ht⟩ := Option.bind_eq_some_iff.mp ht
    exact ⟨r, sh, hr, hsh, (Option.some.inj ht).symm, rfl⟩
  · simp at h

theorem receive_spec {s s' : Server n} {w : Fin n} {o : Output}
    (h : s.step msgSize (.receive w) = some (s', o)) :
    s' = s.set w { s.worker w with inKernel := false } ∧ o = .silent := by
  simp only [step, receive] at h
  split at h
  · simp only [Option.map_some, Option.some.injEq, Prod.mk.injEq] at h
    obtain ⟨rfl, rfl⟩ := h
    exact ⟨rfl, rfl⟩
  · simp at h

/-- Nothing is opened twice. -/
theorem openFor_spec {e : UpEvent Handler} {sh sh' : Shared} (h : openFor e sh = some sh') :
    (e.type = .upAccept ∧ 0 ≤ e.result ∧ sh.opened e.result = false ∧
      sh' = { sh with opened := Function.update sh.opened e.result true }) ∨
    (¬ (e.type = .upAccept ∧ 0 ≤ e.result) ∧ sh' = sh) := by
  rw [openFor] at h
  split at h
  · rename_i hguard
    split at h
    · simp at h
    · rename_i hclosed
      exact .inl ⟨hguard.1, hguard.2, by simpa using hclosed, (Option.some.inj h).symm⟩
  · rename_i hguard
    exact .inr ⟨hguard, (Option.some.inj h).symm⟩

end Server

/-! ## The exits of the handlers -/

/-- The handler of a read or write completion. -/
def onConn (msgSize : ℕ) (h : Handler) (conn : Connection) (e : UpEvent Handler) :
    Connection × List Effect :=
  match h with
  | .myRead => myRead msgSize conn e
  | .myWrite => myWrite msgSize conn e
  | .myAccept => (conn, [])

section Exits

variable (msgSize : ℕ) {h : Handler} {conn : Connection} {e : UpEvent Handler}

/-- A completion of nothing closes the connection. -/
theorem onConn_closed (hh : h ≠ .myAccept) (hfd : 0 ≤ conn.fd) (hres : e.result = 0) :
    onConn msgSize h conn e = (conn, [.onClose]) := by
  have hpos : ¬ conn.fd < 0 := by omega
  cases h with
  | myAccept => exact absurd rfl hh
  | myRead => simp [onConn, myRead, hpos, hres]
  | myWrite => simp [onConn, myWrite, hres]

/-- After an error the handler returns without a request. -/
theorem onConn_failed (hh : h ≠ .myAccept) (hfd : 0 ≤ conn.fd) (hres : e.result < 0) :
    ∃ c, onConn msgSize h conn e = (c, []) ∧ c.fd = conn.fd ∧ c.buffer = conn.buffer ∧
      c.cursor = conn.cursor := by
  have hpos : ¬ conn.fd < 0 := by omega
  have hne : ¬ e.result = 0 := by omega
  cases h with
  | myAccept => exact absurd rfl hh
  | myRead =>
      refine ⟨{ conn with eventCount := conn.eventCount + 1 }, ?_, rfl, rfl, rfl⟩
      simp only [onConn, myRead, if_neg hpos, if_neg hne, if_pos hres]
  | myWrite => exact ⟨conn, by simp [onConn, myWrite, hne, hres], rfl, rfl, rfl⟩

/-- A request that goes on with connection `conn`. -/
def Continues (conn : Connection) (r : Request Handler) : Prop :=
  r = .read conn.fd (some .myRead) ∨
    ∃ buf len, r = .write conn.fd buf len (some .myWrite) ∧ buf.block = conn.buffer

/-- Where progress on a connection leads: the record it leaves and the request it makes. -/
inductive Proceeds (conn : Connection) (e : UpEvent Handler) :
    Handler → Connection → Request Handler → Prop
  | readMore {c} : conn.cursor + e.result.toNat < msgSize →
      c.cursor = conn.cursor + e.result.toNat →
      Proceeds conn e .myRead c (.read conn.fd (some .myRead))
  | readAll {c} : msgSize ≤ conn.cursor + e.result.toNat → c.cursor = 0 →
      Proceeds conn e .myRead c (.write conn.fd ⟨conn.buffer, 0⟩ msgSize (some .myWrite))
  | wroteMore {c} : conn.cursor + e.result.toNat < msgSize →
      c.cursor = conn.cursor + e.result.toNat →
      Proceeds conn e .myWrite c (.write conn.fd ⟨conn.buffer, conn.cursor + e.result.toNat⟩
        (msgSize - (conn.cursor + e.result.toNat)) (some .myWrite))
  | wroteAll {c} : msgSize ≤ conn.cursor + e.result.toNat → c.cursor = 0 →
      Proceeds conn e .myWrite c (.read conn.fd (some .myRead))

theorem Proceeds.continues {c : Connection} {r : Request Handler}
    (hr : Proceeds msgSize conn e h c r) : Continues conn r := by
  cases hr with
  | readMore => exact .inl rfl
  | readAll => exact .inr ⟨_, _, rfl, rfl⟩
  | wroteMore => exact .inr ⟨_, _, rfl, rfl⟩
  | wroteAll => exact .inl rfl

/-- After any progress the handler makes exactly one request. Only `my_read` copies, and
it copies the result of the completion to the cursor. -/
theorem onConn_rearmed (hh : h ≠ .myAccept) (hfd : 0 ≤ conn.fd) (hres : 0 < e.result) :
    ∃ c effects k r, onConn msgSize h conn e = (c, effects) ∧ c.fd = conn.fd ∧
      c.buffer = conn.buffer ∧ Proceeds msgSize conn e h c r ∧
      (∀ p me sh, perform p effects me sh =
        (Worker.request r { me with queue := { me.queue with
          returned := me.queue.returned + k } }, sh)) ∧
      ∀ dst src len, Effect.memcpy dst src len ∈ effects ↔
        h = .myRead ∧ dst = position conn ∧ src = e.buf ∧ len = e.result.toNat := by
  have hpos : ¬ conn.fd < 0 := by omega
  have hne : ¬ e.result = 0 := by omega
  have hneg : ¬ e.result < 0 := by omega
  cases h with
  | myAccept => exact absurd rfl hh
  | myRead =>
      simp only [onConn, myRead, if_neg hpos, if_neg hne, if_neg hneg]
      split
      · rename_i hlt
        exact ⟨_, _, 1, _, rfl, rfl, rfl, .readMore hlt rfl, fun _ _ _ => rfl,
          by simp [position]⟩
      · rename_i hge
        exact ⟨_, _, 1, _, rfl, rfl, rfl, .readAll (Nat.le_of_not_lt hge) rfl,
          fun _ _ _ => rfl, by simp [position]⟩
  | myWrite =>
      simp only [onConn, myWrite, if_neg hne, if_neg hneg]
      split
      · rename_i hlt
        exact ⟨_, _, 0, _, rfl, rfl, rfl, .wroteMore (by omega) rfl, fun _ _ _ => rfl, by simp⟩
      · exact ⟨_, _, 0, _, rfl, rfl, rfl, .wroteAll (by omega) rfl, fun _ _ _ => rfl, by simp⟩

end Exits

/-! ## One dispatch -/

namespace Server

variable {n msgSize : ℕ}

/-- Every entry of `conns[]` is the record of its descriptor. -/
def Live (sh : Shared) : Prop :=
  ∀ fd p, sh.conns fd = some p → (sh.conn p).fd = fd ∧ 0 ≤ fd

/-- What a dispatch does, by the exit of the handler. -/
inductive Handled (msgSize : ℕ) (s : Server n) (w : Fin n) (e : UpEvent Handler) :
    Server n → List Effect → Prop
  | refused : e.workFn = some .myAccept → e.result < 0 →
      Handled msgSize s w e
        (s.set w ((s.worker w).pop.request (.accept e.fd (some .myAccept)))) []
  | accepted : e.workFn = some .myAccept → 0 ≤ e.result →
      Handled msgSize s w e
        ((s.set w (myAccept e (s.worker w).pop s.shared).1).share
          (myAccept e (s.worker w).pop s.shared).2) []
  | closed {h p} : e.workFn = some h → h ≠ .myAccept → e.result = 0 →
      s.shared.conns e.fd = some p →
      Handled msgSize s w e
        ((s.set w (onClose p (s.worker w).pop s.shared).1).share
          (onClose p (s.worker w).pop s.shared).2) [.onClose]
  | failed {h p c} : e.workFn = some h → h ≠ .myAccept → e.result < 0 →
      s.shared.conns e.fd = some p → c.fd = (s.shared.conn p).fd →
      c.buffer = (s.shared.conn p).buffer → c.cursor = (s.shared.conn p).cursor →
      Handled msgSize s w e
        ((s.set w (s.worker w).pop).share
          { s.shared with conn := Function.update s.shared.conn p c }) []
  | rearmed {h p c effects k r} : e.workFn = some h → h ≠ .myAccept → 0 < e.result →
      s.shared.conns e.fd = some p → c.fd = (s.shared.conn p).fd →
      c.buffer = (s.shared.conn p).buffer → Proceeds msgSize (s.shared.conn p) e h c r →
      (∀ dst src len, Effect.memcpy dst src len ∈ effects ↔ h = .myRead ∧
        dst = position (s.shared.conn p) ∧ src = e.buf ∧ len = e.result.toNat) →
      Handled msgSize s w e
        ((s.set w (Worker.request r { (s.worker w).pop with
            queue := { (s.worker w).pop.queue with
              returned := (s.worker w).pop.queue.returned + k } })).share
          { s.shared with conn := Function.update s.shared.conn p c }) effects

theorem handle_onConn {h : Handler} (hh : h ≠ .myAccept) {e : UpEvent Handler}
    (he : e.workFn = some h) (me : Worker) (sh : Shared) :
    handle msgSize e me sh = (sh.conns e.fd).map fun p =>
      (perform p (onConn msgSize h (sh.conn p) e).2 me
        { sh with conn := Function.update sh.conn p (onConn msgSize h (sh.conn p) e).1 },
        (onConn msgSize h (sh.conn p) e).2) := by
  rw [handle, he]
  cases h with
  | myAccept => exact absurd rfl hh
  | myRead => cases sh.conns e.fd <;> rfl
  | myWrite => cases sh.conns e.fd <;> rfl

theorem dispatch_spec {s s' : Server n} {w : Fin n} {o : Output} (hlive : Live s.shared)
    (h : s.step msgSize (.dispatch w) = some (s', o)) :
    ∃ e rest effects, (s.worker w).queue.undispatched = e :: rest ∧
      o = .dispatched e effects ∧ Handled msgSize s w e s' effects := by
  simp only [step, dispatch] at h
  split at h
  · rename_i e rest hker hcons
    have hpop : ({ s.worker w with queue :=
        { (s.worker w).queue with undispatched := rest } } : Worker) = (s.worker w).pop := by
      simp [Worker.pop, hcons]
    rw [hpop] at h
    obtain ⟨⟨⟨me, sh⟩, effects⟩, hhandle, hpair⟩ := Option.bind_eq_some_iff.mp h
    obtain ⟨rfl, rfl⟩ := Prod.mk.inj (Option.some.inj hpair)
    refine ⟨e, rest, effects, hcons, rfl, ?_⟩
    cases hfn : e.workFn with
    | none => simp [handle, hfn] at hhandle
    | some h =>
        by_cases hh : h = .myAccept
        · subst hh
          simp only [handle, hfn, Option.some.injEq, Prod.mk.injEq] at hhandle
          obtain ⟨hmy, rfl⟩ := hhandle
          by_cases hres : e.result < 0
          · rw [myAccept, if_pos hres] at hmy
            obtain ⟨rfl, rfl⟩ := Prod.mk.inj hmy
            exact .refused hfn hres
          · have hacc : Handled msgSize s w e _ [] := .accepted hfn (by omega)
            rw [hmy] at hacc
            exact hacc
        · rw [handle_onConn hh hfn] at hhandle
          obtain ⟨p, hp, hres⟩ := Option.map_eq_some_iff.mp hhandle
          obtain ⟨hperform, rfl⟩ := Prod.mk.inj hres
          obtain ⟨hpfd, hfd⟩ := hlive e.fd p hp
          rw [← hpfd] at hfd
          rcases lt_trichotomy e.result 0 with hneg | hzero | hpos
          · obtain ⟨c, hc, hcfd, hcbuf, hccur⟩ :=
              onConn_failed msgSize hh hfd hneg
            rw [hc] at hperform ⊢
            obtain ⟨rfl, rfl⟩ := Prod.mk.inj hperform
            exact .failed hfn hh hneg hp hcfd hcbuf hccur
          · have hc := onConn_closed msgSize hh hfd hzero
            rw [hc] at hperform ⊢
            simp only [perform, Function.update_eq_self] at hperform
            have hclosed : Handled msgSize s w e _ [.onClose] := .closed hfn hh hzero hp
            change onClose p (s.worker w).pop s.shared = (me, sh) at hperform
            rw [hperform] at hclosed
            exact hclosed
          · obtain ⟨c, effects, k, r, hc, hcfd, hcbuf, hr, hper, hcopy⟩ :=
              onConn_rearmed msgSize hh hfd hpos
            rw [hc] at hperform ⊢
            rw [hper] at hperform
            obtain ⟨rfl, rfl⟩ := Prod.mk.inj hperform
            exact .rearmed hfn hh hpos hp hcfd hcbuf hr hcopy
  · simp at h

end Server

end Upcalls.UpcallEcho
