import Upcalls.Model.EchoPool
import Upcalls.Verification.UpcallEcho.Safety

/-! # Buffers that never come back

A handler returns the buffer of its completion when the completion has data. A buffer that
came with end of file or with an error is lost: neither the kernel nor the worker has it
any more.
-/

namespace Upcalls.UpcallEcho

open Library LibUpcall TcpEcho

namespace Pooled

variable {n msgSize : ℕ}

/-! ## What a handler returns -/

section Handlers

variable {conn : Connection} {e : UpEvent Handler}

/-- The buffers that the handler of `e` returns. -/
def recycled (e : UpEvent Handler) : List IoVec :=
  if e.workFn = some .myRead ∧ 0 < e.result then [⟨e.buf, e.len⟩] else []

/-- The buffer that the handler of `e` keeps to itself. -/
def unreturned (e : UpEvent Handler) : List IoVec :=
  if 0 < e.result then [] else (attached e).toList

theorem returned_myRead (hfd : 0 ≤ conn.fd) :
    returned (myRead msgSize conn e).2 = if 0 < e.result then [⟨e.buf, e.len⟩] else [] := by
  have hopen : ¬ conn.fd < 0 := by omega
  rw [myRead, if_neg hopen]
  rcases lt_trichotomy e.result 0 with hneg | hzero | hpos
  · have hne : ¬ e.result = 0 := by omega
    have hno : ¬ 0 < e.result := by omega
    rw [if_neg hne, if_neg hno]
    simp only [if_pos hneg]
    rfl
  · rw [if_pos hzero, hzero]
    rfl
  · have hne : ¬ e.result = 0 := by omega
    have hno : ¬ e.result < 0 := by omega
    rw [if_neg hne, if_pos hpos]
    simp only [if_neg hno]
    split <;> rfl

theorem returned_myWrite : returned (myWrite msgSize conn e).2 = [] := by
  rw [myWrite]
  split
  · rfl
  · split
    · rfl
    · split <;> rfl

/-- Data without a buffer is never copied. -/
theorem faults_myRead (hfd : 0 ≤ conn.fd) (hpos : 0 < e.result) (hnull : e.buf = .null) :
    faults (myRead msgSize conn e).2 = true := by
  have hopen : ¬ conn.fd < 0 := by omega
  have hne : ¬ e.result = 0 := by omega
  have hno : ¬ e.result < 0 := by omega
  rw [myRead, if_neg hopen, if_neg hne]
  simp only [if_neg hno]
  split <;> simp [faults, hnull, hpos]

end Handlers

/-! ## What a handler does to the queue -/

/-- From `q`, a handler with these effects leaves `q'`. -/
structure Calls (effects : List Effect) (q q' : ListQueue Handler) : Prop where
  undispatched : q'.undispatched = q.undispatched
  returned : q'.returned = q.returned + (Pooled.returned effects).length
  vecs : ∀ len, .vec len ∈ q'.pending → .vec len ∈ q.pending

theorem onClose_queue (p : ℕ) (me : Worker) (sh : Shared) :
    (onClose p me sh).1.queue = me.queue := by
  rw [onClose]
  split <;> rfl

theorem calls_perform (p : ℕ) (effects : List Effect) (me : Worker) (sh : Shared) :
    Calls effects me.queue (perform p effects me sh).1.queue := by
  induction effects generalizing me sh with
  | nil => exact ⟨rfl, rfl, fun _ h => h⟩
  | cons effect effects ih =>
      cases effect with
      | memcpy dst src len => exact ⟨(ih me sh).undispatched, (ih me sh).returned, (ih me sh).vecs⟩
      | returnBuffer buf len =>
          obtain ⟨hundispatched, hreturned, hvecs⟩ := ih me.returnBuffer sh
          refine ⟨hundispatched, ?_, hvecs⟩
          have hcount : me.returnBuffer.queue.returned = me.queue.returned + 1 := rfl
          have hlength : (Pooled.returned (.returnBuffer buf len :: effects)).length =
              (Pooled.returned effects).length + 1 := rfl
          rw [perform, hreturned]
          omega
      | addRead fd =>
          obtain ⟨hundispatched, hreturned, hvecs⟩ :=
            ih (me.request (.read fd (some .myRead))) sh
          refine ⟨hundispatched, hreturned, ?_⟩
          intro len hmem
          simpa [Worker.request] using hvecs len hmem
      | addWrite fd buf len =>
          obtain ⟨hundispatched, hreturned, hvecs⟩ :=
            ih (me.request (.write fd buf len (some .myWrite))) sh
          refine ⟨hundispatched, hreturned, ?_⟩
          intro len' hmem
          simpa [Worker.request] using hvecs len' hmem
      | onClose =>
          have hcalls := ih (onClose p me sh).1 (onClose p me sh).2
          rw [onClose_queue] at hcalls
          exact ⟨hcalls.undispatched, hcalls.returned, hcalls.vecs⟩

theorem calls_myAccept (e : UpEvent Handler) (me : Worker) (sh : Shared) :
    Calls [] me.queue (myAccept e me sh).1.queue := by
  rw [myAccept]
  split
  · exact ⟨rfl, rfl, by simp [Worker.request]⟩
  · exact ⟨rfl, rfl, by simp [Worker.request]⟩

/-- A handler returns the buffer of its completion exactly when it got data. -/
theorem handle_spec {e : UpEvent Handler} {me me' : Worker} {sh sh' : Shared}
    {effects : List Effect} (hlive : Server.Live sh)
    (h : Server.handle msgSize e me sh = some ((me', sh'), effects)) :
    returned effects = recycled e ∧ Calls effects me.queue me'.queue ∧
      (e.workFn = some .myRead → 0 < e.result → e.buf = .null → faults effects = true) := by
  cases hfn : e.workFn with
  | none => simp [Server.handle, hfn] at h
  | some g =>
      cases g with
      | myAccept =>
          simp only [Server.handle, hfn, Option.some.injEq, Prod.mk.injEq] at h
          obtain ⟨hmy, rfl⟩ := h
          have hcalls := calls_myAccept e me sh
          rw [hmy] at hcalls
          exact ⟨by simp [recycled, hfn, returned], hcalls, by simp⟩
      | myRead =>
          rw [Server.handle_onConn (by simp) hfn] at h
          obtain ⟨p, hp, hres⟩ := Option.map_eq_some_iff.mp h
          obtain ⟨hperform, rfl⟩ := Prod.mk.inj hres
          obtain ⟨hpfd, hfd⟩ := hlive e.fd p hp
          rw [← hpfd] at hfd
          have hcalls := calls_perform p (myRead msgSize (sh.conn p) e).2 me
            { sh with conn := Function.update sh.conn p (myRead msgSize (sh.conn p) e).1 }
          refine ⟨?_, ?_, fun _ => faults_myRead hfd⟩
          · rw [onConn, returned_myRead hfd, recycled, hfn]
            simp
          · rw [onConn] at hperform
            rw [hperform] at hcalls
            exact hcalls
      | myWrite =>
          rw [Server.handle_onConn (by simp) hfn] at h
          obtain ⟨p, hp, hres⟩ := Option.map_eq_some_iff.mp h
          obtain ⟨hperform, rfl⟩ := Prod.mk.inj hres
          have hcalls := calls_perform p (myWrite msgSize (sh.conn p) e).2 me
            { sh with conn := Function.update sh.conn p (myWrite msgSize (sh.conn p) e).1 }
          refine ⟨?_, ?_, by simp⟩
          · rw [onConn, returned_myWrite, recycled, hfn]
            simp
          · rw [onConn] at hperform
            rw [hperform] at hcalls
            exact hcalls

/-! ## The server below -/

def Input.server : Input n → UpcallEcho.Input n
  | .submit w => .submit w
  | .complete w i result none => .complete w i result .null 0
  | .complete w i result (some v) => .complete w i result v.base v.len
  | .receive w => .receive w
  | .dispatch w => .dispatch w

/-- The buffers are only watched: each step is one of the server. -/
theorem step_server {s s' : Pooled n} {a : Input n} {o : Output}
    (h : s.step msgSize a = some (s', o)) :
    s.server.step msgSize a.server = some (s'.server, o) := by
  cases a with
  | submit w =>
      simp only [step, submit, Option.map_map, Option.map_eq_some_iff] at h
      obtain ⟨server, hserver, hpair⟩ := h
      cases hpair
      simp only [Input.server, Server.step, hserver, Option.map_some]
  | complete w i result attached =>
      cases attached with
      | none =>
          simp only [step, complete, Option.map_map, Option.map_eq_some_iff] at h
          obtain ⟨server, hserver, hpair⟩ := h
          cases hpair
          simp only [Input.server, Server.step, hserver, Option.map_some]
      | some v =>
          simp only [step, complete] at h
          split at h
          · simp only [Option.map_map, Option.map_eq_some_iff] at h
            obtain ⟨server, hserver, hpair⟩ := h
            cases hpair
            simp only [Input.server, Server.step, hserver, Option.map_some]
          · cases h
  | receive w =>
      simp only [step, receive, Option.map_map, Option.map_eq_some_iff] at h
      obtain ⟨server, hserver, hpair⟩ := h
      cases hpair
      simp only [Input.server, Server.step, hserver, Option.map_some]
  | dispatch w =>
      simp only [step, dispatch] at h
      split at h
      · rename_i server e effects hserver
        split at h
        · cases h
        · cases h
          exact hserver
      · cases h

theorem reaches_server {tr : List (Input n × Output)} {s : Pooled n}
    (h : (echoPool n msgSize).Reaches tr s) :
    (echoServer n msgSize).Reaches (tr.map fun x => (x.1.server, x.2)) s.server := by
  induction h with
  | init hinit => exact .init hinit.1
  | step _ hstep ih =>
      rw [List.map_append]
      exact ih.step (step_server hstep)

/-! ## What one step does to the buffers of a worker -/

/-- The `UP_VEC` records of the next batch list the array once: that of the initial pool
before the first submit, that of the returned buffers afterwards. -/
inductive Lists (me : Worker) (array : List IoVec) : Prop
  | setup : me.queue = setupQueue me.listenSock → me.outstanding = [] →
      array.length = BUF_COUNT → Lists me array
  | later : (∀ len, .vec len ∉ me.queue.pending) → array.length = me.queue.returned →
      Lists me array

theorem handed_append (array : List IoVec) (xs ys : List (Request Handler)) :
    handed array (xs ++ ys) = handed array xs ++ handed array ys :=
  List.flatMap_append ..

theorem handed_eq_nil {array : List IoVec} {batch : List (Request Handler)}
    (h : ∀ len, .vec len ∉ batch) : handed array batch = [] := by
  rw [handed, List.flatMap_eq_nil_iff]
  intro r hr
  cases r with
  | vec len => exact absurd hr (h len)
  | _ => rfl

theorem Lists.handed_eq {me : Worker} {array : List IoVec} (h : Lists me array) :
    handed array me.queue.batch = array := by
  cases h with
  | setup hqueue _ hlength =>
      rw [hqueue]
      simp [setupQueue, ListQueue.batch, handed, ← hlength]
  | later hno hlength =>
      rw [ListQueue.batch, handed_append, handed_eq_nil hno, ← hlength]
      cases array with
      | nil => rfl
      | cons v vs => simp [handed]

structure Sound (me : Worker) (array : List IoVec) : Prop where
  lists : Lists me array
  carried : ∀ e ∈ me.queue.undispatched, e.buf ≠ .null → e.workFn = some .myRead

/-- A step of worker `w` that loses the buffers `lost`. -/
structure Turn (w : Fin n) (s s' : Pooled n) (lost : List IoVec) : Prop where
  others : ∀ v, v ≠ w → s'.server.worker v = s.server.worker v ∧ s'.array v = s.array v ∧
    s'.kernel v = s.kernel v
  sound : Sound (s'.server.worker w) (s'.array w)
  owned : s.owned w = s'.owned w + (lost : Multiset IoVec)

structure Inv (s : Pooled n) : Prop where
  sound : ∀ w, Sound (s.server.worker w) (s.array w)
  buffers : ∀ w, ∀ v ∈ s.owned w, v.base ≠ .null

theorem Turn.owned_other {w v : Fin n} {s s' : Pooled n} {lost : List IoVec}
    (h : Turn w s s' lost) (hv : v ≠ w) : s'.owned v = s.owned v := by
  obtain ⟨hworker, harray, hkernel⟩ := h.others v hv
  simp only [Pooled.owned, waiting, hworker, harray, hkernel]

theorem Inv.turn {w : Fin n} {s s' : Pooled n} {lost : List IoVec} (hs : s.Inv)
    (h : Turn w s s' lost) : s'.Inv := by
  refine ⟨?_, ?_⟩
  · intro v
    by_cases hv : v = w
    · rw [hv]
      exact h.sound
    · obtain ⟨hworker, harray, -⟩ := h.others v hv
      rw [hworker, harray]
      exact hs.sound v
  · intro v b hb
    apply hs.buffers v b
    by_cases hv : v = w
    · rw [hv] at hb ⊢
      rw [h.owned]
      exact Multiset.mem_add.mpr (.inl hb)
    · rw [← h.owned_other hv]
      exact hb

/-! ### The kernel's steps -/

theorem turn_submit {s s' : Pooled n} {w : Fin n} {o : Output} (hs : s.Inv)
    (h : s.step msgSize (.submit w) = some (s', o)) : Turn w s s' [] := by
  obtain ⟨hnil, hserver, -⟩ := Server.submit_spec (step_server h)
  simp only [step, submit, Option.map_map, Option.map_eq_some_iff] at h
  obtain ⟨server, -, hpair⟩ := h
  cases hpair
  simp only at hserver
  subst hserver
  refine ⟨?_, ⟨?_, ?_⟩, ?_⟩
  · intro v hv
    exact ⟨Team.set_worker_ne _ _ hv, Function.update_of_ne hv _ _, Function.update_of_ne hv _ _⟩
  · rw [Team.set_worker_self]
    simp only [Function.update_self]
    exact .later (fun _ => List.not_mem_nil) rfl
  · rw [Team.set_worker_self]
    exact List.forall_mem_nil _
  · simp only [owned, waiting, Team.set_worker_self, Function.update_self,
      (hs.sound w).lists.handed_eq, Worker.enter, hnil, List.filterMap_nil, List.append_nil]
    simp

theorem turn_receive {s s' : Pooled n} {w : Fin n} {o : Output} (hs : s.Inv)
    (h : s.step msgSize (.receive w) = some (s', o)) : Turn w s s' [] := by
  obtain ⟨hserver, -⟩ := Server.receive_spec (step_server h)
  simp only [step, receive, Option.map_map, Option.map_eq_some_iff] at h
  obtain ⟨server, -, hpair⟩ := h
  cases hpair
  simp only at hserver
  subst hserver
  obtain ⟨hlists, hcarried⟩ := hs.sound w
  refine ⟨?_, ⟨?_, ?_⟩, ?_⟩
  · intro v hv
    exact ⟨Team.set_worker_ne _ _ hv, rfl, rfl⟩
  · rw [Team.set_worker_self]
    cases hlists with
    | setup hqueue hnone hlength => exact .setup hqueue hnone hlength
    | later hno hlength => exact .later hno hlength
  · rw [Team.set_worker_self]
    exact hcarried
  · simp only [owned, waiting, Team.set_worker_self]
    simp

/-- A completion arrives with the buffer that the pool gives for it. -/
theorem turn_arrive {s s' : Pooled n} {w : Fin n} {i : ℕ} {r : Request Handler}
    {e : UpEvent Handler} {sh : Shared} (hs : s.Inv)
    (hr : (s.server.worker w).outstanding[i]? = some r)
    (hserver : s'.server = (s.server.set w ((s.server.worker w).arrive i e)).share sh)
    (harray : s'.array = s.array) (hothers : ∀ v, v ≠ w → s'.kernel v = s.kernel v)
    (hkernel : s.kernel w = s'.kernel w + ((attached e).toList : Multiset IoVec))
    (hcarried : e.buf ≠ .null → e.workFn = some .myRead) : Turn w s s' [] := by
  obtain ⟨hlists, hold⟩ := hs.sound w
  have hself : s'.server.worker w = (s.server.worker w).arrive i e := by
    rw [hserver, Team.share_worker, Team.set_worker_self]
  have hevents : ∀ e' ∈ if e.workFn.isSome then [e] else [], e' = e := by
    intro e' he'
    split at he'
    · exact List.mem_singleton.mp he'
    · cases he'
  have hattached : (if e.workFn.isSome then [e] else []).filterMap attached =
      (attached e).toList := by
    by_cases hnull : e.buf = .null
    · rw [attached, if_pos hnull]
      split
      · simp [attached, hnull]
      · rfl
    · rw [hcarried hnull]
      simp [attached, hnull]
  refine ⟨?_, ⟨?_, ?_⟩, ?_⟩
  · intro v hv
    rw [hserver, harray]
    exact ⟨Team.set_worker_ne _ _ hv, rfl, hothers v hv⟩
  · rw [hself, harray]
    cases hlists with
    | setup _ hnone _ =>
        rw [hnone] at hr
        cases hr
    | later hno hlength => exact .later hno hlength
  · rw [hself]
    intro e' he' hbuf
    rcases List.mem_append.mp he' with he' | he'
    · exact hold e' he' hbuf
    · rw [hevents e' he'] at hbuf ⊢
      exact hcarried hbuf
  · simp only [owned, waiting, hself, harray, hkernel, Worker.arrive, List.filterMap_append,
      hattached, ← Multiset.coe_add, Multiset.coe_nil, add_zero]
    ac_rfl

theorem completion_buf (r : Request Handler) (result : ℤ) (buf : Ptr) (len : ℕ) :
    (completion r result buf len).buf = buf ∧ (completion r result buf len).len = len := by
  cases r <;> exact ⟨rfl, rfl⟩

theorem turn_complete {s s' : Pooled n} {tr : List (UpcallEcho.Input n × Output)} {w : Fin n}
    {i : ℕ} {result : ℤ} {attached : Option IoVec} {o : Output} (hserver : s.server.Inv tr)
    (hs : s.Inv) (h : s.step msgSize (.complete w i result attached) = some (s', o)) :
    Turn w s s' [] := by
  have hstep := step_server h
  cases attached with
  | none =>
      obtain ⟨r, sh, hr, -, hset, -⟩ := Server.complete_spec hstep
      have hnull := (completion_buf r result .null 0).1
      simp only [step, complete, Option.map_map, Option.map_eq_some_iff] at h
      obtain ⟨server, -, hpair⟩ := h
      cases hpair
      refine turn_arrive hs hr hset rfl (fun _ _ => rfl) ?_ ?_
      · simp [Pooled.attached, hnull]
      · intro hbuf
        exact absurd hnull hbuf
  | some b =>
      obtain ⟨r, sh, hr, -, hset, -⟩ := Server.complete_spec hstep
      obtain ⟨hbuf, hlen⟩ := completion_buf r result b.base b.len
      simp only [step, complete] at h
      split at h
      · rename_i hguard
        obtain ⟨hmem, hread⟩ := hguard
        simp only [Option.map_map, Option.map_eq_some_iff] at h
        obtain ⟨server, -, hpair⟩ := h
        cases hpair
        have hreal : b.base ≠ .null :=
          hs.buffers w b (Multiset.mem_add.mpr (.inl hmem))
        have hplain := hserver.plain w r (List.mem_append_right _ (List.mem_of_getElem? hr))
        rw [hr] at hread
        refine turn_arrive hs hr hset rfl (fun v hv => Function.update_of_ne hv _ _) ?_ ?_
        · change s.kernel w = Function.update s.kernel w ((s.kernel w).erase b) w + _
          rw [Function.update_self, Pooled.attached, hbuf, hlen, if_neg hreal]
          simp only [Option.toList_some, Multiset.coe_singleton]
          rw [add_comm, Multiset.singleton_add]
          exact (Multiset.cons_erase hmem).symm
        · intro _
          cases r with
          | read fd workFn => exact hplain
          | _ => cases hread
      · cases h

/-! ### The handlers' step -/

/-- The buffer of a completion is returned or not. -/
theorem attached_eq {e : UpEvent Handler} (hcarried : e.buf ≠ .null → e.workFn = some .myRead)
    (hdata : e.workFn = some .myRead → 0 < e.result → e.buf ≠ .null) :
    (attached e).toList = recycled e ++ unreturned e := by
  by_cases hpos : 0 < e.result
  · rw [unreturned, if_pos hpos, List.append_nil]
    by_cases hnull : e.buf = .null
    · rw [attached, if_pos hnull, recycled, if_neg]
      · rfl
      · intro hread
        exact hdata hread.1 hpos hnull
    · rw [attached, if_neg hnull, recycled, if_pos ⟨hcarried hnull, hpos⟩]
      rfl
  · rw [unreturned, if_neg hpos, recycled, if_neg (fun hread => hpos hread.2), List.nil_append]

theorem dispatch_handle {s s' : Server n} {w : Fin n} {e : UpEvent Handler}
    {effects : List Effect} (h : s.dispatch msgSize w = some (s', .dispatched e effects)) :
    ∃ rest me sh, (s.worker w).queue.undispatched = e :: rest ∧
      Server.handle msgSize e (s.worker w).pop s.shared = some ((me, sh), effects) ∧
      s' = (s.set w me).share sh := by
  simp only [Server.dispatch] at h
  split at h
  · rename_i e' rest _ hcons
    obtain ⟨⟨⟨me, sh⟩, effects'⟩, hhandle, hpair⟩ := Option.bind_eq_some_iff.mp h
    cases hpair
    refine ⟨rest, me, sh, hcons, ?_, rfl⟩
    rw [← hhandle, Worker.pop, hcons]
    rfl
  · cases h

theorem turn_dispatch {s s' : Pooled n} {tr : List (UpcallEcho.Input n × Output)} {w : Fin n}
    {o : Output} (hserver : s.server.Inv tr) (hs : s.Inv)
    (h : s.step msgSize (.dispatch w) = some (s', o)) :
    ∃ e effects, o = .dispatched e effects ∧ returned effects = recycled e ∧
      (e.buf ≠ .null → e.workFn = some .myRead) ∧ Turn w s s' (unreturned e) := by
  simp only [step, dispatch] at h
  split at h
  · rename_i server e effects hdispatch
    split at h
    · cases h
    · rename_i hfaults
      cases h
      obtain ⟨rest, me, sh, hcons, hhandle, rfl⟩ := dispatch_handle hdispatch
      obtain ⟨hreturned, hcalls, hfault⟩ := handle_spec hserver.live hhandle
      obtain ⟨hlists, hold⟩ := hs.sound w
      have hcarried := hold e (by rw [hcons]; exact List.mem_cons_self)
      have hattached := attached_eq hcarried
        (fun hread hpos hnull => hfaults (hfault hread hpos hnull))
      have hrest : me.queue.undispatched = rest := by
        rw [hcalls.undispatched, Worker.pop, hcons]
        rfl
      refine ⟨e, effects, rfl, hreturned, hcarried, ?_, ⟨?_, ?_⟩, ?_⟩
      · intro v hv
        exact ⟨Team.set_worker_ne _ _ hv, Function.update_of_ne hv _ _, rfl⟩
      · simp only [Team.share_worker, Team.set_worker_self, Function.update_self]
        cases hlists with
        | setup hqueue _ _ =>
            rw [hqueue] at hcons
            cases hcons
        | later hno hlength =>
            refine .later (fun len hmem => hno len (hcalls.vecs len hmem)) ?_
            rw [List.length_append, hlength, hcalls.returned]
            rfl
      · simp only [Team.share_worker, Team.set_worker_self]
        intro e' he'
        rw [hrest] at he'
        exact hold e' (by rw [hcons]; exact List.mem_cons_of_mem _ he')
      · have hwaiting : (s.server.worker w).queue.undispatched.filterMap attached =
            (attached e).toList ++ rest.filterMap attached := by
          rw [hcons, List.filterMap_cons]
          cases attached e <;> rfl
        simp only [owned, waiting, Team.share_worker, Team.set_worker_self,
          Function.update_self, hwaiting, hattached, hrest, hreturned, ← Multiset.coe_add]
        ac_rfl
  · cases h

/-! ## Runs -/

/-- The buffers that worker `w` loses in a step. -/
def leak (w : Fin n) : Input n × Output → List IoVec
  | (.dispatch v, .dispatched e _) => if v = w then unreturned e else []
  | _ => []

def leaks (tr : List (Input n × Output)) (w : Fin n) : List IoVec := tr.flatMap (leak w)

theorem Inv.accounts {w : Fin n} {s s' : Pooled n} {lost : List IoVec} (h : Turn w s s' lost)
    (v : Fin n) : s.owned v = s'.owned v + ((if w = v then lost else [] : List IoVec)) := by
  by_cases hv : w = v
  · rw [if_pos hv, ← hv]
    exact h.owned
  · rw [if_neg hv, h.owned_other (Ne.symm hv)]
    simp

theorem Inv.step {s s' : Pooled n} {tr : List (UpcallEcho.Input n × Output)} {a : Input n}
    {o : Output} (hserver : s.server.Inv tr) (hs : s.Inv)
    (h : s.step msgSize a = some (s', o)) :
    s'.Inv ∧ ∀ w, s.owned w = s'.owned w + (leak w (a, o) : Multiset IoVec) := by
  have hquiet : ∀ {w}, Turn w s s' [] → ∀ v, s.owned v = s'.owned v + (([] : List IoVec)) := by
    intro w hturn v
    have haccounts := Inv.accounts hturn v
    rw [ite_self] at haccounts
    exact haccounts
  cases a with
  | submit w =>
      have hturn := turn_submit hs h
      exact ⟨hs.turn hturn, hquiet hturn⟩
  | complete w i result attached =>
      have hturn := turn_complete hserver hs h
      exact ⟨hs.turn hturn, hquiet hturn⟩
  | receive w =>
      have hturn := turn_receive hs h
      exact ⟨hs.turn hturn, hquiet hturn⟩
  | dispatch w =>
      obtain ⟨e, effects, rfl, -, -, hturn⟩ := turn_dispatch hserver hs h
      exact ⟨hs.turn hturn, Inv.accounts hturn⟩

theorem inv_init {s : Pooled n} (h : (echoPool n msgSize).Init s) :
    s.Inv ∧ ∀ w, (s.owned w).card = BUF_COUNT := by
  obtain ⟨hstart, hbuffers⟩ := h
  have howned : ∀ w, s.owned w = s.array w := by
    intro w
    rw [owned, waiting, hstart.queue w, (hbuffers w).1]
    simp [setupQueue]
  refine ⟨⟨?_, ?_⟩, ?_⟩
  · intro w
    refine ⟨.setup (hstart.queue w) (hstart.outstanding w) (hbuffers w).2.1, ?_⟩
    rw [hstart.queue w]
    exact List.forall_mem_nil _
  · intro w v hv
    rw [howned w] at hv
    exact ((hbuffers w).2.2 v hv).1
  · intro w
    rw [howned w]
    exact (hbuffers w).2.1

/-- What the kernel and a worker have and what the worker lost is what there was. -/
theorem reaches_accounts {tr : List (Input n × Output)} {s : Pooled n}
    (h : (echoPool n msgSize).Reaches tr s) :
    s.Inv ∧ ∀ w, (s.owned w).card + (leaks tr w).length = BUF_COUNT := by
  induction h with
  | init hinit =>
      obtain ⟨hinv, hcard⟩ := inv_init hinit
      refine ⟨hinv, ?_⟩
      intro w
      exact hcard w
  | step hreach hstep ih =>
      obtain ⟨hinv, haccounts⟩ := ih.1.step (Server.reaches_inv (reaches_server hreach)) hstep
      refine ⟨hinv, ?_⟩
      intro w
      have hcard := congrArg Multiset.card (haccounts w)
      have hcount := ih.2 w
      rw [Multiset.card_add, Multiset.coe_card] at hcard
      rw [leaks, List.flatMap_append, List.length_append, ← leaks]
      simp only [List.flatMap_singleton]
      omega

/-- A handler returns its buffer and no other when it got data, and none otherwise. -/
theorem reaches_returned {tr : List (Input n × Output)} {s : Pooled n}
    (h : (echoPool n msgSize).Reaches tr s) {w : Fin n} {e : UpEvent Handler}
    {effects : List Effect} (hmem : (.dispatch w, .dispatched e effects) ∈ tr) :
    returned effects = recycled e ∧ (e.buf ≠ .null → e.workFn = some .myRead) := by
  induction h with
  | init => cases hmem
  | step hreach hstep ih =>
      rcases List.mem_append.mp hmem with hmem | hmem
      · exact ih hmem
      · cases List.mem_singleton.mp hmem
        obtain ⟨e, effects, ho, hreturned, hcarried, -⟩ :=
          turn_dispatch (Server.reaches_inv (reaches_server hreach)) (reaches_accounts hreach).1
            hstep
        cases ho
        exact ⟨hreturned, hcarried⟩

theorem count_returnBuffer (effects : List Effect) (buf : Ptr) (len : ℕ) :
    effects.count (.returnBuffer buf len) = (returned effects).count ⟨buf, len⟩ := by
  induction effects with
  | nil => rfl
  | cons effect effects ih =>
      rw [List.count_cons, ih]
      cases effect with
      | returnBuffer buf' len' => simp [returned, List.count_cons]
      | _ => simp [returned]

end Pooled

/-! ## No buffer is lost -/

section Conserved

open Pooled

variable {n msgSize : ℕ}

/-- Each handler returns the buffer of its completion once, and no worker and its pool have
lost one. -/
structure Pooled.Conserved (tr : List (Pooled.Input n × Output)) (s : Pooled n) : Prop where
  returned : ∀ w e effects, (.dispatch w, .dispatched e effects) ∈ tr → e.buf ≠ .null →
    effects.count (.returnBuffer e.buf e.len) = 1
  owned : ∀ w, (s.owned w).card = BUF_COUNT

/-- Every completion with a buffer that a handler was given has data. -/
def Pooled.HasData (tr : List (Pooled.Input n × Output)) : Prop :=
  ∀ w e effects, (.dispatch w, .dispatched e effects) ∈ tr → e.buf ≠ .null → 0 < e.result

theorem Pooled.HasData.leaks_eq {tr : List (Pooled.Input n × Output)} (h : HasData tr)
    (w : Fin n) : leaks tr w = [] := by
  rw [leaks, List.flatMap_eq_nil_iff]
  rintro ⟨a, o⟩ hmem
  cases a with
  | dispatch v =>
      cases o with
      | silent => rfl
      | dispatched e effects =>
          rw [leak]
          split
          · by_cases hnull : e.buf = .null
            · rw [unreturned, attached, if_pos hnull]
              split <;> rfl
            · rw [unreturned, if_pos (h v e effects hmem hnull)]
          · rfl
  | _ => rfl

/-- In every run of the echo server the buffers are conserved if and only if every completion
with a buffer that was handled so far has data. -/
theorem echoPool_conserved_iff {tr : List (Pooled.Input n × Output)} {s : Pooled n}
    (h : (echoPool n msgSize).Reaches tr s) : Conserved tr s ↔ HasData tr := by
  constructor
  · intro hconserved w e effects hmem hbuf
    have hone := hconserved.returned w e effects hmem hbuf
    rw [count_returnBuffer, (reaches_returned h hmem).1, recycled] at hone
    split at hone
    · rename_i hread
      exact hread.2
    · cases hone
  · intro hdata
    refine ⟨?_, ?_⟩
    · intro w e effects hmem hbuf
      obtain ⟨hreturned, hcarried⟩ := reaches_returned h hmem
      rw [count_returnBuffer, hreturned, recycled,
        if_pos ⟨hcarried hbuf, hdata w e effects hmem hbuf⟩]
      simp
    · intro w
      have hcount := (reaches_accounts h).2 w
      rw [hdata.leaks_eq w] at hcount
      exact hcount

end Conserved

/-! ## A small pool -/

/-- The small server with the buffers at 10 to 41. -/
def smallPool : Pooled 1 where
  server := smallServer
  array _ := (List.range BUF_COUNT).map fun i => ⟨⟨i + 10, 0⟩, 2⟩
  kernel _ := 0

theorem smallPool_init : (echoPool 1 2).Init smallPool := by
  refine ⟨smallServer_start, fun _ => ⟨rfl, rfl, ?_⟩⟩
  intro v hv
  obtain ⟨i, -, rfl⟩ := List.mem_map.mp hv
  exact ⟨by simp [Ptr.null], rfl⟩

/-- A client connects, and a read completes with the first buffer of the pool. -/
def firstRead {n : ℕ} (w : Fin n) (result : ℤ) : List (Pooled.Input n) :=
  [.submit w, .complete w 1 5 none, .receive w, .dispatch w,
    .submit w, .complete w 1 result (some ⟨⟨10, 0⟩, 2⟩), .receive w, .dispatch w]

theorem echoPool_conserved_iff_firstRead :
    ∃ tr s, (echoPool 1 2).Reaches tr s ∧ (s.array 0).length = 1 ∧
      (Pooled.Conserved tr s ↔ Pooled.HasData tr) := by
  have hrun : ((echoPool 1 2).exec smallPool (firstRead 0 2)).isSome := by decide
  have hreach := Machine.reaches_exec_get smallPool_init hrun
  exact ⟨_, _, hreach, rfl, echoPool_conserved_iff hreach⟩

/-- The client closes: the read ends with 0, and its buffer is gone. -/
theorem echoPool_not_conserved :
    ¬ ∀ (n msgSize : ℕ) (tr : List (Pooled.Input n × Output)) (s : Pooled n),
      (echoPool n msgSize).Reaches tr s → s.Conserved tr := by
  intro h
  have hrun : ((echoPool 1 2).exec smallPool (firstRead 0 0)).isSome := by decide
  have hreach := Machine.reaches_exec_get smallPool_init hrun
  have howned := (h 1 2 _ _ hreach).owned 0
  have hlost : (Pooled.owned (((echoPool 1 2).exec smallPool (firstRead 0 0)).get hrun).1 0).card =
      BUF_COUNT - 1 := rfl
  rw [hlost] at howned
  cases howned

end Upcalls.UpcallEcho
