import Upcalls.Verification.LibUpcall.Refinement

/-! # What is left of earlier requests in a batch -/

namespace Upcalls.LibUpcall

open Library

variable {φ : Type}

/-! ## Calls that queue a record -/

inductive Enqueue (φ : Type)
  | addRead (fd : ℤ) (workFn : Option φ)
  | addWrite (fd : ℤ) (buf : Ptr) (len : ℕ) (workFn : Option φ)
  | addAccept (fd : ℤ) (workFn : Option φ)
  | addClose (fd : ℤ)
  deriving DecidableEq, Repr

namespace Enqueue

def call : Enqueue φ → Call φ
  | .addRead fd workFn => .addRead fd workFn
  | .addWrite fd buf len workFn => .addWrite fd buf len workFn
  | .addAccept fd workFn => .addAccept fd workFn
  | .addClose fd => .addClose fd

/-- What the call makes of its slot. -/
def fill : Enqueue φ → UpEvent φ → UpEvent φ
  | .addRead fd workFn, _ =>
      { (UpEvent.zero : UpEvent φ) with fd := fd, type := .upRead, workFn := workFn }
  | .addWrite fd buf len workFn, _ =>
      { (UpEvent.zero : UpEvent φ) with
        fd := fd, buf := buf, len := len, type := .upWrite, workFn := workFn }
  | .addAccept fd workFn, slot => { slot with fd := fd, type := .upAccept, workFn := workFn }
  | .addClose fd, slot => { slot with fd := fd, type := .upClose, workFn := none }

/-- The call clears its slot first. -/
def Clears : Enqueue φ → Prop
  | .addRead _ _ | .addWrite _ _ _ _ => True
  | .addAccept _ _ | .addClose _ => False

theorem call_eq (e : Enqueue φ) (r : Realloc φ) (w : Worker φ) :
    w.call r e.call = w.enqueue r e.fill := by
  cases e <;> rfl

theorem fill_type_ne (e : Enqueue φ) (slot : UpEvent φ) : (e.fill slot).type ≠ .upVec := by
  cases e <;> simp [fill]

theorem Clears.fill_eq {e : Enqueue φ} (h : e.Clears) (slot slot' : UpEvent φ) :
    e.fill slot = e.fill slot' := by
  cases e with
  | addRead => rfl
  | addWrite => rfl
  | addAccept => exact h.elim
  | addClose => exact h.elim

/-- The other calls leave the length alone, among others. -/
theorem fill_len {e : Enqueue φ} (h : ¬ e.Clears) (slot : UpEvent φ) :
    (e.fill slot).len = slot.len := by
  cases e with
  | addRead => exact (h trivial).elim
  | addWrite => exact (h trivial).elim
  | addAccept => rfl
  | addClose => rfl

end Enqueue

def Call.enqueue? : Call φ → Option (Enqueue φ)
  | .addRead fd workFn => some (.addRead fd workFn)
  | .addWrite fd buf len workFn => some (.addWrite fd buf len workFn)
  | .addAccept fd workFn => some (.addAccept fd workFn)
  | .addClose fd => some (.addClose fd)
  | .returnBuffer _ _ => none

theorem Call.eq_call {c : Call φ} {e : Enqueue φ} (h : c.enqueue? = some e) : c = e.call := by
  cases c with
  | returnBuffer => cases h
  | _ =>
      cases h
      rfl

@[simp] theorem Enqueue.enqueue?_call (e : Enqueue φ) : e.call.enqueue? = some e := by
  cases e <;> rfl

/-! ## Histories -/

/-- The calls since the last submit. -/
def sinceSubmit (tr : List (Input φ × Output φ)) : List (Enqueue φ) :=
  tr.foldl (fun es x =>
    match x.1 with
    | .call _ c => es ++ c.enqueue?.toList
    | .submit _ _ => []
    | _ => es) []

theorem sinceSubmit_snoc (tr : List (Input φ × Output φ)) (a : Input φ) (o : Output φ) :
    sinceSubmit (tr ++ [(a, o)]) =
      match a with
      | .call _ c => sinceSubmit tr ++ c.enqueue?.toList
      | .submit _ _ => []
      | _ => sinceSubmit tr := by
  rw [sinceSubmit, List.foldl_concat]
  cases a <;> rfl

/-- The records of a batch that calls have queued: all but the `UP_VEC` of the pool. -/
def requests (batch : List (UpEvent φ)) : List (UpEvent φ) := batch.filter (·.type ≠ .upVec)

/-- The record without the array that an `UP_VEC` hands over: which array that is and how
much it lists depends on the buffers returned. -/
def UpEvent.unpooled (e : UpEvent φ) : UpEvent φ :=
  if e.type = .upVec then { e with buf := .null, len := 0 } else e

/-- The batches agree in every field of every record, the arrays handed over aside. Only
the places of the `UP_VEC` records, and whether there is one, are left to the history. -/
structure SameRecords (batch batch' : List (UpEvent φ)) : Prop where
  requests : requests batch = requests batch'
  vecs : ∀ e ∈ batch, ∀ e' ∈ batch', e.type = .upVec → e'.type = .upVec →
    e.unpooled = e'.unpooled

/-- Whatever came before, the next submit gets the same records for the calls `es`. -/
def ResidueFree (batchSz bufSz : ℕ) (es : List (Enqueue φ)) : Prop :=
  ∀ {tr tr' t t' s s' r r' completions completions' batch batch'},
    (thread φ batchSz bufSz).Reaches tr t → (thread φ batchSz bufSz).Reaches tr' t' →
    sinceSubmit tr = es → sinceSubmit tr' = es →
    t.step (.submit r completions) = some (s, .submitted batch) →
    t'.step (.submit r' completions') = some (s', .submitted batch') →
      SameRecords batch batch'

/-- Batches with the same types at the same places agree as a whole. -/
theorem SameRecords.whole {batch batch' : List (UpEvent φ)} (h : SameRecords batch batch')
    (htypes : batch.map (·.type) = batch'.map (·.type)) :
    batch.map (·.unpooled) = batch'.map (·.unpooled) := by
  induction batch generalizing batch' with
  | nil => rw [List.map_eq_nil_iff.mp htypes.symm]
  | cons e batch ih =>
      cases batch' with
      | nil => cases htypes
      | cons e' batch' =>
          obtain ⟨htype, hrest⟩ := List.cons.inj htypes
          have hvecs : ∀ x ∈ batch, ∀ x' ∈ batch', x.type = .upVec → x'.type = .upVec →
              x.unpooled = x'.unpooled := fun x hx x' hx' =>
            h.vecs x (List.mem_cons_of_mem _ hx) x' (List.mem_cons_of_mem _ hx')
          have hrequests := h.requests
          simp only [LibUpcall.requests, List.filter_cons] at hrequests
          by_cases hvec : e.type = .upVec
          · have hvec' : e'.type = .upVec := htype.symm.trans hvec
            simp only [hvec, hvec', ne_eq, not_true_eq_false, decide_false] at hrequests
            rw [List.map_cons, List.map_cons, ih ⟨hrequests, hvecs⟩ hrest,
              h.vecs e List.mem_cons_self e' List.mem_cons_self hvec hvec']
          · have hvec' : e'.type ≠ .upVec := fun h' => hvec (htype.trans h')
            simp only [hvec, hvec', ne_eq, not_false_eq_true, decide_true, if_true,
              List.cons.injEq] at hrequests
            obtain ⟨rfl, hrequests⟩ := hrequests
            rw [List.map_cons, List.map_cons, ih ⟨hrequests, hvecs⟩ hrest]

/-! ## Submits -/

namespace Worker

variable {w w' : Worker φ} {r : Realloc φ}

/-- Returning a buffer leaves the queue alone. -/
theorem returnBuffer_queue {buf : Ptr} {len : ℕ} (h : w.returnBuffer r buf len = some w') :
    w'.work = w.work ∧ w'.workCnt = w.workCnt ∧ w'.workMax = w.workMax := by
  obtain ⟨v, -, rfl⟩ := Option.map_eq_some_iff.mp h
  split
  · exact ⟨rfl, rfl, rfl⟩
  · exact ⟨rfl, rfl, rfl⟩

theorem submitted_sized (h : w.Sized) (completions : List (UpEvent φ)) :
    (w.submitted completions).Sized := ⟨h.size, Nat.zero_le _⟩

end Worker

/-- What a submit hands over and leaves behind. -/
structure Thread.Submitted (t : Thread φ) (batch : List (UpEvent φ)) (t' : Thread φ) :
    Prop where
  sized : t'.worker.Sized
  handed : batch = t.worker.queued ++
    if 0 < t.worker.bufCnt then [.vec t.worker.buffers t.worker.bufCnt] else []
  queued : t'.worker.queued = []

theorem Thread.submitted {t t' : Thread φ} {r : Realloc φ} {completions : List (UpEvent φ)}
    {o : Output φ} (hs : t.worker.Sized) (h : t.step (.submit r completions) = some (t', o)) :
    ∃ batch, o = .submitted batch ∧ t.Submitted batch t' := by
  simp only [step, submit] at h
  split at h
  · rename_i hguard
    obtain ⟨w, hw, hsized, hqueued, -⟩ := hs.gatherBuffers r
    simp only [hw, hsized.batch, Option.bind_eq_bind, Option.bind_some, Option.pure_def,
      Option.some.injEq, Prod.mk.injEq] at h
    obtain ⟨rfl, rfl⟩ := h
    refine ⟨_, rfl, Worker.submitted_sized hsized completions, hqueued, ?_⟩
    simp [Worker.queued, Worker.submitted]
  · cases h

/-! ## What every history leads to -/

theorem requests_append (batch added : List (UpEvent φ)) :
    requests (batch ++ added) = requests batch ++ requests added :=
  List.filter_append ..

/-- The `UP_VEC` of a submit is none of the requests. -/
theorem Thread.Submitted.requests_eq {t t' : Thread φ} {batch : List (UpEvent φ)}
    (h : t.Submitted batch t') : requests batch = requests t.worker.queued := by
  rw [h.handed, requests_append]
  split
  · simp [requests, UpEvent.vec]
  · exact List.append_nil _

theorem requests_fill (e : Enqueue φ) (slot : UpEvent φ) :
    requests [e.fill slot] = [e.fill slot] := by
  rw [requests, List.filter_eq_self]
  intro record hrecord
  rw [List.mem_singleton.mp hrecord]
  simpa using e.fill_type_ne slot

theorem requests_fills (es : List (Enqueue φ)) (slot : UpEvent φ) :
    requests (es.map (·.fill slot)) = es.map (·.fill slot) := by
  induction es with
  | nil => rfl
  | cons e es ih =>
      rw [List.map_cons, ← List.singleton_append, requests_append, requests_fill, ih]

/-- The record is one of `add_buffers`: whatever is not its array is 0. -/
def UpEvent.Cleared (e : UpEvent φ) : Prop := e.type = .upVec → e = .vec e.buf e.len

theorem UpEvent.vec_cleared (bufs : Ptr) (cnt : ℕ) :
    (UpEvent.vec bufs cnt : UpEvent φ).Cleared := fun _ => rfl

theorem Enqueue.fill_cleared (e : Enqueue φ) (slot : UpEvent φ) : (e.fill slot).Cleared :=
  fun h => (e.fill_type_ne slot h).elim

theorem UpEvent.Cleared.unpooled_eq {e : UpEvent φ} (h : e.Cleared) (hvec : e.type = .upVec) :
    e.unpooled = .vec .null 0 := by
  rw [unpooled, if_pos hvec, h hvec]
  rfl

/-- Each call since the last submit has its record in the queue, made of some slot, and
each `UP_VEC` was cleared. -/
structure Thread.Holds (t : Thread φ) (es : List (Enqueue φ)) : Prop where
  sized : t.worker.Sized
  records : List.Forall₂ (fun e record => ∃ slot, record = e.fill slot) es
    (requests t.worker.queued)
  vecs : ∀ record ∈ t.worker.queued, record.Cleared

theorem Thread.Holds.of_queue {t t' : Thread φ} {es : List (Enqueue φ)} (h : t.Holds es)
    (hwork : t'.worker.work = t.worker.work) (hcnt : t'.worker.workCnt = t.worker.workCnt)
    (hmax : t'.worker.workMax = t.worker.workMax) : t'.Holds es := by
  have hqueued : t'.worker.queued = t.worker.queued := by
    rw [Worker.queued, hwork, hcnt, Worker.queued]
  refine ⟨⟨?_, ?_⟩, ?_, ?_⟩
  · rw [hwork, hmax]
    exact h.sized.size
  · rw [hcnt, hmax]
    exact h.sized.cnt
  · rw [hqueued]
    exact h.records
  · rw [hqueued]
    exact h.vecs

theorem Thread.Holds.step {t t' : Thread φ} {tr : List (Input φ × Output φ)} {a : Input φ}
    {o : Output φ} (h : t.Holds (sinceSubmit tr)) (hstep : t.step a = some (t', o)) :
    t'.Holds (sinceSubmit (tr ++ [(a, o)])) := by
  rw [sinceSubmit_snoc]
  cases a with
  | call r c =>
      obtain ⟨-, -, -, hcall⟩ := Thread.call_spec hstep
      cases hc : c.enqueue? with
      | some e =>
          rw [Call.eq_call hc, Enqueue.call_eq] at hcall
          obtain ⟨slot, w, hw, hsized, hqueued, -⟩ := h.sized.enqueue r e.fill
          cases hcall.symm.trans hw
          have hadded : List.Forall₂ (fun e record => ∃ slot, record = e.fill slot)
              c.enqueue?.toList [e.fill slot] := by
            rw [hc]
            exact .cons ⟨slot, rfl⟩ .nil
          refine ⟨hsized, ?_, ?_⟩
          · rw [hqueued, requests_append, requests_fill]
            exact List.rel_append h.records hadded
          · intro record hrecord
            rw [hqueued, List.mem_append, List.mem_singleton] at hrecord
            rcases hrecord with hrecord | rfl
            · exact h.vecs record hrecord
            · exact e.fill_cleared slot
      | none =>
          cases c with
          | returnBuffer buf len =>
              obtain ⟨hwork, hcnt, hmax⟩ := Worker.returnBuffer_queue hcall
              simpa [Call.enqueue?] using h.of_queue hwork hcnt hmax
          | _ => cases hc
  | setupDone =>
      obtain ⟨-, rfl, -⟩ := Thread.setupDone_spec hstep
      exact h.of_queue rfl rfl rfl
  | submit r completions =>
      obtain ⟨batch, -, hsubmitted⟩ := Thread.submitted h.sized hstep
      refine ⟨hsubmitted.sized, ?_, ?_⟩
      · rw [hsubmitted.queued]
        exact .nil
      · rw [hsubmitted.queued]
        exact fun _ hrecord => (List.not_mem_nil hrecord).elim
  | dispatch =>
      obtain ⟨i, ret, -, ⟨-, e, -, hworker, -⟩ | ⟨-, rfl, -⟩⟩ := Thread.dispatch_spec hstep
      · exact h.of_queue (by rw [hworker]) (by rw [hworker]) (by rw [hworker])
      · exact h.of_queue rfl rfl rfl
  | handlerDone =>
      obtain ⟨i, ret, -, rfl, -⟩ := Thread.handlerDone_spec hstep
      exact h.of_queue rfl rfl rfl
  | loopDone =>
      obtain ⟨-, rfl, -⟩ := Thread.loopDone_spec hstep
      exact h.of_queue rfl rfl rfl

theorem reaches_holds {batchSz bufSz : ℕ} {tr : List (Input φ × Output φ)} {t : Thread φ}
    (h : (thread φ batchSz bufSz).Reaches tr t) : t.Holds (sinceSubmit tr) := by
  induction h with
  | init hinit =>
      obtain ⟨r, array, pool, hsetup, -⟩ := hinit
      obtain ⟨w, hw, hsized, hqueued, -⟩ :=
        Worker.upcallWorkerSetup_sized (φ := φ) r array pool batchSz bufSz
      cases hsetup.symm.trans hw
      refine ⟨hsized, ?_, ?_⟩
      · rw [hqueued]
        exact .nil
      · rw [hqueued]
        intro record hrecord
        rw [List.mem_singleton.mp hrecord]
        exact UpEvent.vec_cleared array batchSz
  | step _ hstep ih => exact ih.step hstep

/-- Calls that clear their slots have only one choice of records. -/
theorem fills_unique {es : List (Enqueue φ)} {bs bs' : List (UpEvent φ)}
    (hclears : ∀ e ∈ es, e.Clears)
    (hbs : List.Forall₂ (fun e record => ∃ slot, record = e.fill slot) es bs)
    (hbs' : List.Forall₂ (fun e record => ∃ slot, record = e.fill slot) es bs') : bs = bs' := by
  induction hbs generalizing bs' with
  | nil =>
      cases hbs'
      rfl
  | @cons e record es bs hrecord hbs ih =>
      cases hbs' with
      | cons hrecord' hbs' =>
          obtain ⟨slot, rfl⟩ := hrecord
          obtain ⟨slot', rfl⟩ := hrecord'
          rw [(hclears e List.mem_cons_self).fill_eq slot slot',
            ih (fun e he => hclears e (List.mem_cons_of_mem _ he)) hbs']

/-- The `UP_VEC` that the submit itself adds is cleared as well. -/
theorem Thread.Submitted.cleared {t t' : Thread φ} {batch : List (UpEvent φ)}
    (h : t.Submitted batch t') (hvecs : ∀ record ∈ t.worker.queued, record.Cleared) :
    ∀ record ∈ batch, record.Cleared := by
  intro record hrecord
  rw [h.handed, List.mem_append] at hrecord
  rcases hrecord with hrecord | hrecord
  · exact hvecs record hrecord
  · split at hrecord
    · rw [List.mem_singleton.mp hrecord]
      exact UpEvent.vec_cleared _ _
    · exact (List.not_mem_nil hrecord).elim

/-- The records of the next batch, from the calls since the last submit. -/
theorem reaches_batch {batchSz bufSz : ℕ} {tr : List (Input φ × Output φ)} {t s : Thread φ}
    {r : Realloc φ} {completions batch : List (UpEvent φ)}
    (h : (thread φ batchSz bufSz).Reaches tr t)
    (hstep : t.step (.submit r completions) = some (s, .submitted batch)) :
    List.Forall₂ (fun e record => ∃ slot, record = e.fill slot) (sinceSubmit tr)
        (requests batch) ∧ ∀ record ∈ batch, record.Cleared := by
  have hholds := reaches_holds h
  obtain ⟨batch', hout, hsubmitted⟩ := Thread.submitted hholds.sized hstep
  cases hout
  refine ⟨?_, hsubmitted.cleared hholds.vecs⟩
  rw [hsubmitted.requests_eq]
  exact hholds.records

theorem residueFree_of_clears {batchSz bufSz : ℕ} {es : List (Enqueue φ)}
    (hclears : ∀ e ∈ es, e.Clears) : ResidueFree batchSz bufSz es := by
  intro tr tr' t t' s s' r r' completions completions' batch batch' h h' htr htr' hstep hstep'
  obtain ⟨hfirst, hvecs⟩ := reaches_batch h hstep
  obtain ⟨hsecond, hvecs'⟩ := reaches_batch h' hstep'
  rw [htr] at hfirst
  rw [htr'] at hsecond
  refine ⟨fills_unique hclears hfirst hsecond, ?_⟩
  intro e he e' he' hvec hvec'
  rw [(hvecs e he).unpooled_eq hvec, (hvecs' e' he').unpooled_eq hvec']

/-! ## Two histories that differ -/

section Written

variable (batchSz bufSz : ℕ) {t : Thread φ}

/-- What `add_write` makes of any slot. -/
def written (v : ℕ) : UpEvent φ := (Enqueue.addWrite 0 .null v none).fill .zero

def still : Realloc φ := ⟨.null, fun _ => .zero, fun _ => ⟨.null, 0⟩⟩

/-- The trace of the calls `es`. -/
def callTrace (es : List (Enqueue φ)) : List (Input φ × Output φ) :=
  es.map fun e => (.call still e.call, .silent)

/-- A batch without completions is over at once. -/
theorem Thread.turn (hs : t.worker.Sized) (htop : t.phase = .top) :
    ∃ t' batch, (thread φ batchSz bufSz).Run t
        [(.submit still [], .submitted batch), (.dispatch, .silent)] t' ∧
      t'.phase = .loop ∧ t'.worker.Sized ∧ t'.worker.queued = [] ∧
      (∃ slots, t'.worker.unused = batch ++ slots) ∧ t.worker.queued <+: batch := by
  obtain ⟨w, hw, hsized, hqueued, -⟩ := hs.gatherBuffers still
  have hsubmit : t.step (.submit still []) =
      some (⟨w.submitted [], .dispatch 0 0⟩, .submitted w.queued) := by
    simp only [step, submit, htop, List.length_nil, Nat.zero_le, and_self, if_true, hw,
      hsized.batch, Option.bind_eq_bind, Option.bind_some, Option.pure_def]
  have hdispatch : (⟨w.submitted [], .dispatch 0 0⟩ : Thread φ).step .dispatch =
      some (⟨(w.submitted []).clearReceive, .loop⟩, .silent) := rfl
  refine ⟨_, _, .cons hsubmit (.cons hdispatch .nil), rfl, ⟨hsized.size, Nat.zero_le _⟩, rfl,
    ⟨w.unused, w.queued_unused⟩, ?_⟩
  rw [hqueued]
  exact List.prefix_append _ _

/-- The call of `e`, once the worker has a slot for it. -/
theorem Thread.step_call {w : Worker φ} {e : Enqueue φ} (huser : t.phase.user = true)
    (hw : t.worker.enqueue still e.fill = some w) :
    t.step (.call still e.call) = some (⟨w, t.phase⟩, .silent) := by
  rw [← Enqueue.call_eq] at hw
  rw [step, if_pos huser, hw]
  rfl

/-- Calls that clear their slots queue the same records wherever they are. -/
theorem Thread.calls_clear (hs : t.worker.Sized) (huser : t.phase.user = true)
    {es : List (Enqueue φ)} (hclears : ∀ e ∈ es, e.Clears) :
    ∃ w, (thread φ batchSz bufSz).Run t (callTrace es) ⟨w, t.phase⟩ ∧ w.Sized ∧
      w.queued = t.worker.queued ++ es.map (·.fill .zero) := by
  induction es generalizing t with
  | nil => exact ⟨t.worker, .nil, hs, (List.append_nil _).symm⟩
  | cons e es ih =>
      obtain ⟨slot, w, hw, hsized, hqueued, -⟩ := hs.enqueue still e.fill
      obtain ⟨w', hrun, hsized', hqueued'⟩ :=
        ih (t := ⟨w, t.phase⟩) hsized huser fun e he => hclears e (List.mem_cons_of_mem _ he)
      refine ⟨w', .cons (Thread.step_call huser hw) hrun, hsized', ?_⟩
      rw [hqueued', hqueued, (hclears e List.mem_cons_self).fill_eq slot .zero,
        List.append_assoc, List.map_cons, List.singleton_append]

/-- Calls with slots at hand work on these slots. -/
theorem Thread.calls_unused (hs : t.worker.Sized) (huser : t.phase.user = true)
    {es : List (Enqueue φ)} {slot : UpEvent φ} {slots : List (UpEvent φ)}
    (hslots : t.worker.unused = List.replicate es.length slot ++ slots) :
    ∃ w, (thread φ batchSz bufSz).Run t (callTrace es) ⟨w, t.phase⟩ ∧ w.Sized ∧
      w.queued = t.worker.queued ++ es.map (·.fill slot) := by
  induction es generalizing t with
  | nil => exact ⟨t.worker, .nil, hs, (List.append_nil _).symm⟩
  | cons e es ih =>
      obtain ⟨w, hw, hsized, hqueued, hunused, -⟩ := hs.enqueue_unused still e.fill hslots
      obtain ⟨w', hrun, hsized', hqueued'⟩ :=
        ih (t := ⟨w, t.phase⟩) hsized huser hunused
      refine ⟨w', .cons (Thread.step_call huser hw) hrun, hsized', ?_⟩
      rw [hqueued', hqueued, List.append_assoc, List.map_cons, List.singleton_append]

theorem sinceSubmit_calls (tr : List (Input φ × Output φ)) (es : List (Enqueue φ)) :
    sinceSubmit (tr ++ callTrace es) = sinceSubmit tr ++ es := by
  induction es generalizing tr with
  | nil => simp [callTrace]
  | cons e es ih =>
      rw [callTrace, List.map_cons, List.append_cons, ← callTrace, ih, sinceSubmit_snoc]
      simp

/-- From `loop_fn`, the calls `es` and the submit that starts the next turn. -/
theorem Thread.round (hloop : t.phase = .loop) {es : List (Enqueue φ)}
    {w : Worker φ} (hrun : (thread φ batchSz bufSz).Run t (callTrace es) ⟨w, t.phase⟩) :
    (thread φ batchSz bufSz).Run t (callTrace es ++ [(.loopDone, .silent)]) ⟨w, .top⟩ := by
  refine .snoc hrun ?_
  rw [hloop]
  rfl

/-- The slots were written to by a batch of `add_write` calls, and the calls `es` follow. -/
theorem reaches_over (v : ℕ) (es : List (Enqueue φ)) :
    ∃ tr t s batch, (thread φ batchSz bufSz).Reaches tr t ∧ sinceSubmit tr = es ∧
      t.step (.submit still []) = some (s, .submitted batch) ∧
      requests batch = es.map (·.fill (written v)) := by
  obtain ⟨w, hw, hsized, -⟩ :=
    Worker.upcallWorkerSetup_sized (φ := φ) still ⟨9, 0⟩ consecutive batchSz bufSz
  have hinit : (thread φ batchSz bufSz).Init ⟨w, .setup⟩ :=
    ⟨still, ⟨9, 0⟩, consecutive, hw, rfl⟩
  have hdone : (thread φ batchSz bufSz).step ⟨w, .setup⟩ .setupDone =
      some (⟨w, .top⟩, .silent) := rfl
  -- the batch of `add_write` calls
  have hwrites : ∀ e ∈ List.replicate es.length (Enqueue.addWrite 0 .null v none : Enqueue φ),
      e.Clears := by
    intro e he
    rw [List.eq_of_mem_replicate he]
    trivial
  obtain ⟨t₁, first, hturn₁, hloop₁, hsized₁, hqueued₁, -⟩ :=
    Thread.turn batchSz bufSz (t := ⟨w, .top⟩) hsized rfl
  obtain ⟨w₂, hcalls₂, hsized₂, hqueued₂⟩ :=
    Thread.calls_clear batchSz bufSz hsized₁ (by rw [hloop₁]; rfl) hwrites
  obtain ⟨t₃, second, hturn₃, hloop₃, hsized₃, hqueued₃, ⟨rest, hunused₃⟩, hsecond⟩ :=
    Thread.turn batchSz bufSz (t := ⟨w₂, .top⟩) hsized₂ rfl
  -- the calls `es` over what it left
  have hslots : ∃ slots, t₃.worker.unused = List.replicate es.length (written v) ++ slots := by
    obtain ⟨vec, hvec⟩ := hsecond
    refine ⟨vec ++ rest, ?_⟩
    rw [hunused₃, ← hvec, hqueued₂, hqueued₁, List.nil_append, List.map_replicate,
      List.append_assoc]
    rfl
  obtain ⟨slots, hslots⟩ := hslots
  obtain ⟨w₄, hcalls₄, hsized₄, hqueued₄⟩ :=
    Thread.calls_unused batchSz bufSz hsized₃ (by rw [hloop₃]; rfl) hslots
  obtain ⟨t₅, third, hturn₅, -⟩ :=
    Thread.turn batchSz bufSz (t := ⟨w₄, .top⟩) hsized₄ rfl
  obtain ⟨s, hsubmit, -⟩ : ∃ s, Thread.step ⟨w₄, .top⟩ (.submit still []) =
      some (s, .submitted third) ∧ _ := hturn₅.cons_inv
  have hreach := ((((Machine.Reaches.init hinit).step hdone).run hturn₁).run
    (Thread.round batchSz bufSz hloop₁ hcalls₂)).run hturn₃
  refine ⟨_, _, s, third, hreach.run (Thread.round batchSz bufSz hloop₃ hcalls₄), ?_, hsubmit, ?_⟩
  · rw [← List.append_assoc, sinceSubmit_snoc, sinceSubmit_calls]
    simp [sinceSubmit]
  · obtain ⟨batch, hbatch, hsubmitted⟩ := Thread.submitted hsized₄ hsubmit
    cases hbatch
    rw [hsubmitted.requests_eq, hqueued₄, hqueued₃, List.nil_append]
    exact requests_fills es (written v)

/-- The length that an earlier `add_write` left shows where a call does not clear. -/
theorem ResidueFree.clears {es : List (Enqueue φ)} (h : ResidueFree batchSz bufSz es) :
    ∀ e ∈ es, e.Clears := by
  intro e he
  obtain ⟨tr, t, s, batch, hreach, hsince, hsubmit, hrecords⟩ := reaches_over batchSz bufSz 0 es
  obtain ⟨tr', t', s', batch', hreach', hsince', hsubmit', hrecords'⟩ :=
    reaches_over batchSz bufSz 1 es
  have hsame := (h hreach hreach' hsince hsince' hsubmit hsubmit').requests
  rw [hrecords, hrecords'] at hsame
  have hrecord : e.fill (written 0) = e.fill (written 1) := List.map_inj_left.mp hsame e he
  by_contra hclears
  have hlen := congrArg UpEvent.len hrecord
  rw [Enqueue.fill_len hclears, Enqueue.fill_len hclears] at hlen
  cases hlen

end Written

/-- The records of a batch depend on the calls alone, every `UP_VEC` included, exactly
when each call clears its slot first: no `add_accept` and no `add_close`. -/
theorem residueFree_iff (batchSz bufSz : ℕ) (es : List (Enqueue φ)) :
    ResidueFree batchSz bufSz es ↔ ∀ e ∈ es, e.Clears := by
  constructor
  · intro h
    exact h.clears
  · intro h
    exact residueFree_of_clears h

/-- One `add_accept` is enough: its record keeps the length of an earlier `add_write`. -/
theorem not_residueFree : ¬ ResidueFree 1 8 [(.addAccept 4 none : Enqueue Unit)] := by
  intro h
  exact h.clears 1 8 _ List.mem_cons_self

end Upcalls.LibUpcall
