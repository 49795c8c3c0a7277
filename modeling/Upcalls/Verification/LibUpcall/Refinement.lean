import Upcalls.Verification.LibUpcall.Equations

/-! # The array queue refines the list queue

`receive` is walked by index while handlers run, so the completions still to be
dispatched are the part of `receive[0..ret)` behind the loop index.
-/

namespace Upcalls.LibUpcall

open Library

variable {φ : Type}

/-! ## The simulation relation -/

/-- The completions with a handler that the loop has not reached yet. -/
def Thread.undispatched (t : Thread φ) : List (UpEvent φ) :=
  match t.phase with
  | .dispatch i ret => ((t.worker.receive.take ret).drop i).filter (·.workFn.isSome)
  | .handler i ret => ((t.worker.receive.take ret).drop (i + 1)).filter (·.workFn.isSome)
  | .setup | .top | .loop => []

/-- The loop index stays within the completions, and these within `receive`. -/
def Thread.InRange (t : Thread φ) : Prop :=
  match t.phase with
  | .dispatch i ret => i ≤ ret ∧ ret ≤ t.worker.recvCnt
  | .handler i ret => i < ret ∧ ret ≤ t.worker.recvCnt
  | .setup | .top | .loop => True

structure Refines (t : Thread φ) (q : ListQueue φ) : Prop where
  bounded : t.worker.Bounded
  inRange : t.InRange
  pending : t.worker.queued.map UpEvent.request = q.pending
  returned : t.worker.bufCnt = q.returned
  undispatched : t.undispatched = q.undispatched

/-! ## One step -/

/-- A change of the request queue and of nothing else shows in `pending` only. -/
theorem Refines.enqueued {t : Thread φ} {q : ListQueue φ} (h : Refines t q) {e : UpEvent φ}
    {w : Worker φ} (hw : t.worker.Enqueued e w) :
    Refines { t with worker := w } { q with pending := q.pending ++ [e.request] } := by
  refine ⟨hw.bounded, ?_, ?_, ?_, ?_⟩
  · have := h.inRange
    simpa only [Thread.InRange, hw.recvCnt] using this
  · simp [hw.queued, h.pending]
  · rw [hw.bufCnt]
    exact h.returned
  · rw [← h.undispatched]
    simp only [Thread.undispatched, hw.receive]

theorem Refines.returnBuffer {t : Thread φ} {q : ListQueue φ} (h : Refines t q) {v : IoVec}
    {w : Worker φ} (hw : t.worker.Returned v w) :
    Refines { t with worker := w } { q with returned := q.returned + 1 } := by
  refine ⟨hw.bounded, ?_, ?_, ?_, ?_⟩
  · have := h.inRange
    simpa only [Thread.InRange, hw.recvCnt] using this
  · rw [hw.toSameQueue.queued]
    exact h.pending
  · rw [hw.count, h.returned]
  · rw [← h.undispatched]
    simp only [Thread.undispatched, hw.receive]

/-- A submit hands over the pending list and leaves every completion undispatched. -/
theorem Refines.submit {t t' : Thread φ} {q : ListQueue φ} (h : Refines t q)
    {r : Realloc φ} {completions : List (UpEvent φ)} {o : Output φ}
    (hstep : t.step (.submit r completions) = some (t', o)) :
    ∃ batch, o = .submitted batch ∧ batch.map UpEvent.request = q.batch ∧
      q.undispatched = [] ∧ Refines t' (.submitted completions) := by
  obtain ⟨htop, hlen, hphase, w, hg, rfl, hworker⟩ := Thread.submit_spec h.bounded hstep
  obtain ⟨w', hw', hbound, hqueued, hsame⟩ := Worker.gatherBuffers_spec h.bounded r
  cases hg.symm.trans hw'
  have hlen' : completions.length ≤ w.recvCnt := by rw [hsame.recvCnt]; exact hlen
  refine ⟨_, rfl, ?_, ?_, ?_⟩
  · rw [hqueued, List.map_append, h.pending, ListQueue.batch, ← h.returned]
    split <;> rfl
  · rw [← h.undispatched, Thread.undispatched, htop]
  · refine ⟨?_, ?_, ?_, ?_, ?_⟩
    · rw [hworker]
      exact Worker.submitted_bounded hbound hlen'
    · simp only [Thread.InRange, hphase, hworker]
      exact ⟨Nat.zero_le _, hlen'⟩
    · rw [hworker]
      simp [Worker.queued, Worker.submitted, ListQueue.submitted]
    · rw [hworker]
      rfl
    · simp only [Thread.undispatched, hphase, hworker]
      simp [Worker.submitted, ListQueue.submitted]

/-- The completions behind index `i` are the `i`-th one and those behind it. -/
theorem drop_take_eq_cons {xs : List (UpEvent φ)} {i ret : ℕ} {e : UpEvent φ}
    (hlt : i < ret) (he : xs[i]? = some e) :
    (xs.take ret).drop i = e :: (xs.take ret).drop (i + 1) := by
  obtain ⟨hi, rfl⟩ := List.getElem?_eq_some_iff.mp he
  have hi' : i < (xs.take ret).length := by
    rw [List.length_take]
    omega
  rw [List.drop_eq_getElem_cons hi', List.getElem_take]

/-- A turn of the loop dispatches the first undispatched completion, or none. -/
theorem Refines.dispatch {t t' : Thread φ} {q : ListQueue φ} (h : Refines t q)
    {o : Output φ} (hstep : t.step .dispatch = some (t', o)) :
    (o = .silent ∧ Refines t' q) ∨
      ∃ e rest, o = .dispatched e ∧ q.undispatched = e :: rest ∧
        Refines t' { q with undispatched := rest } := by
  obtain ⟨i, ret, hphase, ⟨hlt, e, he, hworker, hcases⟩ | ⟨hle, rfl, rfl⟩⟩ :=
    Thread.dispatch_spec hstep
  · have hrange := h.inRange
    simp only [Thread.InRange, hphase] at hrange
    have hund := h.undispatched
    simp only [Thread.undispatched, hphase, drop_take_eq_cons hlt he] at hund
    rcases hcases with ⟨hfn, hphase', rfl⟩ | ⟨hfn, hphase', rfl⟩
    · rw [List.filter_cons_of_neg (by simp [hfn])] at hund
      refine .inl ⟨rfl, hworker ▸ h.bounded, ?_, hworker ▸ h.pending, hworker ▸ h.returned, ?_⟩
      · simp only [Thread.InRange, hphase', hworker]
        omega
      · simp only [Thread.undispatched, hphase', hworker]
        exact hund
    · rw [List.filter_cons_of_pos (by simpa using hfn)] at hund
      refine .inr ⟨e, _, rfl, hund.symm, hworker ▸ h.bounded, ?_, hworker ▸ h.pending,
        hworker ▸ h.returned, ?_⟩
      · simp only [Thread.InRange, hphase', hworker]
        omega
      · simp only [Thread.undispatched, hphase', hworker]
  · refine .inl ⟨rfl, Worker.clearReceive_bounded h.bounded, trivial, h.pending, h.returned, ?_⟩
    rw [← h.undispatched]
    simp only [Thread.undispatched, hphase]
    rw [List.drop_eq_nil_of_le (by rw [List.length_take]; omega), List.filter_nil]

/-- A step that only moves on in the program shows nowhere. -/
theorem Refines.moves {t : Thread φ} {q : ListQueue φ} (h : Refines t q) {p : Phase}
    (hrange : Thread.InRange { t with phase := p })
    (hund : Thread.undispatched { t with phase := p } = t.undispatched) :
    Refines { t with phase := p } q :=
  ⟨h.bounded, hrange, h.pending, h.returned, hund.trans h.undispatched⟩

/-! ## All steps -/

theorem refines_init {batchSz bufSz : ℕ} (hb : 1 ≤ batchSz) (t : Thread φ)
    (ht : (thread φ batchSz bufSz).Init t) :
    ∃ q, (listQueue φ batchSz).Init q ∧ Refines t q := by
  obtain ⟨r, array, pool, hsetup, hphase⟩ := ht
  obtain ⟨w, hw, hbound, hqueued, hcnt, -⟩ :=
    Worker.upcallWorkerSetup_spec hb r array pool bufSz
  cases hsetup.symm.trans hw
  refine ⟨_, rfl, hbound, ?_, ?_, hcnt, ?_⟩
  · simp [Thread.InRange, hphase]
  · rw [hqueued]
    rfl
  · simp [Thread.undispatched, hphase]

theorem refines_simulates {batchSz bufSz : ℕ} (hb : 1 ≤ batchSz) :
    Machine.Simulates (thread φ batchSz bufSz) (listQueue φ batchSz) observe Refines where
  init := refines_init hb
  hidden := by
    intro t t' q a o h hstep hobs
    cases a with
    | call r c =>
        simp only [observe] at hobs
        split at hobs <;> simp at hobs
    | setupDone =>
        obtain ⟨hphase, rfl, rfl⟩ := Thread.setupDone_spec hstep
        exact h.moves trivial (by simp [Thread.undispatched, hphase])
    | submit r completions =>
        obtain ⟨batch, rfl, -⟩ := h.submit hstep
        simp [observe] at hobs
    | dispatch =>
        obtain ⟨rfl, hR⟩ | ⟨e, rest, rfl, -⟩ := h.dispatch hstep
        · exact hR
        · simp [observe] at hobs
    | handlerDone =>
        obtain ⟨i, ret, hphase, rfl, rfl⟩ := Thread.handlerDone_spec hstep
        refine h.moves ?_ (by simp [Thread.undispatched, hphase])
        have hrange := h.inRange
        simp only [Thread.InRange, hphase] at hrange ⊢
        omega
    | loopDone =>
        obtain ⟨hphase, rfl, rfl⟩ := Thread.loopDone_spec hstep
        exact h.moves trivial (by simp [Thread.undispatched, hphase])
  visible := by
    intro t t' q a o b p h hstep hobs
    cases a with
    | call r c =>
        obtain ⟨-, hphase, rfl, hcall⟩ := Thread.call_spec hstep
        have ht' : t' = { t with worker := t'.worker } := by
          rw [← hphase]
        rw [ht']
        cases hc : c.request with
        | some req =>
            simp only [observe, hc, Option.some.injEq, Prod.mk.injEq] at hobs
            obtain ⟨rfl, rfl⟩ := hobs
            obtain ⟨e, w, hw, hq, rfl, -⟩ := Worker.call_request_spec h.bounded r hc
            cases hcall.symm.trans hw
            exact ⟨_, rfl, h.enqueued hq⟩
        | none =>
            simp only [observe, hc, Option.some.injEq, Prod.mk.injEq] at hobs
            obtain ⟨rfl, rfl⟩ := hobs
            obtain ⟨buf, len, rfl⟩ := Call.request_eq_none hc
            obtain ⟨w, hw, hret⟩ := Worker.returnBuffer_spec h.bounded r buf len
            cases hcall.symm.trans hw
            exact ⟨_, rfl, h.returnBuffer hret⟩
    | setupDone => simp [observe] at hobs
    | submit r completions =>
        obtain ⟨batch, rfl, hbatch, hnil, hR⟩ := h.submit hstep
        simp only [observe, Option.some.injEq, Prod.mk.injEq] at hobs
        obtain ⟨rfl, rfl⟩ := hobs
        exact ⟨_, by simp [listQueue, ListQueue.step, hnil, hbatch], hR⟩
    | dispatch =>
        obtain ⟨rfl, -⟩ | ⟨e, rest, rfl, hcons, hR⟩ := h.dispatch hstep
        · simp [observe] at hobs
        · simp only [observe, Option.some.injEq, Prod.mk.injEq] at hobs
          obtain ⟨rfl, rfl⟩ := hobs
          exact ⟨_, by simp [listQueue, ListQueue.step, hcons], hR⟩
    | handlerDone => simp [observe] at hobs
    | loopDone => simp [observe] at hobs

/-! ## No access outside the arrays -/

/-- What holds of the arrays between any two steps of a worker. -/
structure Thread.Sound (t : Thread φ) : Prop where
  work_cnt : t.worker.workCnt ≤ t.worker.workMax
  work_size : t.worker.work.length = t.worker.workMax
  buf_cnt : t.worker.bufCnt ≤ t.worker.bufMax
  iovs_size : t.worker.iovs.length = t.worker.bufMax
  /-- A call never writes outside the arrays, and whatever it grows, the entries already
  there stay. -/
  call : t.phase.user = true → ∀ r c, ∃ w, t.step (.call r c) = some (⟨w, t.phase⟩, .silent) ∧
    t.worker.queued <+: w.queued ∧ t.worker.listed <+: w.listed
  submit : t.phase = .top → ∀ r completions, completions.length ≤ t.worker.recvCnt →
    (t.step (.submit r completions)).isSome
  dispatch : ∀ i ret, t.phase = .dispatch i ret → (t.step .dispatch).isSome

theorem Refines.sound {t : Thread φ} {q : ListQueue φ} (h : Refines t q) : t.Sound where
  work_cnt := h.bounded.work_cnt
  work_size := h.bounded.work_size
  buf_cnt := h.bounded.buf_cnt
  iovs_size := h.bounded.iovs_size
  call := by
    intro huser r c
    obtain ⟨w, hw⟩ := Option.isSome_iff_exists.mp (Worker.call_isSome h.bounded r c)
    obtain ⟨-, hqueued, hlisted⟩ := Worker.call_prefix h.bounded hw
    exact ⟨w, by simp [Thread.step, huser, hw], hqueued, hlisted⟩
  submit := by
    intro htop r completions hlen
    obtain ⟨w, hw, hbound, -⟩ := Worker.gatherBuffers_spec h.bounded r
    simp [Thread.step, Thread.submit, htop, hlen, hw, Worker.batch_spec hbound]
  dispatch := by
    intro i ret hphase
    have hrange := h.inRange
    simp only [Thread.InRange, hphase] at hrange
    simp only [Thread.step, Thread.dispatch, hphase]
    split
    · rename_i hlt
      have hi : i < t.worker.receive.length := by rw [h.bounded.receive_size]; omega
      rw [List.getElem?_eq_getElem hi]
      rfl
    · rfl

/-- Every run of a worker is, as its users and the kernel see it, a run of the list
queue, and it never leaves the arrays. -/
theorem thread_refines_listQueue {batchSz bufSz : ℕ} (hb : 1 ≤ batchSz)
    {tr : List (Input φ × Output φ)} {t : Thread φ}
    (h : (thread φ batchSz bufSz).Reaches tr t) :
    (∃ q, (listQueue φ batchSz).Reaches (tr.filterMap observe) q ∧ Refines t q) ∧ t.Sound := by
  obtain ⟨q, hq, hR⟩ := (refines_simulates hb).reaches h
  exact ⟨⟨q, hq, hR⟩, hR.sound⟩

/-! ## A small worker -/

/-- A pool of consecutive blocks. -/
def consecutive : Blocks where
  addr i := ⟨i + 10, 0⟩
  distinct := by
    intro i j h
    simpa using h

def moved : Realloc Unit := ⟨⟨7, 0⟩, fun _ => UpEvent.zero, fun _ => ⟨.null, 0⟩⟩

/-- A worker with room for one request and with one buffer, before `setup_fn`. -/
def smallThread : Thread Unit where
  worker := (Worker.upcallWorkerSetup moved ⟨9, 0⟩ consecutive 1 8).get rfl
  phase := .setup

theorem smallThread_init : (thread Unit 1 8).Init smallThread :=
  ⟨moved, ⟨9, 0⟩, consecutive, rfl, rfl⟩

/-- The first turn: setup queues an accept behind the `UP_VEC`, a read completes into the
pool buffer, and its handler grows the queue and returns the buffer. -/
def firstTurn : List (Input Unit) :=
  [.call moved (.addAccept 4 (some ())), .setupDone,
    .submit moved [⟨5, 8, ⟨10, 0⟩, 8, some (), .upRead, 0⟩], .dispatch,
    .call moved (.addWrite 5 ⟨10, 0⟩ 8 (some ())), .call moved (.addRead 5 (some ())),
    .call moved (.returnBuffer ⟨10, 0⟩ 8), .handlerDone, .dispatch, .loopDone,
    .submit moved []]

theorem thread_refines_listQueue_firstTurn :
    ∃ tr t, (thread Unit 1 8).Reaches tr t ∧ tr.length = 11 ∧
      (∃ q, (listQueue Unit 1).Reaches (tr.filterMap observe) q ∧ Refines t q) ∧ t.Sound := by
  have hrun : ((thread Unit 1 8).exec smallThread firstTurn).isSome := rfl
  have hreach := Machine.reaches_exec_get smallThread_init hrun
  exact ⟨_, _, hreach, rfl, thread_refines_listQueue (by decide) hreach⟩

end Upcalls.LibUpcall
