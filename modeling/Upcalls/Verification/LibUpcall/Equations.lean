import Upcalls.Model.ListQueue

/-! # What one call does to the arrays

One specification for each operation of `Upcalls.LibUpcall.Worker`. They are stated
for a worker within its bounds, and every operation keeps a worker within them.
-/

namespace Upcalls.LibUpcall

open Library

variable {φ : Type}

/-- Only `return_buffer` makes no request. -/
theorem Call.request_eq_none {c : Call φ} (h : c.request = none) :
    ∃ buf len, c = .returnBuffer buf len := by
  cases c <;> simp_all [Call.request]

/-- The record that `add_buffers` queues. -/
def UpEvent.vec (bufs : Ptr) (cnt : ℕ) : UpEvent φ :=
  { (UpEvent.zero : UpEvent φ) with type := .upVec, buf := bufs, len := cnt }

namespace Worker

/-! ## The filled parts of the arrays -/

/-- The requests queued since the last submit. -/
def queued (w : Worker φ) : List (UpEvent φ) := w.work.take w.workCnt

/-- The buffers returned since the last submit: `buffers[0..buf_cnt)`. -/
def listed (w : Worker φ) : List IoVec := w.iovs.take w.bufCnt

/-- Counters stay within capacities, and capacities are the sizes of the blocks. -/
structure Bounded (w : Worker φ) : Prop where
  work_size : w.work.length = w.workMax
  work_cnt : w.workCnt ≤ w.workMax
  iovs_size : w.iovs.length = w.bufMax
  buf_cnt : w.bufCnt ≤ w.bufMax
  buf_max : 0 < w.bufMax
  receive_size : w.receive.length = w.recvCnt

/-- The queue is within its array. -/
structure Sized (w : Worker φ) : Prop where
  size : w.work.length = w.workMax
  cnt : w.workCnt ≤ w.workMax

theorem Bounded.sized {w : Worker φ} (h : w.Bounded) : w.Sized := ⟨h.work_size, h.work_cnt⟩

/-! ## Queueing a request -/

/-- The slots behind the queue. -/
def unused (w : Worker φ) : List (UpEvent φ) := w.work.drop w.workCnt

theorem queued_unused (w : Worker φ) : w.work = w.queued ++ w.unused :=
  (List.take_append_drop _ _).symm

/-- Everything but the request queue agrees. -/
structure SamePool (w w' : Worker φ) : Prop where
  receive : w'.receive = w.receive
  recvCnt : w'.recvCnt = w.recvCnt
  buffers : w'.buffers = w.buffers
  iovs : w'.iovs = w.iovs
  bufCnt : w'.bufCnt = w.bufCnt
  bufMax : w'.bufMax = w.bufMax

theorem SamePool.refl (w : Worker φ) : w.SamePool w := ⟨rfl, rfl, rfl, rfl, rfl, rfl⟩

theorem SamePool.trans {w v u : Worker φ} (h : w.SamePool v) (h' : v.SamePool u) :
    w.SamePool u :=
  ⟨h'.receive.trans h.receive, h'.recvCnt.trans h.recvCnt, h'.buffers.trans h.buffers,
    h'.iovs.trans h.iovs, h'.bufCnt.trans h.bufCnt, h'.bufMax.trans h.bufMax⟩

theorem SamePool.listed {w w' : Worker φ} (h : w.SamePool w') : w'.listed = w.listed := by
  rw [Worker.listed, h.iovs, h.bufCnt, Worker.listed]

/-- `w'` is `w` with one more record queued. -/
structure Enqueued (w : Worker φ) (e : UpEvent φ) (w' : Worker φ) : Prop
    extends w.SamePool w' where
  bounded : w'.Bounded
  queued : w'.queued = w.queued ++ [e]

theorem Bounded.of_sized {w w' : Worker φ} (h : w.Bounded) (hsame : w.SamePool w')
    (hsized : w'.Sized) : w'.Bounded where
  work_size := hsized.size
  work_cnt := hsized.cnt
  iovs_size := by rw [hsame.iovs, hsame.bufMax]; exact h.iovs_size
  buf_cnt := by rw [hsame.bufCnt, hsame.bufMax]; exact h.buf_cnt
  buf_max := by rw [hsame.bufMax]; exact h.buf_max
  receive_size := by rw [hsame.receive, hsame.recvCnt]; exact h.receive_size

/-- A slot that is there is used. -/
theorem Sized.enqueue_unused {w : Worker φ} (h : w.Sized) (r : Realloc φ)
    (fill : UpEvent φ → UpEvent φ) {slot : UpEvent φ} {slots : List (UpEvent φ)}
    (hslots : w.unused = slot :: slots) :
    ∃ w', w.enqueue r fill = some w' ∧ w'.Sized ∧ w'.queued = w.queued ++ [fill slot] ∧
      w'.unused = slots ∧ w.SamePool w' := by
  have hlt : w.workCnt < w.work.length := by
    by_contra hge
    rw [unused, List.drop_eq_nil_of_le (Nat.le_of_not_lt hge)] at hslots
    cases hslots
  have hslot : w.work[w.workCnt] = slot ∧ w.work.drop (w.workCnt + 1) = slots := by
    rw [unused, List.drop_eq_getElem_cons hlt] at hslots
    exact List.cons.inj hslots
  have hroom : w.workCnt ≠ w.workMax := by
    rw [← h.size]
    exact Nat.ne_of_lt hlt
  refine ⟨{ w with work := w.work.set w.workCnt (fill slot), workCnt := w.workCnt + 1 },
    ?_, ⟨?_, ?_⟩, ?_, ?_, ⟨rfl, rfl, rfl, rfl, rfl, rfl⟩⟩
  · rw [enqueue, if_neg hroom, List.getElem?_eq_getElem hlt, hslot.1]
    rfl
  · rw [List.length_set, h.size]
  · rw [h.size] at hlt
    exact hlt
  · exact take_succ_set hlt _
  · rw [unused, List.drop_set_of_lt (Nat.lt_succ_self _), hslot.2]

theorem Sized.unused_ne_nil {w : Worker φ} (h : w.Sized) (hroom : w.workCnt ≠ w.workMax) :
    w.unused ≠ [] := by
  intro hnil
  have hlength := congrArg List.length hnil
  have hcnt := h.cnt
  simp only [unused, List.length_drop, List.length_nil, h.size] at hlength
  omega

theorem Sized.expandQueue {w : Worker φ} (h : w.Sized) (r : Realloc φ) :
    (w.expandQueue r).Sized ∧ (w.expandQueue r).queued = w.queued ∧
      (w.expandQueue r).workCnt ≠ (w.expandQueue r).workMax := by
  have hle : w.work.length ≤ w.workMax + EVTS := by
    rw [h.size]
    exact Nat.le_add_right _ _
  have hcnt := h.cnt
  refine ⟨⟨?_, ?_⟩, ?_, ?_⟩
  · exact length_realloc _ _ _
  · exact Nat.le_trans hcnt (Nat.le_add_right _ _)
  · exact take_realloc hle (by rw [h.size]; exact hcnt) r.slot
  · simp only [Worker.expandQueue, EVTS]
    omega

/-- Filling the next slot never leaves the block: a full queue was grown first. -/
theorem Sized.enqueue {w : Worker φ} (h : w.Sized) (r : Realloc φ)
    (fill : UpEvent φ → UpEvent φ) :
    ∃ slot w', w.enqueue r fill = some w' ∧ w'.Sized ∧ w'.queued = w.queued ++ [fill slot] ∧
      w.SamePool w' := by
  by_cases hfull : w.workCnt = w.workMax
  · obtain ⟨hsized, hqueued, hroom⟩ := h.expandQueue r
    obtain ⟨slot, slots, hslots⟩ := List.exists_cons_of_ne_nil (hsized.unused_ne_nil hroom)
    obtain ⟨w', hw', hsized', hqueued', -, hsame⟩ := hsized.enqueue_unused r fill hslots
    have hgrown : w.SamePool (w.expandQueue r) := ⟨rfl, rfl, rfl, rfl, rfl, rfl⟩
    refine ⟨slot, w', ?_, hsized', ?_, hgrown.trans hsame⟩
    · rw [Worker.enqueue, if_pos hfull]
      rw [Worker.enqueue, if_neg hroom] at hw'
      exact hw'
    · rw [hqueued', hqueued]
  · obtain ⟨slot, slots, hslots⟩ := List.exists_cons_of_ne_nil (h.unused_ne_nil hfull)
    obtain ⟨w', hw', hsized', hqueued', -, hsame⟩ := h.enqueue_unused r fill hslots
    exact ⟨slot, w', hw', hsized', hqueued', hsame⟩

theorem enqueue_spec {w : Worker φ} (h : w.Bounded) (r : Realloc φ)
    (fill : UpEvent φ → UpEvent φ) :
    ∃ slot w', w.enqueue r fill = some w' ∧ w.Enqueued (fill slot) w' := by
  obtain ⟨slot, w', hw', hsized, hqueued, hsame⟩ := h.sized.enqueue r fill
  exact ⟨slot, w', hw', hsame, h.of_sized hsame hsized, hqueued⟩

/-! ## Returning a buffer -/

/-- Everything but the pool of returned buffers agrees. -/
structure SameQueue (w w' : Worker φ) : Prop where
  work : w'.work = w.work
  workCnt : w'.workCnt = w.workCnt
  workMax : w'.workMax = w.workMax
  receive : w'.receive = w.receive
  recvCnt : w'.recvCnt = w.recvCnt

theorem SameQueue.queued {w w' : Worker φ} (h : w.SameQueue w') : w'.queued = w.queued := by
  rw [Worker.queued, h.work, h.workCnt, Worker.queued]

/-- `w'` is `w` with one more buffer listed. -/
structure Returned (w : Worker φ) (v : IoVec) (w' : Worker φ) : Prop
    extends w.SameQueue w' where
  bounded : w'.Bounded
  listed : w'.listed = w.listed ++ [v]
  count : w'.bufCnt = w.bufCnt + 1

theorem growBuffers_bounded {w : Worker φ} (h : w.Bounded) (r : Realloc φ) :
    (w.growBuffers r).Bounded ∧ (w.growBuffers r).listed = w.listed := by
  have hle : w.iovs.length ≤ w.bufMax * 2 := by rw [h.iovs_size]; omega
  have hcnt : w.bufCnt ≤ w.iovs.length := by rw [h.iovs_size]; exact h.buf_cnt
  have hmax := h.buf_max
  have hb := h.buf_cnt
  refine ⟨⟨h.work_size, h.work_cnt, by simp [growBuffers], ?_, ?_, h.receive_size⟩, ?_⟩
  · simp only [growBuffers]; omega
  · simp only [growBuffers]; omega
  · exact take_realloc hle hcnt r.iov

theorem returnBuffer_spec {w : Worker φ} (h : w.Bounded) (r : Realloc φ) (buf : Ptr)
    (len : ℕ) :
    ∃ w', w.returnBuffer r buf len = some w' ∧ w.Returned ⟨buf, len⟩ w' := by
  obtain ⟨v, hv, hbound, hlisted, hroom, hcnt, hsame⟩ :
      ∃ v : Worker φ, v = (if w.bufCnt = w.bufMax then w.growBuffers r else w) ∧
        v.Bounded ∧ v.listed = w.listed ∧ v.bufCnt < v.iovs.length ∧ v.bufCnt = w.bufCnt ∧
        w.SameQueue v := by
    refine ⟨_, rfl, ?_⟩
    split
    · rename_i hfull
      obtain ⟨hb, hl⟩ := growBuffers_bounded h r
      refine ⟨hb, hl, ?_, rfl, ⟨rfl, rfl, rfl, rfl, rfl⟩⟩
      have := h.buf_max
      simp only [growBuffers, length_realloc]
      omega
    · rename_i hfull
      refine ⟨h, rfl, ?_, rfl, ⟨rfl, rfl, rfl, rfl, rfl⟩⟩
      rw [h.iovs_size]
      exact Nat.lt_of_le_of_ne h.buf_cnt hfull
  refine ⟨{ v with iovs := v.iovs.set v.bufCnt ⟨buf, len⟩, bufCnt := v.bufCnt + 1 }, ?_, ?_⟩
  · simp only [returnBuffer, ← hv, List.getElem?_eq_getElem hroom, Option.map_some]
  · refine ⟨⟨hsame.work, hsame.workCnt, hsame.workMax, hsame.receive, hsame.recvCnt⟩,
      ⟨hbound.work_size, hbound.work_cnt, by simpa using hbound.iovs_size, ?_,
        hbound.buf_max, hbound.receive_size⟩, ?_, by simp [hcnt]⟩
    · have := hbound.iovs_size
      simp only
      omega
    · rw [← hlisted]
      exact take_succ_set hroom _

/-! ## The calls of user code -/

/-- An `add_*` call queues the record of its request and touches nothing else. -/
theorem call_request_spec {w : Worker φ} (h : w.Bounded) (r : Realloc φ) {c : Call φ}
    {req : Request φ} (hc : c.request = some req) :
    ∃ e w', w.call r c = some w' ∧ w.Enqueued e w' ∧ e.request = req ∧ e.type ≠ .upVec := by
  cases c with
  | addRead fd workFn =>
      obtain ⟨slot, w', hw', hq⟩ := enqueue_spec h r
        (fun _ => { (UpEvent.zero : UpEvent φ) with fd := fd, type := .upRead, workFn := workFn })
      exact ⟨_, w', hw', hq, Option.some.inj hc, by simp⟩
  | addWrite fd buf len workFn =>
      obtain ⟨slot, w', hw', hq⟩ := enqueue_spec h r
        (fun _ => { (UpEvent.zero : UpEvent φ) with
          fd := fd, buf := buf, len := len, type := .upWrite, workFn := workFn })
      exact ⟨_, w', hw', hq, Option.some.inj hc, by simp⟩
  | addAccept fd workFn =>
      obtain ⟨slot, w', hw', hq⟩ := enqueue_spec h r
        (fun slot => { slot with fd := fd, type := .upAccept, workFn := workFn })
      exact ⟨_, w', hw', hq, Option.some.inj hc, by simp⟩
  | addClose fd =>
      obtain ⟨slot, w', hw', hq⟩ := enqueue_spec h r
        (fun slot => { slot with fd := fd, type := .upClose, workFn := none })
      exact ⟨_, w', hw', hq, Option.some.inj hc, by simp⟩
  | returnBuffer buf len => simp [Call.request] at hc

/-- No call leaves the blocks it works on. -/
theorem call_isSome {w : Worker φ} (h : w.Bounded) (r : Realloc φ) (c : Call φ) :
    (w.call r c).isSome := by
  cases hc : c.request with
  | some req =>
      obtain ⟨e, w', hw', -⟩ := call_request_spec h r hc
      simp [hw']
  | none =>
      obtain ⟨buf, len, rfl⟩ := Call.request_eq_none hc
      obtain ⟨w', hw', -⟩ := returnBuffer_spec h r buf len
      simp [call, hw']

/-- Whatever a call grows, the records and buffers already there stay in place. -/
theorem call_prefix {w w' : Worker φ} (h : w.Bounded) {r : Realloc φ} {c : Call φ}
    (hw : w.call r c = some w') :
    w'.Bounded ∧ w.queued <+: w'.queued ∧ w.listed <+: w'.listed := by
  cases hc : c.request with
  | some req =>
      obtain ⟨e, v, hv, hq, -⟩ := call_request_spec h r hc
      cases hw.symm.trans hv
      refine ⟨hq.bounded, hq.queued ▸ List.prefix_append _ _, ?_⟩
      exact hq.toSamePool.listed ▸ List.prefix_refl _
  | none =>
      obtain ⟨buf, len, rfl⟩ := Call.request_eq_none hc
      obtain ⟨v, hv, hret⟩ := returnBuffer_spec h r buf len
      cases hw.symm.trans hv
      refine ⟨hret.bounded, ?_, hret.listed ▸ List.prefix_append _ _⟩
      exact hret.toSameQueue.queued ▸ List.prefix_refl _

/-! ## Setup and submit -/

theorem upcallWorkerSetup_sized (r : Realloc φ) (array : Ptr) (pool : Blocks)
    (batchSz bufSz : ℕ) :
    ∃ w, upcallWorkerSetup r array pool batchSz bufSz = some w ∧ w.Sized ∧
      w.queued = [.vec array batchSz] ∧ w.receive.length = w.recvCnt ∧
      w.bufCnt = 0 ∧ w.bufMax = batchSz ∧ w.buffers = array ∧
      w.iovs = (pool.firsts batchSz).map fun base => ⟨base, bufSz⟩ := by
  have hsized : Sized
      { work := List.replicate batchSz (UpEvent.zero : UpEvent φ), workCnt := 0
        workMax := batchSz, receive := List.replicate batchSz UpEvent.zero
        recvCnt := batchSz, buffers := array
        iovs := (pool.firsts batchSz).map fun base => (⟨base, bufSz⟩ : IoVec)
        bufCnt := 0, bufMax := batchSz } :=
    ⟨List.length_replicate, Nat.zero_le _⟩
  obtain ⟨slot, w, hw, hsized', hqueued, hsame⟩ :=
    hsized.enqueue r (fun _ => .vec array batchSz)
  refine ⟨w, hw, hsized', ?_, ?_, hsame.bufCnt, hsame.bufMax, hsame.buffers, hsame.iovs⟩
  · rw [hqueued]
    rfl
  · rw [hsame.receive, hsame.recvCnt]
    exact List.length_replicate

theorem upcallWorkerSetup_spec {batchSz : ℕ} (hb : 1 ≤ batchSz) (r : Realloc φ) (array : Ptr)
    (pool : Blocks) (bufSz : ℕ) :
    ∃ w, upcallWorkerSetup r array pool batchSz bufSz = some w ∧ w.Bounded ∧
      w.queued = [.vec array batchSz] ∧
      w.bufCnt = 0 ∧ w.bufMax = batchSz ∧ w.buffers = array ∧
      w.iovs = (pool.firsts batchSz).map fun base => ⟨base, bufSz⟩ := by
  obtain ⟨w, hw, hsized, hqueued, hreceive, hcnt, hmax, hbuffers, hiovs⟩ :=
    upcallWorkerSetup_sized (φ := φ) r array pool batchSz bufSz
  refine ⟨w, hw, ⟨hsized.size, hsized.cnt, ?_, ?_, ?_, hreceive⟩, hqueued, hcnt, hmax, hbuffers,
    hiovs⟩
  · rw [hiovs, hmax]
    simp
  · rw [hcnt]
    exact Nat.zero_le _
  · rw [hmax]
    exact hb

/-- The batch of a submit is the queue, with an `UP_VEC` of the current array behind it
when buffers came back. -/
theorem Sized.gatherBuffers {w : Worker φ} (h : w.Sized) (r : Realloc φ) :
    ∃ w', w.gatherBuffers r = some w' ∧ w'.Sized ∧
      w'.queued = w.queued ++ (if 0 < w.bufCnt then [.vec w.buffers w.bufCnt] else []) ∧
      w.SamePool w' := by
  rw [Worker.gatherBuffers]
  split
  · obtain ⟨slot, w', hw', hsized, hqueued, hsame⟩ :=
      h.enqueue r (fun _ => .vec w.buffers w.bufCnt)
    exact ⟨w', hw', hsized, hqueued, hsame⟩
  · exact ⟨w, rfl, h, (List.append_nil _).symm, .refl w⟩

theorem gatherBuffers_spec {w : Worker φ} (h : w.Bounded) (r : Realloc φ) :
    ∃ w', w.gatherBuffers r = some w' ∧ w'.Bounded ∧
      w'.queued = w.queued ++ (if 0 < w.bufCnt then [.vec w.buffers w.bufCnt] else []) ∧
      w.SamePool w' := by
  obtain ⟨w', hw', hsized, hqueued, hsame⟩ := h.sized.gatherBuffers r
  exact ⟨w', hw', h.of_sized hsame hsized, hqueued, hsame⟩

theorem Sized.batch {w : Worker φ} (h : w.Sized) : w.batch = some w.queued := by
  have hle : w.workCnt ≤ w.work.length := by rw [h.size]; exact h.cnt
  simp [Worker.batch, hle, queued]

theorem batch_spec {w : Worker φ} (h : w.Bounded) : w.batch = some w.queued := h.sized.batch

theorem submitted_bounded {w : Worker φ} (h : w.Bounded) {completions : List (UpEvent φ)}
    (hlen : completions.length ≤ w.recvCnt) : (w.submitted completions).Bounded := by
  refine ⟨h.work_size, by simp [submitted], h.iovs_size, by simp [submitted], h.buf_max, ?_⟩
  have := h.receive_size
  simp only [submitted, List.length_append, List.length_drop]
  omega

theorem clearReceive_bounded {w : Worker φ} (h : w.Bounded) : w.clearReceive.Bounded :=
  ⟨h.work_size, h.work_cnt, h.iovs_size, h.buf_cnt, h.buf_max, by simp [clearReceive]⟩

end Worker

/-! ## What one step of the thread can do -/

namespace Thread

/-- A submit gathers the buffers, hands over the queue and empties both arrays. -/
theorem submit_spec {t t' : Thread φ} {o : Output φ} {r : Realloc φ}
    {completions : List (UpEvent φ)} (hw : t.worker.Bounded)
    (h : t.step (.submit r completions) = some (t', o)) :
    t.phase = .top ∧ completions.length ≤ t.worker.recvCnt ∧
      t'.phase = .dispatch 0 completions.length ∧
      ∃ w, t.worker.gatherBuffers r = some w ∧ o = .submitted w.queued ∧
        t'.worker = w.submitted completions := by
  simp only [step, submit] at h
  split at h
  · rename_i hguard
    obtain ⟨w, hg, hbound, -⟩ := Worker.gatherBuffers_spec hw r
    simp only [hg, Worker.batch_spec hbound, Option.bind_eq_bind, Option.bind_some,
      Option.pure_def, Option.some.injEq, Prod.mk.injEq] at h
    obtain ⟨rfl, rfl⟩ := h
    exact ⟨hguard.1, hguard.2, rfl, w, hg, rfl, rfl⟩
  · simp at h

/-- One turn of the loop skips a completion without a handler, calls a handler, or ends
the loop. -/
theorem dispatch_spec {t t' : Thread φ} {o : Output φ}
    (h : t.step .dispatch = some (t', o)) :
    ∃ i ret, t.phase = .dispatch i ret ∧
      ((i < ret ∧ ∃ e, t.worker.receive[i]? = some e ∧ t'.worker = t.worker ∧
          ((e.workFn.isSome = false ∧ t'.phase = .dispatch (i + 1) ret ∧ o = .silent) ∨
            (e.workFn.isSome = true ∧ t'.phase = .handler i ret ∧ o = .dispatched e))) ∨
        (ret ≤ i ∧ t' = ⟨t.worker.clearReceive, .loop⟩ ∧ o = .silent)) := by
  simp only [step, dispatch] at h
  split at h
  · rename_i i ret hphase
    refine ⟨i, ret, hphase, ?_⟩
    split at h
    · rename_i hlt
      obtain ⟨e, he, hres⟩ := Option.map_eq_some_iff.mp h
      refine .inl ⟨hlt, e, he, ?_⟩
      split at hres <;> rename_i hfn <;> obtain ⟨rfl, rfl⟩ := Prod.mk.inj hres <;> simp [hfn]
    · rename_i hge
      obtain ⟨rfl, rfl⟩ := Prod.mk.inj (Option.some.inj h)
      exact .inr ⟨Nat.le_of_not_lt hge, rfl, rfl⟩
  · simp at h

theorem call_spec {t t' : Thread φ} {o : Output φ} {r : Realloc φ} {c : Call φ}
    (h : t.step (.call r c) = some (t', o)) :
    t.phase.user = true ∧ t'.phase = t.phase ∧ o = .silent ∧
      t.worker.call r c = some t'.worker := by
  simp only [step] at h
  split at h
  · rename_i huser
    obtain ⟨w, hw, hres⟩ := Option.map_eq_some_iff.mp h
    obtain ⟨rfl, rfl⟩ := Prod.mk.inj hres
    exact ⟨huser, rfl, rfl, hw⟩
  · simp at h

theorem setupDone_spec {t t' : Thread φ} {o : Output φ}
    (h : t.step .setupDone = some (t', o)) :
    t.phase = .setup ∧ t' = { t with phase := .top } ∧ o = .silent := by
  simp only [step] at h
  split at h
  · rename_i hphase
    obtain ⟨rfl, rfl⟩ := Prod.mk.inj (Option.some.inj h)
    exact ⟨hphase, rfl, rfl⟩
  · simp at h

theorem handlerDone_spec {t t' : Thread φ} {o : Output φ}
    (h : t.step .handlerDone = some (t', o)) :
    ∃ i ret, t.phase = .handler i ret ∧ t' = { t with phase := .dispatch (i + 1) ret } ∧
      o = .silent := by
  simp only [step] at h
  split at h
  · rename_i i ret hphase
    obtain ⟨rfl, rfl⟩ := Prod.mk.inj (Option.some.inj h)
    exact ⟨i, ret, hphase, rfl, rfl⟩
  · simp at h

theorem loopDone_spec {t t' : Thread φ} {o : Output φ}
    (h : t.step .loopDone = some (t', o)) :
    t.phase = .loop ∧ t' = { t with phase := .top } ∧ o = .silent := by
  simp only [step] at h
  split at h
  · rename_i hphase
    obtain ⟨rfl, rfl⟩ := Prod.mk.inj (Option.some.inj h)
    exact ⟨hphase, rfl, rfl⟩
  · simp at h

end Thread

end Upcalls.LibUpcall
