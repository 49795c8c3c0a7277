import Upcalls.Verification.LibUpcall.Custody

/-! # The first batch

`upcall_worker_setup` queues an `UP_VEC` of the whole pool and puts `buf_cnt` back to 0.
A `return_buffer` of `setup_fn` then fills the array from the front, which the queued
`UP_VEC` still points at.
-/

namespace Upcalls.LibUpcall

open Library

variable {φ : Type}

/-- The worker at its first `upcall_submit`, after `setup_fn` made `calls`. -/
def Worker.firstSubmit (r : Realloc φ) (array : Ptr) (pool : Blocks) (batchSz bufSz : ℕ)
    (calls : List (Realloc φ × Call φ)) : Option (Worker φ) := do
  let w ← upcallWorkerSetup r array pool batchSz bufSz
  let w ← calls.foldlM (fun w c => w.call c.1 c.2) w
  w.gatherBuffers r

def Call.returned : Call φ → Option IoVec
  | .returnBuffer buf len => some ⟨buf, len⟩
  | _ => none

/-- The buffers that the calls return. -/
def returnedBy (calls : List (Realloc φ × Call φ)) : List IoVec :=
  calls.filterMap fun c => c.2.returned

/-- The `UP_VEC`s of the batch point at the live array and hand over each of `bufs`
exactly once. -/
def Worker.HandsOver (w : Worker φ) (bufs : List Ptr) : Prop :=
  ∃ batch handed, w.batch = some batch ∧ w.handed batch = some handed ∧
    (∀ e ∈ batch, e.type = .upVec → e.buf = w.buffers) ∧ ∀ buf ∈ bufs, handed.count buf = 1

theorem Call.returned_eq_none {c : Call φ} (h : c.returned = none) :
    ∃ req, c.request = some req := by
  cases c <;> simp_all [Call.returned, Call.request]

theorem Call.returned_eq_some {c : Call φ} {v : IoVec} (h : c.returned = some v) :
    ∃ buf len, c = .returnBuffer buf len := by
  cases c <;> simp_all [Call.returned]

theorem returnedBy_eq_nil {calls : List (Realloc φ × Call φ)} :
    returnedBy calls = [] ↔ ∀ c ∈ calls, ∀ buf len, c.2 ≠ .returnBuffer buf len := by
  rw [returnedBy, List.filterMap_eq_nil_iff]
  constructor
  · intro h c hc buf len heq
    have := h c hc
    rw [heq] at this
    cases this
  · intro h c hc
    cases hret : c.2.returned with
    | none => rfl
    | some v =>
        obtain ⟨buf, len, heq⟩ := Call.returned_eq_some hret
        exact absurd heq (h c hc buf len)

/-! ## The calls of `setup_fn` -/

namespace Worker

/-- What the calls leave: the returned buffers in order at the front of the array, and
the first records of the queue untouched. -/
structure Called (w : Worker φ) (calls : List (Realloc φ × Call φ)) (w' : Worker φ) : Prop where
  bounded : w'.Bounded
  queued : ∃ added, w'.queued = w.queued ++ added ∧ ∀ e ∈ added, e.type ≠ .upVec
  listed : w'.listed = w.listed ++ returnedBy calls
  /-- Only a returned buffer moves or changes the array. -/
  same : returnedBy calls = [] → w.SamePool w'

theorem Called.nil {w : Worker φ} (h : w.Bounded) : w.Called [] w :=
  ⟨h, ⟨[], by simp, by simp⟩, by simp [returnedBy], fun _ => .refl w⟩

theorem calls_spec {w : Worker φ} (h : w.Bounded) (calls : List (Realloc φ × Call φ)) :
    ∃ w', calls.foldlM (fun w c => w.call c.1 c.2) w = some w' ∧ w.Called calls w' := by
  induction calls generalizing w with
  | nil => exact ⟨w, rfl, .nil h⟩
  | cons c calls ih =>
      obtain ⟨r, c⟩ := c
      cases hc : c.returned with
      | none =>
          obtain ⟨req, hreq⟩ := Call.returned_eq_none hc
          obtain ⟨e, v, hv, hq, -, he⟩ := call_request_spec h r hreq
          obtain ⟨w', hw', hcalled⟩ := ih hq.bounded
          obtain ⟨added, hqueued, hadded⟩ := hcalled.queued
          have hsplit : returnedBy ((r, c) :: calls) = returnedBy calls := by
            simp [returnedBy, hc]
          refine ⟨w', by simp [hv, hw'], hcalled.bounded, ⟨e :: added, ?_, ?_⟩, ?_, ?_⟩
          · rw [hqueued, hq.queued, List.append_assoc, List.singleton_append]
          · intro e' he'
            rcases List.mem_cons.mp he' with rfl | he'
            · exact he
            · exact hadded e' he'
          · rw [hcalled.listed, hq.toSamePool.listed, hsplit]
          · intro hnone
            rw [hsplit] at hnone
            exact hq.toSamePool.trans (hcalled.same hnone)
      | some v =>
          obtain ⟨buf, len, rfl⟩ := Call.returned_eq_some hc
          obtain ⟨u, hu, hret⟩ := returnBuffer_spec h r buf len
          obtain ⟨w', hw', hcalled⟩ := ih hret.bounded
          obtain ⟨added, hqueued, hadded⟩ := hcalled.queued
          have hsplit : returnedBy ((r, Call.returnBuffer buf len) :: calls) =
              ⟨buf, len⟩ :: returnedBy calls := by
            simp [returnedBy, Call.returned]
          have hcall : w.call r (.returnBuffer buf len) = some u := hu
          refine ⟨w', by simp [hcall, hw'], hcalled.bounded, ⟨added, ?_, hadded⟩, ?_, ?_⟩
          · rw [hqueued, hret.toSameQueue.queued]
          · rw [hcalled.listed, hret.listed, hsplit, List.append_assoc, List.singleton_append]
          · intro hnone
            rw [hsplit] at hnone
            cases hnone

/-! ## What the first batch hands over -/

/-- The worker at its first submit: the `UP_VEC` of setup, the requests of `setup_fn`, and
one more `UP_VEC` when `setup_fn` returned buffers. -/
theorem firstSubmit_spec {batchSz : ℕ} (hb : 1 ≤ batchSz) (r : Realloc φ) (array : Ptr)
    (pool : Blocks) (bufSz : ℕ) (calls : List (Realloc φ × Call φ)) :
    ∃ w, firstSubmit r array pool batchSz bufSz calls = some w ∧ w.Bounded ∧
      w.listed = returnedBy calls ∧
      (∃ added, w.queued = (.vec array batchSz :: added) ++
          (if 0 < w.bufCnt then [.vec w.buffers w.bufCnt] else []) ∧
        ∀ e ∈ added, e.type ≠ .upVec) ∧
      (returnedBy calls = [] → w.buffers = array ∧
        w.iovs = (pool.firsts batchSz).map fun base => ⟨base, bufSz⟩) := by
  obtain ⟨s, hs, hbound, hsetup, hcnt, -, hbuf, hiovs⟩ :=
    upcallWorkerSetup_spec hb r array pool bufSz
  obtain ⟨u, hu, hcalled⟩ := calls_spec hbound calls
  obtain ⟨w, hw, hbound', hqueued, hsame⟩ := gatherBuffers_spec hcalled.bounded r
  obtain ⟨added, hadded, hno⟩ := hcalled.queued
  have hempty : s.listed = [] := by simp [Worker.listed, hcnt]
  refine ⟨w, by simp [firstSubmit, hs, hu, hw], hbound', ?_, ⟨added, ?_, hno⟩, ?_⟩
  · rw [hsame.listed, hcalled.listed, hempty, List.nil_append]
  · rw [hqueued, hadded, hsetup, hsame.bufCnt, hsame.buffers, List.singleton_append]
  · intro hnone
    have hpool := (hcalled.same hnone).trans hsame
    exact ⟨hpool.buffers.trans hbuf, hpool.iovs.trans hiovs⟩

/-- The first entry of the array is handed over by every `UP_VEC` with an entry. -/
theorem handed_vec_head {w : Worker φ} {v : IoVec} {e : UpEvent φ} {handed : List Ptr}
    (hv : w.iovs[0]? = some v) (he : e.type = .upVec) (hlen : 1 ≤ e.len)
    (h : w.handed [e] = some handed) : 1 ≤ handed.count v.base := by
  obtain ⟨entries, hentries, h⟩ := Option.bind_eq_some_iff.mp h
  obtain rfl : entries.map IoVec.base = handed := by simpa [Worker.handed] using h
  rw [vecEntries, if_pos he] at hentries
  split at hentries
  · obtain rfl := Option.some.inj hentries
    refine List.one_le_count_iff.mpr (List.mem_map_of_mem ?_)
    have hhead : (w.iovs.take e.len)[0]? = some v := by
      rw [List.getElem?_take, if_pos (by omega), hv]
    exact List.mem_of_getElem? hhead
  · simp at hentries

end Worker

/-- The first batch hands over the initial pool and the returned buffers, each exactly
once and through live `UP_VEC`s, if and only if `setup_fn` returned no buffer. -/
theorem firstSubmit_handsOver_iff {batchSz : ℕ} (hb : 1 ≤ batchSz) (r : Realloc φ)
    (array : Ptr) (pool : Blocks) (bufSz : ℕ) (calls : List (Realloc φ × Call φ)) :
    ∃ w, Worker.firstSubmit r array pool batchSz bufSz calls = some w ∧
      (w.HandsOver (pool.firsts batchSz ++ (returnedBy calls).map IoVec.base) ↔
        ∀ c ∈ calls, ∀ buf len, c.2 ≠ .returnBuffer buf len) := by
  obtain ⟨w, hw, hbound, hlisted, ⟨added, hqueued, hno⟩, hpool⟩ :=
    Worker.firstSubmit_spec hb r array pool bufSz calls
  refine ⟨w, hw, ?_⟩
  rw [← returnedBy_eq_nil]
  constructor
  · rintro ⟨batch, handed, hbatch, hread, -, honce⟩
    rw [Worker.batch_spec hbound] at hbatch
    obtain rfl := Option.some.inj hbatch
    by_contra hne
    obtain ⟨v, vs, hcons⟩ := List.exists_cons_of_ne_nil hne
    -- Both `UP_VEC`s start at the first entry, which is the first returned buffer.
    have hlen : w.listed.length = vs.length + 1 := by rw [hlisted, hcons, List.length_cons]
    have hcnt : 1 ≤ w.bufCnt := by
      have := List.length_take_le w.bufCnt w.iovs
      rw [Worker.listed] at hlen
      omega
    have hhead : w.iovs[0]? = some v := by
      have : w.listed[0]? = some v := by rw [hlisted, hcons]; rfl
      rw [Worker.listed, List.getElem?_take, if_pos (by omega)] at this
      exact this
    rw [hqueued, if_pos (Nat.lt_of_lt_of_le Nat.zero_lt_one hcnt)] at hread
    obtain ⟨as, bs, has, hbs, rfl⟩ := Worker.handed_append_inv hread
    rw [← List.singleton_append] at has
    obtain ⟨first, rest, hfirst, -, rfl⟩ := Worker.handed_append_inv has
    have h1 := Worker.handed_vec_head hhead rfl hb hfirst
    have h2 := Worker.handed_vec_head hhead rfl hcnt hbs
    have honce := honce v.base (by simp [hcons])
    rw [List.count_append, List.count_append] at honce
    omega
  · intro hnone
    obtain ⟨hbuf, hiovs⟩ := hpool hnone
    have hcnt : w.bufCnt = 0 := by
      have hlen : w.listed.length = 0 := by rw [hlisted, hnone, List.length_nil]
      have := hbound.buf_cnt
      rw [Worker.listed, List.length_take, hbound.iovs_size] at hlen
      omega
    have hvecs : w.queued = .vec w.buffers batchSz :: added := by
      rw [hqueued, hcnt, hbuf]
      simp
    have hsize : w.iovs.length = batchSz := by rw [hiovs]; simp
    have hread := Worker.handed_append [.vec w.buffers batchSz] added (Worker.handed_vec hsize.ge)
      (Worker.handed_eq_nil hno)
    refine ⟨w.queued, _, Worker.batch_spec hbound, by rw [hvecs]; exact hread, ?_, ?_⟩
    · intro e he hvec
      rw [hvecs] at he
      rcases List.mem_cons.mp he with rfl | he
      · rfl
      · exact absurd hvec (hno e he)
    · intro buf hmem
      have hbases : w.iovs.map IoVec.base = pool.firsts batchSz := by
        rw [hiovs, List.map_map]
        exact List.map_id _
      rw [hnone, List.map_nil, List.append_nil] at hmem
      rw [List.append_nil, List.take_of_length_le hsize.le, hbases]
      exact List.count_eq_one_of_mem (pool.nodup_firsts batchSz) hmem

theorem firstSubmit_handsOver_iff_addRead :
    ∃ w, Worker.firstSubmit moved ⟨9, 0⟩ consecutive 1 8 [(moved, .addRead 5 none)] = some w ∧
      (w.HandsOver (consecutive.firsts 1 ++
          (returnedBy [(moved, (Call.addRead 5 none : Call Unit))]).map IoVec.base) ↔
        ∀ c ∈ [(moved, (Call.addRead 5 none : Call Unit))], ∀ buf len,
          c.2 ≠ .returnBuffer buf len) :=
  firstSubmit_handsOver_iff (by decide) moved ⟨9, 0⟩ consecutive 8 [(moved, .addRead 5 none)]

/-- One buffer, returned by `setup_fn` to a pool of one: the initial buffer is lost and the
returned one is handed over twice. -/
theorem firstSubmit_not_handsOver :
    ¬ ∀ (batchSz : ℕ) (r : Realloc Unit) (array : Ptr) (pool : Blocks) (bufSz : ℕ)
      (calls : List (Realloc Unit × Call Unit)), 1 ≤ batchSz →
      ∃ w, Worker.firstSubmit r array pool batchSz bufSz calls = some w ∧
        w.HandsOver (pool.firsts batchSz ++ (returnedBy calls).map IoVec.base) := by
  intro h
  obtain ⟨w, hw, batch, handed, hbatch, hread, -, honce⟩ :=
    h 1 moved ⟨9, 0⟩ consecutive 8 [(moved, .returnBuffer ⟨30, 0⟩ 8)] (by decide)
  have hw' : Worker.firstSubmit moved ⟨9, 0⟩ consecutive 1 8
      [(moved, .returnBuffer ⟨30, 0⟩ 8)] = some w := hw
  obtain rfl := Option.some.inj hw'
  obtain rfl := Option.some.inj hbatch
  obtain rfl := Option.some.inj hread
  exact absurd (honce ⟨10, 0⟩ (by decide)) (by decide)

end Upcalls.LibUpcall
