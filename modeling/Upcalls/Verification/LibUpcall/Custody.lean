import Mathlib.Algebra.Order.Group.Multiset
import Upcalls.Model.Custody
import Upcalls.Verification.LibUpcall.Refinement

/-! # Every buffer has one owner

Between the steps of a worker a buffer is with the kernel, with the user code, or
listed once in the array that the next submit hands over.
-/

namespace Upcalls.LibUpcall

open Library

variable {φ : Type}

/-! ## Reading the records of a batch -/

namespace Worker

theorem vecEntries_eq_nil {w : Worker φ} {e : UpEvent φ} (he : e.type ≠ .upVec) :
    w.vecEntries e = some [] := by
  simp [vecEntries, he]

theorem handed_append {w : Worker φ} (xs ys : List (UpEvent φ)) {as bs : List Ptr}
    (hxs : w.handed xs = some as) (hys : w.handed ys = some bs) :
    w.handed (xs ++ ys) = some (as ++ bs) := by
  induction xs generalizing as with
  | nil =>
      obtain rfl : [] = as := by simpa [handed] using hxs
      simpa using hys
  | cons e xs ih =>
      cases he : w.vecEntries e with
      | none => simp [handed, he] at hxs
      | some entries =>
          cases hrest : w.handed xs with
          | none => simp [handed, he, hrest] at hxs
          | some rest =>
              have has : as = entries.map IoVec.base ++ rest := by
                simpa [handed, he, hrest] using hxs.symm
              simp [handed, he, ih hrest, has]

theorem handed_append_inv {w : Worker φ} {xs ys : List (UpEvent φ)} {zs : List Ptr}
    (h : w.handed (xs ++ ys) = some zs) :
    ∃ as bs, w.handed xs = some as ∧ w.handed ys = some bs ∧ zs = as ++ bs := by
  induction xs generalizing zs with
  | nil => exact ⟨[], zs, rfl, h, rfl⟩
  | cons e xs ih =>
      rw [List.cons_append, handed] at h
      obtain ⟨entries, he, h⟩ := Option.bind_eq_some_iff.mp h
      obtain ⟨rest, hrest, h⟩ := Option.bind_eq_some_iff.mp h
      obtain ⟨as, bs, has, hbs, rfl⟩ := ih hrest
      refine ⟨entries.map IoVec.base ++ as, bs, by simp [handed, he, has], hbs, ?_⟩
      simpa using h.symm

/-- Only an `UP_VEC` hands anything over. -/
theorem handed_eq_nil {w : Worker φ} {xs : List (UpEvent φ)}
    (h : ∀ e ∈ xs, e.type ≠ .upVec) : w.handed xs = some [] := by
  induction xs with
  | nil => rfl
  | cons e xs ih =>
      have hrest := ih fun e' he' => h e' (List.mem_cons_of_mem _ he')
      simp [handed, vecEntries_eq_nil (h e List.mem_cons_self), hrest]

theorem handed_vec {w : Worker φ} {n : ℕ} (hn : n ≤ w.iovs.length) :
    w.handed [.vec w.buffers n] = some ((w.iovs.take n).map IoVec.base) := by
  simp [handed, vecEntries, UpEvent.vec, hn]

end Worker

/-! ## The invariant -/

namespace Custody

/-- Each token is in exactly one place. -/
def OnePlace (p : Custody φ) : Prop :=
  ∀ buf, p.kernel.count buf + p.user.count buf + p.listed.count buf =
    if buf ∈ p.tokens then 1 else 0

/-- Every `UP_VEC` of a coming submit points at the live array and counts its valid
entries, and the kernel can read them. -/
def VecsValid (p : Custody φ) : Prop :=
  ∀ r completions t batch, p.thread.step (.submit r completions) = some (t, .submitted batch) →
    p.thread.worker.handed batch = some p.listed ∧
      ∀ e ∈ batch, e.type = .upVec → e.buf = p.thread.worker.buffers ∧ e.len = p.validCnt

structure Inv (p : Custody φ) : Prop where
  bounded : p.thread.worker.Bounded
  first : p.first = true → p.thread.worker.bufCnt = 0 ∧
    (p.thread.phase = .setup ∨ p.thread.phase = .top) ∧
    ∃ rest, p.thread.worker.queued =
      .vec p.thread.worker.buffers p.thread.worker.bufMax :: rest ∧ ∀ e ∈ rest, e.type ≠ .upVec
  later : p.first = false → p.thread.phase ≠ .setup ∧
    ∀ e ∈ p.thread.worker.queued, e.type ≠ .upVec
  nodup : p.tokens.Nodup
  places : p.kernel + p.user + p.listed = p.tokens

theorem Inv.onePlace {p : Custody φ} (h : p.Inv) : p.OnePlace := by
  intro buf
  have hcount := congrArg (Multiset.count buf) h.places
  rw [Multiset.count_add, Multiset.count_add, Multiset.coe_count] at hcount
  rw [hcount]
  exact Multiset.count_eq_of_nodup h.nodup

/-- The records that a submit passes on, and what the kernel reads through them. -/
theorem Inv.gathered {p : Custody φ} (h : p.Inv) {r : Realloc φ} {w : Worker φ}
    (hw : p.thread.worker.gatherBuffers r = some w) :
    w.Bounded ∧ p.thread.worker.handed w.queued = some p.listed ∧
      ∀ e ∈ w.queued, e.type = .upVec →
        e.buf = p.thread.worker.buffers ∧ e.len = p.validCnt := by
  obtain ⟨w', hw', hbound, hqueued, -⟩ := Worker.gatherBuffers_spec h.bounded r
  cases hw.symm.trans hw'
  refine ⟨hbound, ?_⟩
  rw [hqueued]
  cases hfirst : p.first with
  | true =>
      obtain ⟨hcnt, -, rest, hrest, hno⟩ := h.first hfirst
      have hvalid : p.validCnt = p.thread.worker.bufMax := by simp [validCnt, hfirst]
      have hmax : p.validCnt ≤ p.thread.worker.iovs.length := by
        rw [hvalid, h.bounded.iovs_size]
      simp only [hcnt, Nat.lt_irrefl, if_false, List.append_nil, hrest, ← hvalid]
      constructor
      · have hread := Worker.handed_append _ rest (Worker.handed_vec hmax)
          (Worker.handed_eq_nil hno)
        simpa [listed] using hread
      · intro e he hvec
        rcases List.mem_cons.mp he with rfl | he
        · exact ⟨rfl, rfl⟩
        · exact absurd hvec (hno e he)
  | false =>
      obtain ⟨-, hno⟩ := h.later hfirst
      have hvalid : p.validCnt = p.thread.worker.bufCnt := by simp [validCnt, hfirst]
      have hle : p.validCnt ≤ p.thread.worker.iovs.length := by
        rw [hvalid, h.bounded.iovs_size]
        exact h.bounded.buf_cnt
      by_cases hpos : 0 < p.thread.worker.bufCnt
      · rw [if_pos hpos, ← hvalid]
        constructor
        · have hread := Worker.handed_append _ _ (Worker.handed_eq_nil hno)
            (Worker.handed_vec hle)
          simpa [listed] using hread
        · intro e he hvec
          rcases List.mem_append.mp he with he | he
          · exact absurd hvec (hno e he)
          · rw [List.mem_singleton.mp he]
            exact ⟨rfl, rfl⟩
      · rw [if_neg hpos, List.append_nil]
        have hnil : p.listed = [] := by
          have : p.validCnt = 0 := by omega
          simp [listed, this]
        rw [hnil]
        exact ⟨Worker.handed_eq_nil hno, fun e he hvec => absurd hvec (hno e he)⟩

theorem Inv.vecsValid {p : Custody φ} (h : p.Inv) : p.VecsValid := by
  intro r completions t batch hstep
  obtain ⟨-, -, -, w, hw, ho, -⟩ := Thread.submit_spec h.bounded hstep
  obtain ⟨-, hread, hvecs⟩ := h.gathered hw
  cases ho
  exact ⟨hread, hvecs⟩

/-! ## Initially -/

theorem inv_init {batchSz bufSz : ℕ} {carries : UpEvent φ → Option Ptr} (hb : 1 ≤ batchSz)
    (p : Custody φ) (hp : (custody φ batchSz bufSz carries).Init p) : p.Inv := by
  obtain ⟨r, array, pool, hsetup, hphase, hfirst, hkernel, huser, htokens⟩ := hp
  obtain ⟨w, hw, hbound, hqueued, hcnt, hmax, hbuf, hiovs⟩ :=
    Worker.upcallWorkerSetup_spec hb r array pool bufSz
  cases hsetup.symm.trans hw
  have hlisted : p.listed = pool.firsts batchSz := by
    have hlen : ((pool.firsts batchSz).map fun base => (⟨base, bufSz⟩ : IoVec)).length =
        batchSz := by simp
    rw [listed, validCnt, if_pos hfirst, hmax, hiovs, List.take_of_length_le hlen.le,
      List.map_map]
    exact List.map_id _
  refine ⟨hbound, ?_, ?_, ?_, ?_⟩
  · intro _
    refine ⟨hcnt, .inl hphase, [], ?_, by simp⟩
    rw [hqueued, hbuf, hmax]
  · intro hlater
    rw [hfirst] at hlater
    cases hlater
  · rw [htokens]
    exact pool.nodup_firsts batchSz
  · rw [hkernel, huser, hlisted, htokens]
    simp

/-! ## The steps that move no buffer -/

end Custody

/-- `a` neither returns a buffer nor submits. -/
def Input.Keeps : Input φ → Prop
  | .call _ (.returnBuffer _ _) => False
  | .submit _ _ => False
  | _ => True

/-- `t'` is `t` further on, with the same array of buffers and no new `UP_VEC`. -/
structure Thread.Kept (t t' : Thread φ) : Prop where
  bounded : t'.worker.Bounded
  buffers : t'.worker.buffers = t.worker.buffers
  iovs : t'.worker.iovs = t.worker.iovs
  bufCnt : t'.worker.bufCnt = t.worker.bufCnt
  bufMax : t'.worker.bufMax = t.worker.bufMax
  queued : ∃ added, t'.worker.queued = t.worker.queued ++ added ∧
    ∀ e ∈ added, e.type ≠ .upVec
  start : t.phase = .setup ∨ t.phase = .top → t'.phase = .setup ∨ t'.phase = .top
  after : t.phase ≠ .setup → t'.phase ≠ .setup

theorem Thread.Kept.moves {t : Thread φ} (hw : t.worker.Bounded) {ph : Phase}
    (hstart : t.phase = .setup ∨ t.phase = .top → ph = .setup ∨ ph = .top)
    (hafter : t.phase ≠ .setup → ph ≠ .setup) : t.Kept { t with phase := ph } :=
  ⟨hw, rfl, rfl, rfl, rfl, ⟨[], by simp, by simp⟩, hstart, hafter⟩

theorem Thread.step_kept {t t' : Thread φ} {a : Input φ} {o : Output φ}
    (hw : t.worker.Bounded) (ha : a.Keeps) (h : t.step a = some (t', o)) : t.Kept t' := by
  cases a with
  | call r c =>
      obtain ⟨-, hphase, -, hcall⟩ := Thread.call_spec h
      cases hc : c.request with
      | none =>
          obtain ⟨buf, len, rfl⟩ := Call.request_eq_none hc
          exact ha.elim
      | some req =>
          obtain ⟨e, w, hw', hq, -, he⟩ := Worker.call_request_spec hw r hc
          cases hcall.symm.trans hw'
          refine ⟨hq.bounded, hq.buffers, hq.iovs, hq.bufCnt, hq.bufMax,
            ⟨[e], hq.queued, by simpa using he⟩, ?_, ?_⟩
          · rw [hphase]
            exact id
          · rw [hphase]
            exact id
  | setupDone =>
      obtain ⟨-, rfl, -⟩ := Thread.setupDone_spec h
      exact .moves hw (by simp) (by simp)
  | submit r completions => exact ha.elim
  | dispatch =>
      obtain ⟨i, ret, hphase, hcases⟩ := Thread.dispatch_spec h
      rcases hcases with ⟨-, e, -, hworker, hnext⟩ | ⟨-, rfl, -⟩
      · have ht' : t' = { t with phase := t'.phase } := by rw [← hworker]
        rw [ht']
        refine .moves hw (by simp [hphase]) ?_
        intro _
        rcases hnext with ⟨-, hphase', -⟩ | ⟨-, hphase', -⟩ <;> simp [hphase']
      · exact ⟨Worker.clearReceive_bounded hw, rfl, rfl, rfl, rfl, ⟨[], by
          simp [Worker.queued, Worker.clearReceive], by simp⟩, by simp [hphase], by simp⟩
  | handlerDone =>
      obtain ⟨i, ret, hphase, rfl, -⟩ := Thread.handlerDone_spec h
      exact .moves hw (by simp [hphase]) (by simp)
  | loopDone =>
      obtain ⟨hphase, rfl, -⟩ := Thread.loopDone_spec h
      exact .moves hw (by simp) (by simp)

namespace Custody

theorem listed_kept {p : Custody φ} {t : Thread φ} (h : p.thread.Kept t) :
    Custody.listed { p with thread := t } = p.listed := by
  simp only [listed, validCnt, h.iovs, h.bufCnt, h.bufMax]

theorem Inv.kept {p : Custody φ} (h : p.Inv) {t : Thread φ} (ht : p.thread.Kept t) :
    Inv { p with thread := t } := by
  obtain ⟨added, hqueued, hadded⟩ := ht.queued
  refine ⟨ht.bounded, ?_, ?_, h.nodup, ?_⟩
  · intro hfirst
    obtain ⟨hcnt, hphase, rest, hrest, hno⟩ := h.first hfirst
    refine ⟨ht.bufCnt.trans hcnt, ht.start hphase, rest ++ added, ?_, ?_⟩
    · rw [hqueued, hrest, ht.buffers, ht.bufMax, List.cons_append]
    · intro e he
      rcases List.mem_append.mp he with he | he
      · exact hno e he
      · exact hadded e he
  · intro hlater
    obtain ⟨hphase, hno⟩ := h.later hlater
    refine ⟨ht.after hphase, ?_⟩
    intro e he
    rw [hqueued] at he
    rcases List.mem_append.mp he with he | he
    · exact hno e he
    · exact hadded e he
  · rw [listed_kept ht]
    exact h.places

/-! ## The steps that move buffers -/

theorem returnBuffer_spec {p p' : Custody φ} {buf : Ptr} {t : Thread φ}
    (h : p.returnBuffer buf t = some p') :
    p.thread.phase ≠ .setup ∧ buf ∈ p.user ∧
      p' = { p with thread := t, user := p.user.erase buf } := by
  rw [returnBuffer] at h
  split at h
  · rename_i hguard
    exact ⟨hguard.1, hguard.2, (Option.some.inj h).symm⟩
  · simp at h

theorem submit_spec {p p' : Custody φ} {handed given : List Ptr} {t : Thread φ}
    (h : p.submit handed given t = some p') :
    (given : Multiset Ptr) ≤ p.kernel + handed ∧
      p' = { p with
        thread := t
        first := false
        kernel := p.kernel + handed - given
        user := p.user + given } := by
  rw [submit] at h
  split at h
  · rename_i hguard
    exact ⟨hguard, (Option.some.inj h).symm⟩
  · simp at h

/-- What a step does to the buffers: nothing, take one back, hand over the listed ones,
or allocate and free some of the user's own. -/
inductive Moves (p : Custody φ) : Input φ → Custody φ → List Ptr → Prop
  | keeps {a t o} : p.thread.step a = some (t, o) → a.Keeps →
      Moves p (.thread a) { p with thread := t } []
  | returns {r buf len t o} :
      p.thread.step (.call r (.returnBuffer buf len)) = some (t, o) →
      p.thread.phase ≠ .setup → buf ∈ p.user →
      Moves p (.thread (.call r (.returnBuffer buf len)))
        { p with thread := t, user := p.user.erase buf } []
  | submits {r completions t w} {given : Multiset Ptr} :
      p.thread.worker.gatherBuffers r = some w → t.phase = .dispatch 0 completions.length →
      t.worker = w.submitted completions → completions.length ≤ p.thread.worker.recvCnt →
      given ≤ p.kernel + p.listed →
      Moves p (.thread (.submit r completions))
        { p with
          thread := t
          first := false
          kernel := p.kernel + p.listed - given
          user := p.user + given } p.listed
  | mallocs {buf} : buf ∉ p.tokens →
      Moves p (.malloc buf) { p with user := buf ::ₘ p.user, tokens := buf ::ₘ p.tokens } []
  | frees {buf} : buf ∈ p.user →
      Moves p (.free buf) { p with user := p.user.erase buf, tokens := p.tokens.erase buf } []

theorem Inv.moves {carries : UpEvent φ → Option Ptr} {p p' : Custody φ} {a : Input φ}
    {o : Output φ} (hp : p.Inv) (h : p.step carries a = some (p', o)) :
    p.Moves a p' o.handed := by
  cases a with
  | thread a =>
      simp only [step] at h
      obtain ⟨⟨t, out⟩, hstep, h⟩ := Option.bind_eq_some_iff.mp h
      cases a with
      | call r c =>
          cases hc : c.request with
          | none =>
              obtain ⟨buf, len, rfl⟩ := Call.request_eq_none hc
              obtain ⟨q, hq, h⟩ := Option.bind_eq_some_iff.mp h
              obtain ⟨hphase, hmem, rfl⟩ := returnBuffer_spec hq
              cases h
              exact .returns hstep hphase hmem
          | some req =>
              cases c <;> first | (cases h; exact .keeps hstep trivial) | cases hc
      | submit r completions =>
          obtain ⟨-, hlen, hphase, w, hw, rfl, hworker⟩ := Thread.submit_spec hp.bounded hstep
          obtain ⟨-, hread, -⟩ := hp.gathered hw
          simp only [hread, Option.bind_eq_bind, Option.bind_some] at h
          obtain ⟨q, hq, h⟩ := Option.bind_eq_some_iff.mp h
          obtain ⟨hgiven, rfl⟩ := submit_spec hq
          cases h
          exact .submits hw hphase hworker hlen hgiven
      | setupDone => cases h; exact .keeps hstep trivial
      | dispatch => cases h; exact .keeps hstep trivial
      | handlerDone => cases h; exact .keeps hstep trivial
      | loopDone => cases h; exact .keeps hstep trivial
  | malloc buf =>
      simp only [step] at h
      split at h
      · simp at h
      · rename_i hfresh
        cases h
        exact .mallocs hfresh
  | free buf =>
      simp only [step] at h
      split at h
      · rename_i hmem
        cases h
        exact .frees hmem
      · simp at h

/-! ## Every step keeps the invariant -/

/-- A caller that may return a buffer runs after the first submit. -/
theorem Inv.later_of_call {p : Custody φ} (hp : p.Inv) (huser : p.thread.phase.user = true)
    (hphase : p.thread.phase ≠ .setup) : p.first = false := by
  cases hfirst : p.first with
  | false => rfl
  | true =>
      obtain ⟨-, hstart | hstart, -⟩ := hp.first hfirst
      · exact absurd hstart hphase
      · rw [hstart] at huser
        cases huser

theorem listed_later {p : Custody φ} (hp : p.first = false) :
    p.listed = p.thread.worker.listed.map IoVec.base := by
  rw [listed, validCnt, if_neg (by simp [hp]), Worker.listed]

theorem Inv.returns {p : Custody φ} (hp : p.Inv) {r : Realloc φ} {buf : Ptr} {len : ℕ}
    {t : Thread φ} {o : LibUpcall.Output φ}
    (hstep : p.thread.step (.call r (.returnBuffer buf len)) = some (t, o))
    (hphase : p.thread.phase ≠ .setup) (hmem : buf ∈ p.user) :
    Inv { p with thread := t, user := p.user.erase buf } ∧
      Custody.listed { p with thread := t, user := p.user.erase buf } = p.listed ++ [buf] := by
  obtain ⟨huser, hph, -, hcall⟩ := Thread.call_spec hstep
  obtain ⟨w, hw, hret⟩ := Worker.returnBuffer_spec hp.bounded r buf len
  cases hcall.symm.trans hw
  have hlater := hp.later_of_call huser hphase
  have hlisted : Custody.listed { p with thread := t, user := p.user.erase buf } =
      p.listed ++ [buf] := by
    rw [listed_later (p := p) hlater, listed_later (by exact hlater), hret.listed]
    simp
  refine ⟨⟨hret.bounded, ?_, ?_, hp.nodup, ?_⟩, hlisted⟩
  · intro hfirst
    rw [hlater] at hfirst
    cases hfirst
  · intro _
    obtain ⟨-, hno⟩ := hp.later hlater
    refine ⟨?_, ?_⟩
    · rw [hph]
      exact hphase
    · rw [hret.toSameQueue.queued]
      exact hno
  · rw [hlisted, ← hp.places, ← Multiset.coe_add, Multiset.coe_singleton]
    calc p.kernel + p.user.erase buf + (p.listed + {buf})
        = p.kernel + (buf ::ₘ p.user.erase buf) + p.listed := by
          rw [← Multiset.singleton_add]
          ac_rfl
      _ = p.kernel + p.user + p.listed := by rw [Multiset.cons_erase hmem]

theorem Inv.submits {p : Custody φ} (hp : p.Inv) {r : Realloc φ} {w : Worker φ}
    {t : Thread φ} {completions : List (UpEvent φ)} {given : Multiset Ptr}
    (hw : p.thread.worker.gatherBuffers r = some w)
    (hphase : t.phase = .dispatch 0 completions.length)
    (hworker : t.worker = w.submitted completions)
    (hlen : completions.length ≤ p.thread.worker.recvCnt)
    (hgiven : given ≤ p.kernel + p.listed) :
    Inv { p with
      thread := t
      first := false
      kernel := p.kernel + p.listed - given
      user := p.user + given } ∧
      Custody.listed { p with
        thread := t
        first := false
        kernel := p.kernel + p.listed - given
        user := p.user + given } = [] := by
  obtain ⟨w', hw', hbound, -, hsame⟩ := Worker.gatherBuffers_spec hp.bounded r
  cases hw.symm.trans hw'
  have hlisted : Custody.listed { p with
      thread := t
      first := false
      kernel := p.kernel + p.listed - given
      user := p.user + given } = [] := by
    rw [listed_later rfl]
    simp [hworker, Worker.listed, Worker.submitted]
  refine ⟨⟨?_, ?_, ?_, hp.nodup, ?_⟩, hlisted⟩
  · rw [hworker]
    exact Worker.submitted_bounded hbound (by rw [hsame.recvCnt]; exact hlen)
  · intro hfirst
    cases hfirst
  · intro _
    refine ⟨by simp [hphase], ?_⟩
    simp [hworker, Worker.queued, Worker.submitted]
  · rw [hlisted, ← hp.places]
    calc p.kernel + p.listed - given + (p.user + given) + ([] : List Ptr)
        = p.kernel + p.listed - given + given + p.user := by
          rw [Multiset.coe_nil, add_zero, add_assoc, add_comm p.user]
      _ = p.kernel + p.user + p.listed := by
          rw [Multiset.sub_add_cancel hgiven]
          ac_rfl

theorem Inv.step {p p' : Custody φ} {a : Input φ} {handed : List Ptr} (hp : p.Inv)
    (h : p.Moves a p' handed) : p'.Inv := by
  cases h with
  | keeps hstep ha => exact hp.kept (Thread.step_kept hp.bounded ha hstep)
  | returns hstep hphase hmem => exact (hp.returns hstep hphase hmem).1
  | submits hw hphase hworker hlen hgiven => exact (hp.submits hw hphase hworker hlen hgiven).1
  | @mallocs buf hfresh =>
      refine ⟨hp.bounded, hp.first, hp.later, Multiset.nodup_cons.mpr ⟨hfresh, hp.nodup⟩, ?_⟩
      have hplaces := hp.places
      rw [Multiset.add_cons, Multiset.cons_add]
      exact congrArg (Multiset.cons buf) hplaces
  | @frees buf hmem =>
      refine ⟨hp.bounded, hp.first, hp.later, hp.nodup.erase buf, ?_⟩
      have hplaces := hp.places
      have herase : p.kernel + p.user + p.listed =
          buf ::ₘ (p.kernel + p.user.erase buf + p.listed) := by
        rw [← Multiset.cons_add, ← Multiset.add_cons, Multiset.cons_erase hmem]
      rw [← hplaces, herase, Multiset.erase_cons_head]
      rfl

theorem reaches_inv {batchSz bufSz : ℕ} {carries : UpEvent φ → Option Ptr} (hb : 1 ≤ batchSz)
    {tr : List (Input φ × Output φ)} {p : Custody φ}
    (h : (custody φ batchSz bufSz carries).Reaches tr p) : p.Inv := by
  induction h with
  | init hp => exact inv_init hb _ hp
  | step _ hstep ih => exact ih.step (ih.moves hstep)

/-! ## No buffer is submitted twice -/

/-- Between two submits that hand over the same buffer it was returned. -/
def NoResubmit (tr : List (Input φ × Output φ)) : Prop :=
  ∀ before x between y after, tr = before ++ x :: (between ++ y :: after) →
    ∀ buf ∈ x.2.handed, buf ∈ y.2.handed →
      ∃ r len o, (Input.thread (.call r (.returnBuffer buf len)), o) ∈ between

/-- A step hands over listed buffers only, and leaves none of them listed. -/
theorem Inv.handed_listed {p p' : Custody φ} {a : Input φ} {handed : List Ptr} (hp : p.Inv)
    (h : p.Moves a p' handed) {buf : Ptr} (hbuf : buf ∈ handed) :
    buf ∈ p.listed ∧ buf ∉ p'.listed := by
  cases h with
  | submits hw hphase hworker hlen hgiven =>
      refine ⟨hbuf, ?_⟩
      rw [(hp.submits hw hphase hworker hlen hgiven).2]
      exact List.not_mem_nil
  | keeps => cases hbuf
  | returns => cases hbuf
  | mallocs => cases hbuf
  | frees => cases hbuf

/-- A buffer gets listed only when it is returned. -/
theorem Inv.unlisted {p p' : Custody φ} {a : Input φ} {handed : List Ptr} (hp : p.Inv)
    (h : p.Moves a p' handed) {buf : Ptr}
    (ha : ∀ r len, a ≠ .thread (.call r (.returnBuffer buf len))) (hbuf : buf ∉ p.listed) :
    buf ∉ p'.listed := by
  cases h with
  | keeps hstep hkeep =>
      rw [listed_kept (Thread.step_kept hp.bounded hkeep hstep)]
      exact hbuf
  | @returns r buf' len t o hstep hphase hmem =>
      rw [(hp.returns hstep hphase hmem).2]
      intro hin
      rcases List.mem_append.mp hin with hin | hin
      · exact hbuf hin
      · cases List.mem_singleton.mp hin
        exact ha r len rfl
  | submits hw hphase hworker hlen hgiven =>
      rw [(hp.submits hw hphase hworker hlen hgiven).2]
      exact List.not_mem_nil
  | mallocs => exact hbuf
  | frees => exact hbuf

theorem reaches_noResubmit {batchSz bufSz : ℕ} {carries : UpEvent φ → Option Ptr}
    (hb : 1 ≤ batchSz) {tr : List (Input φ × Output φ)} {p : Custody φ}
    (h : (custody φ batchSz bufSz carries).Reaches tr p) : NoResubmit tr := by
  intro before x between y after htr buf hx hy
  have hsplit : tr = (before ++ [x] ++ between) ++ y :: after := by simp [htr]
  rw [hsplit] at h
  obtain ⟨u, hu, hrest⟩ := h.split
  obtain ⟨v, hsecond, -⟩ := hrest.cons_inv
  obtain ⟨t, ht, hrun⟩ := hu.split
  obtain ⟨s, hs, hfirst⟩ := ht.last
  have hinv := reaches_inv hb hs
  have hgone := (hinv.handed_listed (hinv.moves hfirst) hx).2
  have hback := ((reaches_inv hb hu).handed_listed ((reaches_inv hb hu).moves hsecond) hy).1
  by_contra hnone
  have hkeep : t.Inv ∧ buf ∉ t.listed → u.Inv ∧ buf ∉ u.listed := by
    refine hrun.preserves (P := fun q => q.Inv ∧ buf ∉ q.listed) ?_
    intro q a o q' hmem hq hstep
    have hmoves := hq.1.moves hstep
    refine ⟨hq.1.step hmoves, hq.1.unlisted hmoves ?_ hq.2⟩
    rintro r len rfl
    exact hnone ⟨r, len, o, hmem⟩
  exact (hkeep ⟨reaches_inv hb ht, hgone⟩).2 hback

/-- The kernel, the user code and the array share the buffers without overlap at every
step of a worker whose `setup_fn` returns none. -/
theorem custody_onePlace {batchSz bufSz : ℕ} {carries : UpEvent φ → Option Ptr}
    (hb : 1 ≤ batchSz) {tr : List (Input φ × Output φ)} {p : Custody φ}
    (h : (custody φ batchSz bufSz carries).Reaches tr p) :
    p.OnePlace ∧ p.VecsValid ∧ NoResubmit tr :=
  ⟨(reaches_inv hb h).onePlace, (reaches_inv hb h).vecsValid, reaches_noResubmit hb h⟩

/-! ## A small worker -/

def smallCustody : Custody Unit := ⟨smallThread, true, 0, 0, {⟨10, 0⟩}⟩

/-- A read hands back the buffer it filled. -/
def readCarries (e : UpEvent Unit) : Option Ptr :=
  if e.type = .upRead ∧ 0 < e.result then some e.buf else none

theorem smallCustody_init : (custody Unit 1 8 readCarries).Init smallCustody :=
  ⟨moved, ⟨9, 0⟩, consecutive, rfl, rfl, rfl, rfl, rfl, rfl⟩

/-- The first turn of the thread, with a buffer of the user's own returned in `loop_fn`. -/
def firstCustodyTurn : List (Input Unit) :=
  (firstTurn.take 9).map .thread ++
    [.malloc ⟨30, 0⟩, .thread (.call moved (.returnBuffer ⟨30, 0⟩ 8)), .thread .loopDone,
      .thread (.submit moved [])]

theorem custody_onePlace_firstTurn :
    ∃ tr p, (custody Unit 1 8 readCarries).Reaches tr p ∧
      p.kernel.card = 2 ∧ p.OnePlace ∧ p.VecsValid ∧ NoResubmit tr := by
  have hrun : ((custody Unit 1 8 readCarries).exec smallCustody firstCustodyTurn).isSome := by
    decide
  have hreach := Machine.reaches_exec_get smallCustody_init hrun
  exact ⟨_, _, hreach, rfl, custody_onePlace (by decide) hreach⟩

end Custody

end Upcalls.LibUpcall
