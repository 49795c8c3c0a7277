import Upcalls.Verification.PerfStats.Lines

/-! # Which lines of the statistics are about one worker alone -/

namespace Upcalls.PerfStats

open Library

/-! ## A line tells the values -/

/-- Fields that end with the line tell their values. -/
theorem fields_injective {vs ws : List UInt64} (hlength : vs.length = ws.length)
    (h : vs.flatMap (fun v => ascii "\t" ++ decimal v.toNat) ++ ascii "\n" =
      ws.flatMap (fun v => ascii "\t" ++ decimal v.toNat) ++ ascii "\n") : vs = ws := by
  have hhead : ∀ us : List UInt64,
      ∀ b ∈ (us.flatMap (fun v => ascii "\t" ++ decimal v.toNat) ++ ascii "\n").head?,
        isDigit b = false := by
    intro us b hb
    cases us with
    | nil =>
        cases hb
        rfl
    | cons u us =>
        cases hb
        rfl
  induction vs generalizing ws with
  | nil =>
      cases ws with
      | nil => rfl
      | cons w ws => cases hlength
  | cons v vs ih =>
      cases ws with
      | nil => cases hlength
      | cons w ws =>
          simp only [List.flatMap_cons, List.append_assoc] at h
          obtain ⟨hvalue, hrest⟩ :=
            decimal_append (hhead vs) (hhead ws) (List.append_cancel_left h)
          rw [UInt64.toNat_inj.mp hvalue, ih (Nat.succ.inj hlength) hrest]

theorem perfLine_injective {t : Thread} {values values' : PerfValues}
    (h : perfLine t values = perfLine t values') : values = values' := by
  rw [perfLine_eq_perfText, perfLine_eq_perfText, perfText, perfText, List.append_assoc,
    List.append_assoc] at h
  have hfields := fields_injective (by simp) (List.append_cancel_left h)
  exact List.ofFn_injective (List.append_cancel_right hfields)

/-! ## The values of a reading -/

section Reading

variable {t : Thread} {perfIds : Fin TOTAL_EVENTS → Int32} {stats : List (UInt64 × UInt64)}
  {values values' : PerfValues} {j : Fin TOTAL_EVENTS}

/-- The event of an id: the first one that has it. -/
def eventOf (perfIds : Fin TOTAL_EVENTS → Int32) (id : UInt64) : Option (Fin TOTAL_EVENTS) :=
  (List.finRange TOTAL_EVENTS).find? fun j => (id.toNat : ℤ) = (perfIds j).toInt % 2 ^ 64

theorem perfValue_apply (values : PerfValues) (event : UInt64 × UInt64)
    (j : Fin TOTAL_EVENTS) : perfValue perfIds values event j =
      if eventOf perfIds event.2 = some j then event.1 else values j := by
  rw [perfValue, ← eventOf]
  cases eventOf perfIds event.2 with
  | none => rfl
  | some i => simp [Function.update_apply, eq_comm]

/-- No pair of the reading has the id of the event. -/
def Thread.Absent (t : Thread) (j : Fin TOTAL_EVENTS) : Prop :=
  ∀ event ∈ t.stats, (event.2.toNat : ℤ) ≠ (t.perfIds j).toInt % 2 ^ 64

/-- The reading has a pair for each event. -/
def Thread.Covered (t : Thread) : Prop :=
  ∀ j, ∃ event ∈ t.stats, eventOf t.perfIds event.2 = some j

theorem foldl_perfValue_of_not_mem (h : ∀ event ∈ stats, eventOf perfIds event.2 ≠ some j) :
    stats.foldl (perfValue perfIds) values j = values j := by
  induction stats generalizing values with
  | nil => rfl
  | cons event stats ih =>
      have hrest : stats.foldl (perfValue perfIds) (perfValue perfIds values event) j =
          perfValue perfIds values event j :=
        ih fun event hevent => h event (List.mem_cons_of_mem _ hevent)
      rw [List.foldl_cons, hrest, perfValue_apply, if_neg (h event (by simp))]

theorem foldl_perfValue_congr (h : values j = values' j) :
    stats.foldl (perfValue perfIds) values j = stats.foldl (perfValue perfIds) values' j := by
  induction stats generalizing values values' with
  | nil => exact h
  | cons event stats ih =>
      apply ih
      rw [perfValue_apply, perfValue_apply, h]

/-- An event that is in the reading has its value from there. -/
theorem foldl_perfValue_of_mem (h : ∃ event ∈ stats, eventOf perfIds event.2 = some j) :
    stats.foldl (perfValue perfIds) values j = stats.foldl (perfValue perfIds) values' j := by
  induction stats generalizing values values' with
  | nil =>
      obtain ⟨event, hevent, -⟩ := h
      cases hevent
  | cons event stats ih =>
      rw [List.foldl_cons, List.foldl_cons]
      by_cases hfirst : eventOf perfIds event.2 = some j
      · apply foldl_perfValue_congr
        rw [perfValue_apply, perfValue_apply, if_pos hfirst, if_pos hfirst]
      · apply ih
        obtain ⟨event', hevent', hslot⟩ := h
        rcases List.mem_cons.mp hevent' with rfl | hevent'
        · exact (hfirst hslot).elim
        · exact ⟨event', hevent', hslot⟩

theorem Thread.Absent.eventOf_ne (h : t.Absent j) {event : UInt64 × UInt64}
    (hevent : event ∈ t.stats) : eventOf t.perfIds event.2 ≠ some j := by
  intro hslot
  have hid := List.find?_some hslot
  exact h event hevent (by simpa using hid)

end Reading

/-! ## Lines -/

/-- The values that the threads ahead leave behind. -/
def leftBy (threads : List Thread) (values : PerfValues) : PerfValues :=
  threads.foldl (fun values t => t.stats.foldl (perfValue t.perfIds) values) values

theorem perfLines_getElem? (values : PerfValues) (threads : List Thread) (w : ℕ) :
    (perfLines values threads)[w]? = threads[w]?.map fun t =>
      perfLine t (t.stats.foldl (perfValue t.perfIds) (leftBy (threads.take w) values)) := by
  induction threads generalizing values w with
  | nil => rfl
  | cons t threads ih =>
      cases w with
      | zero => rfl
      | succ w => exact ih _ w

/-- The readings that the buffer of `write_perf_stats` has room for. -/
def Readings (threads : List Thread) : Prop := ∀ t ∈ threads, t.stats.length ≤ TOTAL_EVENTS

/-- The line of worker `w`, whose reading is that of `t`, is about `t` alone. -/
structure Isolated (w : ℕ) (t : Thread) : Prop where
  alone : ∀ {threads threads'}, Readings threads → Readings threads' →
    threads[w]? = some t → threads'[w]? = some t →
      (writePerfStats threads)[w]? = (writePerfStats threads')[w]?
  absent : ∀ {threads}, Readings threads → threads[w]? = some t → ∃ values,
    (writePerfStats threads)[w]? = some (perfLine t values) ∧ ∀ j, t.Absent j → values j = 0

theorem isolated_of_values {w : ℕ} {t : Thread} (values : PerfValues)
    (habsent : ∀ j, t.Absent j → values j = 0)
    (h : ∀ threads : List Thread, threads[w]? = some t →
      t.stats.foldl (perfValue t.perfIds) (leftBy (threads.take w) fun _ => 0) = values) :
    Isolated w t := by
  have hline : ∀ threads : List Thread, threads[w]? = some t →
      (writePerfStats threads)[w]? = some (perfLine t values) := by
    intro threads ht
    rw [writePerfStats, perfLines_getElem?, ht, Option.map_some, h threads ht]
  refine ⟨?_, ?_⟩
  · intro threads threads' _ _ ht ht'
    rw [hline threads ht, hline threads' ht']
  · intro threads _ ht
    exact ⟨values, hline threads ht, habsent⟩

/-! ## Stale values -/

/-- A worker whose reading is the value `v` for event `j`. -/
def measuring (j : Fin TOTAL_EVENTS) (v : UInt64) : Thread :=
  ⟨0, fun i => .ofNat i, [(v, .ofNat j)], 0, 0⟩

theorem eventOf_measuring (j : Fin TOTAL_EVENTS) :
    eventOf (fun i => .ofNat i) (.ofNat j) = some j := by
  revert j
  decide

theorem leftBy_measuring (j : Fin TOTAL_EVENTS) (v : UInt64) (w : ℕ) (values : PerfValues) :
    leftBy (List.replicate (w + 1) (measuring j v)) values j = v := by
  rw [leftBy, List.replicate_succ', List.foldl_concat]
  exact (perfValue_apply _ _ _).trans (if_pos (eventOf_measuring j))

/-- Behind other workers, what the thread does not read is what they have read. -/
theorem Isolated.covered {w : ℕ} {t : Thread} (ht : t.stats.length ≤ TOTAL_EVENTS)
    (h : Isolated (w + 1) t) : t.Covered := by
  intro j
  by_contra hnot
  have hunread : ∀ event ∈ t.stats, eventOf t.perfIds event.2 ≠ some j := by
    intro event hevent hslot
    exact hnot ⟨event, hevent, hslot⟩
  have hreadings : ∀ v, Readings (List.replicate (w + 1) (measuring j v) ++ [t]) := by
    intro v t' ht'
    rcases List.mem_append.mp ht' with ht' | ht'
    · rw [List.eq_of_mem_replicate ht']
      exact Nat.le_add_left 1 4
    · rwa [List.mem_singleton.mp ht']
  have hlast : ∀ v, (List.replicate (w + 1) (measuring j v) ++ [t])[w + 1]? = some t := by
    intro v
    rw [List.getElem?_append_right (by simp)]
    simp
  have hline : ∀ v, ∃ values : PerfValues,
      (writePerfStats (List.replicate (w + 1) (measuring j v) ++ [t]))[w + 1]? =
        some (perfLine t values) ∧ values j = v := by
    intro v
    have htake : (List.replicate (w + 1) (measuring j v) ++ [t]).take (w + 1) =
        List.replicate (w + 1) (measuring j v) := List.take_left' (by simp)
    refine ⟨t.stats.foldl (perfValue t.perfIds)
      (leftBy (List.replicate (w + 1) (measuring j v)) fun _ => 0), ?_, ?_⟩
    · rw [writePerfStats, perfLines_getElem?, hlast, Option.map_some, htake]
    · rw [foldl_perfValue_of_not_mem hunread, leftBy_measuring]
  obtain ⟨values, hvalues, hzero⟩ := hline 0
  obtain ⟨values', hvalues', hone⟩ := hline 1
  have hsame := h.alone (hreadings 0) (hreadings 1) (hlast 0) (hlast 1)
  rw [hvalues, hvalues', Option.some.injEq] at hsame
  have hvalue := congrFun (perfLine_injective hsame) j
  rw [hzero, hone] at hvalue
  cases hvalue

theorem Thread.Covered.isolated {w : ℕ} {t : Thread} (h : t.Covered) : Isolated w t := by
  refine isolated_of_values (t.stats.foldl (perfValue t.perfIds) fun _ => 0) ?_ ?_
  · intro j hj
    obtain ⟨event, hevent, hslot⟩ := h j
    exact (hj.eventOf_ne hevent hslot).elim
  · intro threads _
    funext j
    exact foldl_perfValue_of_mem (h j)

theorem isolated_first (t : Thread) : Isolated 0 t := by
  refine isolated_of_values (t.stats.foldl (perfValue t.perfIds) fun _ => 0) ?_ ?_
  · intro j hj
    exact foldl_perfValue_of_not_mem fun event hevent => hj.eventOf_ne hevent
  · intro threads _
    rfl

/-- The line of a worker is about that worker alone exactly if it is the first one, or all its
events are in its reading. -/
theorem isolated_iff {w : ℕ} {t : Thread} (ht : t.stats.length ≤ TOTAL_EVENTS) :
    Isolated w t ↔ w = 0 ∨ t.Covered := by
  cases w with
  | zero => exact ⟨fun _ => .inl rfl, fun _ => isolated_first t⟩
  | succ w =>
      constructor
      · intro h
        exact .inr (h.covered ht)
      · intro h
        rcases h with hzero | hcovered
        · cases hzero
        · exact hcovered.isolated

/-- A worker that is stopped before it has counted anything. -/
def silent : Thread := ⟨1, fun i => .ofNat i, [], 0, 0⟩

theorem isolated_iff_silent : Isolated 1 silent ↔ 1 = 0 ∨ silent.Covered :=
  isolated_iff (by decide)

/-- The cycles of the first worker are in the line of the second one. -/
theorem not_isolated :
    ¬ ∀ (w : ℕ) (t : Thread), t.stats.length ≤ TOTAL_EVENTS → Isolated w t := by
  intro h
  have hseven : Readings [measuring 0 7, silent] := by
    rw [Readings]
    decide
  have height : Readings [measuring 0 8, silent] := by
    rw [Readings]
    decide
  have hsame := (h 1 silent (by decide)).alone hseven height rfl rfl
  revert hsame
  decide +kernel

end Upcalls.PerfStats
