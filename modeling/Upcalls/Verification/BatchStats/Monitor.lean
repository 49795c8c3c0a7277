import Upcalls.Verification.BatchStats.Counters

/-! # What the monitor prints, and what a reset leaves -/

namespace Upcalls.BatchStats

open Library

variable {n batchSz : ℕ}

/-- The sum of the deltas that were printed for slot `i` of worker `w`. -/
def reported (batchSz : ℕ) (w : Fin n) (i : ℕ) (tr : List (Input n × Output)) : ℕ :=
  Counter.reported (history (Process.place (upcallInit batchSz) w i) tr)

/-- The increments of the slot between the load that printed it and the load that copied
it, in all rows. -/
def missed (batchSz : ℕ) (w : Fin n) (i : ℕ) (tr : List (Input n × Output)) : ℕ :=
  Counter.missed (history (Process.place (upcallInit batchSz) w i) tr)

/-- The increments of the slot that were stored since it was zeroed last. -/
def storesSince (batchSz : ℕ) (w : Fin n) (i : ℕ) (tr : List (Input n × Output)) : ℕ :=
  (Counter.level (history (Process.place (upcallInit batchSz) w i) tr)).stores

/-- The value that an increment of the slot had loaded when the slot was zeroed last, or
zero if none was under way. -/
def stale (batchSz : ℕ) (w : Fin n) (i : ℕ) (tr : List (Input n × Output)) : ℕ :=
  (Counter.level (history (Process.place (upcallInit batchSz) w i) tr)).stale

def Output.isZeroed : Output → Bool
  | .zeroed _ => true
  | _ => false

/-- No counter was zeroed. -/
def NoReset (tr : List (Input n × Output)) : Prop := ∀ x ∈ tr, x.2.isZeroed = false

instance (tr : List (Input n × Output)) : Decidable (NoReset tr) :=
  inferInstanceAs (Decidable (∀ x ∈ tr, x.2.isZeroed = false))

theorem mem_history {k : ℕ} {e : Counter.Event} {tr : List (Input n × Output)} :
    e ∈ history k tr ↔ ∃ x ∈ tr, x.2.event k = some e := List.mem_filterMap

theorem event_zero {k : ℕ} {o : Output} (h : o.event k = some .zero) : o.isZeroed = true := by
  cases o with
  | zeroed j => rfl
  | silent => cases h
  | dumped path sections => cases h
  | _ =>
      rw [Output.event] at h
      split at h <;> cases h

theorem NoReset.history {tr : List (Input n × Output)} (h : NoReset tr) (k : ℕ) :
    Counter.Event.zero ∉ history k tr := by
  intro hmem
  obtain ⟨x, hx, hevent⟩ := mem_history.mp hmem
  have hzeroed := event_zero hevent
  rw [h x hx] at hzeroed
  cases hzeroed

/-! ## Printed deltas -/

namespace Process

/-- A cell that is printed is a slot in use of some worker. -/
theorem Inv.printed_place {L : Layout} {s s' : Process n} (hs : s.Inv L) {a : Input n}
    {k cur pv : ℕ} (h : s.step L a = some (s', .printed k cur pv)) :
    ∃ (w : Fin n) (i : ℕ), i < L.used ∧ k = place L w i := by
  cases step_spec h with
  | @printed v i cols hpc =>
      obtain ⟨hlt, hsuffix⟩ := hs.cols hpc
      exact ⟨⟨v, hlt⟩, i, Layout.mem_columns.mp (hsuffix.subset List.mem_cons_self), rfl⟩

theorem reaches_printed_place {tr : List (Input n × Output)} {s : Process n}
    (h : (process n batchSz).Reaches tr s) {a : Input n} {k cur pv : ℕ}
    (hmem : (a, .printed k cur pv) ∈ tr) :
    ∃ (w : Fin n) (i : ℕ), i < (upcallInit batchSz).used ∧ k = place (upcallInit batchSz) w i := by
  induction h with
  | init hs => cases hmem
  | step hr hstep ih =>
      rcases List.mem_append.mp hmem with hmem | hmem
      · exact ih hmem
      · cases List.mem_singleton.mp hmem
        exact (reaches_inv hr).printed_place hstep

/-- Whatever the workers and the resets do, no delta that the monitor prints is below
zero. -/
theorem printed_deltas_ordered {tr : List (Input n × Output)} {s : Process n}
    (h : (process n batchSz).Reaches tr s) {a : Input n} {k cur pv : ℕ}
    (hmem : (a, Output.printed k cur pv) ∈ tr) : pv ≤ cur := by
  obtain ⟨w, i, hi, rfl⟩ := reaches_printed_place h hmem
  have hrun := reaches_cell h hi (w := w)
  refine hrun.print_le (mem_history.mpr ⟨_, hmem, ?_⟩)
  rw [Output.event, if_pos rfl]

/-- The deltas of the rows so far add up to the value printed last if and only if no
increment came between the two loads of an earlier row. -/
theorem csv_conserves_iff {tr : List (Input n × Output)} {s : Process n} {a : Input n}
    {w : Fin n} {i cur pv : ℕ} (hi : i < (upcallInit batchSz).used)
    (h : (process n batchSz).Reaches
      (tr ++ [(a, .printed (place (upcallInit batchSz) w i) cur pv)]) s)
    (hreset : NoReset tr) :
    reported batchSz w i (tr ++ [(a, .printed (place (upcallInit batchSz) w i) cur pv)]) = cur ↔
      missed batchSz w i tr = 0 := by
  have hrun := reaches_cell h hi (w := w)
  rw [history_snoc, Output.event, if_pos rfl, Option.toList_some] at hrun
  have hsum := hrun.reported_add_missed (hreset.history _)
  have hmissed : Counter.missed (history (place (upcallInit batchSz) w i) tr ++
      [.print cur pv]) = missed batchSz w i tr := by
    rw [Counter.missed, Counter.gap_snoc]
    rfl
  rw [hmissed] at hsum
  rw [reported, history_snoc, Output.event, if_pos rfl, Option.toList_some]
  omega

/-! ## Resets -/

/-- After a reset a slot counts no more than the increments that were stored since, if and
only if none of them had loaded the slot before the reset. -/
theorem reset_clears_iff {tr : List (Input n × Output)} {s : Process n}
    (h : (process n batchSz).Reaches tr s) {w : Fin n} {i : ℕ}
    (hi : i < (upcallInit batchSz).used) :
    s.shared.stats (place (upcallInit batchSz) w i) ≤ storesSince batchSz w i tr ↔
      storesSince batchSz w i tr = 0 ∨ stale batchSz w i tr = 0 :=
  (reaches_cell h hi).value_le_iff

end Process

/-! ## Runs of one worker -/

def idleProcess (n : ℕ) : Process n := ⟨fun _ => .start, fun _ => 0, fun _ => 0, .sleep, .other ""⟩

theorem idleProcess_init : (process n batchSz).Init (idleProcess n) := ⟨fun _ => rfl, rfl⟩

/-- An increment of the next slot. -/
def increment (w : Fin n) : List (Input n) := [.load w, .store w]

/-- The first iteration, which has no userspace time to count. -/
def firstIteration (w : Fin n) : List (Input n) :=
  [.enter w 10, .leave w 1 20] ++ increment w ++ increment w ++ increment w

/-- The rest of the monitor's row behind its first slot, with its copy. -/
def restOfRow : List (Input n) := List.replicate 172 .monitor

def quietRow (w : Fin n) : List (Input n) := firstIteration w ++ [.monitor]

theorem quietRow_runs : ((process 1 1).exec (idleProcess 1) (quietRow 0)).isSome := by decide

theorem csv_conserves_iff_quietRow :
    ∃ tr s, (process 1 1).Reaches (tr ++ [(.monitor, .printed 0 1 0)]) s ∧
      (reported 1 (0 : Fin 1) 0 (tr ++ [(.monitor, .printed 0 1 0)]) = 1 ↔
        missed 1 (0 : Fin 1) 0 tr = 0) := by
  have hreach := Machine.reaches_exec_get idleProcess_init quietRow_runs
  have hlast := hreach.step (a := .monitor) (o := .printed 0 1 0) (by rfl)
  refine ⟨_, _, hlast, ?_⟩
  exact Process.csv_conserves_iff (w := 0) (i := 0) (by decide) hlast (by decide)

/-- An iteration between the print and the copy of the number of submits. -/
def tornRow (w : Fin n) : List (Input n) :=
  quietRow w ++ [.monitor, .enter w 30] ++ increment w ++ [.leave w 1 40] ++
    increment w ++ increment w ++ increment w ++ restOfRow ++ [.poll none, .monitor]

set_option maxRecDepth 8000 in
theorem tornRow_runs : ((process 1 1).exec (idleProcess 1) (tornRow 0)).isSome := by decide

set_option maxRecDepth 8000 in
/-- The second row prints that nothing was submitted since the first one. -/
theorem csv_not_conserved :
    ¬ ∀ (n batchSz : ℕ) (tr : List (Input n × Output)) (s : Process n) (a : Input n)
      (w : Fin n) (i cur pv : ℕ), 1 ≤ batchSz → i < (upcallInit batchSz).used →
      (process n batchSz).Reaches
        (tr ++ [(a, .printed (Process.place (upcallInit batchSz) w i) cur pv)]) s →
      NoReset tr →
      reported batchSz w i
        (tr ++ [(a, .printed (Process.place (upcallInit batchSz) w i) cur pv)]) = cur := by
  intro h
  have hreach := Machine.reaches_exec_get idleProcess_init tornRow_runs
  have hlast := hreach.step (a := .monitor) (o := .printed 0 2 2) (by rfl)
  have hsum := h 1 1 _ _ _ 0 0 2 2 (Nat.le_refl 1) (by decide) hlast (by decide)
  revert hsum
  decide

/-- A reset zeroes the number of submits in the second iteration. The increment of that
number takes the steps `before` ahead of it and `behind` after it. -/
def resetRun (w : Fin n) (before behind : List (Input n)) : List (Input n) :=
  firstIteration w ++ [.enter w 30] ++ increment w ++ [.leave w 1 40] ++ increment w ++ before ++
    [.monitor, .monitor] ++ restOfRow ++ [.poll (some (.reset "level")), .monitor] ++ behind

set_option maxRecDepth 8000 in
theorem resetRun_runs :
    ((process 1 1).exec (idleProcess 1) (resetRun 0 [] (increment 0))).isSome := by decide

set_option maxRecDepth 8000 in
theorem printed_deltas_ordered_resetRun :
    ∃ tr s, (process 1 1).Reaches tr s ∧ (.monitor, .printed 0 1 0) ∈ tr ∧ 0 ≤ 1 := by
  have hreach := Machine.reaches_exec_get idleProcess_init resetRun_runs
  have hmem : (.monitor, .printed 0 1 0) ∈
      (((process 1 1).exec (idleProcess 1) (resetRun 0 [] (increment 0))).get resetRun_runs).2 :=
    List.mem_of_getElem? (i := 15) rfl
  exact ⟨_, _, hreach, hmem, Process.printed_deltas_ordered hreach hmem⟩

set_option maxRecDepth 8000 in
theorem reset_clears_iff_resetRun :
    ∃ tr s, (process 1 1).Reaches tr s ∧ s.shared.stats 0 = 1 ∧
      (s.shared.stats 0 ≤ storesSince 1 (0 : Fin 1) 0 tr ↔
        storesSince 1 (0 : Fin 1) 0 tr = 0 ∨ stale 1 (0 : Fin 1) 0 tr = 0) := by
  have hreach := Machine.reaches_exec_get idleProcess_init resetRun_runs
  exact ⟨_, _, hreach, rfl, Process.reset_clears_iff hreach (w := 0) (i := 0) (by decide)⟩

set_option maxRecDepth 8000 in
theorem overtakenReset_runs :
    ((process 1 1).exec (idleProcess 1) (resetRun 0 [.load 0] [.store 0])).isSome := by decide

set_option maxRecDepth 8000 in
/-- The reset falls between the load and the store of an increment. -/
theorem reset_not_cleared :
    ¬ ∀ (n batchSz : ℕ) (tr : List (Input n × Output)) (s : Process n) (w : Fin n) (i : ℕ),
      1 ≤ batchSz → i < (upcallInit batchSz).used → (process n batchSz).Reaches tr s →
      s.shared.stats (Process.place (upcallInit batchSz) w i) ≤ storesSince batchSz w i tr := by
  intro h
  have hreach := Machine.reaches_exec_get idleProcess_init overtakenReset_runs
  have hle := h 1 1 _ _ 0 0 (Nat.le_refl 1) (by decide) hreach
  revert hle
  decide

end Upcalls.BatchStats
