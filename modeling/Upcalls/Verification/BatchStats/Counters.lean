import Upcalls.Library.Counter
import Upcalls.Verification.BatchStats.Equations

/-! # Each slot in use is a counter with one writer -/

namespace Upcalls.BatchStats

open Library

variable {n : ℕ} {L : Layout}

/-! ## The counter in a slot -/

/-- What an output says of the counter at `k`. -/
def Output.event (k : ℕ) : Output → Option Counter.Event
  | .loaded j v => if j = k then some (.load v) else none
  | .stored j => if j = k then some .store else none
  | .printed j cur pv => if j = k then some (.print cur pv) else none
  | .copied j => if j = k then some .copy else none
  | .zeroed j => if j = k then some .zero else none
  | .zeroedPrev j => if j = k then some .zeroBase else none
  | _ => none

/-- All that happened to the counter at `k`. -/
def history (k : ℕ) (tr : List (Input n × Output)) : List Counter.Event :=
  tr.filterMap fun x => x.2.event k

theorem history_snoc (k : ℕ) (tr : List (Input n × Output)) (x : Input n × Output) :
    history k (tr ++ [x]) = history k tr ++ (x.2.event k).toList := by
  rw [history, List.filterMap_append, ← history, List.filterMap_cons]
  cases x.2.event k <;> rfl

namespace Monitor

/-- The row of worker `w` has printed slot `i` and not copied it yet. -/
def printed (w i : ℕ) : Monitor → Bool
  | .print v cols => v = w ∧ i ∉ cols
  | .copy v j => v = w ∧ j ≤ i
  | _ => false

/-- The counter at `k` is zeroed and its baseline is not. -/
def resetting (k : ℕ) : Monitor → Bool
  | .zero j => k < j
  | .zeroPrev j => j ≤ k
  | _ => false

end Monitor

namespace Process

open Team

def cell (L : Layout) (s : Process n) (w : Fin n) (i : ℕ) : Counter where
  value := s.shared.stats (place L w i)
  base := s.shared.prev (place L w i)
  loaded := if (s.worker w).todo.head? = some i then (s.worker w).loaded else none
  printed := s.shared.monitor.printed w i
  resetting := s.shared.monitor.resetting (place L w i)

structure Inv (L : Layout) (s : Process n) : Prop where
  todo : ∀ {w i}, i ∈ (s.worker w).todo → i < L.used
  idle : ∀ {w}, (s.worker w).todo = [] → (s.worker w).loaded = none
  cols : ∀ {v cols}, s.shared.monitor = .print v cols → v < n ∧ cols <:+ L.columns

theorem inv_start {s : Process n} {batchSz : ℕ} (h : (process n batchSz).Init s) :
    s.Inv (upcallInit batchSz) := by
  refine ⟨?_, ?_, ?_⟩
  · intro w i hi
    rw [h.1] at hi
    cases hi
  · intro w _
    rw [h.1]
    rfl
  · intro v cols hpc
    rw [h.2] at hpc
    cases hpc

theorem row_cols {w v : ℕ} {cols : List ℕ} (h : row n L w = .print v cols) :
    v < n ∧ cols <:+ L.columns := by
  rw [row] at h
  split at h
  · rename_i hlt
    cases h
    exact ⟨hlt, List.suffix_refl _⟩
  · cases h

/-- A step of the monitor. -/
theorem Inv.share {s : Process n} (hs : s.Inv L) {sh : Shared}
    (hcols : ∀ {v cols}, sh.monitor = .print v cols → v < n ∧ cols <:+ L.columns) :
    Inv L (s.share sh) where
  todo := hs.todo
  idle := hs.idle
  cols := hcols

/-- A step of a worker. -/
theorem Inv.set {s : Process n} (hs : s.Inv L) {w : Fin n} {me : Worker}
    (htodo : ∀ i ∈ me.todo, i < L.used) (hidle : me.todo = [] → me.loaded = none) :
    Inv L (s.set w me) where
  todo {v i} := forall_set (P := fun _ (me : Worker) => i ∈ me.todo → i < L.used) (htodo i)
    (fun _ _ => hs.todo) v
  idle {v} := forall_set (P := fun _ (me : Worker) => me.todo = [] → me.loaded = none) hidle
    (fun _ _ => hs.idle) v
  cols := hs.cols

theorem Inv.step (hL : L.Fits) {s s' : Process n} (hs : s.Inv L) {a : Input n} {o : Output}
    (h : s.step L a = some (s', o)) : s'.Inv L := by
  cases step_spec h with
  | entered hin hnil hle hpos hlt =>
      refine hs.set ?_ ?_
      · intro i hi
        split at hi
        · rw [List.mem_singleton.mp hi]
          exact hL.utimeSlot _
        · cases hi
      · intro _
        exact hs.idle hnil
  | left hin hnil hle hlt hret =>
      refine hs.set ?_ ?_
      · intro i hi
        simp only [List.mem_cons, List.not_mem_nil, or_false] at hi
        rcases hi with rfl | rfl | rfl
        · exact hL.ktimeSlot _
        · rw [Layout.used]
          omega
        · exact hL.batchSlot _
      · intro hnil'
        cases hnil'
  | loaded htodo hnone =>
      refine hs.set (fun i hi => hs.todo hi) ?_
      intro hnil
      rw [htodo] at hnil
      cases hnil
  | @stored w j todo v htodo hloaded =>
      have hset : Inv L (s.set w { s.worker w with todo := todo, loaded := none }) := by
        refine hs.set ?_ (fun _ => rfl)
        intro i hi
        refine hs.todo (w := w) ?_
        rw [htodo]
        exact List.mem_cons_of_mem _ hi
      exact hset.share hs.cols
  | woken hpc =>
      exact hs.share fun hrow => row_cols hrow
  | printed hpc =>
      refine hs.share ?_
      intro v cols hcols
      cases hcols
      obtain ⟨hlt, hsuffix⟩ := hs.cols hpc
      exact ⟨hlt, (List.suffix_cons _ _).trans hsuffix⟩
  | rowCopied hpc hle =>
      exact hs.share fun hrow => row_cols hrow
  | _ => exact hs.share fun hcols => by cases hcols

/-! ## Steps -/

/-- The event, if there is one, leads from `c` to `c'`. -/
def Follows (c : Counter) (e : Option Counter.Event) (c' : Counter) : Prop :=
  match e with
  | none => c' = c
  | some e => Counter.Step c e c'

theorem place_hit (hL : L.Fits) {w : Fin n} {v i j : ℕ} (hi : i < L.used)
    (hj : j < L.batchStride) : v * L.batchStride + j = place L w i ↔ w = v ∧ i = j := by
  rw [eq_comm]
  exact place_eq_iff (Nat.lt_of_lt_of_le hi hL.used) hj

theorem cell_set_ne {s : Process n} {w v : Fin n} {me : Worker} (h : w ≠ v) (i : ℕ) :
    cell L (s.set v me) w i = cell L s w i := by
  rw [cell, cell, set_worker_ne s me h]
  rfl

/-- A worker that increments nothing yet. -/
theorem cell_set_none {s : Process n} {v : Fin n} {me : Worker}
    (hold : (s.worker v).loaded = none) (hnew : me.loaded = none) (w : Fin n) (i : ℕ) :
    cell L (s.set v me) w i = cell L s w i := by
  by_cases hw : w = v
  · subst hw
    rw [cell, cell, set_worker_self, hold, hnew, ite_self, ite_self]
    rfl
  · exact cell_set_ne hw i

theorem follows_loaded (hL : L.Fits) {s : Process n} {v : Fin n} {j : ℕ} {todo : List ℕ}
    (htodo : (s.worker v).todo = j :: todo) (hnone : (s.worker v).loaded = none)
    (hj : j < L.used) {w : Fin n} {i : ℕ} (hi : i < L.used) :
    Follows (cell L s w i)
      ((Output.loaded (place L v j) (s.shared.stats (place L v j))).event (place L w i))
      (cell L (s.set v { s.worker v with loaded := some (s.shared.stats (place L v j)) })
        w i) := by
  have hhit := place_hit hL (w := w) (v := v) hi (Nat.lt_of_lt_of_le hj hL.used)
  by_cases heq : w = v ∧ i = j
  · obtain ⟨rfl, rfl⟩ := heq
    have hold : (cell L s w i).loaded = none := by
      simp only [cell, hnone, ite_self]
    have hnew : cell L (s.set w { s.worker w with
        loaded := some (s.shared.stats (place L w i)) }) w i =
          { cell L s w i with loaded := some (cell L s w i).value } := by
      simp only [cell, set_worker_self, htodo, List.head?_cons, if_true]
      rfl
    rw [Output.event, if_pos rfl, hnew]
    exact .load hold
  · have hmiss : ¬ place L v j = place L w i := by
      intro h
      obtain ⟨hw, hij⟩ := hhit.mp h
      exact heq ⟨Fin.ext hw, hij⟩
    rw [Output.event, if_neg hmiss]
    by_cases hw : w = v
    · subst hw
      have hne : j ≠ i := fun h => heq ⟨rfl, h.symm⟩
      simp only [Follows, cell, set_worker_self, htodo, List.head?_cons, Option.some.injEq,
        if_neg hne]
      rfl
    · exact cell_set_ne hw i

theorem follows_stored (hL : L.Fits) {s : Process n} {v : Fin n} {j : ℕ} {todo : List ℕ}
    {u : ℕ} (htodo : (s.worker v).todo = j :: todo) (hloaded : (s.worker v).loaded = some u)
    (hj : j < L.used) {w : Fin n} {i : ℕ} (hi : i < L.used) :
    Follows (cell L s w i) ((Output.stored (place L v j)).event (place L w i))
      (cell L ((s.set v { s.worker v with todo := todo, loaded := none }).share { s.shared with
        stats := Function.update s.shared.stats (place L v j) (u + 1) }) w i) := by
  have hhit := place_hit hL (w := w) (v := v) hi (Nat.lt_of_lt_of_le hj hL.used)
  by_cases heq : w = v ∧ i = j
  · obtain ⟨rfl, rfl⟩ := heq
    have hold : (cell L s w i).loaded = some u := by
      simp only [cell, htodo, List.head?_cons, if_true, hloaded]
    rw [Output.event, if_pos rfl]
    have hstep := Counter.Step.store hold
    simp only [cell, share_worker, share_shared, set_worker_self, Function.update_self,
      ite_self] at hstep ⊢
    exact hstep
  · have hmiss : ¬ place L v j = place L w i := by
      intro h
      obtain ⟨hw, hij⟩ := hhit.mp h
      exact heq ⟨Fin.ext hw, hij⟩
    have hstats : Function.update s.shared.stats (place L v j) (u + 1) (place L w i) =
        s.shared.stats (place L w i) := Function.update_of_ne (Ne.symm hmiss) _ _
    rw [Output.event, if_neg hmiss]
    by_cases hw : w = v
    · subst hw
      have hne : j ≠ i := fun h => heq ⟨rfl, h.symm⟩
      simp only [Follows, cell, share_worker, share_shared, set_worker_self, hstats, ite_self,
        htodo, List.head?_cons, Option.some.injEq, if_neg hne]
    · simp only [Follows, cell, share_worker, share_shared, hstats, set_worker_ne _ _ hw]

/-! ### Steps of the monitor -/

theorem row_printed (v : ℕ) {w i : ℕ} (hi : i < L.used) :
    (row n L v).printed w i = false := by
  rw [row]
  split
  · simp only [Monitor.printed, Layout.mem_columns.mpr hi, not_true, and_false, decide_false]
  · rfl

theorem row_resetting (v k : ℕ) : (row n L v).resetting k = false := by
  rw [row]
  split <;> rfl

/-- The monitor only goes on to `pc`. -/
theorem cell_goTo {s : Process n} {pc : Monitor} {c : Command} {w : Fin n} {i : ℕ}
    (hprinted : pc.printed w i = s.shared.monitor.printed w i)
    (hresetting : pc.resetting (place L w i) = s.shared.monitor.resetting (place L w i)) :
    cell L (s.share { s.shared with monitor := pc, last := c }) w i = cell L s w i := by
  rw [cell, cell, share_shared, hprinted, hresetting]
  rfl

theorem follows_printed (hL : L.Fits) {s : Process n} {v j : ℕ} {cols : List ℕ}
    (hpc : s.shared.monitor = .print v (j :: cols)) (hcols : j :: cols <:+ L.columns)
    {w : Fin n} {i : ℕ} (hi : i < L.used) :
    Follows (cell L s w i)
      ((Output.printed (v * L.batchStride + j) (s.shared.stats (v * L.batchStride + j))
        (s.shared.prev (v * L.batchStride + j))).event (place L w i))
      (cell L (s.goTo (.print v cols)) w i) := by
  have hj : j < L.used := Layout.mem_columns.mp (hcols.subset List.mem_cons_self)
  have hnodup := List.nodup_cons.mp (hcols.sublist.nodup L.nodup_columns)
  have hhit := place_hit hL (w := w) (v := v) hi (Nat.lt_of_lt_of_le hj hL.used)
  by_cases heq : (w : ℕ) = v ∧ i = j
  · obtain ⟨rfl, rfl⟩ := heq
    have hprinted : (cell L s w i).printed = false := by
      simp [cell, hpc, Monitor.printed]
    have hresetting : (cell L s w i).resetting = false := by
      simp only [cell, hpc, Monitor.resetting]
    have hafter : (Monitor.print w cols).printed w i = true := by
      simp [Monitor.printed, hnodup.1]
    have hstep := Counter.Step.print hresetting hprinted
    have hit : w * L.batchStride + i = place L w i := rfl
    rw [Output.event, if_pos hit]
    simp only [cell, goTo, share_worker, share_shared, hpc, Monitor.resetting, hafter] at hstep ⊢
    exact hstep
  · have hmiss : ¬ v * L.batchStride + j = place L w i := fun h => heq (hhit.mp h)
    rw [Output.event, if_neg hmiss]
    refine cell_goTo (c := s.shared.last) ?_ ?_
    · by_cases hw : v = w
      · have hne : i ≠ j := fun h => heq ⟨hw.symm, h⟩
        simp [hpc, Monitor.printed, hne]
      · simp [hpc, Monitor.printed, hw]
    · rw [hpc]
      rfl

theorem follows_copied (hL : L.Fits) {s : Process n} {v j : ℕ}
    (hpc : s.shared.monitor = .copy v j) (hj : j < L.batchStride) {w : Fin n} {i : ℕ}
    (hi : i < L.used) :
    Follows (cell L s w i) ((Output.copied (v * L.batchStride + j)).event (place L w i))
      (cell L (s.share { s.shared with
        prev := Function.update s.shared.prev (v * L.batchStride + j)
          (s.shared.stats (v * L.batchStride + j))
        monitor := .copy v (j + 1) }) w i) := by
  have hhit := place_hit hL (w := w) (v := v) hi hj
  by_cases heq : (w : ℕ) = v ∧ i = j
  · obtain ⟨rfl, rfl⟩ := heq
    have hprinted : (cell L s w i).printed = true := by
      simp [cell, hpc, Monitor.printed]
    have hresetting : (cell L s w i).resetting = false := by
      simp only [cell, hpc, Monitor.resetting]
    have hstep := Counter.Step.copy hresetting hprinted
    have hafter : (Monitor.copy w (i + 1)).printed w i = false := by
      simp [Monitor.printed]
    have hit : w * L.batchStride + i = place L w i := rfl
    rw [Output.event, if_pos hit]
    simp only [cell, share_worker, share_shared, hpc, Monitor.resetting, hafter] at hstep ⊢
    rw [place, Function.update_self]
    exact hstep
  · have hmiss : ¬ v * L.batchStride + j = place L w i := fun h => heq (hhit.mp h)
    have hprev : Function.update s.shared.prev (v * L.batchStride + j)
        (s.shared.stats (v * L.batchStride + j)) (place L w i) = s.shared.prev (place L w i) :=
      Function.update_of_ne (Ne.symm hmiss) _ _
    have hprinted : (Monitor.copy v (j + 1)).printed w i = (Monitor.copy v j).printed w i := by
      have hiff : v = w ∧ j + 1 ≤ i ↔ v = w ∧ j ≤ i := by omega
      simp only [Monitor.printed, hiff]
    rw [Output.event, if_neg hmiss]
    simp only [Follows, cell, share_worker, share_shared, hprev, hpc, hprinted,
      Monitor.resetting]
    rfl

theorem follows_zeroed {s : Process n} {k : ℕ} (hpc : s.shared.monitor = .zero k)
    (w : Fin n) (i : ℕ) :
    Follows (cell L s w i) ((Output.zeroed k).event (place L w i))
      (cell L (s.share { s.shared with
        stats := Function.update s.shared.stats k 0
        monitor := .zero (k + 1) }) w i) := by
  by_cases heq : k = place L w i
  · subst heq
    have hresetting : (Monitor.zero (place L w i + 1)).resetting (place L w i) = true := by
      simp [Monitor.resetting]
    have hstep := Counter.Step.zero (c := cell L s w i)
    rw [Output.event, if_pos rfl]
    simp only [cell, share_worker, share_shared, hpc, Monitor.printed, hresetting,
      Function.update_self] at hstep ⊢
    exact hstep
  · have hstats : Function.update s.shared.stats k 0 (place L w i) =
        s.shared.stats (place L w i) := Function.update_of_ne (Ne.symm heq) _ _
    have hresetting : (Monitor.zero (k + 1)).resetting (place L w i) =
        (Monitor.zero k).resetting (place L w i) := by
      have hiff : place L w i < k + 1 ↔ place L w i < k := by omega
      simp only [Monitor.resetting, hiff]
    rw [Output.event, if_neg heq]
    simp only [Follows, cell, share_worker, share_shared, hpc, Monitor.printed, hresetting,
      hstats]
    rfl

theorem follows_zeroedPrev {s : Process n} {k : ℕ} (hpc : s.shared.monitor = .zeroPrev k)
    (w : Fin n) (i : ℕ) :
    Follows (cell L s w i) ((Output.zeroedPrev k).event (place L w i))
      (cell L (s.share { s.shared with
        prev := Function.update s.shared.prev k 0
        monitor := .zeroPrev (k + 1) }) w i) := by
  by_cases heq : k = place L w i
  · subst heq
    have hresetting : (cell L s w i).resetting = true := by
      simp [cell, hpc, Monitor.resetting]
    have hafter : (Monitor.zeroPrev (place L w i + 1)).resetting (place L w i) = false := by
      simp [Monitor.resetting]
    have hstep := Counter.Step.zeroBase hresetting
    rw [Output.event, if_pos rfl]
    simp only [cell, share_worker, share_shared, hpc, Monitor.printed, hafter,
      Function.update_self] at hstep ⊢
    exact hstep
  · have hprev : Function.update s.shared.prev k 0 (place L w i) =
        s.shared.prev (place L w i) := Function.update_of_ne (Ne.symm heq) _ _
    have hresetting : (Monitor.zeroPrev (k + 1)).resetting (place L w i) =
        (Monitor.zeroPrev k).resetting (place L w i) := by
      have hiff : k + 1 ≤ place L w i ↔ k ≤ place L w i := by omega
      simp only [Monitor.resetting, hiff]
    rw [Output.event, if_neg heq]
    simp only [Follows, cell, share_worker, share_shared, hpc, Monitor.printed, hresetting,
      hprev]
    rfl

/-! ## Runs -/

/-- Every step is, for each slot in use, a step of its counter or none. -/
theorem Inv.follows (hL : L.Fits) {s s' : Process n} (hs : s.Inv L) {a : Input n} {o : Output}
    (h : s.step L a = some (s', o)) {w : Fin n} {i : ℕ} (hi : i < L.used) :
    Follows (cell L s w i) (o.event (place L w i)) (cell L s' w i) := by
  cases step_spec h with
  | entered hin hnil hle hpos hlt =>
      have hnone := hs.idle hnil
      exact cell_set_none hnone (by exact hnone) w i
  | left hin hnil hle hlt hret =>
      have hnone := hs.idle hnil
      exact cell_set_none hnone (by exact hnone) w i
  | loaded htodo hnone =>
      exact follows_loaded hL htodo hnone (hs.todo (htodo ▸ List.mem_cons_self)) hi
  | stored htodo hloaded =>
      exact follows_stored hL htodo hloaded (hs.todo (htodo ▸ List.mem_cons_self)) hi
  | woken hpc =>
      refine cell_goTo (c := s.shared.last) ?_ ?_
      · rw [row_printed 0 hi, hpc]
        rfl
      · rw [row_resetting, hpc]
        rfl
  | printed hpc => exact follows_printed hL hpc (hs.cols hpc).2 hi
  | rowPrinted hpc =>
      refine cell_goTo (c := s.shared.last) ?_ ?_
      · simp [hpc, Monitor.printed]
      · rw [hpc]
        rfl
  | copied hpc hj => exact follows_copied hL hpc hj hi
  | @rowCopied v j hpc hle =>
      have hused := hL.used
      refine cell_goTo (c := s.shared.last) ?_ ?_
      · have hlt : ¬ j ≤ i := by omega
        rw [row_printed (v + 1) hi, hpc]
        simp only [Monitor.printed, hlt, and_false, decide_false]
      · rw [row_resetting, hpc]
        rfl
  | zeroed hpc hlt => exact follows_zeroed hpc w i
  | @allZeroed k hpc hle =>
      have hlt : place L w i < k :=
        Nat.lt_of_lt_of_le (place_lt (Nat.lt_of_lt_of_le hi hL.used)) hle
      refine cell_goTo (c := s.shared.last) ?_ ?_
      · rw [hpc]
        rfl
      · simp [hpc, Monitor.resetting, hlt]
  | zeroedPrev hpc hlt => exact follows_zeroedPrev hpc w i
  | @reset k hpc hle =>
      have hlt : place L w i < k :=
        Nat.lt_of_lt_of_le (place_lt (Nat.lt_of_lt_of_le hi hL.used)) hle
      refine cell_goTo (c := s.shared.last) ?_ ?_
      · rw [hpc]
        rfl
      · simp [hpc, Monitor.resetting, Nat.not_le_of_lt hlt]
  | polled hpc => exact cell_goTo (by rw [hpc]; rfl) (by rw [hpc]; rfl)
  | resetting hpc => exact cell_goTo (by rw [hpc]; rfl) (by rw [hpc]; simp [Monitor.resetting])
  | dumped hpc => exact cell_goTo (by rw [hpc]; rfl) (by rw [hpc]; rfl)

theorem reaches_inv {batchSz : ℕ} {tr : List (Input n × Output)} {s : Process n}
    (h : (process n batchSz).Reaches tr s) : s.Inv (upcallInit batchSz) :=
  h.invariant (P := fun _ s => s.Inv (upcallInit batchSz)) (fun _ hs => inv_start hs)
    fun _ _ _ _ _ _ hs hstep => hs.step (Layout.upcallInit_fits batchSz) hstep

/-- A run of the process is a run of the counter in each slot in use. -/
theorem reaches_cell {batchSz : ℕ} {tr : List (Input n × Output)} {s : Process n}
    (h : (process n batchSz).Reaches tr s) {w : Fin n} {i : ℕ}
    (hi : i < (upcallInit batchSz).used) :
    Counter.Run (history (place (upcallInit batchSz) w i) tr)
      (cell (upcallInit batchSz) s w i) := by
  have hL := Layout.upcallInit_fits batchSz
  induction h with
  | @init s hs =>
      have hstart : cell (upcallInit batchSz) s w i = ⟨0, 0, none, false, false⟩ := by
        simp only [cell, hs.1, hs.2, Worker.start, ite_self]
        rfl
      rw [hstart]
      exact .start
  | @step tr s t a o hr hstep ih =>
      have hfollows := (reaches_inv hr).follows hL hstep hi (w := w)
      rw [history_snoc]
      cases hevent : o.event (place (upcallInit batchSz) w i) with
      | none =>
          rw [hevent] at hfollows
          rw [show cell (upcallInit batchSz) t w i = _ from hfollows]
          simpa using ih
      | some e =>
          rw [hevent] at hfollows
          exact .step ih hfollows

end Process

end Upcalls.BatchStats
