import Mathlib.Algebra.BigOperators.Fin
import Mathlib.Algebra.Order.BigOperators.Group.Finset
import Upcalls.Library.Progress
import Upcalls.Model.ClientMain

/-! # The client program behind the loops of its workers

Once all workers have left their loops, `main` gets to the results or to the report: every
step brings it closer, and there is always one to take.
-/

namespace Upcalls.ClientMain

open Library TcpClient

variable {m n : ℕ} {o : Options} {s t : Program m n} {out : Output n}

/-! ## What is left to do -/

def Stage.rank : Stage → ℕ
  | .looping => 3
  | .left => 2
  | .cleaning => 1
  | .returned => 0

/-- The turns of its two loops that `main` has ahead, for `m` workers. -/
def MainPc.rank (m : ℕ) : MainPc → ℕ
  | .join i => m - i + (m + 2)
  | .check i => m - i + 1
  | .report | .results | .killed => 0

namespace Program

def rank (s : Program m n) : ℕ := s.main.rank m + ∑ w, (s.stage w).rank

/-- All workers have left their loops, and none has ended the program. -/
def Behind (s : Program m n) : Prop := s.main ≠ .killed ∧ ∀ w, s.stage w ≠ .looping

def Arrived (s : Program m n) : Prop := s.main = .results ∨ s.main = .report

theorem Behind.rank_le (h : s.Behind) : s.rank ≤ 4 * m + 2 := by
  have hmain : s.main.rank m ≤ 2 * m + 2 := by
    cases s.main <;> simp only [MainPc.rank] <;> omega
  have hstage : ∑ w, (s.stage w).rank ≤ m * 2 := by
    refine (Finset.sum_le_card_nsmul _ _ 2 ?_).trans_eq (by rw [Finset.card_fin, smul_eq_mul])
    intro w _
    have hleft := h.2 w
    cases hw : s.stage w with
    | looping => exact (hleft hw).elim
    | left | cleaning | returned => simp [Stage.rank]
  rw [rank]
  omega

/-- The worker `w` moves on to the stage `q`. -/
theorem rank_stage {w : Fin m} {q : Stage} (hmain : t.main = s.main)
    (hstage : t.stage = Function.update s.stage w q) (hq : q.rank < (s.stage w).rank) :
    t.rank < s.rank := by
  rw [rank, rank, hmain, hstage]
  refine Nat.add_lt_add_left (Finset.sum_lt_sum ?_ ⟨w, Finset.mem_univ w, ?_⟩) _
  · intro v _
    by_cases hv : v = w
    · rw [hv, Function.update_self]
      exact Nat.le_of_lt hq
    · rw [Function.update_of_ne hv]
  · rw [Function.update_self]
    exact hq

theorem Behind.stage {w : Fin m} {q : Stage} (h : s.Behind) (hmain : t.main = s.main)
    (hstage : t.stage = Function.update s.stage w q) (hq : q ≠ .looping) : t.Behind := by
  refine ⟨by rw [hmain]; exact h.1, ?_⟩
  intro v
  rw [hstage]
  by_cases hv : v = w
  · rw [hv, Function.update_self]
    exact hq
  · rw [Function.update_of_ne hv]
    exact h.2 v

/-! ## Steps -/

/-- Every turn of `main` leaves one less. -/
theorem mainStep_behind (h : s.Behind) (hstep : s.mainStep = some t) :
    t.Behind ∧ t.rank < s.rank := by
  have hgoTo : ∀ {pc : MainPc}, pc ≠ .killed → pc.rank m < s.main.rank m →
      (s.goTo pc).Behind ∧ (s.goTo pc).rank < s.rank := by
    intro pc hpc hlt
    exact ⟨⟨hpc, h.2⟩, Nat.add_lt_add_right hlt _⟩
  rw [mainStep] at hstep
  split at hstep
  · rename_i i hmain
    split at hstep
    · split at hstep
      · cases hstep
        refine hgoTo MainPc.noConfusion ?_
        rw [hmain]
        simp only [MainPc.rank]
        omega
      · cases hstep
    · cases hstep
      refine hgoTo MainPc.noConfusion ?_
      rw [hmain]
      simp only [MainPc.rank]
      omega
  · rename_i i hmain
    split at hstep
    · split at hstep
      · cases hstep
        refine hgoTo MainPc.noConfusion ?_
        rw [hmain]
        simp only [MainPc.rank]
        omega
      · cases hstep
        refine hgoTo MainPc.noConfusion ?_
        rw [hmain]
        simp only [MainPc.rank]
        omega
    · cases hstep
      refine hgoTo MainPc.noConfusion ?_
      rw [hmain]
      simp only [MainPc.rank]
      omega
  · cases hstep
  · cases hstep
  · cases hstep

/-- Every step behind the loops keeps the program there and brings it closer to the end. -/
theorem step_behind (h : s.Behind) {a : Input m} (hstep : s.step o a = some (t, out)) :
    t.Behind ∧ t.rank < s.rank := by
  cases a with
  | worker w a =>
      simp only [step, loop] at hstep
      split at hstep
      · rename_i hguard
        exact (h.2 w hguard.2).elim
      · cases hstep
  | leave w =>
      obtain ⟨u, hu, hpair⟩ := Option.map_eq_some_iff.mp hstep
      cases hpair
      simp only [leave] at hu
      split at hu
      · rename_i hguard
        cases hu
        have hless : (if (s.workers w).dying then Stage.returned else .cleaning).rank <
            (s.stage w).rank := by
          rw [hguard.2]
          split <;> decide
        refine ⟨h.stage rfl rfl ?_, rank_stage rfl rfl hless⟩
        split <;> exact Stage.noConfusion
      · cases hu
  | cleanup w =>
      obtain ⟨u, hu, hpair⟩ := Option.map_eq_some_iff.mp hstep
      cases hpair
      simp only [clean] at hu
      split at hu
      · rename_i hguard
        cases hu
        have hless : Stage.returned.rank < (s.stage w).rank := by
          rw [hguard.2]
          decide
        exact ⟨h.stage rfl rfl Stage.noConfusion, rank_stage rfl rfl hless⟩
      · cases hu
  | main =>
      obtain ⟨u, hu, hpair⟩ := Option.map_eq_some_iff.mp hstep
      cases hpair
      exact mainStep_behind h hu

theorem ranked : (program m n o).Ranked Behind rank (fun _ => false) (fun _ => false) 0 where
  keeps h hstep := (step_behind h hstep).1
  falls h hstep _ := (step_behind h hstep).2
  rests _ _ ha := absurd ha Bool.false_ne_true
  rises _ _ hpaid := absurd hpaid Bool.false_ne_true

/-- Behind the loops nothing waits but `pthread_join`. -/
theorem Behind.moves (h : s.Behind) (hnot : ¬ s.Arrived) :
    ∃ a t x, s.step o a = some (t, x) := by
  obtain ⟨hkilled, hleft⟩ := h
  have hstep : ∀ {a : Input m} {x : Option (Program m n)},
      s.step o a = x.map (·, .silent) → x.isSome → ∃ a t x, s.step o a = some (t, x) := by
    intro a x hx hsome
    obtain ⟨t, rfl⟩ := Option.isSome_iff_exists.mp hsome
    exact ⟨a, t, _, hx⟩
  cases hpc : s.main with
  | results => exact (hnot (.inl hpc)).elim
  | report => exact (hnot (.inr hpc)).elim
  | killed => exact (hkilled hpc).elim
  | check i =>
      refine hstep (a := .main) rfl ?_
      simp only [mainStep, hpc]
      split
      · split <;> rfl
      · rfl
  | join i =>
      by_cases hi : i < m
      · cases hstage : s.stage ⟨i, hi⟩ with
        | looping => exact (hleft _ hstage).elim
        | left =>
            refine hstep (a := .leave ⟨i, hi⟩) rfl ?_
            simp only [leave, if_pos (And.intro hkilled hstage)]
            rfl
        | cleaning =>
            refine hstep (a := .cleanup ⟨i, hi⟩) rfl ?_
            simp only [clean, if_pos (And.intro hkilled hstage)]
            rfl
        | returned =>
            refine hstep (a := .main) rfl ?_
            simp only [mainStep, hpc, dif_pos hi, if_pos hstage]
            rfl
      · refine hstep (a := .main) rfl ?_
        simp only [mainStep, hpc, dif_neg hi]
        rfl

/-! ## The end -/

/-- However the program goes on, it takes at most `4 * m + 2` steps, and it does not stop
before `main` is at the results or at the report. -/
structure Ends (o : Options) (s : Program m n) : Prop where
  length : ∀ {tr t}, (program m n o).Run s tr t → tr.length ≤ 4 * m + 2
  moves : ∀ {tr t}, (program m n o).Run s tr t → t.Arrived ∨ ∃ a u x, t.step o a = some (u, x)
  arrives : ∃ tr t, (program m n o).Run s tr t ∧ t.Arrived

theorem Behind.ends (h : s.Behind) : s.Ends o := by
  have hrun : ∀ {tr t}, (program m n o).Run s tr t → t.Behind ∧ tr.length ≤ 4 * m + 2 := by
    intro tr t hrun
    obtain ⟨ht, hle⟩ := ranked.run hrun h
    have hrank := h.rank_le
    simp only [Bool.not_false, List.countP_true] at hle
    exact ⟨ht, by omega⟩
  refine ⟨fun hr => (hrun hr).2, ?_, ?_⟩
  · intro tr t hr
    by_cases harrived : t.Arrived
    · exact .inl harrived
    · exact .inr ((hrun hr).1.moves harrived)
  · have hmoves : ∀ u : Program m n, u.Behind → ¬ u.Arrived →
        ∃ a t x, false = false ∧ (program m n o).step u a = some (t, x) := by
      intro u hu hnot
      obtain ⟨a, t, x, hstep⟩ := hu.moves hnot
      exact ⟨a, t, x, rfl, hstep⟩
    obtain ⟨tr, t, hr, ht, -⟩ := ranked.finishes Arrived hmoves h
    exact ⟨tr, t, hr, ht⟩

end Program

end Upcalls.ClientMain
