import Upcalls.Library.Progress
import Upcalls.Verification.HangLock.Barrier

/-! # All workers are released

The rank adds up what each thread has left to do. Whoever waits for a lock waits for a thread
that can move, and the main thread waits for a worker that is going to signal, so the programs
cannot get stuck before all workers are in their loops.
-/

namespace Upcalls.HangLock

open Library

variable {n : ℕ}

/-! ## The rank -/

/-- From `waiting` on the main thread has to be woken, which is not a step of its own. -/
def MainPc.rank : MainPc → ℕ
  | .hangLock => 8
  | .pthreadCreate _ => 7
  | .initLock => 6
  | .woken => 6
  | .check => 5
  | .sleep => 4
  | .waiting => 3
  | .initUnlock => 2
  | .hangUnlock => 1
  | .done => 0

/-- The step of `signal` also pays for what the main thread does when it is woken. -/
def WorkerPc.rank : WorkerPc → ℕ
  | .absent => 11
  | .setup => 10
  | .initLock => 9
  | .count => 8
  | .signal => 7
  | .initUnlock => 3
  | .hangLock => 2
  | .hangUnlock => 1
  | .loop => 0

/-- What the threads do not do on their own account. -/
def Input.outside : Input n → Bool
  | .wakeMain | .onStats => true
  | _ => false

/-- A spurious wake-up sends the main thread round its loop once more. -/
def Input.spurious : Input n → Bool
  | .wakeMain => true
  | _ => false

namespace Process

def rank (s : Process n) : ℕ := s.shared.main.rank + s.tally WorkerPc.rank

/-- All workers are in their loops, and the main thread is behind `init_threads`. -/
def Started (s : Process n) : Prop := s.shared.main = .done ∧ ∀ w, s.worker w = .loop

theorem rank_le (s : Process n) : s.rank ≤ 8 + 11 * n := by
  have hmain : s.shared.main.rank ≤ 8 := by
    cases s.shared.main <;> simp [MainPc.rank]
  have hworkers : s.tally WorkerPc.rank ≤ 11 * n := by
    have hsum := Finset.sum_le_card_nsmul Finset.univ (fun w => (s.worker w).rank) 11 (by
      intro w _
      cases s.worker w <;> simp [WorkerPc.rank])
    rw [Finset.card_univ, Fintype.card_fin, smul_eq_mul, Nat.mul_comm] at hsum
    exact hsum
  exact Nat.add_le_add hmain hworkers

theorem rank_set_lt {s : Process n} {w : Fin n} {p : WorkerPc} {u : Shared}
    (h : u.main.rank + p.rank < s.shared.main.rank + (s.worker w).rank) :
    rank ((s.set w p).share u) < s.rank := by
  have hset : (s.set w p).tally WorkerPc.rank + (s.worker w).rank =
      s.tally WorkerPc.rank + p.rank := Team.tally_set WorkerPc.rank s w p
  rw [rank, rank, Team.share_shared, Team.tally_share]
  omega

section Steps

variable {s s' : Process n}

theorem loop_rank (n i : ℕ) : (loop n i).rank ≤ 7 := by
  rcases loop_cases n i with ⟨h, -⟩ | h <;> rw [h] <;> simp [MainPc.rank]

theorem mainStep_falls (hs : s.Inv) (h : s.mainStep = some s') : s'.rank < s.rank := by
  have hshare : ∀ u : Shared, u.main.rank < s.shared.main.rank → rank (s.share u) < s.rank := by
    intro u hlt
    exact Nat.add_lt_add_right hlt _
  simp only [mainStep] at h
  split at h <;> rename_i hpc
  case h_1 =>
    split at h
    · cases h
    · cases h
      apply hshare
      rw [hpc]
      exact Nat.lt_succ_of_le (loop_rank n 0)
  case h_2 i =>
    split at h
    · rename_i hi
      cases h
      have habsent : s.worker ⟨i, hi⟩ = .absent := by
        rw [hs.made, hpc]
        exact decide_eq_true (Nat.le_refl i)
      apply rank_set_lt
      rw [habsent, hpc]
      exact Nat.add_lt_add_of_le_of_lt (loop_rank n (i + 1)) (by decide)
    · cases h
  case h_3 | h_4 =>
    split at h
    · cases h
    · cases h
      apply hshare
      simp [hpc, MainPc.rank]
  case h_5 =>
    cases h
    apply hshare
    rw [hpc]
    split <;> simp [MainPc.rank]
  case h_6 | h_7 | h_8 =>
    cases h
    apply hshare
    simp [hpc, MainPc.rank]
  case h_9 | h_10 => cases h

theorem signal_rank (u : Shared) : (signal u).main.rank ≤ u.main.rank + 3 := by
  rw [signal]
  split
  · rename_i hwaiting
    simp [hwaiting, MainPc.rank]
  · exact Nat.le_add_right _ _

theorem workerStep_falls {w : Fin n} (h : s.workerStep w = some s') : s'.rank < s.rank := by
  simp only [workerStep] at h
  split at h <;> rename_i hpc
  case h_1 =>
    cases h
    apply rank_set_lt (u := s.shared)
    rw [hpc]
    exact Nat.add_lt_add_left (by decide) _
  case h_2 | h_6 =>
    split at h
    · cases h
    · cases h
      apply rank_set_lt
      rw [hpc]
      exact Nat.add_lt_add_left (by decide) _
  case h_3 | h_5 | h_7 =>
    cases h
    apply rank_set_lt
    rw [hpc]
    exact Nat.add_lt_add_left (by decide) _
  case h_4 =>
    cases h
    apply rank_set_lt
    have hsignal := signal_rank s.shared
    rw [hpc]
    simp only [WorkerPc.rank]
    omega
  case h_8 | h_9 => cases h

end Steps

theorem ranked : (hangLock n).Ranked Inv rank Input.outside Input.spurious 3 where
  keeps hs h := step_inv hs h
  falls := by
    intro s t a x hs h ha
    obtain ⟨t', ht, hpair⟩ := Option.map_eq_some_iff.mp h
    cases hpair
    cases a with
    | main => exact mainStep_falls hs ht
    | worker w => exact workerStep_falls ht
    | wakeMain | onStats => cases ha
  rests := by
    intro s t a x hs h ha hpaid
    obtain ⟨t', ht, hpair⟩ := Option.map_eq_some_iff.mp h
    cases hpair
    cases a with
    | main | worker w => cases ha
    | wakeMain => cases hpaid
    | onStats =>
        simp only [step, onStats] at ht
        split at ht
        · cases ht
          exact Nat.le_refl _
        · cases ht
  rises := by
    intro s t a x hs h hpaid
    obtain ⟨t', ht, hpair⟩ := Option.map_eq_some_iff.mp h
    cases hpair
    cases a with
    | main | worker w | onStats => cases hpaid
    | wakeMain =>
        simp only [step, wakeMain] at ht
        split at ht
        · rename_i hwaiting
          cases ht
          rw [rank, rank, hwaiting, Team.tally_share]
          simp only [Team.share_shared, MainPc.rank]
          omega
        · cases ht

/-! ## Somebody can move -/

section Moves

variable {s : Process n}

def Moves (s : Process n) : Prop := ∃ a t, Input.outside a = false ∧ s.step a = some t

theorem moves_of_main {t : Process n} (h : s.mainStep = some t) : s.Moves := ⟨.main, t, rfl, h⟩

theorem moves_of_worker {w : Fin n} {t : Process n} (h : s.workerStep w = some t) : s.Moves :=
  ⟨.worker w, t, rfl, h⟩

/-- Nobody waits for anything as long as they hold `init_lock`. -/
theorem moves_of_holdsInit {w : Fin n} (h : (s.worker w).holdsInit = true) : s.Moves := by
  cases hpc : s.worker w <;> rw [hpc] at h <;> simp [WorkerPc.holdsInit] at h
  all_goals exact moves_of_worker (w := w) (by rw [workerStep, hpc])

theorem moves_of_holdsHang {w : Fin n} (h : (s.worker w).holdsHang = true) : s.Moves := by
  cases hpc : s.worker w <;> rw [hpc] at h <;> simp [WorkerPc.holdsHang] at h
  exact moves_of_worker (w := w) (by rw [workerStep, hpc])

variable (hs : s.Inv)

include hs

/-- A worker that is not counted yet waits for `init_lock` at most. -/
theorem Inv.moves_of_uncounted (hmain : s.shared.main.holdsInit = false) {w : Fin n}
    (habsent : s.worker w ≠ .absent) (h : (s.worker w).inCount = false) : s.Moves := by
  cases hpc : s.worker w <;> rw [hpc] at h habsent <;> simp [WorkerPc.inCount] at h habsent
  · exact moves_of_worker (w := w) (by rw [workerStep, hpc])
  · cases hheld : s.shared.initHeld with
    | true =>
        obtain ⟨v, hv⟩ := hs.init_holder hheld hmain
        exact moves_of_holdsInit hv
    | false => exact moves_of_worker (w := w) (by rw [workerStep, hpc, hheld]; rfl)
  · exact moves_of_worker (w := w) (by rw [workerStep, hpc])

/-- One that is counted and not in its loop waits for `worker_hang_lock` at most. -/
theorem Inv.moves_of_counted (hmain : s.shared.main.holdsHang = false) {w : Fin n}
    (h : (s.worker w).inCount = true) (hloop : s.worker w ≠ .loop) : s.Moves := by
  cases hpc : s.worker w <;> rw [hpc] at h hloop <;> simp [WorkerPc.inCount] at h hloop
  case hangLock =>
    cases hheld : s.shared.hangHeld with
    | true =>
        obtain ⟨v, hv⟩ := hs.hang_holder hheld hmain
        exact moves_of_holdsHang hv
    | false => exact moves_of_worker (w := w) (by rw [workerStep, hpc, hheld]; rfl)
  all_goals exact moves_of_worker (w := w) (by rw [workerStep, hpc])

theorem Inv.moves (hnot : ¬ s.Started) : s.Moves := by
  cases hmain : s.shared.main with
  | hangLock =>
      cases hheld : s.shared.hangHeld with
      | true =>
          obtain ⟨w, hw⟩ := hs.hang_holder hheld (by rw [hmain]; rfl)
          exact moves_of_holdsHang hw
      | false => exact moves_of_main (by rw [mainStep, hmain, hheld]; rfl)
  | pthreadCreate i =>
      have hi := hs.creates i hmain
      exact moves_of_main (by rw [mainStep, hmain]; exact dif_pos hi)
  | initLock | woken =>
      cases hheld : s.shared.initHeld with
      | true =>
          obtain ⟨w, hw⟩ := hs.init_holder hheld (by rw [hmain]; rfl)
          exact moves_of_holdsInit hw
      | false => exact moves_of_main (by rw [mainStep, hmain, hheld]; rfl)
  | check | sleep | initUnlock | hangUnlock => exact moves_of_main (by rw [mainStep, hmain])
  | waiting =>
      rcases hs.waits hmain with hlt | ⟨w, hw⟩
      · -- Some worker is still to be counted, and it is going to signal.
        rw [hs.count (by rw [hmain]; exact MainPc.noConfusion)] at hlt
        have hsum := number_not WorkerPc.inCount s
        obtain ⟨w, hw⟩ := exists_of_number (f := fun p => !p.inCount) (s := s) (by omega)
        refine hs.moves_of_uncounted (w := w) (by rw [hmain]; rfl) ?_ (by simpa using hw)
        rw [ne_eq, hs.made, hmain]
        exact Bool.false_ne_true
      · exact moves_of_worker (w := w) (by rw [workerStep, hw])
  | done =>
      have hwaits : ∃ w, s.worker w ≠ .loop := by
        by_contra hall
        exact hnot ⟨hmain, fun w => not_not.mp fun hw => hall ⟨w, hw⟩⟩
      obtain ⟨w, hw⟩ := hwaits
      exact hs.moves_of_counted (by rw [hmain]; rfl) (hs.ready (by rw [hmain]; rfl) w) hw

end Moves

/-- The threads never get stuck. A run that they go on with comes to where all workers are in
their loops, and no run has more steps of theirs than the rank at the start allows, with three
more for each spurious wake-up. -/
theorem started {s : Process n} {tr : List (Input n × Unit)} (h : (hangLock n).Reaches tr s) :
    (s.Started ∨ s.Moves) ∧
      (∃ tr' t, (hangLock n).Run s tr' t ∧ t.Started ∧ ∀ x ∈ tr', x.1.outside = false) ∧
      tr.countP (fun x => !x.1.outside) ≤ 8 + 11 * n + 3 * tr.countP (fun x => x.1.spurious) := by
  have hs := reaches_inv h
  refine ⟨?_, ?_, ?_⟩
  · by_cases hstarted : s.Started
    · exact .inl hstarted
    · exact .inr (hs.moves hstarted)
  · obtain ⟨tr', t, hrun, ht, hown, -⟩ := ranked.finishes Started (by
      intro u hu hnot
      obtain ⟨a, t, ha, hstep⟩ := hu.moves hnot
      exact ⟨a, t, (), ha, Option.map_eq_some_iff.mpr ⟨t, hstep, rfl⟩⟩) hs
    exact ⟨tr', t, hrun, ht, hown⟩
  · obtain ⟨s₀, hinit, hrun⟩ := h.from_init
    obtain ⟨-, hle⟩ := ranked.run hrun (inv_start hinit)
    have hrank := rank_le s₀
    omega

theorem started_lateWorker :
    ∃ s, (∃ tr, (hangLock 2).Reaches tr s ∧ tr.length = 12) ∧ s.shared.main = .waiting ∧
      (s.Started ∨ s.Moves) ∧
      ∃ tr t, (hangLock 2).Run s tr t ∧ t.Started ∧ ∀ x ∈ tr, x.1.outside = false := by
  have hrun : ((hangLock 2).exec fresh ((lateWorker 0 1).take 12)).isSome := by decide
  have hreach := Machine.reaches_exec_get (by exact ⟨fun _ => rfl, rfl⟩) hrun
  obtain ⟨hmoves, hfinishes, -⟩ := started hreach
  exact ⟨_, ⟨_, hreach, rfl⟩, rfl, hmoves, hfinishes⟩

end Process

end Upcalls.HangLock
