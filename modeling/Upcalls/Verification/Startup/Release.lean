import Mathlib.Algebra.Ring.Nat
import Upcalls.Library.Progress
import Upcalls.Verification.Startup.Phases

/-! # The workers reach their event loops

As long as no call of `upcall_init` finds workers of an earlier one, the threads cannot get
stuck between `upcall_create` and the event loops. The rank adds up what the main thread and
the workers have left to do; whoever wakes a thread pays for what that thread does then.
-/

namespace Upcalls.Startup

open Library

variable {nr : ℕ}

/-! ## The rank -/

/-- A worker that waits for `g_go` has to be woken, which is not a step of its own. -/
def WorkerPc.rank : WorkerPc → ℕ
  | .setup => 11
  | .lock => 10
  | .count => 9
  | .signal => 8
  | .woken => 5
  | .check => 4
  | .sleep => 3
  | .waiting => 2
  | .unlock => 1
  | .running => 0

/-- The broadcast pays for all workers, and `pthread_create` for the one that it makes. -/
def MainPc.rank (nr : ℕ) : MainPc → ℕ
  | .idle => 0
  | .create => 0
  | .attrInit => 3 * nr + 13 * nr + 12
  | .setAffinity i => 3 * nr + 13 * (nr - i) + 11
  | .createThread i => 3 * nr + 13 * (nr - i) + 10
  | .lock => 3 * nr + 10
  | .woken => 3 * nr + 10
  | .check => 3 * nr + 9
  | .sleep => 3 * nr + 8
  | .waiting => 3 * nr + 7
  | .unlock => 3 * nr + 6
  | .inited => 3 * nr + 5
  | .goLock => 3 * nr + 4
  | .setGo => 3 * nr + 3
  | .broadcast => 3 * nr + 2
  | .goUnlock => 1
  | .done => 0

/-- `upcall_create` has succeeded. -/
def MainPc.past : MainPc → Bool
  | .idle | .create => false
  | _ => true

/-- What the threads do not do on their own account between `upcall_create` and the event
loops. -/
def Input.outside : Input → Bool
  | .main | .worker _ => false
  | _ => true

namespace Process

def workersRank (ws : List Worker) : ℕ := (ws.map (·.pc.rank)).sum

def rank (nr : ℕ) (s : Process) : ℕ := s.main.rank nr + workersRank s.workers

/-- All workers are in their event loops, and the main thread is behind `upcall_workers_go`. -/
structure Started (nr : ℕ) (s : Process) : Prop where
  main : s.main = .done
  ids : s.workers.map (·.id) = List.range nr
  running : ∀ w ∈ s.workers, w.pc = .running

theorem workersRank_set {ws : List Worker} {k : ℕ} {w : Worker} (hw : ws[k]? = some w)
    (pc : WorkerPc) :
    workersRank (ws.set k { w with pc := pc }) + w.pc.rank = workersRank ws + pc.rank := by
  induction ws generalizing k with
  | nil => cases hw
  | cons v ws ih =>
      cases k with
      | zero =>
          cases hw
          simp only [workersRank, List.set_cons_zero, List.map_cons, List.sum_cons]
          omega
      | succ k =>
          have hrest := ih hw
          simp only [workersRank, List.set_cons_succ, List.map_cons, List.sum_cons] at hrest ⊢
          omega

theorem workersRank_snoc (ws : List Worker) (call id : ℕ) :
    workersRank (ws ++ [⟨call, id, .setup⟩]) = workersRank ws + 11 := by
  rw [workersRank, List.map_append, List.sum_append]
  rfl

theorem workersRank_notified (ws : List Worker) :
    workersRank (ws.map Worker.notified) ≤ workersRank ws + 3 * ws.length := by
  induction ws with
  | nil => exact Nat.le_refl _
  | cons w ws ih =>
      have hone : w.notified.pc.rank ≤ w.pc.rank + 3 := by
        rw [w.notified_pc]
        split
        · rename_i hpc
          rw [hpc]
          decide
        · exact Nat.le_add_right _ _
      simp only [workersRank, List.map_cons, List.sum_cons, List.length_cons] at ih ⊢
      omega

section Steps

variable {s s' : Process} {out : Output} {k : ℕ}

theorem loop_rank (i : ℕ) : (loop nr i).rank nr ≤ 3 * nr + 13 * (nr - i) + 11 := by
  rcases loop_cases nr i with ⟨h, -⟩ | ⟨h, -⟩ <;> rw [h] <;> simp only [MainPc.rank] <;> omega

/-- There are as many workers as the main thread has made. -/
theorem Inv.length_le (hs : s.Inv nr) (h : s.main ≠ .idle) : s.workers.length ≤ nr := by
  have hmade := hs.made
  have hids : ∀ i, s.workers.map (·.id) = List.range i → s.workers.length = i := by
    intro i hi
    simpa using congrArg List.length hi
  cases hpc : s.main <;> rw [hpc] at hmade h
  case idle => exact absurd rfl h
  case create | attrInit =>
    rw [show s.workers = [] from hmade]
    exact Nat.zero_le nr
  case setAffinity i | createThread i =>
    rw [hids i hmade.2]
    exact Nat.le_of_lt hmade.1
  all_goals exact Nat.le_of_eq (hids nr hmade)

theorem mainStep_falls (hs : s.Inv nr) (h : s.mainStep nr = some (s', out)) :
    s'.rank nr < s.rank nr := by
  have hgoes : ∀ u : Process, u.workers = s.workers → u.main.rank nr < s.main.rank nr →
      u.rank nr < s.rank nr := by
    intro u hworkers hlt
    rw [rank, rank, hworkers]
    exact Nat.add_lt_add_right hlt _
  have hmade := hs.made
  have hlength := hs.length_le
  rw [mainStep] at h
  split at h <;> rename_i hpc
  case h_1 =>
    cases h
    refine hgoes _ rfl ?_
    have hloop : (loop nr 0).rank nr ≤ _ := loop_rank 0
    rw [hpc]
    exact Nat.lt_succ_of_le hloop
  case h_2 i =>
    cases h
    refine hgoes _ rfl ?_
    rw [hpc]
    exact Nat.lt_succ_self _
  case h_3 i =>
    cases h
    rw [hpc] at hmade
    have hi : i < nr := hmade.1
    have hloop : (loop nr (i + 1)).rank nr ≤ _ := loop_rank (i + 1)
    have hmain : s.main.rank nr = 3 * nr + 13 * (nr - i) + 10 := by rw [hpc, MainPc.rank]
    change (loop nr (i + 1)).rank nr + workersRank (s.workers ++ [⟨s.calls, i, .setup⟩]) < _
    rw [workersRank_snoc, rank]
    omega
  case h_4 | h_5 | h_10 =>
    obtain ⟨-, rfl, rfl⟩ := map_acquire_spec h
    refine hgoes _ rfl ?_
    rw [hpc]
    exact Nat.lt_succ_self _
  case h_6 =>
    cases h
    refine hgoes _ rfl ?_
    rw [hpc]
    change (if s.initCount < nr then MainPc.sleep else MainPc.unlock).rank nr < _
    split <;> simp only [MainPc.rank] <;> omega
  case h_7 | h_8 | h_9 | h_11 | h_13 =>
    cases h
    refine hgoes _ rfl ?_
    rw [hpc]
    exact Nat.lt_succ_self _
  case h_12 =>
    cases h
    have hle := workersRank_notified s.workers
    have hmany := hlength (by rw [hpc]; exact MainPc.noConfusion)
    have hmain : s.main.rank nr = 3 * nr + 2 := by rw [hpc, MainPc.rank]
    change 1 + workersRank (s.workers.map Worker.notified) < _
    rw [rank]
    omega
  case h_14 => cases h

theorem signal_rank : s.signal.main.rank nr ≤ s.main.rank nr + 3 := by
  rw [signal]
  split
  · rename_i hwaiting
    rw [hwaiting]
    exact Nat.le_refl _
  · exact Nat.le_add_right _ _

/-- Worker `w` goes to `pc`. -/
theorem rank_set_lt {w : Worker} (pc : WorkerPc) {u : Process} (hw : s.workers[k]? = some w)
    (hworkers : u.workers = s.workers.set k { w with pc := pc })
    (hlt : u.main.rank nr + pc.rank < s.main.rank nr + w.pc.rank) : u.rank nr < s.rank nr := by
  have hset := workersRank_set hw pc
  rw [rank, rank, hworkers]
  omega

theorem workerStep_falls (h : s.workerStep k = some (s', out)) : s'.rank nr < s.rank nr := by
  obtain ⟨w, hw, h⟩ := Option.bind_eq_some_iff.mp h
  split at h <;> rename_i hpc
  case h_1 | h_3 | h_6 | h_8 =>
    cases h
    apply rank_set_lt _ hw rfl
    rw [hpc]
    exact Nat.add_lt_add_left (by decide) _
  case h_2 | h_7 =>
    obtain ⟨-, rfl, rfl⟩ := map_acquire_spec h
    apply rank_set_lt _ hw rfl
    rw [hpc]
    exact Nat.add_lt_add_left (by decide) _
  case h_4 =>
    cases h
    have hsignal : s.signal.main.rank nr ≤ s.main.rank nr + 3 := signal_rank
    have hworkers : s.signal.workers = s.workers := by
      rw [signal]
      split <;> rfl
    refine rank_set_lt .check hw (congrArg (List.set · k _) hworkers) ?_
    have hcheck : WorkerPc.check.rank = 4 := rfl
    have hrank : w.pc.rank = 8 := by rw [hpc]; rfl
    change s.signal.main.rank nr + _ < _
    omega
  case h_5 =>
    cases h
    apply rank_set_lt _ hw rfl
    rw [hpc]
    apply Nat.add_lt_add_left
    split <;> decide
  case h_9 | h_10 => cases h

end Steps

/-- An outside step gives the threads the work of a whole start at most. -/
theorem ranked : ((startup nr).guard alone).Ranked (Inv nr) (rank nr) Input.outside
    Input.outside (16 * nr + 12) where
  keeps hs h := step_inv hs (Machine.guard_step.mp h).1 (Machine.guard_step.mp h).2
  falls := by
    intro s t a out hs h ha
    have hstep := (Machine.guard_step.mp h).2
    cases a with
    | main => exact mainStep_falls hs hstep
    | worker k => exact workerStep_falls hstep
    | _ => cases ha
  rests _ _ ha hpaid := absurd (ha.symm.trans hpaid) Bool.noConfusion
  rises := by
    intro s t a out hs h ha
    have hstep := (Machine.guard_step.mp h).2
    have hmap : ∀ {f : Option Process} {g : Process → Output},
        f.map (fun u => (u, g u)) = some (t, out) → f = some t := by
      intro f g hf
      obtain ⟨u, hu, hpair⟩ := Option.map_eq_some_iff.mp hf
      cases hpair
      exact hu
    cases a with
    | call =>
        obtain ⟨-, rfl⟩ := call_spec (hmap hstep)
        change 0 + workersRank s.workers ≤ s.main.rank nr + workersRank s.workers + _
        omega
    | created fd =>
        obtain ⟨-, -, rfl⟩ := created_spec (hmap hstep)
        change 3 * nr + 13 * nr + 12 + workersRank s.workers ≤
          s.main.rank nr + workersRank s.workers + _
        omega
    | fail =>
        have hidle : t.main = .idle ∧ t.workers = s.workers := by
          rcases fail_spec (hmap hstep) with ⟨-, rfl⟩ | ⟨-, -, rfl⟩
          · exact ⟨rfl, rfl⟩
          · exact ⟨rfl, rfl⟩
        rw [rank, rank, hidle.1, hidle.2, MainPc.rank]
        omega
    | wakeMain =>
        obtain ⟨hwaiting, rfl⟩ := wakeMain_spec (hmap hstep)
        change 3 * nr + 10 + workersRank s.workers ≤ s.main.rank nr + workersRank s.workers + _
        omega
    | wakeWorker k =>
        obtain ⟨w, hw, hpc, rfl⟩ := wakeWorker_spec (hmap hstep)
        have hset := workersRank_set hw .woken
        have hwoken : WorkerPc.woken.rank = 5 := rfl
        change s.main.rank nr + workersRank (s.workers.set k { w with pc := .woken }) ≤
          s.main.rank nr + workersRank s.workers + _
        omega
    | main | worker k => cases ha

/-! ## Somebody can move -/

section Moves

variable {s : Process}

def Moves (nr : ℕ) (s : Process) : Prop :=
  ∃ a t out, Input.outside a = false ∧ s.step nr a = some (t, out)

theorem moves_of_main (h : (s.mainStep nr).isSome) : s.Moves nr := by
  obtain ⟨⟨t, out⟩, hstep⟩ := Option.isSome_iff_exists.mp h
  exact ⟨.main, t, out, rfl, hstep⟩

theorem moves_of_worker {k : ℕ} (h : (s.workerStep k).isSome) : s.Moves nr := by
  obtain ⟨⟨t, out⟩, hstep⟩ := Option.isSome_iff_exists.mp h
  exact ⟨.worker k, t, out, rfl, hstep⟩

/-- A worker that neither waits for `g_go` nor has seen it waits for the lock at most. -/
theorem workerStep_isSome {k : ℕ} {w : Worker} (hw : s.workers[k]? = some w)
    (h : w.pc.holds = true ∨ s.lock = none ∧ w.pc ≠ .waiting ∧ w.pc ≠ .running) :
    (s.workerStep k).isSome := by
  rw [workerStep, hw, Option.bind_eq_bind, Option.bind_some]
  rcases h with hholds | ⟨hlock, hwaiting, hrunning⟩
  · cases hpc : w.pc <;> rw [hpc] at hholds <;> first | rfl | cases hholds
  · cases hpc : w.pc
    case waiting => exact absurd hpc hwaiting
    case running => exact absurd hpc hrunning
    case lock | woken =>
      rw [acquire, if_pos hlock]
      rfl
    all_goals rfl

theorem mainStep_isSome (h : s.main.holds = true) : (s.mainStep nr).isSome := by
  rw [mainStep]
  cases hpc : s.main <;> rw [hpc] at h <;> first | rfl | cases h

/-- Whoever holds the lock goes on. -/
theorem Inv.moves_of_lock (hs : s.Inv nr) (h : s.lock ≠ none) : s.Moves nr := by
  cases hlock : s.lock with
  | none => exact absurd hlock h
  | some holder =>
      cases holder with
      | main => exact moves_of_main (mainStep_isSome (hs.holds.mpr hlock))
      | worker k =>
          have hw : s.workers[k]? = some _ := List.getElem?_eq_getElem (hs.holder k hlock)
          exact moves_of_worker (workerStep_isSome hw (.inl ((hs.fits k _ hw).holds.mpr hlock)))

/-- Some worker is not counted yet, and it does not wait for `g_go`. -/
theorem Inv.moves_of_count (hs : s.Inv nr) (hlock : s.lock = none)
    (hlength : s.workers.length = nr) (hlt : s.initCount < nr) : s.Moves nr := by
  rw [hs.count, ← hlength] at hlt
  have hsome : ∃ w ∈ s.workers, w.pc.counted = false := by
    by_contra hnone
    refine absurd (List.countP_eq_length.mpr ?_) (Nat.ne_of_lt hlt)
    intro w hw
    by_contra hw'
    exact hnone ⟨w, hw, by simpa using hw'⟩
  obtain ⟨w, hw, hcounted⟩ := hsome
  obtain ⟨k, hk⟩ := List.getElem?_of_mem hw
  refine moves_of_worker (workerStep_isSome hk (.inr ⟨hlock, ?_, ?_⟩)) <;> intro hpc
  · rw [hpc] at hcounted
    cases hcounted
  · rw [hpc] at hcounted
    cases hcounted

theorem Inv.moves (hs : s.Inv nr) (hpast : s.main.past = true) (hnot : ¬ s.Started nr) :
    s.Moves nr := by
  by_cases hlock : s.lock = none
  case neg => exact hs.moves_of_lock hlock
  have hmade := hs.made
  cases hpc : s.main
  case idle | create =>
    rw [hpc] at hpast
    cases hpast
  case waiting =>
    rw [hpc] at hmade
    have hlength : s.workers.length = nr := by simpa using congrArg List.length hmade
    rcases hs.waits hpc with hlt | ⟨w, hw, hsignal⟩
    · exact hs.moves_of_count hlock hlength hlt
    · obtain ⟨k, hk⟩ := List.getElem?_of_mem hw
      refine moves_of_worker (workerStep_isSome hk (.inl ?_))
      rw [hsignal]
      rfl
  case done =>
    rw [hpc] at hmade
    have hsome : ∃ w ∈ s.workers, w.pc ≠ .running := by
      by_contra hnone
      exact hnot ⟨hpc, hmade, fun w hw => not_not.mp fun h => hnone ⟨w, hw, h⟩⟩
    obtain ⟨w, hw, hrunning⟩ := hsome
    obtain ⟨k, hk⟩ := List.getElem?_of_mem hw
    refine moves_of_worker (workerStep_isSome hk (.inr ⟨hlock, ?_, hrunning⟩))
    intro hwaiting
    -- `g_go` is set, and the broadcast is over.
    have hgone := hs.gone
    rw [hpc] at hgone
    rcases (hs.fits k w hk).waits hwaiting with hgo | hbroadcast
    · cases hgo.symm.trans hgone
    · cases hpc.symm.trans hbroadcast
  all_goals
    apply moves_of_main
    rw [mainStep, hpc]
    try rw [acquire, if_pos hlock]
    rfl

end Moves

/-- The threads on their own do not come back to `upcall_create`. -/
theorem step_past {s t : Process} {a : Input} {out : Output} (ha : a.outside = false)
    (h : s.step nr a = some (t, out)) (hpast : s.main.past = true) : t.main.past = true := by
  have hacquire : ∀ {u : Process} {f : Process → Process} {o : Output},
      (u.acquire .main).map (fun v => (f v, o)) = some (t, out) → (∀ v, (f v).main.past = true) →
        t.main.past = true := by
    intro u f o hmap hf
    obtain ⟨-, rfl, -⟩ := map_acquire_spec hmap
    exact hf _
  cases a with
  | main =>
      simp only [step, mainStep] at h
      split at h
      case h_1 | h_3 =>
        cases h
        change (loop nr _).past = true
        rw [loop]
        split <;> rfl
      case h_4 | h_5 | h_10 => exact hacquire h fun _ => rfl
      case h_6 =>
        cases h
        change MainPc.past (if s.initCount < nr then .sleep else .unlock) = true
        split <;> rfl
      case h_14 => cases h
      all_goals
        cases h
        rfl
  | worker k =>
      obtain ⟨w, -, h⟩ := Option.bind_eq_some_iff.mp h
      split at h
      case h_9 | h_10 => cases h
      case h_2 | h_7 =>
        obtain ⟨-, rfl, -⟩ := map_acquire_spec h
        exact hpast
      case h_4 =>
        cases h
        change s.signal.main.past = true
        rw [signal]
        split
        · rfl
        · exact hpast
      all_goals
        cases h
        exact hpast
  | _ => cases ha

/-- From `upcall_create` on the threads never get stuck, and a run that they go on with comes
to where all workers are in their event loops. A run has no more steps of theirs than the
calls of `upcall_init` and the spurious wake-ups allow. -/
theorem loops_entered {s : Process} {tr : List (Input × Output)}
    (h : ((startup nr).guard alone).Reaches tr s) :
    (s.main.past = true → (s.Started nr ∨ s.Moves nr) ∧
      ∃ tr' t, (startup nr).Run s tr' t ∧ t.Started nr ∧ ∀ x ∈ tr', x.1.outside = false) ∧
      tr.countP (fun x => !x.1.outside) ≤ (16 * nr + 12) * tr.countP (fun x => x.1.outside) := by
  have hs := reaches_alone h
  constructor
  · intro hpast
    refine ⟨?_, ?_⟩
    · by_cases hstarted : s.Started nr
      · exact .inl hstarted
      · exact .inr (hs.moves hpast hstarted)
    · obtain ⟨tr', t, hrun, hfinal, hown, -⟩ := ranked.finishes
        (fun u => u.main.past = true → u.Started nr) (by
          intro u hu hnot
          obtain ⟨hupast, hunot⟩ := Classical.not_imp.mp hnot
          obtain ⟨a, v, out, ha, hstep⟩ := hu.moves hupast hunot
          refine ⟨a, v, out, ha, Machine.guard_step.mpr ⟨?_, hstep⟩⟩
          cases a with
          | call => cases ha
          | _ => rfl) hs
      refine ⟨tr', t, hrun.of_guard, hfinal ?_, hown⟩
      refine hrun.of_guard.preserves (P := fun u => u.main.past = true) ?_ hpast
      exact fun u a out v hmem hu hstep => step_past (hown _ hmem) hstep hu
  · obtain ⟨s₀, hinit, hrun⟩ := h.from_init
    obtain ⟨-, hle⟩ := ranked.run hrun (inv_start hinit)
    have hzero : s₀.rank nr = 0 := by
      rw [rank, hinit.main, hinit.workers]
      rfl
    omega

theorem loops_entered_twoWorkers :
    ∃ tr s, ((startup 2).guard alone).Reaches tr s ∧ s.main = .waiting ∧ s.initCount = 1 ∧
      s.Moves 2 ∧ ∃ tr' t, (startup 2).Run s tr' t ∧ t.Started 2 := by
  have hrun : (((startup 2).guard alone).exec processStart (twoWorkers.take 23)).isSome := by
    decide
  have hreach := Machine.reaches_exec_get (by exact processStart_start 2) hrun
  obtain ⟨hmoves, tr', t, hrest, ht, -⟩ := (loops_entered hreach).1 rfl
  refine ⟨_, _, hreach, rfl, rfl, hmoves.resolve_left ?_, tr', t, hrest, ht⟩
  intro hstarted
  cases hstarted.main

end Process

end Upcalls.Startup
