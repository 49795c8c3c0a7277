import Upcalls.Verification.Startup.Barrier

/-! # A call of `upcall_init` and then `upcall_workers_go`

The trace tells whether `upcall_init` is running and whether it has returned 0. In a run with
one call of it the barriers hold in every state.
-/

namespace Upcalls.Startup

open Library

variable {nr : ℕ}

/-! ## Phases -/

/-- Before, in and after the call of `upcall_init` that returns 0. -/
inductive Phase
  | idle
  | calling
  | inited
  deriving DecidableEq, Repr

def MainPc.phase : MainPc → Phase
  | .idle => .idle
  | .inited | .goLock | .setGo | .broadcast | .goUnlock | .done => .inited
  | _ => .calling

def Phase.next (p : Phase) : Input → Output → Phase
  | .call, _ => .calling
  | _, .returned true => .inited
  | _, .returned false => .idle
  | _, _ => p

theorem MainPc.ready_of_inited {pc : MainPc} (h : pc.phase = .inited) : pc.ready = true := by
  cases pc <;> first | rfl | cases h

theorem MainPc.idle_of_phase {pc : MainPc} (h : pc.phase = .idle) : pc = .idle := by
  cases pc <;> first | rfl | cases h

namespace Process

section Steps

variable {s s' : Process} {a : Input} {out : Output} {k : ℕ}

theorem call_spec (h : s.call = some s') :
    s.main = .idle ∧ s' = { s with main := .create, calls := s.calls + 1 } := by
  rw [call] at h
  split at h
  · rename_i hpc
    exact ⟨hpc, (Option.some.inj h).symm⟩
  · cases h

theorem created_spec {fd : ℤ} (h : s.created fd = some s') :
    s.main = .create ∧ 0 ≤ fd ∧ s' = { s with upfd := fd, main := .attrInit } := by
  rw [created] at h
  split at h
  · rename_i hguard
    exact ⟨hguard.1, hguard.2, (Option.some.inj h).symm⟩
  · cases h

theorem loop_phase (i : ℕ) : (loop nr i).phase = .calling := by
  rcases loop_cases nr i with ⟨hloop, -⟩ | ⟨hloop, -⟩
  · rw [hloop]
    rfl
  · rw [hloop]
    rfl

/-- A failing call is at `upcall_create`, or has an upcall already. -/
theorem fail_spec (h : s.fail = some s') :
    s.main = .create ∧ s' = { s with upfd := -1, main := .idle } ∨
      s.main.phase = .calling ∧ s.main ≠ .create ∧ s' = s.setMain .idle := by
  rw [fail] at h
  split at h <;> rename_i hpc
  case h_1 => exact .inl ⟨hpc, (Option.some.inj h).symm⟩
  case h_5 => cases h
  all_goals
    rw [hpc]
    exact .inr ⟨rfl, MainPc.noConfusion, (Option.some.inj h).symm⟩

theorem mainStep_phase (h : s.mainStep nr = some (s', out)) :
    s'.main.phase = s.main.phase.next .main out ∧ (out = .silent ∨ out = .returned true) := by
  rw [mainStep] at h
  split at h <;> rename_i hpc
  case h_14 => cases h
  case h_4 | h_5 | h_10 =>
    obtain ⟨-, rfl, rfl⟩ := map_acquire_spec h
    rw [hpc]
    exact ⟨rfl, .inl rfl⟩
  all_goals
    cases h
    rw [hpc]
  case h_1 => exact ⟨loop_phase 0, .inl rfl⟩
  case h_3 i => exact ⟨loop_phase (i + 1), .inl rfl⟩
  case h_6 =>
    refine ⟨?_, .inl rfl⟩
    rw [setMain]
    split <;> rfl
  case h_8 => exact ⟨rfl, .inr rfl⟩
  all_goals exact ⟨rfl, .inl rfl⟩

theorem signal_phase : s.signal.main.phase = s.main.phase := by
  rw [signal]
  split
  · rename_i hpc
    rw [hpc]
    rfl
  · rfl

theorem workerStep_phase (h : s.workerStep k = some (s', out)) :
    s'.main.phase = s.main.phase ∧ (out = .silent ∨ out = .entered k) := by
  obtain ⟨w, -, h⟩ := Option.bind_eq_some_iff.mp h
  split at h
  case h_9 | h_10 => cases h
  case h_2 | h_7 =>
    obtain ⟨-, rfl, rfl⟩ := map_acquire_spec h
    exact ⟨rfl, .inl rfl⟩
  case h_4 =>
    cases h
    exact ⟨signal_phase, .inl rfl⟩
  case h_8 =>
    cases h
    exact ⟨rfl, .inr rfl⟩
  all_goals
    cases h
    exact ⟨rfl, .inl rfl⟩

theorem wakeMain_spec (h : s.wakeMain = some s') : s.main = .waiting ∧ s' = s.setMain .woken := by
  rw [wakeMain] at h
  split at h
  · rename_i hpc
    exact ⟨hpc, (Option.some.inj h).symm⟩
  · cases h

theorem wakeWorker_spec (h : s.wakeWorker k = some s') :
    ∃ w, s.workers[k]? = some w ∧ w.pc = .waiting ∧ s' = s.setWorker k w .woken := by
  obtain ⟨w, hw, h⟩ := Option.bind_eq_some_iff.mp h
  split at h
  · rename_i hpc
    exact ⟨w, hw, hpc, (Option.some.inj h).symm⟩
  · cases h

theorem step_phase (h : s.step nr a = some (s', out)) :
    s'.main.phase = s.main.phase.next a out := by
  cases a with
  | call =>
      obtain ⟨u, hu, hpair⟩ := Option.map_eq_some_iff.mp h
      cases hpair
      obtain ⟨-, rfl⟩ := call_spec hu
      rfl
  | created fd =>
      obtain ⟨u, hu, hpair⟩ := Option.map_eq_some_iff.mp h
      cases hpair
      obtain ⟨hpc, -, rfl⟩ := created_spec hu
      rw [hpc]
      rfl
  | fail =>
      obtain ⟨u, hu, hpair⟩ := Option.map_eq_some_iff.mp h
      cases hpair
      rcases fail_spec hu with ⟨-, rfl⟩ | ⟨-, -, rfl⟩
      · rfl
      · rfl
  | main => exact (mainStep_phase h).1
  | worker k =>
      obtain ⟨hphase, rfl | rfl⟩ := workerStep_phase h
      · exact hphase
      · exact hphase
  | wakeMain =>
      obtain ⟨u, hu, hpair⟩ := Option.map_eq_some_iff.mp h
      cases hpair
      obtain ⟨hpc, rfl⟩ := wakeMain_spec hu
      rw [hpc]
      rfl
  | wakeWorker k =>
      obtain ⟨u, hu, hpair⟩ := Option.map_eq_some_iff.mp h
      cases hpair
      obtain ⟨w, -, -, rfl⟩ := wakeWorker_spec hu
      rfl

/-- Where a value comes from that `upcall_init` returns. -/
theorem step_returned {b : Bool} (h : s.step nr a = some (s', .returned b)) :
    a = .fail ∧ b = false ∨ a = .main ∧ b = true := by
  cases a with
  | fail =>
      obtain ⟨u, -, hpair⟩ := Option.map_eq_some_iff.mp h
      cases hpair
      exact .inl ⟨rfl, rfl⟩
  | main =>
      cases b with
      | true => exact .inr ⟨rfl, rfl⟩
      | false =>
          rcases (mainStep_phase h).2 with hout | hout
          · cases hout
          · cases hout
  | worker k =>
      obtain ⟨-, hout | hout⟩ := workerStep_phase h
      · cases hout
      · cases hout
  | _ =>
      obtain ⟨u, -, hpair⟩ := Option.map_eq_some_iff.mp h
      cases hpair

/-- Nothing happens before the first call. -/
theorem step_of_nothing (hpc : s.main = .idle) (hnone : s.workers = [])
    (h : s.step nr a = some (s', out)) : a = .call := by
  have hget : ∀ (k : ℕ) (w : Worker), s.workers[k]? ≠ some w := by
    intro k w hw
    rw [hnone] at hw
    cases hw
  cases a with
  | call => rfl
  | created fd =>
      obtain ⟨u, hu, -⟩ := Option.map_eq_some_iff.mp h
      cases hpc.symm.trans (created_spec hu).1
  | fail =>
      obtain ⟨u, hu, -⟩ := Option.map_eq_some_iff.mp h
      rcases fail_spec hu with ⟨hcreate, -⟩ | ⟨hphase, -⟩
      · cases hpc.symm.trans hcreate
      · rw [hpc] at hphase
        cases hphase
  | main =>
      simp only [step, mainStep, hpc] at h
      cases h
  | worker k =>
      obtain ⟨w, hw, -⟩ := Option.bind_eq_some_iff.mp h
      exact absurd hw (hget k w)
  | wakeMain =>
      obtain ⟨u, hu, -⟩ := Option.map_eq_some_iff.mp h
      cases hpc.symm.trans (wakeMain_spec hu).1
  | wakeWorker k =>
      obtain ⟨u, hu, -⟩ := Option.map_eq_some_iff.mp h
      obtain ⟨w, hw, -⟩ := wakeWorker_spec hu
      exact absurd hw (hget k w)

/-- What the threads leave as it is once `upcall_init` has its upcall. -/
structure Keeps (s s' : Process) : Prop where
  upfd : s'.upfd = s.upfd
  calls : s'.calls = s.calls
  go : s.go = true → s'.go = true
  made : ∀ w ∈ s'.workers, w.call = s.calls ∨ ∃ v ∈ s.workers, v.call = w.call

theorem Keeps.of_workers (hupfd : s'.upfd = s.upfd) (hcalls : s'.calls = s.calls)
    (hgo : s'.go = s.go) (hworkers : s'.workers = s.workers) : Keeps s s' := by
  refine ⟨hupfd, hcalls, ?_, ?_⟩
  · rw [hgo]
    exact id
  · intro w hw
    rw [hworkers] at hw
    exact .inr ⟨w, hw, rfl⟩

theorem mainStep_keeps (h : s.mainStep nr = some (s', out)) : Keeps s s' := by
  rw [mainStep] at h
  split at h
  case h_14 => cases h
  case h_4 | h_5 | h_10 =>
    obtain ⟨-, rfl, -⟩ := map_acquire_spec h
    exact .of_workers rfl rfl rfl rfl
  all_goals cases h
  case h_3 i _ =>
    refine ⟨rfl, rfl, id, ?_⟩
    intro w hw
    rcases List.mem_append.mp hw with hold | hnew
    · exact .inr ⟨w, hold, rfl⟩
    · rw [List.mem_singleton.mp hnew]
      exact .inl rfl
  case h_11 => exact ⟨rfl, rfl, fun _ => rfl, fun w hw => .inr ⟨w, hw, rfl⟩⟩
  case h_12 =>
    refine ⟨rfl, rfl, id, ?_⟩
    intro w hw
    obtain ⟨v, hv, rfl⟩ := List.mem_map.mp hw
    exact .inr ⟨v, hv, v.notified_call.symm⟩
  all_goals exact .of_workers rfl rfl rfl rfl

/-- A step of a worker at place `k`. -/
theorem Keeps.of_set {w : Worker} (hw : s.workers[k]? = some w) {pc : WorkerPc}
    (hupfd : s'.upfd = s.upfd) (hcalls : s'.calls = s.calls) (hgo : s'.go = s.go)
    (hworkers : s'.workers = s.workers.set k { w with pc := pc }) : Keeps s s' := by
  refine ⟨hupfd, hcalls, ?_, ?_⟩
  · rw [hgo]
    exact id
  · intro v hv
    rw [hworkers] at hv
    obtain ⟨j, hj⟩ := List.getElem?_of_mem hv
    rcases getElem?_set_cases hw pc hj with ⟨-, rfl⟩ | ⟨-, hold⟩
    · exact .inr ⟨w, List.mem_of_getElem? hw, rfl⟩
    · exact .inr ⟨v, List.mem_of_getElem? hold, rfl⟩

theorem workerStep_keeps (h : s.workerStep k = some (s', out)) : Keeps s s' := by
  obtain ⟨w, hw, h⟩ := Option.bind_eq_some_iff.mp h
  split at h
  case h_9 | h_10 => cases h
  case h_2 | h_7 =>
    obtain ⟨-, rfl, -⟩ := map_acquire_spec h
    exact .of_set hw rfl rfl rfl rfl
  case h_4 =>
    cases h
    rw [signal]
    split
    · exact .of_set hw rfl rfl rfl rfl
    · exact .of_set hw rfl rfl rfl rfl
  all_goals
    cases h
    exact .of_set hw rfl rfl rfl rfl

/-- A worker that enters the event loop has seen `g_go`. -/
theorem workerStep_entered {j : ℕ} (hs : s.Inv nr)
    (h : s.workerStep k = some (s', .entered j)) : s.go = true := by
  obtain ⟨w, hw, h⟩ := Option.bind_eq_some_iff.mp h
  split at h
  case h_9 | h_10 => cases h
  case h_2 | h_7 =>
    obtain ⟨-, -, hout⟩ := map_acquire_spec h
    cases hout
  case h_8 hpc =>
    apply (hs.fits k w hw).released
    rw [hpc]
    rfl
  all_goals cases h

/-- Every step but those of `upcall_init` up to `upcall_create`. -/
theorem step_keeps (h : s.step nr a = some (s', out)) :
    a = .call ∧ out = .silent ∨ (∃ fd, a = .created fd) ∨ a = .fail ∨
      a ≠ .call ∧ a ≠ .fail ∧ Keeps s s' := by
  cases a with
  | call =>
      obtain ⟨u, -, hpair⟩ := Option.map_eq_some_iff.mp h
      cases hpair
      exact .inl ⟨rfl, rfl⟩
  | created fd => exact .inr (.inl ⟨fd, rfl⟩)
  | fail => exact .inr (.inr (.inl rfl))
  | main => exact .inr (.inr (.inr ⟨Input.noConfusion, Input.noConfusion, mainStep_keeps h⟩))
  | worker k =>
      exact .inr (.inr (.inr ⟨Input.noConfusion, Input.noConfusion, workerStep_keeps h⟩))
  | wakeMain =>
      obtain ⟨u, hu, hpair⟩ := Option.map_eq_some_iff.mp h
      cases hpair
      obtain ⟨-, rfl⟩ := wakeMain_spec hu
      have hkeeps : Keeps s (s.setMain .woken) := .of_workers rfl rfl rfl rfl
      exact .inr (.inr (.inr ⟨Input.noConfusion, Input.noConfusion, hkeeps⟩))
  | wakeWorker k =>
      obtain ⟨u, hu, hpair⟩ := Option.map_eq_some_iff.mp h
      cases hpair
      obtain ⟨w, hw, -, rfl⟩ := wakeWorker_spec hu
      have hkeeps : Keeps s (s.setWorker k w .woken) := .of_set hw rfl rfl rfl rfl
      exact .inr (.inr (.inr ⟨Input.noConfusion, Input.noConfusion, hkeeps⟩))

theorem step_go (hgo : s.go = true) (h : s.step nr a = some (s', out)) : s'.go = true := by
  rcases step_keeps h with ⟨rfl, -⟩ | ⟨fd, rfl⟩ | rfl | ⟨-, -, hkeeps⟩
  · obtain ⟨u, hu, hpair⟩ := Option.map_eq_some_iff.mp h
    cases hpair
    obtain ⟨-, rfl⟩ := call_spec hu
    exact hgo
  · obtain ⟨u, hu, hpair⟩ := Option.map_eq_some_iff.mp h
    cases hpair
    obtain ⟨-, -, rfl⟩ := created_spec hu
    exact hgo
  · obtain ⟨u, hu, hpair⟩ := Option.map_eq_some_iff.mp h
    cases hpair
    rcases fail_spec hu with ⟨-, rfl⟩ | ⟨-, -, rfl⟩
    · exact hgo
    · exact hgo
  · exact hkeeps.go hgo

theorem step_inited (hphase : s.main.phase = .inited) (h : s.step nr a = some (s', out)) :
    s'.main.phase = .inited := by
  rw [step_phase h]
  cases a with
  | call =>
      obtain ⟨u, hu, -⟩ := Option.map_eq_some_iff.mp h
      rw [(call_spec hu).1] at hphase
      cases hphase
  | fail =>
      obtain ⟨u, hu, -⟩ := Option.map_eq_some_iff.mp h
      rcases fail_spec hu with ⟨hpc, -⟩ | ⟨hcalling, -⟩
      · rw [hpc] at hphase
        cases hphase
      · cases hphase.symm.trans hcalling
  | _ =>
      cases out with
      | returned b =>
          rcases step_returned h with ⟨ha, -⟩ | ⟨-, rfl⟩
          · cases ha
          · rfl
      | _ => exact hphase

end Steps

/-! ## The trace and the state -/

section Runs

variable {tr : List (Input × Output)} {s : Process}

/-- `upcall_init` has returned 0 in the trace. -/
theorem reaches_returned (h : (startup nr).Reaches tr s) :
    (∃ a, (a, .returned true) ∈ tr) → s.main.phase = .inited := by
  refine h.invariant (P := fun tr s => (∃ a, (a, .returned true) ∈ tr) →
    s.main.phase = .inited) ?_ ?_
  · rintro s - ⟨a, ha⟩
    cases ha
  · rintro tr s a out t - ih hstep ⟨b, hb⟩
    rcases List.mem_append.mp hb with hold | hnew
    · exact step_inited (ih ⟨b, hold⟩) hstep
    · cases List.mem_singleton.mp hnew
      rcases step_returned hstep with ⟨-, hfalse⟩ | ⟨rfl, -⟩
      · cases hfalse
      · exact step_phase (a := .main) hstep

/-- A worker has entered the event loop in the trace. -/
theorem reaches_entered (h : ((startup nr).guard alone).Reaches tr s) :
    (∃ a k, (a, .entered k) ∈ tr) → s.go = true := by
  refine h.invariant (P := fun tr s => (∃ a k, (a, .entered k) ∈ tr) → s.go = true) ?_ ?_
  · rintro s - ⟨a, k, ha⟩
    cases ha
  · rintro tr s a out t hr ih hstep ⟨b, k, hb⟩
    obtain ⟨-, hstep⟩ := Machine.guard_step.mp hstep
    rcases List.mem_append.mp hb with hold | hnew
    · exact step_go (ih ⟨b, k, hold⟩) hstep
    · cases List.mem_singleton.mp hnew
      apply step_go _ hstep
      cases a with
      | worker j => exact workerStep_entered (reaches_alone hr) hstep
      | main =>
          rcases (mainStep_phase hstep).2 with hout | hout
          · cases hout
          · cases hout
      | _ =>
          obtain ⟨u, -, hpair⟩ := Option.map_eq_some_iff.mp hstep
          cases hpair

/-! ## One call -/

/-- How often `upcall_init` is called. -/
def callCount (tr : List (Input × Output)) : ℕ := tr.countP fun x => x.1 = .call

/-- The first call finds no workers of an earlier one. -/
theorem reaches_oneCall (h : (startup nr).Reaches tr s) :
    callCount tr ≤ 1 → ((startup nr).guard alone).Reaches tr s ∧
      (callCount tr = 0 → s.main = .idle ∧ s.workers = []) := by
  induction h with
  | init hs => exact fun _ => ⟨.init hs, fun _ => ⟨hs.main, hs.workers⟩⟩
  | @step tr s t a out hr hstep ih =>
      intro hone
      have hadd : callCount (tr ++ [(a, out)]) = callCount tr + if a = .call then 1 else 0 := by
        rw [callCount, callCount, List.countP_append, List.countP_singleton]
        simp only [decide_eq_true_eq]
      rw [hadd] at hone ⊢
      obtain ⟨hguard, hnone⟩ := ih (by omega)
      by_cases ha : a = .call
      · subst ha
        rw [if_pos rfl] at hone ⊢
        have halone : s.alone .call = true := by
          rw [alone, (hnone (by omega)).2]
          rfl
        refine ⟨hguard.step (Machine.guard_step.mpr ⟨halone, hstep⟩), ?_⟩
        intro hzero
        omega
      · rw [if_neg ha]
        have halone : s.alone a = true := by
          cases a with
          | call => exact absurd rfl ha
          | _ => rfl
        refine ⟨hguard.step (Machine.guard_step.mpr ⟨halone, hstep⟩), ?_⟩
        intro hzero
        obtain ⟨hpc, hworkers⟩ := hnone hzero
        exact absurd (step_of_nothing hpc hworkers hstep) ha

/-- The barriers in a state of a run. A thread that waits will still see its condition fail,
or the thread with the lock is about to wake it. -/
structure Barrier (nr : ℕ) (tr : List (Input × Output)) (s : Process) : Prop where
  setup : (∃ a, (a, .returned true) ∈ tr) →
    s.workers.map (·.id) = List.range nr ∧ ∀ w ∈ s.workers, w.pc.counted = true
  entered : (∃ a k, (a, .entered k) ∈ tr) → s.go = true
  running : ∀ w ∈ s.workers, w.pc.released = true → s.go = true
  workerWaits : ∀ w ∈ s.workers, w.pc = .waiting →
    s.go = false ∨ s.main = .broadcast ∧ ∀ v ∈ s.broadcast.workers, v.pc ≠ .waiting
  mainWaits : s.main = .waiting → s.initCount < nr ∨ ∃ w ∈ s.workers, w.pc = .signal

theorem broadcast_wakes (s : Process) : ∀ v ∈ s.broadcast.workers, v.pc ≠ .waiting := by
  intro v hv
  obtain ⟨w, -, rfl⟩ := List.mem_map.mp hv
  rw [w.notified_pc]
  split
  · nofun
  · assumption

/-- One call of `upcall_init`, whatever the number of workers and their order. -/
theorem barrier_holds (h : (startup nr).Reaches tr s) (hone : callCount tr ≤ 1) :
    Barrier nr tr s := by
  have hguard := (reaches_oneCall h hone).1
  have hinv := reaches_alone hguard
  refine ⟨?_, reaches_entered hguard, ?_, ?_, hinv.waits⟩
  · intro hreturned
    have hphase := reaches_returned h hreturned
    have hready := MainPc.ready_of_inited hphase
    constructor
    · have hmade := hinv.made
      cases hpc : s.main <;> rw [hpc] at hmade hphase <;> first | exact hmade | cases hphase
    · intro w hw
      obtain ⟨k, hk⟩ := List.getElem?_of_mem hw
      exact (hinv.fits k w hk).ready hready
  · intro w hw hpc
    obtain ⟨k, hk⟩ := List.getElem?_of_mem hw
    exact (hinv.fits k w hk).released hpc
  · intro w hw hpc
    obtain ⟨k, hk⟩ := List.getElem?_of_mem hw
    rcases (hinv.fits k w hk).waits hpc with hgo | hmain
    · exact .inl hgo
    · exact .inr ⟨hmain, broadcast_wakes s⟩

end Runs

end Process

/-- The process before the first call. -/
def processStart : Process := ⟨-1, 0, false, none, .idle, [], 0⟩

theorem processStart_start (nr : ℕ) : (startup nr).Init processStart :=
  ⟨rfl, rfl, rfl, rfl, rfl, rfl, rfl⟩

/-- The second worker comes first, and both wake up for nothing before `g_go` is set. -/
def twoWorkers : List Input :=
  [.call, .created 3] ++ List.replicate 8 .main ++ List.replicate 5 (.worker 1) ++
    [.worker 1, .wakeWorker 1, .worker 1, .worker 1, .worker 1, .main, .main, .main] ++
    [.wakeMain, .main, .main, .main] ++ List.replicate 6 (.worker 0) ++
    List.replicate 8 .main ++ List.replicate 3 (.worker 0) ++ List.replicate 3 (.worker 1)

theorem twoWorkers_runs : ((startup 2).exec processStart twoWorkers).isSome := by decide

theorem barrier_holds_twoWorkers :
    ∃ tr s, (startup 2).Reaches tr s ∧ (.worker 1, .entered 1) ∈ tr ∧ Process.Barrier 2 tr s := by
  have hreach := Machine.reaches_exec_get (processStart_start 2) twoWorkers_runs
  exact ⟨_, _, hreach, by decide, Process.barrier_holds hreach (by decide)⟩

end Upcalls.Startup
