import Upcalls.Verification.Startup.Phases

/-! # Calling `upcall_init` again

A call that fails in `upcall_create` leaves nothing behind. One that fails later leaves its
upcall and its workers, and those count for the next call.
-/

namespace Upcalls.Startup

open Library

variable {nr : ℕ}

namespace Process

/-- A failing call of `upcall_init` fails in `upcall_create`. -/
def early (s : Process) : Input → Bool
  | .fail => s.main = .create
  | _ => true

/-- The workers that wait for `g_go`. -/
def waiting (s : Process) : List Worker := s.workers.filter (·.pc = .waiting)

/-- The workers that call `k` of `upcall_init` has made. -/
def spawned (k : ℕ) (s : Process) : List Worker := s.workers.filter (·.call = k)

/-- A call that fails puts back what it found in `u`, and one that returns 0 counts on its own
workers. -/
structure Retryable (nr : ℕ) (tr : List (Input × Output)) (s : Process) : Prop where
  restored : ∀ before during u,
    tr = before ++ (.call, .silent) :: during ++ [(.fail, .returned false)] →
    (∀ x ∈ during, x.1 ≠ .call) → (startup nr).Reaches before u →
    s.initCount = u.initCount ∧ s.waiting = u.waiting ∧ s.upfd = u.upfd
  completed : (∃ a, (a, .returned true) ∈ tr) →
    (s.spawned s.calls).map (·.id) = List.range nr ∧
      ∀ w ∈ s.spawned s.calls, w.pc.counted = true
  released : ∀ w ∈ s.workers, w.pc.released = true → w.call = s.calls

/-- What a run without late failures keeps. -/
structure Fresh (s : Process) : Prop where
  idle : s.main = .idle → s.workers = [] ∧ s.upfd = -1
  upfd : s.main.phase = .calling → s.main = .create ∨ 0 ≤ s.upfd
  own : ∀ w ∈ s.workers, w.call = s.calls

section Steps

variable {s s' : Process} {a : Input} {out : Output}

theorem fresh_start (h : Start s) : s.Fresh := by
  refine ⟨fun _ => ⟨h.workers, h.upfd⟩, ?_, ?_⟩
  · rw [h.main]
    nofun
  · rw [h.workers]
    nofun

/-- In `upcall_create` there are no workers. -/
theorem Inv.no_workers (hs : s.Inv nr) (hpc : s.main = .create) : s.workers = [] := by
  have hmade := hs.made
  rw [hpc] at hmade
  exact hmade

/-- Only `upcall_create` moves on. -/
theorem step_of_create (hpc : s.main = .create) (hnone : s.workers = [])
    (h : s.step nr a = some (s', out)) : (∃ fd, a = .created fd) ∨ a = .fail := by
  have hget : ∀ (k : ℕ) (w : Worker), s.workers[k]? ≠ some w := by
    intro k w hw
    rw [hnone] at hw
    cases hw
  cases a with
  | call =>
      obtain ⟨u, hu, -⟩ := Option.map_eq_some_iff.mp h
      cases hpc.symm.trans (call_spec hu).1
  | created fd => exact .inl ⟨fd, rfl⟩
  | fail => exact .inr rfl
  | main =>
      simp only [step, mainStep, hpc] at h
      cases h
  | worker k =>
      obtain ⟨w, hw, -⟩ := Option.bind_eq_some_iff.mp h
      exact absurd hw (hget k w)
  | wakeMain =>
      obtain ⟨u, hu, -⟩ := Option.map_eq_some_iff.mp h
      cases hpc.symm.trans (wakeMain_spec hu).1
  | wakeWorker k =>
      obtain ⟨u, hu, -⟩ := Option.map_eq_some_iff.mp h
      obtain ⟨w, hw, -⟩ := wakeWorker_spec hu
      exact absurd hw (hget k w)

/-- The phase changes with a call and with its return only. -/
theorem phase_of_keeps (hcall : a ≠ .call) (hfail : a ≠ .fail)
    (h : s.step nr a = some (s', out)) (hphase : s'.main.phase ≠ .inited) :
    s.main.phase = s'.main.phase := by
  rw [step_phase h] at hphase ⊢
  cases out with
  | returned b =>
      rcases step_returned h with ⟨ha, -⟩ | ⟨rfl, rfl⟩
      · exact absurd ha hfail
      · exact absurd rfl hphase
  | _ =>
      cases a with
      | call => exact absurd rfl hcall
      | _ => rfl

theorem fresh_step (hs : s.Inv nr) (hf : s.Fresh) (ha : s.early a = true)
    (h : s.step nr a = some (s', out)) : s'.Fresh := by
  rcases step_keeps h with ⟨rfl, -⟩ | ⟨fd, rfl⟩ | rfl | ⟨hcall, hfail, hkeeps⟩
  · obtain ⟨u, hu, hpair⟩ := Option.map_eq_some_iff.mp h
    cases hpair
    obtain ⟨hpc, rfl⟩ := call_spec hu
    refine ⟨nofun, fun _ => .inl rfl, ?_⟩
    intro w hw
    rw [show s.workers = [] from (hf.idle hpc).1] at hw
    cases hw
  · obtain ⟨u, hu, hpair⟩ := Option.map_eq_some_iff.mp h
    cases hpair
    obtain ⟨-, hfd, rfl⟩ := created_spec hu
    exact ⟨nofun, fun _ => .inr hfd, hf.own⟩
  · have hpc : s.main = .create := of_decide_eq_true ha
    obtain ⟨u, hu, hpair⟩ := Option.map_eq_some_iff.mp h
    cases hpair
    rcases fail_spec hu with ⟨-, rfl⟩ | ⟨-, hne, -⟩
    · exact ⟨fun _ => ⟨hs.no_workers hpc, rfl⟩, nofun, hf.own⟩
    · exact absurd hpc hne
  · refine ⟨?_, ?_, ?_⟩
    · intro hpc
      have hphase := phase_of_keeps hcall hfail h (by rw [hpc]; nofun)
      rw [hpc] at hphase
      have hidle := MainPc.idle_of_phase hphase
      exact absurd (step_of_nothing hidle (hf.idle hidle).1 h) hcall
    · intro hcalling
      have hphase := phase_of_keeps hcall hfail h (by rw [hcalling]; nofun)
      rcases hf.upfd (hphase.trans hcalling) with hpc | hupfd
      · rcases step_of_create hpc (hs.no_workers hpc) h with ⟨fd, rfl⟩ | ha
        · obtain ⟨u, hu, hpair⟩ := Option.map_eq_some_iff.mp h
          cases hpair
          obtain ⟨-, hfd, rfl⟩ := created_spec hu
          exact .inr hfd
        · exact absurd ha hfail
      · rw [hkeeps.upfd]
        exact .inr hupfd
    · intro w hw
      rw [hkeeps.calls]
      rcases hkeeps.made w hw with hnew | ⟨v, hv, hsame⟩
      · exact hnew
      · rw [← hsame]
        exact hf.own v hv

/-- A run without late failures has no call that finds workers. -/
theorem Fresh.alone (hf : s.Fresh) (h : s.step nr a = some (s', out)) : s.alone a = true := by
  cases a with
  | call =>
      obtain ⟨u, hu, -⟩ := Option.map_eq_some_iff.mp h
      exact List.isEmpty_iff.mpr (hf.idle (call_spec hu).1).1
  | _ => rfl

end Steps

section Runs

variable {tr : List (Input × Output)} {s : Process}

theorem reaches_early (h : ((startup nr).guard early).Reaches tr s) : s.Inv nr ∧ s.Fresh := by
  refine h.invariant (P := fun _ s => s.Inv nr ∧ s.Fresh) ?_ ?_
  · exact fun s hs => ⟨inv_start hs, fresh_start hs⟩
  · rintro tr s a out t - ⟨hs, hf⟩ hstep
    obtain ⟨ha, hstep⟩ := Machine.guard_step.mp hstep
    exact ⟨step_inv hs (hf.alone hstep) hstep, fresh_step hs hf ha hstep⟩

/-- The call that is running, with the state that it was made in. -/
theorem reaches_calling (h : ((startup nr).guard early).Reaches tr s) :
    s.main.phase = .calling → ∃ before during u, tr = before ++ (.call, .silent) :: during ∧
      (∀ x ∈ during, x.1 ≠ .call) ∧ (startup nr).Reaches before u ∧ u.upfd = -1 := by
  induction h with
  | init hs =>
      rw [hs.main]
      nofun
  | @step tr s t a out hr hstep ih =>
      intro hcalling
      obtain ⟨ha, hstep⟩ := Machine.guard_step.mp hstep
      by_cases hcall : a = .call
      · subst hcall
        obtain ⟨u, hu, hpair⟩ := Option.map_eq_some_iff.mp hstep
        cases hpair
        have hidle := (reaches_early hr).2.idle (call_spec hu).1
        exact ⟨tr, [], s, rfl, nofun, hr.of_guard, hidle.2⟩
      · have hfail : a ≠ .fail := by
          rintro rfl
          obtain ⟨u, hu, hpair⟩ := Option.map_eq_some_iff.mp hstep
          cases hpair
          rcases fail_spec hu with ⟨-, rfl⟩ | ⟨-, -, rfl⟩
          · cases hcalling
          · cases hcalling
        have hphase := phase_of_keeps hcall hfail hstep (by rw [hcalling]; nofun)
        obtain ⟨before, during, u, rfl, hduring, hu, hupfd⟩ := ih (hphase.trans hcalling)
        refine ⟨before, during ++ [(a, out)], u, ?_, ?_, hu, hupfd⟩
        · rw [List.append_assoc, List.cons_append]
        · intro x hx
          rcases List.mem_append.mp hx with hold | hnew
          · exact hduring x hold
          · rw [List.mem_singleton.mp hnew]
            exact hcall

theorem Start.unique {u : Process} (hs : Start s) (hu : Start u) : s = u := by
  cases s
  cases u
  cases hs
  cases hu
  simp_all only

/-- The trace determines the state. -/
theorem reaches_unique {u : Process} (hs : (startup nr).Reaches tr s)
    (hu : (startup nr).Reaches tr u) : s = u := by
  obtain ⟨s₀, hs₀, hs⟩ := hs.from_init
  obtain ⟨u₀, hu₀, hu⟩ := hu.from_init
  rw [Start.unique hs₀ hu₀] at hs
  exact hs.unique hu

/-- What a call finds, and what one that fails early leaves. -/
structure Clean (s : Process) : Prop where
  initCount : s.initCount = 0
  waiting : s.waiting = []
  upfd : s.upfd = -1

theorem clean_of_idle (h : ((startup nr).guard early).Reaches tr s) (hpc : s.main = .idle) :
    s.Clean := by
  obtain ⟨hs, hf⟩ := reaches_early h
  obtain ⟨hnone, hupfd⟩ := hf.idle hpc
  refine ⟨?_, ?_, hupfd⟩
  · rw [hs.count, hnone]
    rfl
  · rw [waiting, hnone]
    rfl

theorem retryable (h : ((startup nr).guard early).Reaches tr s) : Retryable nr tr s := by
  obtain ⟨hs, hf⟩ := reaches_early h
  have hspawned : s.spawned s.calls = s.workers := by
    apply List.filter_eq_self.mpr
    intro w hw
    exact decide_eq_true (hf.own w hw)
  refine ⟨?_, ?_, fun w hw _ => hf.own w hw⟩
  · rintro before during u rfl - hu
    have hidle : s.main = .idle := by
      obtain ⟨t, -, hstep⟩ := h.last
      obtain ⟨-, hstep⟩ := Machine.guard_step.mp hstep
      change t.step nr .fail = _ at hstep
      exact MainPc.idle_of_phase (step_phase hstep)
    have hu' : u.Clean := by
      rw [List.append_assoc] at h
      obtain ⟨v, hv, hrun⟩ := h.split
      rw [reaches_unique hu hv.of_guard]
      apply clean_of_idle hv
      obtain ⟨t, hstep, -⟩ := hrun.cons_inv
      obtain ⟨-, hstep⟩ := Machine.guard_step.mp hstep
      obtain ⟨w, hw, -⟩ := Option.map_eq_some_iff.mp hstep
      exact (call_spec hw).1
    have hs' := clean_of_idle h hidle
    rw [hs'.initCount, hs'.waiting, hs'.upfd]
    exact ⟨hu'.initCount.symm, hu'.waiting.symm, hu'.upfd.symm⟩
  · intro hreturned
    rw [hspawned]
    have hphase := reaches_returned h.of_guard hreturned
    have hready := MainPc.ready_of_inited hphase
    constructor
    · have hmade := hs.made
      cases hpc : s.main <;> rw [hpc] at hmade hphase <;> first | exact hmade | cases hphase
    · intro w hw
      obtain ⟨k, hk⟩ := List.getElem?_of_mem hw
      exact (hs.fits k w hk).ready hready

/-- A call that fails after `upcall_create` leaves its upcall. -/
theorem late_not_retryable (h : ((startup nr).guard early).Reaches tr s) {t : Process}
    {out : Output} (hstep : s.step nr .fail = some (t, out)) (hlate : s.early .fail ≠ true) :
    ¬ Retryable nr (tr ++ [(.fail, out)]) t := by
  intro hretry
  obtain ⟨u, hu, hpair⟩ := Option.map_eq_some_iff.mp hstep
  cases hpair
  rcases fail_spec hu with ⟨hpc, -⟩ | ⟨hcalling, hne, rfl⟩
  · exact hlate (decide_eq_true hpc)
  · obtain ⟨before, during, v, rfl, hduring, hv, hupfd⟩ := reaches_calling h hcalling
    have hback := (hretry.restored before during v rfl hduring hv).2.2
    have hkept : s.upfd = -1 := hback.trans hupfd
    rcases (reaches_early h).2.upfd hcalling with hpc | hpos
    · exact hne hpc
    · rw [hkept] at hpos
      cases hpos

/-- A run in which each call that fails does so in `upcall_create` is retryable, and goes on
so exactly as long as that is the case. -/
theorem retryable_iff (h : ((startup nr).guard early).Reaches tr s) :
    Retryable nr tr s ∧ ∀ a t out, s.step nr a = some (t, out) →
      (Retryable nr (tr ++ [(a, out)]) t ↔ s.early a = true) := by
  refine ⟨retryable h, ?_⟩
  intro a t out hstep
  constructor
  · intro hretry
    by_contra hlate
    cases a with
    | fail => exact late_not_retryable h hstep hlate hretry
    | _ => exact hlate rfl
  · intro ha
    exact retryable (h.step (Machine.guard_step.mpr ⟨ha, hstep⟩))

end Runs

end Process

/-! ## A worker of an earlier call -/

/-- The first call has made one of two workers when it fails. That worker and one of the second
call let the second call return. -/
def failedThenCalled : List Input :=
  [.call, .created 3, .main, .main, .main, .fail] ++ List.replicate 6 (.worker 0) ++
    [.call, .created 4] ++ List.replicate 5 .main ++ List.replicate 6 (.worker 1) ++
    List.replicate 3 .main

theorem failedThenCalled_runs : ((startup 2).exec processStart failedThenCalled).isSome := by
  decide

/-- The call returns 0 while its second worker has not begun its setup. -/
theorem not_retryable :
    ¬ ∀ nr tr s, (startup nr).Reaches tr s → Process.Retryable nr tr s := by
  intro h
  have hreach := Machine.reaches_exec_get (processStart_start 2) failedThenCalled_runs
  have hcompleted := (h 2 _ _ hreach).completed ⟨.main, by decide⟩
  exact absurd hcompleted.2 (by decide)

/-- The first call fails in `upcall_create`, and the second one returns 0. -/
def calledTwice : List Input :=
  [.call, .fail, .call, .created 3, .main, .main, .main] ++ List.replicate 6 (.worker 0) ++
    List.replicate 3 .main

theorem calledTwice_runs :
    (((startup 1).guard Process.early).exec processStart calledTwice).isSome := by
  decide

theorem retryable_iff_calledTwice :
    ∃ tr s, (startup 1).Reaches tr s ∧ (.main, .returned true) ∈ tr ∧
      Process.Retryable 1 tr s := by
  have hreach := Machine.reaches_exec_get (M := (startup 1).guard Process.early)
    (processStart_start 1) calledTwice_runs
  exact ⟨_, _, hreach.of_guard, by decide, (Process.retryable_iff hreach).1⟩

end Upcalls.Startup
