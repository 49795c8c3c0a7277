import Upcalls.Model.ClientMain
import Upcalls.Verification.ClientMain.Descriptors
import Upcalls.Verification.ClientMain.Ends

/-! # How the client program ends

`main` goes on to the results only when every transaction of every client is complete, and to
the error report only when a call has failed.
-/

namespace Upcalls.ClientMain

open Library TcpClient

variable {m n : ℕ} {o : Options}

/-! ## Workers that are through -/

/-- All transactions are complete, and no descriptor is open that was not before. -/
structure Through (o : Options) (base : ℤ → Bool) (me : Worker n) : Prop where
  complete : me.complete = o.transactionCount * n
  done : ∀ j, (me.clients j).state = .done ∧ (me.clients j).sock = -1 ∧
    (me.clients j).txnRemaining = 0
  interest : ∀ fd, me.interest fd = none
  opened : me.opened = base

theorem Through.setDying {base : ℤ → Bool} {me : Worker n} (h : Through o base me) :
    Through o base me.setDying := ⟨h.complete, h.done, h.interest, h.opened⟩

theorem closeClient_done {me : Worker n} {j : Fin n} (h : (me.clients j).sock = -1) :
    closeClient me j = me := by
  rw [closeClient, h]
  rfl

/-- `cleanup` has no socket left to close. -/
theorem Through.cleanup {base : ℤ → Bool} {me : Worker n} (h : Through o base me) :
    cleanup me = me := by
  have hfold : ∀ js : List (Fin n), js.foldl closeClient me = me := by
    intro js
    induction js with
    | nil => rfl
    | cons j js ih => rw [List.foldl_cons, closeClient_done (h.done j).2.1, ih]
  have hinterest : (fun _ => none) = me.interest := funext fun fd => (h.interest fd).symm
  rw [ClientMain.cleanup, hfold, hinterest]

/-- A worker that leaves its loop alive is through. -/
theorem through_of_exited {tr : List ((Fin m × TcpClient.Input) × TcpClient.Output n)}
    {s₀ s : Fin m → Worker n} (hinit : (process m n o).Init s₀)
    (hrun : (process m n o).Run s₀ tr s) (hdying : ∀ w, (s w).dying = false) {w : Fin m}
    (hpc : (s w).pc.count = 0) (hgoes : (s w).goesOn o = false) (hb : 1 ≤ o.batchSize)
    (ht : 1 ≤ o.transactionCount) (hfit : o.transactionCount * n < 2 ^ 64) :
    Through o (s₀ w).opened (s w) := by
  have hreach := process_own ((Machine.Reaches.init hinit).run hrun) hdying w
  have hs := (Worker.reaches_inv hreach (hdying w)).1
  have hknown := Worker.reaches_known hreach (hdying w) hb ht
  have hcomplete := Worker.reaches_complete hreach (hdying w) hb ht hfit
  rw [hpc, Nat.add_zero] at hcomplete
  have hle := Worker.finished_le (o := o) (s w)
  have hall : (s w).finished o = o.transactionCount * n := by
    rw [Worker.goesOn, hdying w, Worker.total, Nat.mod_eq_of_lt hfit] at hgoes
    simp only [Bool.not_false, Bool.true_and, decide_eq_false_iff_not] at hgoes
    omega
  have hdone := (Worker.finished_eq_iff hs hknown).mp hall
  have hdead : ∀ j, ((s w).clients j).state.live = false := by
    intro j
    rw [(hdone j).1]
    rfl
  refine ⟨hcomplete.trans hall, ?_, ?_, ?_⟩
  · intro j
    obtain ⟨l, hl⟩ := hknown j
    exact ⟨(hdone j).1, (hdone j).2.1, hl.lives.left.mpr (hdone j).1⟩
  · intro fd
    cases hfd : (s w).interest fd with
    | none => rfl
    | some x =>
        have hlive := (hs.owned hfd).live
        rw [hdead x.data] at hlive
        cases hlive
  · have hopens := process_opens hinit hrun hdying w
    funext fd
    rw [Bool.eq_iff_iff, hopens.opened fd]
    refine or_iff_left ?_
    rintro ⟨j, hj, -⟩
    rw [hdead j] at hj
    cases hj

/-! ## The invariant -/

/-- What `main` knows behind each of its loops. -/
def Joined (s : Program m n) : Prop :=
  match s.main with
  | .join i => ∀ w : Fin m, w.val < i → s.stage w = .returned
  | .check i => (∀ w, s.stage w = .returned) ∧ ∀ w : Fin m, w.val < i → (s.workers w).dying = false
  | .report => (∀ w, s.stage w = .returned) ∧ ∃ w, (s.workers w).dying = true
  | .results => (∀ w, s.stage w = .returned) ∧ ∀ w, (s.workers w).dying = false
  | .killed => True

structure Inv (o : Options) (s₀ : Fin m → Worker n) (tr : List (Input m × Output n))
    (s : Program m n) : Prop where
  run : (process m n o).Run s₀ (tr.filterMap observe) s.workers
  joined : Joined s
  left : s.main ≠ .killed → ∀ w, s.stage w ≠ .looping →
    (s.workers w).dying = true ∨ Through o (s₀ w).opened (s.workers w)
  cleaning : s.main ≠ .killed → ∀ w, s.stage w = .cleaning →
    Through o (s₀ w).opened (s.workers w)
  freed : s.main ≠ .killed → ∀ w, s.stage w = .returned →
    (s.workers w).dying = true ∨ s.freed w = true

variable {s₀ : Fin m → Worker n} {tr : List (Input m × Output n)} {s t : Program m n}
  {out : Output n}

theorem inv_start (h : s.Start o) : Inv o s.workers [] s := by
  have hlooping : ∀ {P : Prop} {w : Fin m}, s.stage w ≠ .looping → P := by
    intro P w hne
    exact (hne (h.stage w)).elim
  refine ⟨.nil, ?_, fun _ w => hlooping, ?_, ?_⟩
  · rw [Joined, h.main]
    intro w hw
    exact absurd hw (Nat.not_lt_zero _)
  · intro _ w hw
    rw [h.stage w] at hw
    cases hw
  · intro _ w hw
    rw [h.stage w] at hw
    cases hw

/-! ## Steps of the workers -/

/-- `main` is still joining when a worker takes a step. -/
theorem joined_update (h : Joined s) (hkilled : s.main ≠ .killed) {w : Fin m}
    (hw : s.stage w ≠ .returned) (hmain : t.main = s.main)
    (hstage : ∀ v, v ≠ w → t.stage v = s.stage v) : Joined t := by
  rw [Joined] at h ⊢
  rw [hmain]
  cases hpc : s.main with
  | join i =>
      rw [hpc] at h
      intro v hv
      by_cases hvw : v = w
      · rw [hvw] at hv
        exact (hw (h w hv)).elim
      · rw [hstage v hvw]
        exact h v hv
  | check i | report | results =>
      rw [hpc] at h
      exact (hw (h.1 w)).elim
  | killed => exact (hkilled hpc).elim

/-- A worker sees no more of the step of another than `set_dying`. -/
theorem through_other {workers workers' : Fin m → Worker n} {w v : Fin m}
    {a : TcpClient.Input} {x : TcpClient.Output n} {base : ℤ → Bool}
    (h : (process m n o).step workers (w, a) = some (workers', x)) (hv : v ≠ w)
    (hthrough : Through o base (workers v)) : Through o base (workers' v) := by
  obtain ⟨me, -, rfl⟩ := processStep_spec h
  have hsame : Function.update workers w me v = workers v := Function.update_of_ne hv _ _
  split
  · simp only [hsame]
    exact hthrough.setDying
  · rw [hsame]
    exact hthrough

/-- Only the condition of the loop ends it, apart from `epoll_wait`. -/
theorem stepped_exited {me me' : Worker n} {a : TcpClient.Input} {x : TcpClient.Output n}
    (h : Worker.Stepped o me a me' x) (ha : a ≠ .timeout) (hpc : me'.pc = .exited) :
    me'.goesOn o = false := by
  cases h with
  | waited hloop => cases hloop.symm.trans hpc
  | timedOut => exact (ha rfl).elim
  | exited _ _ hgoes => exact hgoes
  | @enteredOther j todo =>
      rcases Worker.enter_pc (o := o) { me with todo := todo } j 0 with hentered | hentered
      · cases hentered.symm.trans hpc
      · cases hentered.symm.trans hpc
  | _ => cases hpc

section Loop

variable {ptr : List ((Fin m × TcpClient.Input) × TcpClient.Output n)}
  {workers workers' : Fin m → Worker n} {w v u : Fin m} {a : TcpClient.Input}
  {x : TcpClient.Output n}

theorem dying_snoc (hinit : (process m n o).Init s₀) (hrun : (process m n o).Run s₀ ptr workers)
    (h : (process m n o).step workers (w, a) = some (workers', x)) (hv : (workers v).dying = true) :
    (workers' u).dying = true := by
  have hreach := (Machine.Reaches.init hinit).run hrun
  rw [process_fails hreach v] at hv
  rw [process_fails (hreach.step h) u, List.any_append]
  exact Bool.or_eq_true_iff.mpr (.inl hv)

/-- `epoll_wait` fails for a worker that is then dying. -/
theorem waitFailed_dies (hinit : (process m n o).Init s₀)
    (hrun : (process m n o).Run s₀ ptr workers)
    (h : (process m n o).step workers (w, .waitFailed) = some (workers', x)) :
    (workers' u).dying = true := by
  have hreach := (Machine.Reaches.init hinit).run hrun
  rw [process_fails (hreach.step h) u, List.any_append]
  exact Bool.or_eq_true_iff.mpr (.inr rfl)

theorem exited_through (hinit : (process m n o).Init s₀) (hb : 1 ≤ o.batchSize)
    (ht : 1 ≤ o.transactionCount) (hfit : o.transactionCount * n < 2 ^ 64)
    (hrun : (process m n o).Run s₀ ptr workers)
    (h : (process m n o).step workers (w, a) = some (workers', x)) (ha : a ≠ .timeout)
    (hpc : (workers' w).pc = .exited) :
    (workers' w).dying = true ∨ Through o (s₀ w).opened (workers' w) := by
  cases hdying : (workers' w).dying with
  | true => exact .inl rfl
  | false =>
      right
      have hreach := (Machine.Reaches.init hinit).run hrun
      have halive : ∀ u, (workers' u).dying = false := by
        intro u
        rw [process_fails (hreach.step h) u, ← process_fails (hreach.step h) w]
        exact hdying
      obtain ⟨hstep, -, -⟩ := processStep_alive h halive
      have hstepped := Worker.step_spec hstep hdying
      have hgoes := stepped_exited hstepped ha hpc
      exact through_of_exited hinit (hrun.snoc h) halive (by rw [hpc]; rfl) hgoes hb ht hfit

end Loop

theorem loop_inv {w : Fin m} {a : TcpClient.Input} (hinit : (process m n o).Init s₀)
    (hb : 1 ≤ o.batchSize) (ht : 1 ≤ o.transactionCount)
    (hfit : o.transactionCount * n < 2 ^ 64) (h : Inv o s₀ tr s)
    (hstep : s.loop o w a = some (t, out)) : Inv o s₀ (tr ++ [(.worker w a, out)]) t := by
  simp only [Program.loop] at hstep
  split at hstep
  case isFalse => cases hstep
  case isTrue hguard =>
    obtain ⟨hkilled, hlooping⟩ := hguard
    obtain ⟨⟨workers, x⟩, hprocess, hpair⟩ := Option.map_eq_some_iff.mp hstep
    cases hpair
    have hrun : (process m n o).Run s₀
        ((tr ++ [(Input.worker w a, Output.worker x)]).filterMap observe) workers := by
      rw [List.filterMap_append]
      exact .snoc h.run hprocess
    by_cases hout : a = .timeout
    · subst hout
      have hno : ∀ {P : Prop}, MainPc.killed ≠ .killed → P := fun hne => (hne rfl).elim
      exact ⟨hrun, trivial, fun hne => hno hne, fun hne => hno hne, fun hne => hno hne⟩
    · have hmain : mainBy s.main a = s.main := by
        cases a with
        | timeout => exact (hout rfl).elim
        | _ => rfl
      have hself : ∀ {q}, (if (workers w).pc = .exited then
          Function.update s.stage w (leftBy a) else s.stage) w = q → q ≠ .looping →
          leftBy a = q := by
        intro q hq hne
        split at hq
        · rwa [Function.update_self] at hq
        · exact (hne (hq.symm.trans hlooping)).elim
      have hother : ∀ v, v ≠ w → (if (workers w).pc = .exited then
          Function.update s.stage w (leftBy a) else s.stage) v = s.stage v := by
        intro v hv
        split
        · exact Function.update_of_ne hv _ _
        · rfl
      refine ⟨hrun, ?_, ?_, ?_, ?_⟩
      · refine joined_update h.joined hkilled (w := w) ?_ hmain hother
        rw [hlooping]
        exact Stage.noConfusion
      · intro _ v hv
        simp only at hv
        by_cases hvw : v = w
        · subst hvw
          split at hv
          · rename_i hexited
            exact exited_through hinit hb ht hfit h.run hprocess hout hexited
          · exact (hv hlooping).elim
        · rw [hother v hvw] at hv
          rcases h.left hkilled v hv with hdying | hthrough
          · exact .inl (dying_snoc hinit h.run hprocess hdying)
          · exact .inr (through_other hprocess hvw hthrough)
      · intro _ v hv
        simp only at hv
        by_cases hvw : v = w
        · subst hvw
          have hcleaning := hself hv Stage.noConfusion
          cases a <;> cases hcleaning
        · rw [hother v hvw] at hv
          exact through_other hprocess hvw (h.cleaning hkilled v hv)
      · intro _ v hv
        simp only at hv
        by_cases hvw : v = w
        · subst hvw
          have hreturned := hself hv Stage.noConfusion
          cases a with
          | waitFailed => exact .inl (waitFailed_dies hinit h.run hprocess)
          | _ => cases hreturned
        · rw [hother v hvw] at hv
          rcases h.freed hkilled v hv with hdying | hfreed
          · exact .inl (dying_snoc hinit h.run hprocess hdying)
          · exact .inr hfreed

theorem leave_inv {w : Fin m} (h : Inv o s₀ tr s) (hstep : s.leave w = some t) :
    Inv o s₀ (tr ++ [(.leave w, .silent)]) t := by
  simp only [Program.leave] at hstep
  split at hstep
  case isFalse => cases hstep
  case isTrue hguard =>
    obtain ⟨hkilled, hleft⟩ := hguard
    cases hstep
    have hnot : s.stage w ≠ .looping := by
      rw [hleft]
      exact Stage.noConfusion
    have hstage : ∀ {v q}, Function.update s.stage w
        (if (s.workers w).dying then Stage.returned else .cleaning) v = q →
        (v ≠ w ∧ s.stage v = q) ∨ (v = w ∧ (if (s.workers w).dying then Stage.returned
          else .cleaning) = q) := by
      intro v q hv
      by_cases hvw : v = w
      · rw [hvw, Function.update_self] at hv
        exact .inr ⟨hvw, hv⟩
      · rw [Function.update_of_ne hvw] at hv
        exact .inl ⟨hvw, hv⟩
    refine ⟨?_, ?_, ?_, ?_, ?_⟩
    · rw [List.filterMap_append]
      simp only [List.filterMap_cons, List.filterMap_nil, observe, List.append_nil]
      exact h.run
    · refine joined_update h.joined hkilled (w := w) ?_ rfl fun v hv => Function.update_of_ne hv _ _
      rw [hleft]
      exact Stage.noConfusion
    · intro _ v hv
      by_cases hvw : v = w
      · rw [hvw]
        exact h.left hkilled w hnot
      · simp only [Function.update_of_ne hvw] at hv
        exact h.left hkilled v hv
    · intro _ v hv
      rcases hstage hv with ⟨-, hold⟩ | ⟨rfl, hnew⟩
      · exact h.cleaning hkilled v hold
      · split at hnew
        · cases hnew
        · rename_i halive
          exact (h.left hkilled v hnot).resolve_left halive
    · intro _ v hv
      rcases hstage hv with ⟨-, hold⟩ | ⟨rfl, hnew⟩
      · exact h.freed hkilled v hold
      · split at hnew
        · rename_i hdying
          exact .inl hdying
        · cases hnew

theorem clean_inv {w : Fin m} (h : Inv o s₀ tr s) (hstep : s.clean w = some t) :
    Inv o s₀ (tr ++ [(.cleanup w, .silent)]) t := by
  simp only [Program.clean] at hstep
  split at hstep
  case isFalse => cases hstep
  case isTrue hguard =>
    obtain ⟨hkilled, hcleaning⟩ := hguard
    cases hstep
    have hthrough := h.cleaning hkilled w hcleaning
    have hsame : Function.update s.workers w (cleanup (s.workers w)) = s.workers := by
      rw [hthrough.cleanup, Function.update_eq_self]
    rw [hsame]
    refine ⟨?_, ?_, ?_, ?_, ?_⟩
    · rw [List.filterMap_append]
      simp only [List.filterMap_cons, List.filterMap_nil, observe, List.append_nil]
      exact h.run
    · refine joined_update h.joined hkilled (w := w) ?_ rfl fun v hv => Function.update_of_ne hv _ _
      rw [hcleaning]
      exact Stage.noConfusion
    · intro _ v hv
      by_cases hvw : v = w
      · rw [hvw]
        exact .inr hthrough
      · simp only [Function.update_of_ne hvw] at hv
        exact h.left hkilled v hv
    · intro _ v hv
      by_cases hvw : v = w
      · rw [hvw]
        exact hthrough
      · simp only [Function.update_of_ne hvw] at hv
        exact h.cleaning hkilled v hv
    · intro _ v hv
      by_cases hvw : v = w
      · rw [hvw]
        exact .inr (Function.update_self ..)
      · simp only [Function.update_of_ne hvw] at hv ⊢
        exact h.freed hkilled v hv

/-! ## Steps of `main` -/

theorem main_inv (h : Inv o s₀ tr s) (hstep : s.mainStep = some t) :
    Inv o s₀ (tr ++ [(.main, .silent)]) t := by
  have hgoTo : ∀ {pc : MainPc}, s.main ≠ .killed → Joined (s.goTo pc) →
      Inv o s₀ (tr ++ [(.main, .silent)]) (s.goTo pc) := by
    intro pc hkilled hjoined
    refine ⟨?_, hjoined, fun _ => h.left hkilled, fun _ => h.cleaning hkilled,
      fun _ => h.freed hkilled⟩
    rw [List.filterMap_append]
    simp only [List.filterMap_cons, List.filterMap_nil, observe, List.append_nil]
    exact h.run
  have hjoined := h.joined
  rw [Joined] at hjoined
  rw [Program.mainStep] at hstep
  split at hstep
  · rename_i i hpc
    simp only [hpc] at hjoined
    have hkilled : s.main ≠ .killed := by
      rw [hpc]
      exact MainPc.noConfusion
    split at hstep
    · rename_i hi
      split at hstep
      · rename_i hreturned
        cases hstep
        refine hgoTo hkilled ?_
        intro w hw
        rcases Nat.lt_succ_iff_lt_or_eq.mp hw with hlt | heq
        · exact hjoined w hlt
        · rw [← hreturned]
          exact congrArg s.stage (Fin.ext heq)
      · cases hstep
    · rename_i hi
      cases hstep
      refine hgoTo hkilled ⟨fun w => hjoined w (by omega), ?_⟩
      intro w hw
      exact absurd hw (Nat.not_lt_zero _)
  · rename_i i hpc
    simp only [hpc] at hjoined
    have hkilled : s.main ≠ .killed := by
      rw [hpc]
      exact MainPc.noConfusion
    split at hstep
    · rename_i hi
      split at hstep
      · rename_i hdying
        cases hstep
        exact hgoTo hkilled ⟨hjoined.1, ⟨i, hi⟩, hdying⟩
      · rename_i halive
        cases hstep
        refine hgoTo hkilled ⟨hjoined.1, ?_⟩
        intro w hw
        rcases Nat.lt_succ_iff_lt_or_eq.mp hw with hlt | heq
        · exact hjoined.2 w hlt
        · rw [show w = ⟨i, hi⟩ from Fin.ext heq]
          exact Bool.not_eq_true _ ▸ halive
    · rename_i hi
      cases hstep
      exact hgoTo hkilled ⟨hjoined.1, fun w => hjoined.2 w (by omega)⟩
  · cases hstep
  · cases hstep
  · cases hstep

theorem step_inv {a : Input m} (hinit : (process m n o).Init s₀) (hb : 1 ≤ o.batchSize)
    (ht : 1 ≤ o.transactionCount) (hfit : o.transactionCount * n < 2 ^ 64) (h : Inv o s₀ tr s)
    (hstep : s.step o a = some (t, out)) : Inv o s₀ (tr ++ [(a, out)]) t := by
  cases a with
  | worker w a => exact loop_inv hinit hb ht hfit h hstep
  | leave w =>
      obtain ⟨u, hu, hpair⟩ := Option.map_eq_some_iff.mp hstep
      cases hpair
      exact leave_inv h hu
  | cleanup w =>
      obtain ⟨u, hu, hpair⟩ := Option.map_eq_some_iff.mp hstep
      cases hpair
      exact clean_inv h hu
  | main =>
      obtain ⟨u, hu, hpair⟩ := Option.map_eq_some_iff.mp hstep
      cases hpair
      exact main_inv h hu

/-! ## The outcome -/

/-- The calls that the workers made and that failed. -/
def Failed (tr : List (Input m × Output n)) : Prop :=
  ∃ x ∈ tr.filterMap observe, x.1.2.fails = true

/-- `main` collects results only from workers that have returned and are through, with what
they have cleaned up, and reports an error only when a call has failed. No `cleanup` finds a
socket to close. When all workers have left their loops, `main` gets to one of the two. -/
structure Outcome (o : Options) (s₀ : Fin m → Worker n) (tr : List (Input m × Output n))
    (s : Program m n) : Prop where
  results : s.main = .results → ¬ Failed tr ∧ ∀ w, s.stage w = .returned ∧ s.freed w = true ∧
    Through o (s₀ w).opened (s.workers w)
  report : s.main = .report → Failed tr ∧ ∀ w, s.stage w = .returned
  clean : s.main ≠ .killed → ∀ w, s.stage w = .cleaning → cleanup (s.workers w) = s.workers w
  ends : s.main ≠ .killed → (∀ w, s.stage w ≠ .looping) → s.Ends o

theorem run_inv (hb : 1 ≤ o.batchSize) (ht : 1 ≤ o.transactionCount)
    (hfit : o.transactionCount * n < 2 ^ 64) {p : Program m n} (hstart : (program m n o).Init p)
    (hrun : (program m n o).Run p tr s) : Inv o p.workers tr s := by
  induction hrun with
  | nil => exact inv_start hstart
  | snoc _ hlast ih => exact step_inv hstart.workers hb ht hfit ih hlast

/-- What `main` finds when it collects the results. -/
theorem Inv.results (h : Inv o s₀ tr s) (hpc : s.main = .results) (w : Fin m) :
    s.stage w = .returned ∧ (s.workers w).dying = false ∧ s.freed w = true ∧
      Through o (s₀ w).opened (s.workers w) := by
  have hjoined := h.joined
  rw [Joined, hpc] at hjoined
  have hkilled : s.main ≠ .killed := by
    rw [hpc]
    exact MainPc.noConfusion
  obtain ⟨hreturned, halive⟩ := hjoined
  have hdying : ¬ (s.workers w).dying = true := by
    rw [halive w]
    exact Bool.false_ne_true
  refine ⟨hreturned w, halive w, (h.freed hkilled w (hreturned w)).resolve_left hdying, ?_⟩
  refine (h.left hkilled w ?_).resolve_left hdying
  rw [hreturned w]
  exact Stage.noConfusion

theorem client_outcome (hb : 1 ≤ o.batchSize) (ht : 1 ≤ o.transactionCount)
    (hfit : o.transactionCount * n < 2 ^ 64) {p : Program m n} (hstart : (program m n o).Init p)
    (hrun : (program m n o).Run p tr s) : Outcome o p.workers tr s := by
  have h := run_inv hb ht hfit hstart hrun
  have hfails : ∀ w, (s.workers w).dying = true ↔ Failed tr := by
    intro w
    rw [process_fails ((Machine.Reaches.init hstart.workers).run h.run) w, List.any_eq_true]
    rfl
  refine ⟨?_, ?_, fun hkilled w hw => (h.cleaning hkilled w hw).cleanup,
    fun hkilled hleft => Program.Behind.ends ⟨hkilled, hleft⟩⟩
  · intro hpc
    refine ⟨?_, ?_⟩
    · intro hfailed
      obtain ⟨x, -, -⟩ := id hfailed
      have hdying := (hfails x.1.1).mpr hfailed
      rw [(h.results hpc x.1.1).2.1] at hdying
      cases hdying
    · intro w
      obtain ⟨hreturned, -, hfreed, hthrough⟩ := h.results hpc w
      exact ⟨hreturned, hfreed, hthrough⟩
  · intro hpc
    have hjoined := h.joined
    rw [Joined, hpc] at hjoined
    obtain ⟨hreturned, w, hdying⟩ := hjoined
    exact ⟨(hfails w).mp hdying, hreturned⟩

/-! ## A program with two clients -/

def oneWorker : Program 1 2 where
  workers _ := twoClients
  stage _ := .looping
  freed _ := false
  main := .join 0

theorem oneWorker_start : (program 1 2 threeTxns).Init oneWorker :=
  ⟨fun w => ⟨by rw [Subsingleton.elim w 0]; rfl, twoClients_start⟩, fun _ => rfl, fun _ => rfl,
    rfl⟩

/-- The clients do their transactions, and `main` collects the results. -/
def toResults (w : Fin 1) : List (Input 1) :=
  (sixTransactions ++ [TcpClient.Input.run]).map (.worker w) ++
    [.leave w, .cleanup w, .main, .main, .main, .main]

theorem toResults_runs :
    ((program 1 2 threeTxns).exec oneWorker (toResults 0)).isSome := by decide

theorem client_outcome_toResults :
    ∃ tr s, (program 1 2 threeTxns).Run oneWorker tr s ∧ s.main = .results ∧
      Outcome threeTxns oneWorker.workers tr s := by
  have hrun := Machine.run_of_exec (Option.some_get toResults_runs).symm
  exact ⟨_, _, hrun, rfl,
    client_outcome (by decide) (by decide) (by decide) oneWorker_start hrun⟩

end Upcalls.ClientMain
