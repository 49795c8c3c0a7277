import Mathlib.Data.List.Basic
import Mathlib.Data.List.Induction

/-! # Labelled machines

A machine reads one input at a time and answers with an output. Inputs carry every
choice of the environment, so a step is a partial function: `none` means that the
input is not possible in that state. A trace is a list of inputs with their outputs,
the latest last.
-/

namespace Upcalls.Library

structure Machine (σ ι ω : Type*) where
  Init : σ → Prop
  step : σ → ι → Option (σ × ω)

namespace Machine

variable {σ ι ω : Type*}

/-! ## Runs -/

/-- `M.Run s tr t`: the trace `tr` leads from `s` to `t`. -/
inductive Run (M : Machine σ ι ω) (s : σ) : List (ι × ω) → σ → Prop
  | nil : Run M s [] s
  | snoc {t u tr a o} : Run M s tr t → M.step t a = some (u, o) →
      Run M s (tr ++ [(a, o)]) u

/-- `M.Reaches tr s`: some run from an initial state has the trace `tr` and ends in `s`. -/
inductive Reaches (M : Machine σ ι ω) : List (ι × ω) → σ → Prop
  | init {s} : M.Init s → Reaches M [] s
  | step {tr s t a o} : Reaches M tr s → M.step s a = some (t, o) →
      Reaches M (tr ++ [(a, o)]) t

variable {M : Machine σ ι ω}

theorem Run.cons {s t u : σ} {a : ι} {o : ω} {tr : List (ι × ω)}
    (h : M.step s a = some (t, o)) (hr : M.Run t tr u) : M.Run s ((a, o) :: tr) u := by
  induction hr with
  | nil => exact Run.snoc .nil h
  | snoc _ hlast ih => exact Run.snoc ih hlast

theorem Reaches.run {tr tr' : List (ι × ω)} {s t : σ}
    (h : M.Reaches tr s) (hr : M.Run s tr' t) : M.Reaches (tr ++ tr') t := by
  induction hr with
  | nil => simpa using h
  | snoc _ hlast ih =>
      rw [← List.append_assoc]
      exact .step ih hlast

theorem Reaches.from_init {tr : List (ι × ω)} {t : σ} (h : M.Reaches tr t) :
    ∃ s, M.Init s ∧ M.Run s tr t := by
  induction h with
  | init hs => exact ⟨_, hs, .nil⟩
  | step _ hlast ih =>
      obtain ⟨s, hs, hrun⟩ := ih
      exact ⟨s, hs, .snoc hrun hlast⟩

/-- A run can be cut at any point of its trace. -/
theorem Reaches.split {tr tr' : List (ι × ω)} {t : σ} (h : M.Reaches (tr ++ tr') t) :
    ∃ s, M.Reaches tr s ∧ M.Run s tr' t := by
  induction tr' using List.reverseRecOn generalizing t with
  | nil => exact ⟨t, by simpa using h, .nil⟩
  | append_singleton tr' x ih =>
      rw [← List.append_assoc] at h
      generalize hw : tr ++ tr' ++ [x] = whole at h
      cases h with
      | init => simp at hw
      | step hr hlast =>
          obtain ⟨htr, hx⟩ := List.append_inj' hw rfl
          subst htr
          obtain ⟨s, hs, hrun⟩ := ih hr
          cases List.singleton_inj.mp hx
          exact ⟨s, hs, .snoc hrun hlast⟩

theorem Run.nil_inv {s t : σ} (h : M.Run s [] t) : t = s := by
  generalize hw : ([] : List (ι × ω)) = whole at h
  cases h with
  | nil => rfl
  | snoc => simp at hw

theorem Run.cons_inv {s u : σ} {x : ι × ω} {tr : List (ι × ω)} (h : M.Run s (x :: tr) u) :
    ∃ t, M.step s x.1 = some (t, x.2) ∧ M.Run t tr u := by
  generalize hw : x :: tr = whole at h
  induction h generalizing x tr with
  | nil => simp at hw
  | @snoc t u before a o hr hlast ih =>
      cases before with
      | nil =>
          obtain ⟨rfl, rfl⟩ := List.cons.inj hw
          cases hr.nil_inv
          exact ⟨u, hlast, .nil⟩
      | cons y ys =>
          obtain ⟨rfl, rfl⟩ := List.cons.inj hw
          obtain ⟨v, hstep, hrun⟩ := ih rfl
          exact ⟨v, hstep, .snoc hrun hlast⟩

theorem Run.snoc_inv {s u : σ} {tr : List (ι × ω)} {a : ι} {o : ω}
    (h : M.Run s (tr ++ [(a, o)]) u) : ∃ t, M.Run s tr t ∧ M.step t a = some (u, o) := by
  generalize hw : tr ++ [(a, o)] = whole at h
  cases h with
  | nil => simp at hw
  | snoc hr hlast =>
      obtain ⟨rfl, hx⟩ := List.append_inj' hw rfl
      cases List.singleton_inj.mp hx
      exact ⟨_, hr, hlast⟩

/-- The inputs determine the run. -/
theorem Run.unique {s t u : σ} {tr : List (ι × ω)} (ht : M.Run s tr t) (hu : M.Run s tr u) :
    t = u := by
  induction ht generalizing u with
  | nil => exact hu.nil_inv.symm
  | snoc _ hlast ih =>
      obtain ⟨v, hv, hstep⟩ := hu.snoc_inv
      rw [ih hv, hstep] at hlast
      cases Option.some.inj hlast
      rfl

/-- The last step of a nonempty trace, with the state it starts from. -/
theorem Reaches.last {tr : List (ι × ω)} {a : ι} {o : ω} {t : σ}
    (h : M.Reaches (tr ++ [(a, o)]) t) :
    ∃ s, M.Reaches tr s ∧ M.step s a = some (t, o) := by
  obtain ⟨s, hs, hrun⟩ := h.split
  obtain ⟨u, hstep, hnil⟩ := hrun.cons_inv
  cases hnil.nil_inv
  exact ⟨s, hs, hstep⟩

/-! ## Invariants -/

/-- What holds initially and is kept by every step from a reachable state holds in
every reachable state. The predicate may look at the trace so far. -/
theorem Reaches.invariant {P : List (ι × ω) → σ → Prop} (hinit : ∀ s, M.Init s → P [] s)
    (hstep : ∀ tr s a o t, M.Reaches tr s → P tr s → M.step s a = some (t, o) →
      P (tr ++ [(a, o)]) t)
    {tr : List (ι × ω)} {s : σ} (h : M.Reaches tr s) : P tr s := by
  induction h with
  | init h => exact hinit _ h
  | step hr hlast ih => exact hstep _ _ _ _ _ hr ih hlast

/-- What every step of a run keeps is kept by the run. -/
theorem Run.preserves {P : σ → Prop} {s t : σ} {tr : List (ι × ω)} (h : M.Run s tr t)
    (hstep : ∀ u a o v, (a, o) ∈ tr → P u → M.step u a = some (v, o) → P v)
    (hs : P s) : P t := by
  induction h with
  | nil => exact hs
  | snoc _ hlast ih =>
      refine hstep _ _ _ _ (by simp) (ih ?_) hlast
      intro u a o v hm hu hv
      exact hstep u a o v (List.mem_append_left _ hm) hu hv

/-! ## Runs under a condition -/

/-- The machine with the steps that meet `P`, a condition on the state before the step and
on the input. -/
def guard (M : Machine σ ι ω) (P : σ → ι → Bool) : Machine σ ι ω where
  Init := M.Init
  step s a := if P s a then M.step s a else none

theorem guard_step {P : σ → ι → Bool} {s t : σ} {a : ι} {o : ω} :
    (M.guard P).step s a = some (t, o) ↔ P s a = true ∧ M.step s a = some (t, o) := by
  simp only [guard]
  split
  · rename_i hP
    exact ⟨fun h => ⟨hP, h⟩, fun h => h.2⟩
  · rename_i hP
    constructor
    · intro h
      cases h
    · intro h
      exact absurd h.1 hP

theorem Reaches.of_guard {P : σ → ι → Bool} {tr : List (ι × ω)} {s : σ}
    (h : (M.guard P).Reaches tr s) : M.Reaches tr s := by
  induction h with
  | init hs => exact .init hs
  | step _ hlast ih => exact .step ih (guard_step.mp hlast).2

theorem Run.of_guard {P : σ → ι → Bool} {tr : List (ι × ω)} {s t : σ}
    (h : (M.guard P).Run s tr t) : M.Run s tr t := by
  induction h with
  | nil => exact .nil
  | snoc _ hlast ih => exact .snoc ih (guard_step.mp hlast).2

/-- `Q` counts the steps that do not meet `P`: the count stays zero as long as every step
meets it. -/
theorem Run.count {P : σ → ι → Bool} {Q : σ → ℕ → Prop} {s t : σ} {tr : List (ι × ω)}
    (h : M.Run s tr t) (hs : Q s 0)
    (hstep : ∀ u k a o v, Q u k → M.step u a = some (v, o) →
      Q v (k + if P u a then 0 else 1)) :
    ∃ k, Q t k ∧ (k = 0 ↔ (M.guard P).Run s tr t) := by
  induction h with
  | nil => exact ⟨0, hs, ⟨fun _ => .nil, fun _ => rfl⟩⟩
  | @snoc u v tr a o hr hlast ih =>
      obtain ⟨k, hk, hiff⟩ := ih
      refine ⟨_, hstep u k a o v hk hlast, ?_⟩
      constructor
      · intro hzero
        have hmeets : P u a = true := by
          by_contra hnot
          rw [if_neg hnot] at hzero
          omega
        rw [if_pos hmeets] at hzero
        exact .snoc (hiff.mp hzero) (guard_step.mpr ⟨hmeets, hlast⟩)
      · intro hguard
        obtain ⟨u', hu', hstep'⟩ := hguard.snoc_inv
        cases hr.unique hu'.of_guard
        rw [if_pos (guard_step.mp hstep').1, hiff.mpr hu']

/-! ## Runs with a record -/

/-- The machine that also writes down what `f` says of each step. -/
def record {κ : Type*} (M : Machine σ ι ω) (f : σ → ι → List κ) :
    Machine (σ × List κ) ι ω where
  Init s := M.Init s.1 ∧ s.2 = []
  step s a := (M.step s.1 a).map fun r => ((r.1, s.2 ++ f s.1 a), r.2)

theorem record_step {κ : Type*} {f : σ → ι → List κ} {s t : σ × List κ} {a : ι} {o : ω} :
    (M.record f).step s a = some (t, o) ↔
      M.step s.1 a = some (t.1, o) ∧ t.2 = s.2 ++ f s.1 a := by
  rw [record, Option.map_eq_some_iff]
  constructor
  · rintro ⟨r, hr, hpair⟩
    cases hpair
    exact ⟨hr, rfl⟩
  · rintro ⟨hstep, hlog⟩
    refine ⟨_, hstep, ?_⟩
    rw [← hlog]

/-! ## Execution -/

/-- Feed a list of inputs to the machine. -/
def exec (M : Machine σ ι ω) : σ → List ι → Option (σ × List (ι × ω))
  | s, [] => some (s, [])
  | s, a :: as =>
      match M.step s a with
      | none => none
      | some (t, o) => (exec M t as).map fun r => (r.1, (a, o) :: r.2)

theorem run_of_exec {s t : σ} {as : List ι} {tr : List (ι × ω)}
    (h : M.exec s as = some (t, tr)) : M.Run s tr t := by
  induction as generalizing s tr with
  | nil =>
      simp only [exec, Option.some.injEq, Prod.mk.injEq] at h
      obtain ⟨rfl, rfl⟩ := h
      exact .nil
  | cons a as ih =>
      rw [exec] at h
      split at h
      · simp at h
      · rename_i u o hstep
        obtain ⟨⟨v, tr'⟩, hrest, hpair⟩ := Option.map_eq_some_iff.mp h
        obtain ⟨rfl, rfl⟩ := Prod.mk.inj hpair
        exact (ih hrest).cons hstep

/-- An execution that succeeds from an initial state reaches its final state. -/
theorem reaches_of_exec {s t : σ} {as : List ι} {tr : List (ι × ω)}
    (hs : M.Init s) (h : M.exec s as = some (t, tr)) : M.Reaches tr t := by
  simpa using (Reaches.init hs).run (run_of_exec h)

theorem reaches_exec_get {s : σ} {as : List ι} (hs : M.Init s) (h : (M.exec s as).isSome) :
    M.Reaches ((M.exec s as).get h).2 ((M.exec s as).get h).1 :=
  reaches_of_exec hs (Option.some_get h).symm

/-! ## Simulations -/

section Simulation

variable {τ κ ζ : Type*}

/-- `N` follows `M`: a step of `M` that `observe` hides leaves `N` where it is, and any
other step is matched by one step of `N` with the observed input and output. -/
structure Simulates (M : Machine σ ι ω) (N : Machine τ κ ζ)
    (observe : ι × ω → Option (κ × ζ)) (R : σ → τ → Prop) : Prop where
  init : ∀ s, M.Init s → ∃ t, N.Init t ∧ R s t
  hidden : ∀ {s s' t a o}, R s t → M.step s a = some (s', o) → observe (a, o) = none → R s' t
  visible : ∀ {s s' t a o b p}, R s t → M.step s a = some (s', o) →
    observe (a, o) = some (b, p) → ∃ t', N.step t b = some (t', p) ∧ R s' t'

/-- Every trace of `M`, as observed, is a trace of `N`. -/
theorem Simulates.reaches {N : Machine τ κ ζ} {observe : ι × ω → Option (κ × ζ)}
    {R : σ → τ → Prop} (h : Simulates M N observe R) {tr : List (ι × ω)} {s : σ}
    (hr : M.Reaches tr s) : ∃ t, N.Reaches (tr.filterMap observe) t ∧ R s t := by
  induction hr with
  | init hs =>
      obtain ⟨t, ht, hR⟩ := h.init _ hs
      exact ⟨t, by simpa using .init ht, hR⟩
  | @step tr s s' a o _ hstep ih =>
      obtain ⟨t, ht, hR⟩ := ih
      rw [List.filterMap_append]
      cases hobs : observe (a, o) with
      | none => exact ⟨t, by simpa [hobs] using ht, h.hidden hR hstep hobs⟩
      | some x =>
          obtain ⟨t', ht', hR'⟩ := h.visible hR hstep hobs
          refine ⟨t', ?_, hR'⟩
          simpa [hobs] using ht.step ht'

end Simulation

end Machine

end Upcalls.Library
