import Mathlib.Algebra.Ring.Nat
import Mathlib.Data.List.Induction
import Mathlib.Data.Nat.Notation

/-! # A counter with one writer

The writer increments the counter by a load and a store. A sampler prints how far the
counter is from its baseline and later copies the counter to the baseline, with a second
load. A reset zeroes the counter and after it the baseline, at any time.
-/

namespace Upcalls.Library

/-- `loaded` is what an increment under way has loaded, `printed` says that the baseline
is still to be copied, and `resetting` that it is still to be zeroed. -/
structure Counter where
  value : ℕ
  base : ℕ
  loaded : Option ℕ
  printed : Bool
  resetting : Bool

namespace Counter

inductive Event
  | load (v : ℕ)
  | store
  | print (cur pv : ℕ)
  | copy
  | zero
  | zeroBase
  deriving DecidableEq

inductive Step : Counter → Event → Counter → Prop
  | load {c} : c.loaded = none → Step c (.load c.value) { c with loaded := some c.value }
  | store {c v} : c.loaded = some v → Step c .store { c with value := v + 1, loaded := none }
  | print {c} : c.resetting = false → c.printed = false →
      Step c (.print c.value c.base) { c with printed := true }
  | copy {c} : c.resetting = false → c.printed = true →
      Step c .copy { c with base := c.value, printed := false }
  | zero {c} : Step c .zero { c with value := 0, resetting := true }
  | zeroBase {c} : c.resetting = true →
      Step c .zeroBase { c with base := 0, resetting := false }

/-- `Run es c`: the events `es`, the latest last, lead from a zero counter to `c`. -/
inductive Run : List Event → Counter → Prop
  | start : Run [] ⟨0, 0, none, false, false⟩
  | step {es c e c'} : Run es c → Step c e c' → Run (es ++ [e]) c'

variable {es : List Event} {c c' : Counter} {e : Event}

/-! ## Printed differences do not wrap -/

/-- An increment under way stores no less than the counter holds. -/
structure Ordered (c : Counter) : Prop where
  loaded : ∀ {v}, c.loaded = some v → c.value ≤ v
  base : c.resetting = false → c.base ≤ c.value

theorem Step.ordered (h : Step c e c') (hc : c.Ordered) : c'.Ordered := by
  cases h with
  | load hnone =>
      refine ⟨?_, hc.base⟩
      intro v hv
      cases hv
      exact Nat.le_refl _
  | store hv =>
      refine ⟨?_, ?_⟩
      · intro v hnone
        cases hnone
      · intro hresetting
        have hbase := hc.base hresetting
        have hloaded := hc.loaded hv
        exact Nat.le_succ_of_le (Nat.le_trans hbase hloaded)
  | print hresetting hprinted => exact ⟨hc.loaded, hc.base⟩
  | copy hresetting hprinted => exact ⟨hc.loaded, fun _ => Nat.le_refl _⟩
  | zero =>
      refine ⟨fun _ => Nat.zero_le _, ?_⟩
      intro hresetting
      cases hresetting
  | zeroBase hresetting => exact ⟨hc.loaded, fun _ => Nat.zero_le _⟩

theorem Run.ordered (h : Run es c) : c.Ordered := by
  induction h with
  | start =>
      refine ⟨?_, fun _ => Nat.le_refl _⟩
      intro v hnone
      cases hnone
  | step _ hstep ih => exact hstep.ordered ih

theorem Run.print_le (h : Run es c) {cur pv : ℕ} (hmem : .print cur pv ∈ es) : pv ≤ cur := by
  induction h with
  | start => cases hmem
  | step hrun hstep ih =>
      rcases List.mem_append.mp hmem with hmem | hmem
      · exact ih hmem
      · cases List.mem_singleton.mp hmem
        cases hstep with
        | print hresetting hprinted => exact hrun.ordered.base hresetting

/-! ## What the printed differences add up to -/

/-- What an event adds to the sum of the printed differences. -/
def Event.printed : Event → ℕ
  | .print cur pv => cur - pv
  | _ => 0

def reported (es : List Event) : ℕ := (es.map Event.printed).sum

/-- `since` are the stores since the counter was printed, until it is copied. -/
structure Gap where
  since : Option ℕ
  missed : ℕ

def Gap.next (g : Gap) : Event → Gap
  | .print _ _ => { g with since := some 0 }
  | .store => { g with since := g.since.map (· + 1) }
  | .copy => ⟨none, g.missed + g.since.getD 0⟩
  | _ => g

def gap (es : List Event) : Gap := es.foldl Gap.next ⟨none, 0⟩

/-- How many increments came between the load that prints the counter and the load that
copies it. -/
def missed (es : List Event) : ℕ := (gap es).missed

theorem reported_snoc (es : List Event) (e : Event) :
    reported (es ++ [e]) = reported es + e.printed := by
  rw [reported, reported, List.map_append, List.sum_append, List.map_singleton,
    List.sum_singleton]

theorem gap_snoc (es : List Event) (e : Event) : gap (es ++ [e]) = (gap es).next e := by
  rw [gap, gap, List.foldl_append]
  rfl

/-- Where there is no reset, all that the counter holds is reported, missed, or came since
the counter was printed. -/
structure Balanced (es : List Event) (c : Counter) : Prop where
  loaded : ∀ {v}, c.loaded = some v → v = c.value
  quiet : c.resetting = false
  le : c.base ≤ c.value
  printed : c.printed = true →
    ∃ k, (gap es).since = some k ∧ reported es + missed es + k = c.value
  unprinted : c.printed = false → (gap es).since = none ∧ reported es + missed es = c.base

theorem Step.balanced (h : Step c e c') (he : e ≠ .zero) (hc : Balanced es c) :
    Balanced (es ++ [e]) c' := by
  cases h with
  | load hnone =>
      have hsame : gap (es ++ [.load c.value]) = gap es ∧
          reported (es ++ [.load c.value]) = reported es :=
        ⟨gap_snoc _ _, reported_snoc _ _⟩
      refine ⟨?_, hc.quiet, hc.le, ?_, ?_⟩
      · intro v hv
        cases hv
        rfl
      · rw [missed, hsame.1, hsame.2]
        exact hc.printed
      · rw [missed, hsame.1, hsame.2]
        exact hc.unprinted
  | store hv =>
      have hvalue := hc.loaded hv
      subst hvalue
      refine ⟨?_, hc.quiet, Nat.le_succ_of_le hc.le, ?_, ?_⟩
      · intro v hnone
        cases hnone
      · intro hprinted
        obtain ⟨k, hk, hsum⟩ := hc.printed hprinted
        refine ⟨k + 1, ?_, ?_⟩
        · rw [gap_snoc, Gap.next, hk, Option.map_some]
        · simp only [missed, gap_snoc, reported_snoc, Gap.next, Event.printed] at hsum ⊢
          omega
      · intro hprinted
        obtain ⟨hnone, hsum⟩ := hc.unprinted hprinted
        refine ⟨?_, ?_⟩
        · rw [gap_snoc, Gap.next, hnone, Option.map_none]
        · simp only [missed, gap_snoc, reported_snoc, Gap.next, Event.printed] at hsum ⊢
          exact hsum
  | print hresetting hprinted =>
      obtain ⟨-, hsum⟩ := hc.unprinted hprinted
      have hle := hc.le
      refine ⟨hc.loaded, hc.quiet, hc.le, ?_, ?_⟩
      · intro _
        refine ⟨0, ?_, ?_⟩
        · rw [gap_snoc, Gap.next]
        · simp only [missed, gap_snoc, reported_snoc, Gap.next, Event.printed] at hsum ⊢
          omega
      · intro hfalse
        cases hfalse
  | copy hresetting hprinted =>
      obtain ⟨k, hk, hsum⟩ := hc.printed hprinted
      refine ⟨hc.loaded, hc.quiet, Nat.le_refl _, ?_, ?_⟩
      · intro htrue
        cases htrue
      · intro _
        refine ⟨by rw [gap_snoc, Gap.next], ?_⟩
        simp only [missed, gap_snoc, reported_snoc, Gap.next, Event.printed, hk,
          Option.getD_some] at hsum ⊢
        omega
  | zero => exact (he rfl).elim
  | zeroBase hresetting =>
      rw [hc.quiet] at hresetting
      cases hresetting

theorem Run.balanced (h : Run es c) (hes : .zero ∉ es) : Balanced es c := by
  induction h with
  | start =>
      refine ⟨?_, rfl, Nat.le_refl _, ?_, fun _ => ⟨rfl, rfl⟩⟩
      · intro v hnone
        cases hnone
      · intro hfalse
        cases hfalse
  | step hrun hstep ih =>
      rw [List.mem_append, List.mem_singleton, not_or] at hes
      exact hstep.balanced (Ne.symm hes.2) (ih hes.1)

/-- The differences that were printed add up to the value that was printed last, but for
the increments that were missed before. -/
theorem Run.reported_add_missed {cur pv : ℕ} (h : Run (es ++ [.print cur pv]) c)
    (hes : .zero ∉ es) :
    reported (es ++ [.print cur pv]) + missed (es ++ [.print cur pv]) = cur := by
  generalize hw : es ++ [.print cur pv] = whole at h ⊢
  cases h with
  | start => simp at hw
  | step hrun hstep =>
      obtain ⟨rfl, he⟩ := List.append_inj' hw rfl
      cases List.singleton_inj.mp he
      have hbalanced := hrun.balanced hes
      cases hstep with
      | print hresetting hprinted =>
          obtain ⟨-, hsum⟩ := hbalanced.unprinted hprinted
          have hle := hbalanced.le
          simp only [missed, gap_snoc, reported_snoc, Gap.next, Event.printed] at hsum ⊢
          omega

/-! ## What a reset leaves -/

/-- `flight` is the value that the increment under way has loaded. Since the counter was
zeroed last, there were `stores` stores; `stale` is what `flight` was then. -/
structure Level where
  flight : Option ℕ
  stale : ℕ
  stores : ℕ

def Level.next (l : Level) : Event → Level
  | .load v => { l with flight := some v }
  | .store => { l with flight := none, stores := l.stores + 1 }
  | .zero => { l with stale := l.flight.getD 0, stores := 0 }
  | _ => l

def level (es : List Event) : Level := es.foldl Level.next ⟨none, 0, 0⟩

theorem level_snoc (es : List Event) (e : Event) : level (es ++ [e]) = (level es).next e := by
  rw [level, level, List.foldl_append]
  rfl

/-- The first store behind a reset brings back what its increment had loaded before. -/
structure Leveled (l : Level) (c : Counter) : Prop where
  flight : l.flight = c.loaded
  loaded : ∀ {v}, c.loaded = some v → v = l.stores + l.stale
  idle : c.loaded = none → l.stores = 0 → l.stale = 0
  value : c.value = if l.stores = 0 then 0 else l.stores + l.stale

theorem Step.leveled (h : Step c e c') {l : Level} (hc : Leveled l c) :
    Leveled (l.next e) c' := by
  have hvalue := hc.value
  cases h with
  | load hnone =>
      refine ⟨rfl, ?_, ?_, hc.value⟩
      · intro v hv
        cases hv
        rw [hvalue]
        simp only [Level.next]
        split
        · rename_i hzero
          rw [hzero, hc.idle hnone hzero]
        · rfl
      · intro hnone'
        cases hnone'
  | store hv =>
      have hloaded := hc.loaded hv
      refine ⟨rfl, ?_, ?_, ?_⟩
      · intro v hnone
        cases hnone
      · intro _ hzero
        simp only [Level.next] at hzero
        omega
      · simp only [Level.next, Nat.succ_ne_zero, if_false]
        omega
  | print hresetting hprinted => exact ⟨hc.flight, hc.loaded, hc.idle, hc.value⟩
  | copy hresetting hprinted => exact ⟨hc.flight, hc.loaded, hc.idle, hc.value⟩
  | zero =>
      refine ⟨hc.flight, ?_, ?_, rfl⟩
      · intro v hv
        have hflight : l.flight = some v := hc.flight.trans hv
        simp only [Level.next, hflight, Option.getD_some, Nat.zero_add]
      · intro hnone _
        have hflight : l.flight = none := hc.flight.trans hnone
        simp only [Level.next, hflight, Option.getD_none]
  | zeroBase hresetting => exact ⟨hc.flight, hc.loaded, hc.idle, hc.value⟩

theorem Run.leveled (h : Run es c) : Leveled (level es) c := by
  induction h with
  | start =>
      refine ⟨rfl, ?_, fun _ _ => rfl, rfl⟩
      intro v hnone
      cases hnone
  | step _ hstep ih =>
      rw [level_snoc]
      exact hstep.leveled ih

/-- A counter holds no more than was stored since the last reset, unless an increment
went over that reset with a value from before. -/
theorem Run.value_le_iff (h : Run es c) :
    c.value ≤ (level es).stores ↔ (level es).stores = 0 ∨ (level es).stale = 0 := by
  have hvalue := h.leveled.value
  split at hvalue <;> omega

theorem level_stale {es : List Event} (h : .zero ∉ es) : (level es).stale = 0 := by
  induction es using List.reverseRecOn with
  | nil => rfl
  | append_singleton es e ih =>
      rw [List.mem_append, List.mem_singleton, not_or] at h
      rw [level_snoc]
      cases e with
      | zero => exact (h.2 rfl).elim
      | _ => exact ih h.1

theorem level_stores {es : List Event} (h : .zero ∉ es) :
    (level es).stores = es.count .store := by
  induction es using List.reverseRecOn with
  | nil => rfl
  | append_singleton es e ih =>
      rw [List.mem_append, List.mem_singleton, not_or] at h
      have hcount := ih h.1
      rw [level_snoc, List.count_append]
      cases e with
      | zero => exact (h.2 rfl).elim
      | store => simp [Level.next, hcount]
      | _ => simp [Level.next, hcount]

/-- Without a reset a counter holds what was stored. -/
theorem Run.value_eq (h : Run es c) (hes : .zero ∉ es) : c.value = es.count .store := by
  have hvalue := h.leveled.value
  rw [level_stale hes, level_stores hes] at hvalue
  split at hvalue <;> omega

end Counter

end Upcalls.Library
