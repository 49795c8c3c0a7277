import Mathlib.Data.Set.Card

/-! # Ledgers

Two counters follow a set that things enter and leave: one counts the entries, the other
the exits. In a system the set is often not stored anywhere: it consists of what was opened
since the start, and an entry may be counted later than the opening.
-/

namespace Upcalls.Library

structure Ledger (α : Type*) where
  ins : ℕ
  outs : ℕ
  present : Set α

namespace Ledger

variable {α : Type*}

/-- The difference of the counters is the number of those present. -/
structure Balanced (l : Ledger α) : Prop where
  finite : l.present.Finite
  difference : (l.ins : ℤ) - l.outs = l.present.ncard

/-- What one step does to a ledger. `turn` counts an entry and an exit of nobody. -/
inductive Posted (l : Ledger α) : Ledger α → Prop
  | same : Posted l l
  | enter {x} : x ∉ l.present → Posted l ⟨l.ins + 1, l.outs, insert x l.present⟩
  | leave {x} : x ∈ l.present → Posted l ⟨l.ins, l.outs + 1, l.present \ {x}⟩
  | turn : Posted l ⟨l.ins + 1, l.outs + 1, l.present⟩

theorem balanced_empty : Balanced (⟨0, 0, ∅⟩ : Ledger α) where
  finite := Set.finite_empty
  difference := by simp

theorem Balanced.enter {l : Ledger α} (h : l.Balanced) {x : α} (hx : x ∉ l.present) :
    Balanced ⟨l.ins + 1, l.outs, insert x l.present⟩ := by
  refine ⟨h.finite.insert x, ?_⟩
  have hcard := Set.ncard_insert_of_notMem hx h.finite
  have hold := h.difference
  simp only [hcard]
  push_cast
  omega

theorem Balanced.leave {l : Ledger α} (h : l.Balanced) {x : α} (hx : x ∈ l.present) :
    Balanced ⟨l.ins, l.outs + 1, l.present \ {x}⟩ := by
  refine ⟨h.finite.sdiff, ?_⟩
  have hcard := Set.ncard_sdiff_singleton_add_one hx h.finite
  have hold := h.difference
  push_cast
  omega

theorem Balanced.turn {l : Ledger α} (h : l.Balanced) :
    Balanced ⟨l.ins + 1, l.outs + 1, l.present⟩ := by
  refine ⟨h.finite, ?_⟩
  have hold := h.difference
  push_cast
  omega

theorem Balanced.post {l l' : Ledger α} (h : l.Balanced) (hpost : l.Posted l') :
    l'.Balanced := by
  cases hpost with
  | same => exact h
  | enter hx => exact h.enter hx
  | leave hx => exact h.leave hx
  | turn => exact h.turn

/-- As long as somebody is present, there were more entries than exits. -/
theorem Balanced.outs_lt_ins {l : Ledger α} (h : l.Balanced) {x : α} (hx : x ∈ l.present) :
    l.outs < l.ins := by
  have hdiff := h.difference
  have hpos := (Set.ncard_pos h.finite).mpr ⟨x, hx⟩
  omega

theorem Balanced.ins_eq_outs {l : Ledger α} (h : l.Balanced) (hnobody : l.present = ∅) :
    l.ins = l.outs := by
  have hdiff := h.difference
  rw [hnobody, Set.ncard_empty] at hdiff
  omega

/-! ## Wrong counts -/

/-- A ledger that balances with `k` more entries balances if and only if `k` is zero. -/
theorem Balanced.iff_of_missing_ins {l : Ledger α} {k : ℕ}
    (h : Balanced ⟨l.ins + k, l.outs, l.present⟩) : l.Balanced ↔ k = 0 := by
  have hdiff := h.difference
  push_cast at hdiff
  constructor
  · intro hl
    have hold := hl.difference
    omega
  · rintro rfl
    exact ⟨h.finite, by omega⟩

theorem Balanced.iff_of_missing_outs {l : Ledger α} {k : ℕ}
    (h : Balanced ⟨l.ins, l.outs + k, l.present⟩) : l.Balanced ↔ k = 0 := by
  have hdiff := h.difference
  push_cast at hdiff
  constructor
  · intro hl
    have hold := hl.difference
    omega
  · rintro rfl
    exact ⟨h.finite, by omega⟩

end Ledger

/-! ## Books -/

/-- What is open, how often each item waits to be counted as an entry, and the counters. -/
structure Books (α : Type*) where
  opened : α → Bool
  waiting : α → ℕ
  ins : ℕ
  outs : ℕ

namespace Books

variable {α : Type*}

/-- Those that are open, were not open at the start, and have been counted. -/
def present (opened₀ : α → Bool) (b : Books α) : Set α :=
  {x | b.opened x = true ∧ opened₀ x = false ∧ b.waiting x = 0}

def ledger (opened₀ : α → Bool) (b : Books α) : Ledger α := ⟨b.ins, b.outs, b.present opened₀⟩

/-- What was open at the start stays open. -/
def Keeps (opened₀ : α → Bool) (b : Books α) : Prop :=
  ∀ x, opened₀ x = true → b.opened x = true

theorem Keeps.fresh {opened₀ : α → Bool} {b : Books α} (h : b.Keeps opened₀) {x : α}
    (hx : b.opened x = false) : opened₀ x = false := by
  by_contra hne
  have hopen := h x (by simpa using hne)
  rw [hx] at hopen
  cases hopen

/-- Books that keep what was open, with a ledger that balances. -/
structure Sound (opened₀ : α → Bool) (b : Books α) : Prop where
  keeps : b.Keeps opened₀
  balanced : (b.ledger opened₀).Balanced

/-- At the start nothing has been counted. -/
theorem sound_start {opened₀ : α → Bool} {b : Books α} (hopened : b.opened = opened₀)
    (hins : b.ins = 0) (houts : b.outs = 0) : b.Sound opened₀ := by
  refine ⟨?_, ?_⟩
  · intro x hx
    rw [hopened]
    exact hx
  · have hnobody : b.present opened₀ = ∅ := by
      refine Set.eq_empty_of_forall_notMem ?_
      rintro x ⟨hx, hnot, -⟩
      rw [hopened, hnot] at hx
      cases hx
    rw [ledger, hnobody, hins, houts]
    exact Ledger.balanced_empty

/-! ### Steps -/

variable [DecidableEq α]

/-- `x` is opened and waits. -/
def arrive (x : α) (b : Books α) : Books α :=
  { b with
    opened := Function.update b.opened x true
    waiting := fun y => b.waiting y + if x = y then 1 else 0 }

/-- One that waited is counted. -/
def record (waiting : α → ℕ) (b : Books α) : Books α :=
  { b with waiting := waiting, ins := b.ins + 1 }

/-- `x` is opened and counted. -/
def enter (x : α) (b : Books α) : Books α :=
  { b with opened := Function.update b.opened x true, ins := b.ins + 1 }

def leave (x : α) (b : Books α) : Books α :=
  { b with opened := Function.update b.opened x false, outs := b.outs + 1 }

def turn (b : Books α) : Books α := { b with ins := b.ins + 1, outs := b.outs + 1 }

/-- What one step does to the books. `New x` says that `x` was opened since the start. -/
inductive Step (New : α → Prop) (b : Books α) : Books α → Prop
  | same : Step New b b
  | arrive {x} : b.opened x = false → Step New b (b.arrive x)
  | record {x waiting} : New x → b.opened x = true →
      (∀ y, b.waiting y = waiting y + if x = y then 1 else 0) → waiting x = 0 →
      Step New b (b.record waiting)
  | enter {x} : b.opened x = false → b.waiting x = 0 → Step New b (b.enter x)
  | leave {x} : New x → b.opened x = true → b.waiting x = 0 → Step New b (b.leave x)
  | turn : Step New b b.turn

section Present

variable {opened₀ : α → Bool} {b : Books α} {x : α}

theorem present_arrive (hx : b.opened x = false) :
    (b.arrive x).present opened₀ = b.present opened₀ := by
  ext y
  by_cases hxy : y = x
  · simp [present, arrive, hxy, hx]
  · simp [present, arrive, hxy, Ne.symm hxy]

theorem present_record {waiting : α → ℕ} (hnew : opened₀ x = false) (hx : b.opened x = true)
    (hwaiting : ∀ y, b.waiting y = waiting y + if x = y then 1 else 0)
    (hzero : waiting x = 0) :
    (b.record waiting).present opened₀ = insert x (b.present opened₀) := by
  ext y
  by_cases hxy : y = x
  · simp [present, record, hxy, hx, hnew, hzero]
  · simp [present, record, hwaiting, hxy, Ne.symm hxy]

theorem present_enter (hnew : opened₀ x = false) (hzero : b.waiting x = 0) :
    (b.enter x).present opened₀ = insert x (b.present opened₀) := by
  ext y
  by_cases hxy : y = x
  · simp [present, enter, hxy, hnew, hzero]
  · simp [present, enter, hxy]

theorem present_leave : (b.leave x).present opened₀ = b.present opened₀ \ {x} := by
  ext y
  by_cases hxy : y = x
  · simp [present, leave, hxy]
  · simp [present, leave, hxy]

end Present

variable {opened₀ : α → Bool} {b b' : Books α}

theorem Step.keeps (h : Step (fun x => opened₀ x = false) b b') (hb : b.Keeps opened₀) :
    b'.Keeps opened₀ := by
  have hopen : ∀ x y, b.opened y = true → Function.update b.opened x true y = true := by
    intro x y hy
    rw [Function.update_apply, hy, ite_self]
  intro y hy
  have hold := hb y hy
  cases h with
  | same => exact hold
  | arrive hx => exact hopen _ y hold
  | record hnew hx hwaiting hzero => exact hold
  | enter hx hzero => exact hopen _ y hold
  | @leave x hnew hx hzero =>
      have hxy : y ≠ x := by
        rintro rfl
        rw [hy] at hnew
        cases hnew
      have hsame : (b.leave x).opened y = b.opened y := Function.update_of_ne hxy _ _
      rw [hsame]
      exact hold
  | turn => exact hold

/-- Each step of the books is one of the ledger. -/
theorem Step.posted (h : Step (fun x => opened₀ x = false) b b') (hb : b.Keeps opened₀) :
    (b.ledger opened₀).Posted (b'.ledger opened₀) := by
  cases h with
  | same => exact .same
  | arrive hx =>
      rw [ledger, ledger, present_arrive hx]
      exact .same
  | record hnew hx hwaiting hzero =>
      rw [ledger, ledger, present_record hnew hx hwaiting hzero]
      refine .enter ?_
      rintro ⟨-, -, hnone⟩
      rw [hwaiting, if_pos rfl] at hnone
      omega
  | enter hx hzero =>
      rw [ledger, ledger, present_enter (hb.fresh hx) hzero]
      refine .enter ?_
      rintro ⟨hopened, -, -⟩
      rw [hx] at hopened
      cases hopened
  | leave hnew hx hzero =>
      rw [ledger, ledger, present_leave]
      exact .leave ⟨hx, hnew, hzero⟩
  | turn => exact .turn

theorem Sound.step (hb : b.Sound opened₀) (h : Step (fun x => opened₀ x = false) b b') :
    b'.Sound opened₀ where
  keeps := h.keeps hb.keeps
  balanced := hb.balanced.post (h.posted hb.keeps)

end Books

end Upcalls.Library
