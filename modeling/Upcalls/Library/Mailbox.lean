import Mathlib.Data.Nat.Notation

/-! # Mailboxes with a bell

A producer puts an item into the mailbox and rings afterwards. Rings add up in a counter.
The consumer takes the whole counter at once, and then empties the mailbox item by item;
producers may come in between at any time.
-/

namespace Upcalls.Library

/-- `ringing` are the rings on their way, and `taken` the wake-ups that the consumer has
not answered. -/
structure Mailbox (α : Type*) where
  list : List α
  ringing : ℕ
  counter : ℕ
  taken : ℕ
  draining : Bool

namespace Mailbox

variable {α : Type*}

inductive Step : Mailbox α → Mailbox α → Prop
  | push {m} (x : α) : Step m { m with list := x :: m.list, ringing := m.ringing + 1 }
  | ring {m} : 0 < m.ringing →
      Step m { m with ringing := m.ringing - 1, counter := m.counter + 1 }
  | take {m} : 0 < m.counter → Step m { m with counter := 0, taken := m.taken + 1 }
  | answer {m} : 0 < m.taken → Step m { m with taken := m.taken - 1, draining := true }
  | pop {m x rest} : m.draining = true → m.list = x :: rest → Step m { m with list := rest }
  | finish {m} : m.list = [] → Step m { m with draining := false }

/-- Unless the consumer is awake, there is a ring for each item. -/
def Awake (m : Mailbox α) : Prop :=
  m.draining = true ∨ 0 < m.taken ∨ m.list.length ≤ m.ringing + m.counter

theorem Step.awake {m m' : Mailbox α} (h : Step m m') (ha : m.Awake) : m'.Awake := by
  cases h with
  | push x =>
      rcases ha with hd | ht | hl
      · exact .inl hd
      · exact .inr (.inl ht)
      · exact .inr (.inr (by simp only [List.length_cons]; omega))
  | ring hpos =>
      rcases ha with hd | ht | hl
      · exact .inl hd
      · exact .inr (.inl ht)
      · exact .inr (.inr (by simp only; omega))
  | take hpos => exact .inr (.inl (Nat.succ_pos _))
  | answer hpos => exact .inl rfl
  | pop hd hl => exact .inl hd
  | finish hnil => exact .inr (.inr (by simp [hnil]))

/-- No lost wake-up: something will bring the consumer to an item in the mailbox. -/
theorem Awake.of_ne_nil {m : Mailbox α} (ha : m.Awake) (h : m.list ≠ []) :
    0 < m.counter ∨ 0 < m.ringing ∨ 0 < m.taken ∨ m.draining = true := by
  have hpos := List.length_pos_iff.mpr h
  rcases ha with hd | ht | hl
  · exact .inr (.inr (.inr hd))
  · exact .inr (.inr (.inl ht))
  · omega

/-! ## One-shot wake-ups

The consumer may have to ask for each wake-up: one that happens uses up a request, and for
each item that it takes out it makes a new one. The second component counts the requests.
-/

inductive ArmedStep : Mailbox α × ℕ → Mailbox α × ℕ → Prop
  | push {m a} (x : α) :
      ArmedStep (m, a) ({ m with list := x :: m.list, ringing := m.ringing + 1 }, a)
  | ring {m a} : 0 < m.ringing →
      ArmedStep (m, a) ({ m with ringing := m.ringing - 1, counter := m.counter + 1 }, a)
  | take {m a} : 0 < m.counter →
      ArmedStep (m, a + 1) ({ m with counter := 0, taken := m.taken + 1 }, a)
  | answer {m a} : 0 < m.taken →
      ArmedStep (m, a) ({ m with taken := m.taken - 1, draining := true }, a)
  | pop {m a x rest} : m.draining = true → m.list = x :: rest →
      ArmedStep (m, a) ({ m with list := rest }, a + 1)
  | finish {m a} : m.list = [] → ArmedStep (m, a) ({ m with draining := false }, a)

theorem ArmedStep.step {x y : Mailbox α × ℕ} (h : ArmedStep x y) : Step x.1 y.1 := by
  cases h with
  | push x => exact .push x
  | ring hpos => exact .ring hpos
  | take hpos => exact .take hpos
  | answer hpos => exact .answer hpos
  | pop hd hl => exact .pop hd hl
  | finish hnil => exact .finish hnil

/-- There is one request more than there are rings without an item. -/
def Covered (x : Mailbox α × ℕ) : Prop :=
  1 + x.1.ringing + x.1.counter ≤ x.2 + x.1.list.length

theorem ArmedStep.covered {x y : Mailbox α × ℕ} (h : ArmedStep x y) (hc : Covered x) :
    Covered y := by
  cases h with
  | push x =>
      simp only [Covered, List.length_cons] at hc ⊢
      omega
  | ring hpos =>
      simp only [Covered] at hc ⊢
      omega
  | take hpos =>
      simp only [Covered] at hc ⊢
      omega
  | answer hpos => exact hc
  | pop hd hl =>
      simp only [Covered, hl, List.length_cons] at hc ⊢
      omega
  | finish hnil => exact hc

/-- A consumer that sleeps has asked for a wake-up or is about to be woken. -/
theorem Covered.armed {x : Mailbox α × ℕ} (hc : Covered x) (ha : x.1.Awake)
    (hd : x.1.draining = false) : 0 < x.2 + x.1.taken := by
  rw [Covered] at hc
  rcases ha with hdrain | htaken | hlength
  · rw [hd] at hdrain
    cases hdrain
  · omega
  · omega

end Mailbox

end Upcalls.Library
