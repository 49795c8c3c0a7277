import Mathlib.Data.List.Basic
import Mathlib.Data.Nat.Notation

/-! # Echoing a stream in blocks

A party fills a buffer of `m` items from its input and then drains it to its output, in
pieces of any size.
-/

namespace Upcalls.Library

/-- A buffer with everything that has come in and gone out through it. -/
structure Wire (α : Type*) where
  buffer : List α
  rx : List α
  tx : List α

namespace Wire

variable {α : Type*}

def receive (off : ℕ) (data : List α) (x : Wire α) : Wire α :=
  { x with
    buffer := x.buffer.take off ++ data ++ x.buffer.drop (off + data.length)
    rx := x.rx ++ data }

def send (off k : ℕ) (x : Wire α) : Wire α :=
  { x with tx := x.tx ++ (x.buffer.drop off).take k }

/-- The buffer holds `c` items that are not echoed, and nothing is echoed in part. -/
structure Filling (m c : ℕ) (x : Wire α) : Prop where
  lt : c < m
  size : x.buffer.length = m
  blocks : m ∣ x.tx.length
  rx : x.rx = x.tx ++ x.buffer.take c

/-- A whole block came in, and `c` items of it are echoed. -/
structure Draining (m c : ℕ) (x : Wire α) : Prop where
  lt : c < m
  size : x.buffer.length = m
  blocks : ∃ k, x.tx.length = m * k + c
  rx : x.rx = x.tx ++ x.buffer.drop c

theorem length_receive {off : ℕ} {data : List α} {x : Wire α}
    (h : off + data.length ≤ x.buffer.length) :
    (x.receive off data).buffer.length = x.buffer.length := by
  simp only [receive, List.length_append, List.length_take, List.length_drop]
  omega

theorem take_receive {off : ℕ} {data : List α} {x : Wire α} (h : off ≤ x.buffer.length) :
    (x.receive off data).buffer.take (off + data.length) = x.buffer.take off ++ data := by
  have hlength : (x.buffer.take off ++ data).length = off + data.length := by
    rw [List.length_append, List.length_take, Nat.min_eq_left h]
  rw [receive, ← hlength, List.take_left]

namespace Filling

variable {m c : ℕ} {x : Wire α}

theorem receive (h : Filling m c x) {data : List α} (hfit : c + data.length < m) :
    Filling m (c + data.length) (x.receive c data) where
  lt := hfit
  size := by
    have hle : c + data.length ≤ x.buffer.length := h.size ▸ Nat.le_of_lt hfit
    rw [length_receive hle, h.size]
  blocks := h.blocks
  rx := by
    have hle : c ≤ x.buffer.length := h.size ▸ Nat.le_of_lt h.lt
    rw [take_receive hle, ← List.append_assoc]
    exact congrArg (· ++ data) h.rx

/-- The last piece of a block. -/
theorem fill (h : Filling m c x) {data : List α} (hfull : c + data.length = m) :
    Draining m 0 (x.receive c data) := by
  have hsize : (x.receive c data).buffer.length = m := by
    have hle : c + data.length ≤ x.buffer.length := Nat.le_of_eq (hfull.trans h.size.symm)
    rw [length_receive hle, h.size]
  obtain ⟨k, hk⟩ := h.blocks
  refine ⟨Nat.lt_of_le_of_lt (Nat.zero_le c) h.lt, hsize, ⟨k, hk⟩, ?_⟩
  have hle : c ≤ x.buffer.length := h.size ▸ Nat.le_of_lt h.lt
  have hbuffer : (x.receive c data).buffer = x.buffer.take c ++ data := by
    rw [← take_receive hle, hfull, ← hsize, List.take_length]
  rw [hbuffer, List.drop_zero, ← List.append_assoc]
  exact congrArg (· ++ data) h.rx

theorem isPrefix (h : Filling m c x) : x.tx <+: x.rx := ⟨_, h.rx.symm⟩

/-- At the start of a block any buffer of the right size will do. -/
theorem replace (h : Filling m 0 x) {buffer : List α} (hsize : buffer.length = m) :
    Filling m 0 { x with buffer := buffer } where
  lt := h.lt
  size := hsize
  blocks := h.blocks
  rx := by simpa using h.rx

/-- What is echoed is all that came in up to the last whole block. -/
theorem count (h : Filling m c x) :
    x.tx = x.rx.take (m * (x.rx.length / m)) ∧ c = x.rx.length % m := by
  obtain ⟨k, hk⟩ := h.blocks
  have hlength : x.rx.length = m * k + c := by
    rw [h.rx, List.length_append, List.length_take, h.size, hk, Nat.min_eq_left (Nat.le_of_lt h.lt)]
  have hpos : 0 < m := Nat.lt_of_le_of_lt (Nat.zero_le c) h.lt
  have hdiv : x.rx.length / m = k := by
    rw [hlength, Nat.mul_add_div hpos, Nat.div_eq_of_lt h.lt, Nat.add_zero]
  refine ⟨?_, ?_⟩
  · rw [hdiv, ← hk, h.rx, List.take_left]
  · rw [hlength, Nat.mul_add_mod, Nat.mod_eq_of_lt h.lt]

end Filling

namespace Draining

variable {m c : ℕ} {x : Wire α}

theorem rx_send (h : Draining m c x) (k : ℕ) :
    (x.send c k).rx = (x.send c k).tx ++ x.buffer.drop (c + k) := by
  simp only [Wire.send]
  rw [h.rx, List.append_assoc, ← List.drop_drop, List.take_append_drop]

theorem length_send (h : Draining m c x) {k : ℕ} (hfit : c + k ≤ m) :
    (x.send c k).tx.length = x.tx.length + k := by
  simp only [Wire.send, List.length_append, List.length_take, List.length_drop, h.size]
  omega

theorem send (h : Draining m c x) {k : ℕ} (hfit : c + k < m) :
    Draining m (c + k) (x.send c k) where
  lt := hfit
  size := h.size
  blocks := by
    obtain ⟨b, hb⟩ := h.blocks
    exact ⟨b, by rw [h.length_send (Nat.le_of_lt hfit), hb, Nat.add_assoc]⟩
  rx := h.rx_send k

theorem drain (h : Draining m c x) {k : ℕ} (hdone : c + k = m) : Filling m 0 (x.send c k) where
  lt := Nat.lt_of_le_of_lt (Nat.zero_le c) h.lt
  size := h.size
  blocks := by
    obtain ⟨b, hb⟩ := h.blocks
    refine ⟨b + 1, ?_⟩
    rw [h.length_send (Nat.le_of_eq hdone), hb, Nat.add_assoc, hdone, Nat.mul_succ]
  rx := by
    have hrest : x.buffer.drop (c + k) = [] := by rw [hdone, ← h.size, List.drop_length]
    rw [h.rx_send, hrest, List.take_zero]

theorem isPrefix (h : Draining m c x) : x.tx <+: x.rx := ⟨_, h.rx.symm⟩

end Draining

end Wire

/-! ## The echo as a process -/

namespace BlockEcho

variable {α : Type*}

inductive Phase
  | fill (cursor : ℕ)
  | drain (cursor : ℕ)
  | stop

inductive Step (m : ℕ) : Phase × Wire α → Phase × Wire α → Prop
  | receive {c data x} : c + data.length < m →
      Step m (.fill c, x) (.fill (c + data.length), x.receive c data)
  | fill {c data x} : c + data.length = m → Step m (.fill c, x) (.drain 0, x.receive c data)
  | send {c k x} : c + k < m → Step m (.drain c, x) (.drain (c + k), x.send c k)
  | drain {c k x} : c + k = m → Step m (.drain c, x) (.fill 0, x.send c k)
  | stop {p x} : Step m (p, x) (.stop, x)

def Holds (m : ℕ) : Phase × Wire α → Prop
  | (.fill c, x) => x.Filling m c
  | (.drain c, x) => x.Draining m c
  | (.stop, x) => x.tx <+: x.rx

theorem Holds.isPrefix {m : ℕ} {y : Phase × Wire α} (h : Holds m y) : y.2.tx <+: y.2.rx := by
  obtain ⟨p, x⟩ := y
  cases p with
  | fill c => exact Wire.Filling.isPrefix h
  | drain c => exact Wire.Draining.isPrefix h
  | stop => exact h

theorem Step.holds {m : ℕ} {y z : Phase × Wire α} (h : Step m y z) (hy : Holds m y) :
    Holds m z := by
  cases h with
  | receive hfit => exact Wire.Filling.receive hy hfit
  | fill hfull => exact Wire.Filling.fill hy hfull
  | send hfit => exact Wire.Draining.send hy hfit
  | drain hdone => exact Wire.Draining.drain hy hdone
  | stop => exact hy.isPrefix

theorem holds_start {m : ℕ} (hm : 1 ≤ m) {x : Wire α} (hsize : x.buffer.length = m)
    (hrx : x.rx = []) (htx : x.tx = []) : Holds m (.fill 0, x) :=
  ⟨hm, hsize, by simp [htx], by simp [hrx, htx]⟩

end BlockEcho

end Upcalls.Library
