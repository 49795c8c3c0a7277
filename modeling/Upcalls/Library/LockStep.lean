import Upcalls.Library.BlockEcho

/-! # Lock-step exchange of a message

A client sends a message in pieces, and starts over only when all of it has come back. A
server collects the pieces in a buffer and then sends the buffer back, in pieces of its own.
-/

namespace Upcalls.Library

/-! ## Slices -/

section Slice

variable {α : Type*}

/-- The items from position `i` up to position `j`. -/
def slice (i j : ℕ) (l : List α) : List α := (l.take j).drop i

@[simp] theorem slice_self (i : ℕ) (l : List α) : slice i i l = [] := by
  simp [slice]

@[simp] theorem slice_zero (j : ℕ) (l : List α) : slice 0 j l = l.take j := rfl

theorem length_slice {i j : ℕ} {l : List α} (h : j ≤ l.length) :
    (slice i j l).length = j - i := by
  simp [slice, h]

theorem take_drop_eq_slice (i k : ℕ) (l : List α) : (l.drop i).take k = slice i (i + k) l := by
  rw [slice, List.drop_take, Nat.add_sub_cancel_left]

theorem slice_append {i j k : ℕ} {l : List α} (hij : i ≤ j) (hjk : j ≤ k) :
    slice i j l ++ slice j k l = slice i k l := by
  obtain ⟨a, rfl⟩ := Nat.exists_eq_add_of_le hij
  obtain ⟨b, rfl⟩ := Nat.exists_eq_add_of_le hjk
  rw [← take_drop_eq_slice, ← take_drop_eq_slice, ← List.drop_drop, ← List.take_add,
    take_drop_eq_slice, Nat.add_assoc]

theorem slice_ne_nil {i j : ℕ} {l : List α} (hij : i < j) (hj : j ≤ l.length) :
    slice i j l ≠ [] := by
  apply List.ne_nil_of_length_pos
  rw [length_slice hj]
  omega

/-- A piece from the front of a slice. -/
theorem slice_eq_append {i j : ℕ} {l data rest : List α} (hij : i ≤ j) (hj : j ≤ l.length)
    (h : slice i j l = data ++ rest) :
    i + data.length ≤ j ∧ data = slice i (i + data.length) l ∧
      rest = slice (i + data.length) j l := by
  have hlength : data.length + rest.length = j - i := by
    rw [← List.length_append, ← h, length_slice hj]
  have hfit : i + data.length ≤ j := by omega
  have hsplit : slice i (i + data.length) l ++ slice (i + data.length) j l = data ++ rest := by
    rw [slice_append (Nat.le_add_right _ _) hfit, h]
  have hfront : (slice i (i + data.length) l).length = data.length := by
    rw [length_slice (Nat.le_trans hfit hj), Nat.add_sub_cancel_left]
  obtain ⟨hdata, hrest⟩ := List.append_inj hsplit hfront
  exact ⟨hfit, hdata.symm, hrest.symm⟩

/-- Writing a slice of `l` at its own position into a list that agrees with `l` up to there. -/
theorem take_splice_slice {i j : ℕ} {l buffer : List α} (hij : i ≤ j) (hj : j ≤ l.length)
    (hsize : buffer.length = l.length) (hagree : buffer.take i = l.take i) :
    (buffer.take i ++ slice i j l ++ buffer.drop (i + (slice i j l).length)).take j =
      l.take j := by
  have hlength : i + (slice i j l).length = j := by
    rw [length_slice hj]
    omega
  have htake : (Wire.receive i (slice i j l) ⟨buffer, [], []⟩).buffer.take
      (i + (slice i j l).length) = buffer.take i ++ slice i j l :=
    Wire.take_receive (show i ≤ buffer.length by omega)
  rw [hlength] at htake
  rw [Wire.receive] at htake
  rw [htake, hagree, ← slice_zero i, slice_append (Nat.zero_le i) hij, slice_zero]

theorem splice_slice {i j : ℕ} (hij : i ≤ j) (l : List α) :
    l.take i ++ slice i j l ++ l.drop j = l := by
  rw [← slice_zero i, slice_append (Nat.zero_le i) hij, slice_zero, List.take_append_drop]

end Slice

/-! ## The exchange -/

namespace LockStep

variable {α : Type*}

/-- What the server waits for or has to do: more items behind the first `f`, to take up
items that came in, to send from position `d` on, or to go on behind `k` items that went
out. -/
inductive Phase (α : Type*)
  | reading (f : ℕ)
  | read (f : ℕ) (data : List α)
  | writing (d : ℕ)
  | wrote (d k : ℕ)

/-- The items on their way to the server, its buffer, and the items on their way back. -/
structure Loop (α : Type*) where
  up : List α
  buffer : List α
  down : List α

/-- The client has sent `c` items of `M` and has `r` of them back. A server that echoes is
in one of these phases. In `drained` the whole message is on its way back, and in `ahead`
the next one follows before the server has noticed that the last one went out. -/
inductive Carries (M : List α) : ℕ → ℕ → Phase α → Loop α → Prop
  | reading {c f buffer} : f < M.length → f ≤ c → c ≤ M.length → buffer.length = M.length →
      buffer.take f = M.take f → Carries M c 0 (.reading f) ⟨slice f c M, buffer, []⟩
  | read {c f g buffer} : f < g → g ≤ c → c ≤ M.length → buffer.length = M.length →
      buffer.take f = M.take f →
      Carries M c 0 (.read f (slice f g M)) ⟨slice g c M, buffer, []⟩
  | writing {r d} : r ≤ d → d < M.length →
      Carries M M.length r (.writing d) ⟨[], M, slice r d M⟩
  | wrote {r d k} : 1 ≤ k → d + k ≤ M.length → r ≤ d + k → r < M.length →
      Carries M M.length r (.wrote d k) ⟨[], M, slice r (d + k) M⟩
  | drained {r buffer} : r < M.length → buffer.length = M.length →
      Carries M M.length r (.reading 0) ⟨[], buffer, slice r M.length M⟩
  | ahead {c d k buffer} : 1 ≤ k → d + k = M.length → c ≤ M.length →
      buffer.length = M.length → Carries M c 0 (.wrote d k) ⟨slice 0 c M, buffer, []⟩

variable {M : List α} {c r : ℕ} {p : Phase α} {x : Loop α}

namespace Carries

theorem start {buffer : List α} (hM : 1 ≤ M.length) (hsize : buffer.length = M.length) :
    Carries M 0 0 (.reading 0) ⟨[], buffer, []⟩ := by
  have h := Carries.reading (c := 0) (f := 0) hM (Nat.le_refl 0) (Nat.zero_le _) hsize rfl
  rw [slice_self] at h
  exact h

/-! ## Steps of the client -/

theorem send (h : Carries M c r p x) {k : ℕ} (hlt : c < M.length) (hfit : c + k ≤ M.length) :
    Carries M (c + k) r p { x with up := x.up ++ (M.drop c).take k } := by
  rw [take_drop_eq_slice]
  have hk : c ≤ c + k := Nat.le_add_right c k
  cases h with
  | reading hf hfc _ hsize hagree =>
      simp only [slice_append hfc hk]
      exact .reading hf (Nat.le_trans hfc hk) hfit hsize hagree
  | read hfg hgc _ hsize hagree =>
      simp only [slice_append hgc hk]
      exact .read hfg (Nat.le_trans hgc hk) hfit hsize hagree
  | ahead hpos hall _ hsize =>
      simp only [slice_append (Nat.zero_le c) hk]
      exact .ahead hpos hall hfit hsize
  | writing | wrote | drained => exact (Nat.lt_irrefl _ hlt).elim

/-- The items that the client receives are the next ones of its message; behind the last one
it starts over. -/
theorem receive (h : Carries M M.length r p x) {data rest : List α} (hdata : data ≠ [])
    (hdown : x.down = data ++ rest) :
    r + data.length ≤ M.length ∧ data = slice r (r + data.length) M ∧
      (r + data.length < M.length →
        Carries M M.length (r + data.length) p { x with down := rest }) ∧
      (r + data.length = M.length → Carries M 0 0 p { x with down := rest }) := by
  generalize hc : M.length = c at h
  have hpos : 0 < data.length := List.length_pos_of_ne_nil hdata
  cases h with
  | reading | read | ahead => exact (hdata (List.append_eq_nil_iff.mp hdown.symm).1).elim
  | @writing r d hrd hd =>
      obtain ⟨hfit, hslice, rfl⟩ := slice_eq_append hrd (Nat.le_of_lt hd) hdown
      refine ⟨by omega, hslice, ?_, ?_⟩
      · intro _
        exact .writing hfit hd
      · intro hall
        omega
  | @wrote r d k hk hdk hrd hr =>
      obtain ⟨hfit, hslice, rfl⟩ := slice_eq_append hrd hdk hdown
      refine ⟨by omega, hslice, ?_, ?_⟩
      · intro hlt
        exact .wrote hk hdk hfit hlt
      · intro hall
        have hend : d + k = M.length := by omega
        rw [hall, hend, slice_self]
        have hnext := Carries.ahead (c := 0) hk hend (Nat.zero_le _) rfl
        rw [slice_self] at hnext
        exact hnext
  | @drained r buffer hr hsize =>
      obtain ⟨hfit, hslice, rfl⟩ := slice_eq_append (Nat.le_of_lt hr) (Nat.le_refl _) hdown
      refine ⟨hfit, hslice, ?_, ?_⟩
      · intro hlt
        exact .drained hlt hsize
      · intro hall
        rw [hall, slice_self]
        exact start (by omega) hsize

/-! ## Steps of the server -/

theorem arrive {f : ℕ} (h : Carries M c r (.reading f) x) {data rest : List α}
    (hdata : data ≠ []) (hup : x.up = data ++ rest) :
    Carries M c r (.read f data) { x with up := rest } := by
  have hpos : 0 < data.length := List.length_pos_of_ne_nil hdata
  cases h with
  | reading hf hfc hc hsize hagree =>
      obtain ⟨hfit, hslice, rfl⟩ := slice_eq_append hfc hc hup
      have hread := Carries.read (g := f + data.length) (by omega) hfit hc hsize hagree
      rw [← hslice] at hread
      exact hread
  | drained => exact (hdata (List.append_eq_nil_iff.mp hup.symm).1).elim

theorem copy {f : ℕ} {data : List α} (h : Carries M c r (.read f data) x) :
    Carries M c r
      (if f + data.length < M.length then .reading (f + data.length) else .writing 0)
      { x with buffer := x.buffer.take f ++ data ++ x.buffer.drop (f + data.length) } := by
  cases h with
  | @read c f g buffer hfg hgc hc hsize hagree =>
      have hg : g ≤ M.length := Nat.le_trans hgc hc
      have hlength : f + (slice f g M).length = g := by
        rw [length_slice hg]
        omega
      have htake := take_splice_slice (Nat.le_of_lt hfg) hg hsize hagree
      have hsplice : (buffer.take f ++ slice f g M ++
          buffer.drop (f + (slice f g M).length)).length = M.length := by
        simp only [List.length_append, List.length_take, List.length_drop, hlength, hsize]
        rw [length_slice hg]
        omega
      split
      · rename_i hlt
        rw [hlength] at hlt
        have hnext := Carries.reading hlt hgc hc hsplice htake
        rw [hlength] at hnext ⊢
        exact hnext
      · rename_i hge
        have hall : g = M.length := by omega
        have hcall : c = M.length := by omega
        subst hcall
        have hbuffer : buffer.take f ++ slice f g M ++
            buffer.drop (f + (slice f g M).length) = M := by
          rw [hall, List.take_length, ← hall, List.take_of_length_le] at htake
          · exact htake
          · exact Nat.le_of_eq (hsplice.trans hall.symm)
        simp only [hbuffer]
        rw [hall, slice_self]
        have hnext := Carries.writing (M := M) (Nat.le_refl 0) (by omega)
        rw [slice_self] at hnext
        exact hnext

theorem write {d k : ℕ} (h : Carries M c r (.writing d) x) (hk : 1 ≤ k)
    (hfit : d + k ≤ M.length) :
    Carries M c r (.wrote d k) { x with down := x.down ++ (x.buffer.drop d).take k } := by
  cases h with
  | writing hrd hd =>
      simp only [take_drop_eq_slice, slice_append hrd (Nat.le_add_right d k)]
      exact .wrote hk hfit (Nat.le_trans hrd (Nat.le_add_right d k)) (by omega)

theorem goOn {d k : ℕ} (h : Carries M c r (.wrote d k) x) :
    Carries M c r (if d + k < M.length then .writing (d + k) else .reading 0) x := by
  cases h with
  | wrote hk hdk hrd hr =>
      split
      · rename_i hlt
        exact .writing hrd hlt
      · have hall : d + k = M.length := by omega
        rw [hall]
        exact .drained hr rfl
  | ahead hk hall hc hsize =>
      rw [if_neg (by omega)]
      exact .reading (by omega) (Nat.zero_le _) hc hsize rfl

/-! ## What holds throughout -/

theorem data_ne_nil {f : ℕ} {data : List α} (h : Carries M c r (.read f data) x) :
    data ≠ [] := by
  cases h with
  | read hfg hgc hc => exact slice_ne_nil hfg (Nat.le_trans hgc hc)

theorem one_le {d k : ℕ} (h : Carries M c r (.wrote d k) x) : 1 ≤ k := by
  cases h <;> assumption

theorem writing_lt {d : ℕ} (h : Carries M c r (.writing d) x) : d < M.length := by
  cases h with
  | writing _ hd => exact hd

/-- The items that the server has and has not sent back. -/
def held (M : List α) : Phase α → ℕ
  | .reading f => f
  | .read f data => f + data.length
  | .writing d => M.length - d
  | .wrote d k => M.length - (d + k)

/-- Every item of one message is in exactly one place. -/
theorem account (h : Carries M c r p x) :
    (M.length - c) + x.up.length + held M p + x.down.length + r = M.length := by
  cases h with
  | reading hf hfc hc =>
      simp only [held, length_slice hc, List.length_nil]
      omega
  | read hfg hgc hc =>
      simp only [held, length_slice hc, length_slice (Nat.le_trans hgc hc), List.length_nil]
      omega
  | writing hrd hd =>
      simp only [held, length_slice (Nat.le_of_lt hd), List.length_nil]
      omega
  | wrote hk hdk hrd hr =>
      simp only [held, length_slice hdk, List.length_nil]
      omega
  | drained hr =>
      simp only [held, length_slice (Nat.le_refl _), List.length_nil]
      omega
  | ahead hk hall hc =>
      simp only [held, length_slice hc, List.length_nil]
      omega

/-- While the client waits for items, some are on their way to it or to the server, or the
server has something to do. -/
theorem not_idle {f : ℕ} (h : Carries M M.length r (.reading f) x) :
    x.up ≠ [] ∨ x.down ≠ [] := by
  generalize hc : M.length = c at h
  cases h with
  | reading hf hfc hcM =>
      exact .inl (slice_ne_nil (by omega) hcM)
  | drained hr => exact .inr (slice_ne_nil hr (Nat.le_refl _))

end Carries

end LockStep

end Upcalls.Library
