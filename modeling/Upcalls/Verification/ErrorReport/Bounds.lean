import Upcalls.Model.ErrorReport

/-! # The bounds of the error report

The loop keeps 32 bytes in reserve for a line that may be longer.
-/

namespace Upcalls.ErrorReport

open Library TcpEcho

variable {conns : ℕ → Option Conn} {text : List UInt8} {r : Report}

/-- The lines of the open connections. -/
def texts (conns : ℕ → Option Conn) (fds : List ℕ) : List (List UInt8) :=
  fds.filterMap fun fd => (conns fd).map (line fd)

/-- Every line that begins in front of the reserve ends inside the buffer, with its NUL. -/
def Fits (maxFd : ℕ) (conns : ℕ → Option Conn) : Prop :=
  let lines := texts conns (List.range' 3 (maxFd - 3))
  ∀ k < lines.length,
    header.length + (lines.take k).flatten.length ≤ ERR_BUF_SZ - 32 →
      header.length + (lines.take (k + 1)).flatten.length + 1 ≤ ERR_BUF_SZ

/-- `rets` and `bytes` are what the calls of `write` return and take. -/
structure Safe (r : Report) : Prop where
  given : ∀ x ∈ r.given, x.1 + x.2 = ERR_BUF_SZ
  cursor : r.cursor + 1 ≤ ERR_BUF_SZ
  sent : ∀ rets bytes, writeLoop r.output (r.cursor + 1) 0 rets = some bytes →
    bytes.length = r.cursor + 1 ∧ none ∉ bytes ∧ bytes.getLast? = some (some 0)

/-! ## Printing -/

/-- `text` was printed, and the buffer holds it as long as there is room for it. -/
structure Printed (text : List UInt8) (r : Report) : Prop where
  size : r.output.length = ERR_BUF_SZ
  cursor : r.cursor = text.length
  dangling : r.dangling = true
  given : ∀ x ∈ r.given, x.1 + x.2 = ERR_BUF_SZ
  string : text.length < ERR_BUF_SZ → HasString r.output text

theorem length_start : Report.start.output.length = ERR_BUF_SZ := List.length_replicate ..

theorem printed_header : Printed header Report.start.printHeader where
  size := by
    have hroom : 0 + ERR_BUF_SZ ≤ Report.start.output.length := by
      rw [length_start]
      exact Nat.le_refl _
    exact (length_snprintf hroom).trans length_start
  cursor := rfl
  dangling := rfl
  given x hx := by
    cases List.mem_singleton.mp hx
    rfl
  string hlt := by
    have hroom : header.length < Report.start.output.length := by
      rw [length_start]
      exact hlt
    have hprint := hasString_print hroom
    rw [length_start] at hprint
    exact hprint

theorem Printed.print (h : Printed text r) (htext : text.length < ERR_BUF_SZ)
    (added : List UInt8) : Printed (text ++ added) (r.print added) := by
  have hsize : sub64 ERR_BUF_SZ r.cursor = ERR_BUF_SZ - text.length := by
    rw [sub64, h.cursor]
    rw [ERR_BUF_SZ] at htext ⊢
    omega
  refine ⟨?_, ?_, h.dangling, ?_, ?_⟩
  · refine (length_snprintf ?_).trans h.size
    rw [hsize, h.cursor, h.size]
    omega
  · rw [Report.print, h.cursor, List.length_append]
  · intro x hx
    rcases List.mem_append.mp hx with hx | hx
    · exact h.given x hx
    · cases List.mem_singleton.mp hx
      rw [hsize, h.cursor]
      omega
  · intro hlt
    have hroom : text.length + added.length < r.output.length := by
      rw [h.size, ← List.length_append]
      exact hlt
    have hprint := (h.string htext).print hroom
    rw [h.size] at hprint
    rw [Report.print, hsize, h.cursor]
    exact hprint

theorem Printed.loop (h : Printed text r) (htext : text.length ≤ ERR_BUF_SZ - 32)
    (fds : List ℕ) :
    Printed (text ++ (shown (ERR_BUF_SZ - 32) text.length (texts conns fds)).flatten)
      (r.loop conns fds) := by
  induction fds generalizing r text with
  | nil =>
      rw [texts, List.filterMap_nil, shown, List.flatten_nil, List.append_nil]
      exact h
  | cons fd fds ih =>
      cases hconn : conns fd with
      | none =>
          have htexts : texts conns (fd :: fds) = texts conns fds := by
            rw [texts, List.filterMap_cons, hconn]
            rfl
          rw [htexts, Report.loop, hconn]
          exact ih h htext
      | some conn =>
          have htexts : texts conns (fd :: fds) = line fd conn :: texts conns fds := by
            rw [texts, List.filterMap_cons, hconn]
            rfl
          have hprint := h.print (Nat.lt_of_le_of_lt htext (by decide)) (line fd conn)
          have hcursor : (r.print (line fd conn)).cursor =
              text.length + (line fd conn).length := by
            rw [hprint.cursor, List.length_append]
          rw [htexts, Report.loop, hconn]
          simp only [h.dangling, if_true, hcursor, shown]
          split
          · rw [List.flatten_singleton]
            exact hprint
          · rename_i hpast
            have hrest := ih hprint (by rw [List.length_append]; omega)
            rw [List.length_append, List.append_assoc] at hrest
            rw [List.flatten_cons]
            exact hrest

/-- The header is printed ahead of the first line. -/
theorem loop_start (fds : List ℕ) :
    Report.start.loop conns fds =
      if texts conns fds = [] then Report.start else Report.start.printHeader.loop conns fds := by
  induction fds with
  | nil => rfl
  | cons fd fds ih =>
      cases hconn : conns fd with
      | none =>
          have htexts : texts conns (fd :: fds) = texts conns fds := by
            rw [texts, List.filterMap_cons, hconn]
            rfl
          rw [htexts, Report.loop, Report.loop, hconn]
          exact ih
      | some conn =>
          have htexts : texts conns (fd :: fds) ≠ [] := by
            rw [texts, List.filterMap_cons, hconn]
            exact List.cons_ne_nil _ _
          rw [if_neg htexts, Report.loop, Report.loop, hconn]
          rfl

/-! ## Writing -/

theorem writeLoop_eq {output : List UInt8} {size cursor : ℕ} {rets : List ℕ}
    {bytes : List (Option UInt8)} (h : writeLoop output size cursor rets = some bytes) :
    cursor < size ∧ bytes = taken output cursor (size - cursor) := by
  induction rets generalizing cursor bytes with
  | nil => cases h
  | cons ret rets ih =>
      rw [writeLoop] at h
      split at h
      · rename_i hret
        split at h
        · rename_i hlt
          obtain ⟨rest, hrest, rfl⟩ := Option.map_eq_some_iff.mp h
          obtain ⟨-, rfl⟩ := ih hrest
          refine ⟨by omega, ?_⟩
          have hsplit : size - cursor = ret + (size - (cursor + ret)) := by omega
          rw [hsplit, taken, taken, taken, ← List.range'_append_1, List.map_append]
        · split at h
          · cases Option.some.inj h
            have hsize : size - cursor = ret := by omega
            refine ⟨by omega, ?_⟩
            rw [hsize]
          · cases h
      · cases h

/-- What is taken from the front of the buffer is in the buffer. -/
theorem taken_zero {output : List UInt8} {size : ℕ} (h : size ≤ output.length) :
    taken output 0 size = (output.take size).map some := by
  refine List.ext_getElem? ?_
  intro i
  rw [taken, List.getElem?_map, List.getElem?_map]
  by_cases hi : i < size
  · have hlt : i < output.length := Nat.lt_of_lt_of_le hi h
    rw [List.getElem?_range' hi, List.getElem?_take_of_lt hi, List.getElem?_eq_getElem hlt]
    simp [List.getElem?_eq_getElem hlt]
  · have hle : size ≤ i := Nat.le_of_not_lt hi
    rw [List.getElem?_eq_none (by simpa using hle), List.getElem?_eq_none (by simp; omega)]
    rfl

/-! ## The report -/

theorem safe_start : Safe Report.start := by
  refine ⟨?_, by decide, ?_⟩
  · intro x hx
    cases hx
  · intro rets bytes hbytes
    obtain ⟨-, rfl⟩ := writeLoop_eq hbytes
    rw [Report.start]
    decide

theorem Printed.safe_iff (h : Printed text r) : Safe r ↔ text.length + 1 ≤ ERR_BUF_SZ := by
  constructor
  · intro hsafe
    rw [← h.cursor]
    exact hsafe.cursor
  · intro hfit
    refine ⟨h.given, by rw [h.cursor]; exact hfit, ?_⟩
    intro rets bytes hbytes
    obtain ⟨-, rfl⟩ := writeLoop_eq hbytes
    rw [Nat.sub_zero, h.cursor, taken_zero (by rw [h.size]; exact hfit), (h.string hfit).take]
    simp

theorem header_le : header.length ≤ ERR_BUF_SZ - 32 := by decide

theorem report_printed {maxFd : ℕ} (h : texts conns (List.range' 3 (maxFd - 3)) ≠ []) :
    Printed (header ++ (shown (ERR_BUF_SZ - 32) header.length
      (texts conns (List.range' 3 (maxFd - 3)))).flatten) (report maxFd conns) := by
  rw [report, loop_start, if_neg h]
  exact printed_header.loop header_le _

/-- `on_error` stays inside its buffer, and sends as many bytes as it says up to a NUL,
exactly if every line that it begins in front of the reserve fits. -/
theorem report_safe_iff (maxFd : ℕ) (conns : ℕ → Option Conn) :
    Safe (report maxFd conns) ↔ Fits maxFd conns := by
  rw [Fits]
  by_cases hnil : texts conns (List.range' 3 (maxFd - 3)) = []
  · rw [report, loop_start, if_pos hnil, hnil]
    exact iff_of_true safe_start fun k hk => absurd hk (Nat.not_lt_zero k)
  · rw [(report_printed hnil).safe_iff, List.length_append]
    exact shown_lt_iff (by decide) header_le _

/-! ## A long report -/

/-- A connection of a server with long messages. -/
def longLine : Conn := ⟨0, .reading, 4000000000, 1000000000⟩

/-- Descriptor 1000 is fresh, and the others up to 1220 are in the middle of a message. -/
def manyConns (fd : ℕ) : Option Conn :=
  if fd < 1000 then none
  else if fd = 1000 then some ⟨0, .reading, 0, 0⟩
  else some longLine

/-- The line that begins at byte 8155 ends at byte 8191, where its NUL has no room. -/
theorem not_report_safe : ¬ ∀ maxFd conns, Safe (report maxFd conns) := by
  intro h
  have hprinted : Printed _ (report 1221 manyConns) := report_printed (by decide +kernel)
  have hfit := hprinted.safe_iff.mp (h 1221 manyConns)
  revert hfit
  decide +kernel

end Upcalls.ErrorReport
