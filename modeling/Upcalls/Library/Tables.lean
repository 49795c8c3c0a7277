import Mathlib.Data.List.Basic

/-! # Tables as text

A table is written row by row: the fields of a row with a separator between them, and an end
behind the last one.
-/

namespace Upcalls.Library

section Tables

variable {α : Type*} {sep fin : α}

def writeRow (sep fin : α) (row : List (List α)) : List α := [sep].intercalate row ++ [fin]

def writeTable (sep fin : α) (rows : List (List (List α))) : List α :=
  rows.flatMap (writeRow sep fin)

/-- What stands behind the last end is no row yet. -/
def readTable [BEq α] (sep fin : α) (text : List α) : List (List (List α)) :=
  (text.splitOn fin).dropLast.map (·.splitOn sep)

/-- A row that can be told from its text. -/
structure Readable (sep fin : α) (row : List (List α)) : Prop where
  ne_nil : row ≠ []
  fields : ∀ field ∈ row, sep ∉ field ∧ fin ∉ field

/-- A row that is written field by field, with the separator behind each but the last. -/
theorem writeRow_snoc (row : List (List α)) (field : List α) :
    writeRow sep fin (row ++ [field]) = row.flatMap (· ++ [sep]) ++ field ++ [fin] := by
  rw [writeRow]
  congr 1
  induction row with
  | nil => simp
  | cons first row ih =>
      cases row with
      | nil => simp
      | cons second row =>
          simp only [List.cons_append, List.intercalate_cons_cons] at ih ⊢
          rw [ih, List.flatMap_cons]
          simp

/-- A row that is written with the separator ahead of each field but the first. -/
theorem writeRow_cons (field : List α) (row : List (List α)) :
    writeRow sep fin (field :: row) = field ++ row.flatMap (sep :: ·) ++ [fin] := by
  rw [writeRow]
  congr 1
  induction row generalizing field with
  | nil => simp
  | cons second row ih =>
      rw [List.intercalate_cons_cons, ih, List.flatMap_cons]
      simp

theorem writeTable_append (rows rows' : List (List (List α))) :
    writeTable sep fin (rows ++ rows') = writeTable sep fin rows ++ writeTable sep fin rows' :=
  List.flatMap_append

theorem not_mem_intercalate {row : List (List α)} (hne : fin ≠ sep)
    (h : ∀ field ∈ row, fin ∉ field) : fin ∉ [sep].intercalate row := by
  induction row with
  | nil => simp
  | cons first row ih =>
      obtain ⟨hfirst, hrow⟩ := List.forall_mem_cons.mp h
      cases row with
      | nil => simpa using hfirst
      | cons second row =>
          rw [List.intercalate_cons_cons, List.append_assoc, List.mem_append, List.mem_append,
            List.mem_singleton]
          rintro (hmem | rfl | hmem)
          · exact hfirst hmem
          · exact hne rfl
          · exact ih hrow hmem

variable [BEq α] [LawfulBEq α]

/-- The first row is read off the front. -/
theorem readTable_writeRow {row : List (List α)} (hne : fin ≠ sep) (h : Readable sep fin row)
    (text : List α) : readTable sep fin (writeRow sep fin row ++ text) =
      row :: readTable sep fin text := by
  have hline : fin ∉ [sep].intercalate row :=
    not_mem_intercalate hne fun field hfield => (h.fields field hfield).2
  have hfields : ([sep].intercalate row).splitOn sep = row :=
    List.splitOn_intercalate sep (fun field hfield => (h.fields field hfield).1) h.ne_nil
  rw [readTable, writeRow, List.append_assoc, List.singleton_append,
    List.splitOn_append_cons_self_of_not_mem hline,
    List.dropLast_cons_of_ne_nil (List.splitOn_ne_nil fin text), List.map_cons, hfields]
  rfl

theorem readTable_of_not_mem {text : List α} (h : fin ∉ text) : readTable sep fin text = [] := by
  rw [readTable, List.splitOn_eq_singleton h]
  rfl

/-- Rows are read off the front, whatever stands behind them. -/
theorem readTable_writeTable_append {rows : List (List (List α))} (hne : fin ≠ sep)
    (h : ∀ row ∈ rows, Readable sep fin row) (text : List α) :
    readTable sep fin (writeTable sep fin rows ++ text) = rows ++ readTable sep fin text := by
  induction rows with
  | nil => rfl
  | cons row rows ih =>
      obtain ⟨hrow, hrows⟩ := List.forall_mem_cons.mp h
      rw [writeTable, List.flatMap_cons, List.append_assoc, readTable_writeRow hne hrow]
      exact congrArg _ (ih hrows)

theorem readTable_writeTable {rows : List (List (List α))} (hne : fin ≠ sep)
    (h : ∀ row ∈ rows, Readable sep fin row) :
    readTable sep fin (writeTable sep fin rows) = rows := by
  have hread := readTable_writeTable_append hne h []
  rwa [readTable_of_not_mem List.not_mem_nil, List.append_nil, List.append_nil] at hread

end Tables

/-! ## Sections -/

section Sections

variable {β : Type*} {p : β → Bool}

/-- Each element that `p` finds with those up to the next one. -/
def sections (p : β → Bool) : List β → List (β × List β)
  | [] => []
  | b :: bs => if p b then (b, bs.takeWhile fun b => !p b) :: sections p bs else sections p bs

theorem sections_append {bs : List β} (hbs : ∀ b ∈ bs, p b = false) (bs' : List β) :
    sections p (bs ++ bs') = sections p bs' := by
  induction bs with
  | nil => rfl
  | cons b bs ih =>
      obtain ⟨hb, hbs⟩ := List.forall_mem_cons.mp hbs
      rw [List.cons_append, sections, if_neg (by rw [hb]; decide), ih hbs]

/-- Sections that are written one behind another are found again. -/
theorem sections_flatMap {secs : List (β × List β)}
    (h : ∀ sec ∈ secs, p sec.1 = true ∧ ∀ b ∈ sec.2, p b = false) :
    sections p (secs.flatMap fun sec => sec.1 :: sec.2) = secs := by
  induction secs with
  | nil => rfl
  | cons sec secs ih =>
      obtain ⟨⟨htitle, hbody⟩, hsecs⟩ := List.forall_mem_cons.mp h
      have hnext : ((secs.flatMap fun sec => sec.1 :: sec.2).takeWhile fun b => !p b) = [] := by
        cases secs with
        | nil => rfl
        | cons sec secs =>
            rw [List.flatMap_cons, List.cons_append, List.takeWhile_cons,
              (hsecs sec List.mem_cons_self).1]
            rfl
      have htake : ((sec.2 ++ secs.flatMap fun sec => sec.1 :: sec.2).takeWhile fun b => !p b) =
          sec.2 := by
        rw [List.takeWhile_append_of_pos fun b hb => by rw [hbody b hb]; rfl, hnext,
          List.append_nil]
      rw [List.flatMap_cons, List.cons_append, sections, if_pos htitle, htake,
        sections_append hbody, ih hsecs]

end Sections

end Upcalls.Library
