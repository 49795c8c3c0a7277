import Upcalls.Library.Tables
import Upcalls.Verification.ErrorLink.Connection
import Upcalls.Verification.ErrorReport.Bounds

/-! # The error report arrives

What `do_error_report` prints of the report can be read back: it has the connections that
were open at the server.
-/

namespace Upcalls.ErrorLink

open Library TcpEcho ErrorReport

/-! ## Reading the report -/

structure ServerRow where
  fd : ℕ
  port : ℕ
  state : ConnState
  cursor : ℕ
  eventCount : ℕ
  deriving DecidableEq, Repr

def readConnState (field : List UInt8) : Option ConnState :=
  [ConnState.connect, .waiting, .reading, .writing, .closing].find? fun state =>
    errStr state = field

def readServerRow : List (List UInt8) → Option ServerRow
  | [fd, port, state, cursor, count] =>
      match [fd, port, cursor, count].mapM ofDecimal, readConnState state with
      | some [fd, port, cursor, count], some state => some ⟨fd, port, state, cursor, count⟩
      | _, _ => none
  | _ => none

def serverFields : List (List UInt8) :=
  [ascii "FD", ascii "PORT", ascii "STATE", ascii "CURSOR", ascii "EVENT_COUNT"]

/-- The rows between the header and the first empty line. -/
def readServer (text : List UInt8) : Option (List ServerRow) :=
  match readTable tab newline text with
  | header :: rows =>
      if header = serverFields then (rows.takeWhile (· ≠ [[]])).mapM readServerRow else none
  | [] => none

/-! ## Writing the report -/

def ServerRow.fields (r : ServerRow) : List (List UInt8) :=
  [decimal r.fd, decimal r.port, errStr r.state, decimal r.cursor, decimal r.eventCount]

def serverRow (fd : ℕ) (conn : Conn) : ServerRow :=
  ⟨fd, conn.port.toNat, conn.state, conn.cursor.toNat, conn.eventCount.toNat⟩

/-- The connections that are open, from the lowest descriptor on. -/
def openRows (maxFd : ℕ) (conns : ℕ → Option Conn) : List ServerRow :=
  (List.range' 3 (maxFd - 3)).filterMap fun fd => (conns fd).map (serverRow fd)

/-- The rows are those of the connections that are open. Only a report that has run into the
reserve may leave some of them out, and then the last ones. -/
structure Reports (maxFd : ℕ) (conns : ℕ → Option Conn) (printed : List UInt8)
    (rows : List ServerRow) : Prop where
  read : readServer printed = some rows
  ne_nil : rows ≠ []
  front : rows <+: openRows maxFd conns
  all : rows = openRows maxFd conns ∨ ERR_BUF_SZ - 30 < printed.length

theorem header_eq : ErrorReport.header = writeRow tab newline serverFields := by decide

theorem serverFields_readable : Readable tab newline serverFields := ⟨by decide, by decide⟩

theorem line_eq (fd : ℕ) (conn : Conn) :
    line fd conn = writeRow tab newline (serverRow fd conn).fields := by
  have htab : ascii "\t" = [tab] := rfl
  have hnewline : ascii "\n" = [newline] := rfl
  rw [line, ServerRow.fields, writeRow_cons, htab, hnewline]
  simp [serverRow]

theorem texts_eq (maxFd : ℕ) (conns : ℕ → Option Conn) :
    texts conns (List.range' 3 (maxFd - 3)) =
      (openRows maxFd conns).map fun r => writeRow tab newline r.fields := by
  rw [texts, openRows, List.map_filterMap]
  apply List.filterMap_congr
  intro fd _
  rw [Option.map_map]
  cases conns fd with
  | none => rfl
  | some conn => exact congrArg some (line_eq fd conn)

theorem ServerRow.fields_readable (r : ServerRow) : Readable tab newline r.fields := by
  have hfield : ∀ k, tab ∉ decimal k ∧ newline ∉ decimal k :=
    fun k => ⟨not_mem_decimal rfl, not_mem_decimal rfl⟩
  have hstate : ∀ state, tab ∉ errStr state ∧ newline ∉ errStr state := by
    intro state
    cases state <;> decide
  refine ⟨List.cons_ne_nil _ _, ?_⟩
  intro field hmem
  simp only [fields, List.mem_cons, List.not_mem_nil, or_false] at hmem
  rcases hmem with rfl | rfl | rfl | rfl | rfl
  · exact hfield _
  · exact hfield _
  · exact hstate _
  · exact hfield _
  · exact hfield _

theorem readConnState_errStr (state : ConnState) : readConnState (errStr state) = some state := by
  cases state <;> decide

theorem ServerRow.readServerRow_fields (r : ServerRow) : readServerRow r.fields = some r := by
  simp [readServerRow, fields, ofDecimal_decimal, readConnState_errStr]

/-- The rows of a report, with the two line ends of the `printf` behind it. -/
theorem readServer_writeTable (rows : List ServerRow) :
    readServer (ErrorReport.header ++ writeTable tab newline (rows.map ServerRow.fields) ++
      ascii "\n\n") = some rows := by
  have hrows : (rows.map ServerRow.fields).mapM readServerRow = some rows := by
    induction rows with
    | nil => rfl
    | cons r rows ih => simp [List.map_cons, ServerRow.readServerRow_fields r, ih]
  have hread : readTable tab newline
      (writeTable tab newline (rows.map ServerRow.fields) ++ ascii "\n\n") =
      rows.map ServerRow.fields ++ readTable tab newline (ascii "\n\n") := by
    apply readTable_writeTable_append newline_ne_tab
    intro row hrow
    obtain ⟨r, -, rfl⟩ := List.mem_map.mp hrow
    exact r.fields_readable
  have hends : readTable tab newline (ascii "\n\n") = [[[]], [[]]] := by decide
  have htake : (rows.map ServerRow.fields ++ [[[]], [[]]]).takeWhile (· ≠ [[]]) =
      rows.map ServerRow.fields := by
    rw [List.takeWhile_append_of_pos]
    · exact List.append_nil _
    · intro row hrow
      obtain ⟨r, -, rfl⟩ := List.mem_map.mp hrow
      simp [ServerRow.fields]
  rw [readServer, header_eq, List.append_assoc,
    readTable_writeRow newline_ne_tab serverFields_readable, hread, hends]
  dsimp only
  rw [if_pos rfl, htake, hrows]

/-! ## What is sent -/

theorem zero_not_mem_line (fd : ℕ) (conn : Conn) : 0 ∉ line fd conn := by
  have hdecimal : ∀ k, 0 ∉ decimal k := fun k => not_mem_decimal rfl
  have hstate : 0 ∉ errStr conn.state := by
    cases conn.state <;> decide
  have htab : 0 ∉ ascii "\t" := by decide
  have hnewline : 0 ∉ ascii "\n" := by decide
  simp [line, hdecimal, hstate, htab, hnewline]

section Report

variable {maxFd : ℕ} {conns : ℕ → Option Conn} {text : List UInt8} {r : Report}

/-- The lines that are printed. -/
def printedLines (maxFd : ℕ) (conns : ℕ → Option Conn) : List (List UInt8) :=
  shown (ERR_BUF_SZ - 32) ErrorReport.header.length (texts conns (List.range' 3 (maxFd - 3)))

theorem texts_eq_nil_iff :
    texts conns (List.range' 3 (maxFd - 3)) = [] ↔ openRows maxFd conns = [] := by
  rw [texts_eq, List.map_eq_nil_iff]

theorem report_fits (hfits : Fits maxFd conns) :
    (ErrorReport.header ++ (printedLines maxFd conns).flatten).length + 1 ≤ ERR_BUF_SZ := by
  rw [List.length_append]
  exact (shown_lt_iff (by decide) header_le _).mpr hfits

/-- What is sent begins with the header. -/
theorem header_prefix_body (hfits : Fits maxFd conns)
    (hnil : texts conns (List.range' 3 (maxFd - 3)) ≠ []) :
    ErrorReport.header <+: body (report maxFd conns) := by
  have hprinted := report_printed hnil
  rw [body, hprinted.cursor, (hprinted.string (report_fits hfits)).take, List.append_assoc]
  exact List.prefix_append _ _

theorem report_inside (hfits : Fits maxFd conns) : Inside (report maxFd conns) := by
  by_cases hnil : texts conns (List.range' 3 (maxFd - 3)) = []
  · rw [report, loop_start, if_pos hnil]
    refine ⟨?_, ?_, fun hopen => (Bool.false_ne_true hopen).elim⟩
    · rw [length_start]
      decide
    · rw [length_start]
      decide
  · have hprinted := report_printed hnil
    refine ⟨?_, ?_, fun _ => ?_⟩
    · rw [hprinted.size, hprinted.cursor]
      exact report_fits hfits
    · rw [hprinted.size]
      decide
    · obtain ⟨rest, hrest⟩ := header_prefix_body hfits hnil
      refine ⟨ErrorReport.header.take 8, ErrorReport.header.drop 8 ++ rest, ?_, by decide,
        by decide⟩
      rw [← List.append_assoc, List.take_append_drop, hrest]

theorem zero_not_mem_report :
    0 ∉ ErrorReport.header ++ (printedLines maxFd conns).flatten := by
  have hheader : 0 ∉ ErrorReport.header := by decide
  rw [List.mem_append, not_or]
  refine ⟨hheader, ?_⟩
  intro hmem
  obtain ⟨l, hl, hzero⟩ := List.mem_flatten.mp hmem
  have htext := (shown_front _ _ _).subset hl
  obtain ⟨fd, -, hline⟩ := List.mem_filterMap.mp htext
  obtain ⟨conn, -, rfl⟩ := Option.map_eq_some_iff.mp hline
  exact zero_not_mem_line fd conn hzero

theorem report_closed (hnil : openRows maxFd conns = []) :
    (report maxFd conns).dangling = false := by
  rw [report, loop_start, if_pos (texts_eq_nil_iff.mpr hnil)]
  rfl

/-- The string that is sent is what was printed. -/
theorem cString_body (hfits : Fits maxFd conns) (hopen : openRows maxFd conns ≠ []) :
    cString (body (report maxFd conns)) =
      ErrorReport.header ++ (printedLines maxFd conns).flatten := by
  have hprinted := report_printed (mt texts_eq_nil_iff.mp hopen)
  have hbody : HasString (body (report maxFd conns))
      (ErrorReport.header ++ (printedLines maxFd conns).flatten) := by
    rw [body, hprinted.cursor, (hprinted.string (report_fits hfits)).take]
    exact List.prefix_rfl
  exact hbody.cString zero_not_mem_report

/-- The lines are those of the first open connections. -/
theorem printedLines_eq (maxFd : ℕ) (conns : ℕ → Option Conn) :
    ∃ rows, rows <+: openRows maxFd conns ∧
      printedLines maxFd conns = rows.map fun r => writeRow tab newline r.fields := by
  have hfront := shown_front (ERR_BUF_SZ - 32) ErrorReport.header.length
    (texts conns (List.range' 3 (maxFd - 3)))
  rw [texts_eq] at hfront
  obtain ⟨rows, hrows, hlines⟩ := List.prefix_map_iff.mp hfront
  refine ⟨rows, hrows, ?_⟩
  rw [printedLines, texts_eq]
  exact hlines

theorem reports_printed (hopen : openRows maxFd conns ≠ []) :
    ∃ rows, Reports maxFd conns
      (ErrorReport.header ++ (printedLines maxFd conns).flatten ++ ascii "\n\n") rows := by
  obtain ⟨rows, hfront, hlines⟩ := printedLines_eq maxFd conns
  have htable : (printedLines maxFd conns).flatten =
      writeTable tab newline (rows.map ServerRow.fields) := by
    rw [hlines, writeTable, List.flatMap_def, List.map_map]
    rfl
  refine ⟨rows, ?_, ?_, hfront, ?_⟩
  · rw [htable]
    exact readServer_writeTable rows
  · rintro rfl
    exact shown_ne_nil (mt texts_eq_nil_iff.mp hopen) hlines
  · rcases shown_eq_or_lt (ERR_BUF_SZ - 32) ErrorReport.header.length
      (texts conns (List.range' 3 (maxFd - 3))) with hall | hpast
    · left
      apply hfront.eq_of_length
      have hlength := congrArg List.length (hlines.symm.trans hall)
      rwa [texts_eq, List.length_map, List.length_map] at hlength
    · right
      have htwo : (ascii "\n\n").length = 2 := rfl
      rw [List.length_append, List.length_append, htwo, printedLines]
      rw [ERR_BUF_SZ] at hpast ⊢
      omega

end Report

/-! ## The report arrives -/

/-- When every line that is begun fits into the buffer, the report arrives in every order of
writes and reads and however short they stop. Only without an open connection, or when the
length has not come over as a whole, is nothing printed of it. -/
theorem report_arrives {maxFd : ℕ} {conns : ℕ → Option Conn} (hfits : Fits maxFd conns) :
    (∃ bound, ∀ tr s, (link (report maxFd conns)).Reaches tr s → tr.length ≤ bound) ∧
      ∀ tr s, (link (report maxFd conns)).Reaches tr s →
        (s.reader = .ended ∨ ∃ a, ((link (report maxFd conns)).step s a).isSome) ∧
        (s.reader = .ended → openRows maxFd conns = [] ∨ Lost (sizeWrites tr) (sizeReads tr) →
          s.printed = []) ∧
        (s.reader = .ended → openRows maxFd conns ≠ [] →
          ¬ Lost (sizeWrites tr) (sizeReads tr) → ∃ rows, Reports maxFd conns s.printed rows) := by
  have hinside := report_inside hfits
  refine ⟨⟨rank (report maxFd conns) (start (report maxFd conns)), ?_⟩, ?_⟩
  · intro tr s hreach
    have hbound := (reaches_inv hinside hreach).2
    omega
  · intro tr s hreach
    obtain ⟨hsends, hreceives⟩ := (reaches_inv hinside hreach).1
    refine ⟨?_, ?_, ?_⟩
    · rcases step_possible hinside hsends hreceives with hend | ⟨a, ha⟩
      · exact .inl hend
      · exact .inr ⟨a, by simpa [link] using ha⟩
    · intro hended hnothing
      cases hreceives with
      | nothing _ hnone _ => exact hnone
      | printed _ hwrites hreads _ =>
          exfalso
          rw [hwrites] at hsends hnothing
          rw [hreads] at hnothing
          rcases hnothing with hnil | hlost
          · have hclosed := report_closed hnil
            rw [hsends.dangling] at hclosed
            cases hclosed
          · simp [Lost] at hlost
      | size hs | text _ hs | starved _ hs =>
          rw [hended] at hs
          cases hs
    · intro hended hopen hwhole
      cases hreceives with
      | nothing _ _ hlost => exact (hwhole hlost).elim
      | printed _ _ _ hall =>
          rw [hall, cString_body hfits hopen]
          exact reports_printed hopen
      | size hs | text _ hs | starved _ hs =>
          rw [hended] at hs
          cases hs

/-- One connection is open, in the middle of a message. -/
def oneConn (fd : ℕ) : Option Conn := if fd = 5 then some ⟨40000, .reading, 12, 3⟩ else none

theorem oneConn_fits : Fits 8 oneConn := by
  rw [Fits]
  decide +kernel

/-- Short writes and short reads of the report. -/
def pieces : List Input :=
  [.sendSize 8, .send 20, .readSize 8 true, .read 7, .send 30, .read 40, .send 5, .read 8]

theorem pieces_runs :
    ((link (report 8 oneConn)).exec (start (report 8 oneConn)) pieces).map
      (fun x => (x.1.reader, sizeWrites x.2, sizeReads x.2)) =
        some (.ended, [8], [(8, true)]) := by
  decide +kernel

theorem report_arrives_pieces :
    ∃ tr s, (link (report 8 oneConn)).Reaches tr s ∧ s.reader = .ended ∧
      ∃ rows, Reports 8 oneConn s.printed rows := by
  obtain ⟨⟨s, tr⟩, hexec, hpair⟩ := Option.map_eq_some_iff.mp pieces_runs
  obtain ⟨hended, hcalls⟩ := Prod.mk.inj hpair
  obtain ⟨hwrites, hreads⟩ := Prod.mk.inj hcalls
  have hreach := Machine.reaches_of_exec (M := link (report 8 oneConn)) rfl hexec
  refine ⟨tr, s, hreach, hended, ?_⟩
  refine ((report_arrives oneConn_fits).2 tr s hreach).2.2 hended (by decide) ?_
  rw [hwrites, hreads]
  simp [Lost]

end Upcalls.ErrorLink
