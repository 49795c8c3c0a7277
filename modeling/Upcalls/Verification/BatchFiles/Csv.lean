import Upcalls.Library.Tables
import Upcalls.Verification.BatchFiles.Equations
import Upcalls.Verification.BatchStats.Monitor

/-! # The CSV file is read back

Its rows are sweeps of the monitor over the workers, and its cells are the deltas in the order
in which they were printed.
-/

namespace Upcalls.BatchFiles

open Library BatchStats

variable {n batchSz : ℕ} {L : Layout}

/-! ## Reading the file -/

structure CsvRow where
  tms : ℤ
  worker : ℕ
  deltas : List ℕ

def readCsvRow : List (List UInt8) → Option CsvRow
  | tms :: worker :: deltas =>
      match ofDecimalInt tms, ofDecimal worker, deltas.mapM ofDecimal with
      | some tms, some worker, some deltas => some ⟨tms, worker, deltas⟩
      | _, _, _ => none
  | _ => none

def csvNames (letter : String) (len : ℕ) : List (List UInt8) :=
  (List.range len).map fun b => ascii letter ++ decimal b

def csvFields (L : Layout) : List (List UInt8) :=
  [ascii "time_ms", ascii "worker", ascii "submits"] ++ csvNames "h" L.batchHistLen ++
    csvNames "t" L.timeHistLen ++ csvNames "k" L.timeHistLen

/-- The rows behind the header that have their end. -/
def readCsv (L : Layout) (text : List UInt8) : Option (List CsvRow) :=
  match readTable comma newline text with
  | header :: rows => if header = csvFields L then rows.mapM readCsvRow else none
  | [] => none

/-! ## Writing a row -/

namespace CsvRow

def fields (r : CsvRow) : List (List UInt8) :=
  decimalInt r.tms :: decimal r.worker :: r.deltas.map decimal

/-- A row without its end. -/
def text (r : CsvRow) : List UInt8 :=
  decimalInt r.tms ++ (decimal r.worker :: r.deltas.map decimal).flatMap (comma :: ·)

theorem writeRow_fields (r : CsvRow) : writeRow comma newline r.fields = r.text ++ [newline] :=
  writeRow_cons _ _

theorem readCsvRow_fields (r : CsvRow) : readCsvRow r.fields = some r := by
  have hdeltas : (r.deltas.map decimal).mapM ofDecimal = some r.deltas := by
    induction r.deltas with
    | nil => rfl
    | cons d deltas ih => simp [ofDecimal_decimal, ih]
  simp only [fields, readCsvRow, ofDecimalInt_decimalInt, ofDecimal_decimal, hdeltas]

theorem fields_readable (r : CsvRow) : Readable comma newline r.fields := by
  have hfield : ∀ k, comma ∉ decimal k ∧ newline ∉ decimal k :=
    fun k => ⟨not_mem_decimal rfl, not_mem_decimal rfl⟩
  refine ⟨List.cons_ne_nil _ _, ?_⟩
  intro field hmem
  rw [fields, List.mem_cons, List.mem_cons, List.mem_map] at hmem
  rcases hmem with rfl | rfl | ⟨d, -, rfl⟩
  · exact ⟨not_mem_decimalInt rfl (by decide) _, not_mem_decimalInt rfl (by decide) _⟩
  · exact hfield _
  · exact hfield _

theorem newline_not_mem_text (r : CsvRow) : newline ∉ r.text := by
  have hfields := r.fields_readable.fields
  rw [text, List.mem_append, List.mem_flatMap, not_or]
  refine ⟨(hfields _ List.mem_cons_self).2, ?_⟩
  rintro ⟨field, hfield, hmem⟩
  rcases List.mem_cons.mp hmem with heq | hmem
  · cases heq
  · exact (hfields field (List.mem_cons_of_mem _ hfield)).2 hmem

end CsvRow

theorem newline_ne_comma : newline ≠ comma := by decide

theorem csvHeader_eq (L : Layout) : csvHeader L = writeRow comma newline (csvFields L) := by
  have hnames : ∀ (name : List UInt8) (len : ℕ),
      ((List.range len).map fun b => name ++ decimal b).flatMap (comma :: ·) =
        (List.range len).flatMap fun b => comma :: name ++ decimal b := by
    intro name len
    rw [List.flatMap_map]
    rfl
  rw [csvFields, List.cons_append, List.cons_append, List.cons_append, writeRow_cons]
  simp only [List.flatMap_append, List.flatMap_cons, csvNames, hnames]
  simp only [csvHeader]
  rfl

theorem csvFields_readable (L : Layout) : Readable comma newline (csvFields L) := by
  have hnames : ∀ letter, comma ∉ ascii letter → newline ∉ ascii letter → ∀ len,
      ∀ field ∈ csvNames letter len, comma ∉ field ∧ newline ∉ field := by
    intro letter hcomma hnewline len field hmem
    obtain ⟨b, -, rfl⟩ := List.mem_map.mp hmem
    rw [List.mem_append, List.mem_append, not_or, not_or]
    exact ⟨⟨hcomma, not_mem_decimal rfl⟩, hnewline, not_mem_decimal rfl⟩
  have hfirst : ∀ field ∈ [ascii "time_ms", ascii "worker", ascii "submits"],
      comma ∉ field ∧ newline ∉ field := by decide
  refine ⟨List.cons_ne_nil _ _, ?_⟩
  intro field hmem
  simp only [csvFields, List.mem_append] at hmem
  rcases hmem with ((hmem | hmem) | hmem) | hmem
  · exact hfirst field hmem
  · exact hnames "h" (by decide) (by decide) _ field hmem
  · exact hnames "t" (by decide) (by decide) _ field hmem
  · exact hnames "k" (by decide) (by decide) _ field hmem

/-- The rows are read back, and what is there of one more is left out. -/
theorem readCsv_append (rows : List CsvRow) {rest : List UInt8} (hrest : newline ∉ rest) :
    readCsv L (csvHeader L ++ writeTable comma newline (rows.map CsvRow.fields) ++ rest) =
      some rows := by
  have hrows : (rows.map CsvRow.fields).mapM readCsvRow = some rows := by
    induction rows with
    | nil => rfl
    | cons r rows ih => simp [List.map_cons, r.readCsvRow_fields, ih]
  have hread : readTable comma newline
      (writeTable comma newline (rows.map CsvRow.fields) ++ rest) = rows.map CsvRow.fields := by
    rw [readTable_writeTable_append newline_ne_comma, readTable_of_not_mem hrest,
      List.append_nil]
    intro row hrow
    obtain ⟨r, -, rfl⟩ := List.mem_map.mp hrow
    exact r.fields_readable
  rw [readCsv, csvHeader_eq, List.append_assoc,
    readTable_writeRow newline_ne_comma (csvFields_readable L), hread]
  exact (if_pos rfl).trans hrows

/-! ## What a run prints -/

/-- The place of a counter, and the delta that was printed of it. -/
def Output.cell : Output → Option (ℕ × ℕ)
  | .stats (.printed k cur pv) => some (k, sub64 cur pv)
  | _ => none

def Output.wake : Output → Option ℤ
  | .woken tms => some tms
  | _ => none

def cells (tr : List (Input n × Output)) : List (ℕ × ℕ) := tr.filterMap fun x => x.2.cell

def wakes (tr : List (Input n × Output)) : List ℤ := tr.filterMap fun x => x.2.wake

def CsvRow.cells (L : Layout) (r : CsvRow) : List (ℕ × ℕ) :=
  r.deltas.mapIdx fun i d => (r.worker * L.batchStride + i, d)

/-- The rows are those of the workers in turn, `n` for each time that the monitor woke up, with
a delta for each slot. Their cells are what was printed, but for a row that has no end yet. -/
structure Tells (n : ℕ) (L : Layout) (wakes : List ℤ) (cells : List (ℕ × ℕ))
    (rows : List CsvRow) : Prop where
  length : wakes.length * n ≤ rows.length + n ∧ rows.length ≤ wakes.length * n
  sweeps : ∀ k r, rows[k]? = some r → r.worker = k % n ∧ wakes[k / n]? = some r.tms
  columns : ∀ r ∈ rows, r.deltas.length = L.columns.length
  cells : ∃ rest, cells = rows.flatMap (CsvRow.cells L) ++ rest ∧ rest.length ≤ L.columns.length

theorem cells_snoc (tr : List (Input n × Output)) (x : Input n × Output) :
    cells (tr ++ [x]) = cells tr ++ x.2.cell.toList := filterMap_snoc _ tr x

theorem wakes_snoc (tr : List (Input n × Output)) (x : Input n × Output) :
    wakes (tr ++ [x]) = wakes tr ++ x.2.wake.toList := filterMap_snoc _ tr x

theorem length_columns : L.columns.length = L.used := by
  rw [Layout.columns_eq, List.length_range]

/-! ## The row under way -/

/-- What is printed of a row. -/
def CsvRow.begun (r : CsvRow) : List UInt8 := if r.deltas = [] then [] else r.text

def CsvRow.add (r : CsvRow) (delta : ℕ) : CsvRow := { r with deltas := r.deltas ++ [delta] }

theorem CsvRow.begun_nil {r : CsvRow} (h : r.deltas = []) : r.begun = [] := if_pos h

theorem CsvRow.cells_nil {r : CsvRow} (h : r.deltas = []) : r.cells L = [] := by
  rw [cells, h]
  rfl

theorem CsvRow.length_cells (r : CsvRow) : (r.cells L).length = r.deltas.length :=
  List.length_mapIdx

theorem CsvRow.newline_not_mem_begun (r : CsvRow) : newline ∉ r.begun := by
  rw [begun]
  split
  · exact List.not_mem_nil
  · exact r.newline_not_mem_text

theorem CsvRow.begun_add (r : CsvRow) (delta : ℕ) :
    (r.add delta).begun = r.begun ++
      ((if r.deltas.length = 0 then decimalInt r.tms ++ ascii "," ++ decimal r.worker else []) ++
        ascii "," ++ decimal delta) := by
  have hcomma : ascii "," = [comma] := rfl
  have hne : (r.add delta).deltas ≠ [] := List.concat_ne_nil _ _
  rw [begun, if_neg hne, begun]
  by_cases hnil : r.deltas = []
  · simp [add, text, hnil, hcomma]
  · have hlen : ¬ r.deltas.length = 0 := fun h => hnil (List.eq_nil_of_length_eq_zero h)
    rw [if_neg hnil, if_neg hlen]
    simp [add, text, hcomma]

theorem CsvRow.cells_add (r : CsvRow) (delta : ℕ) :
    (r.add delta).cells L = r.cells L ++
      [(r.worker * L.batchStride + r.deltas.length, delta)] := by
  rw [cells, add, List.mapIdx_concat]
  rfl

/-! ## Steps -/

/-- Where the monitor is between the rows. -/
def Placed (n : ℕ) (L : Layout) (wakes : List ℤ) (tms : ℤ) (rows : ℕ) (r : CsvRow) :
    Monitor → Prop
  | .print w cols => w < n ∧ rows + n = wakes.length * n + w ∧ wakes.getLast? = some tms ∧
      r.worker = w ∧ r.tms = tms ∧ r.deltas.length ≤ L.used ∧
      cols = L.columns.drop r.deltas.length
  | .copy w _ => w < n ∧ rows + n = wakes.length * n + w + 1 ∧ wakes.getLast? = some tms ∧
      r.deltas = []
  | _ => rows = wakes.length * n ∧ r.deltas = []

/-- The file holds the rows and what is printed of row `r`. -/
structure Sheet (L : Layout) (tr : List (Input n × Output)) (s : Files n) (rows : List CsvRow)
    (r : CsvRow) : Prop where
  csv : s.csv = csvHeader L ++ writeTable comma newline (rows.map CsvRow.fields) ++ r.begun
  sweeps : ∀ k r, rows[k]? = some r → r.worker = k % n ∧ (wakes tr)[k / n]? = some r.tms
  columns : ∀ r ∈ rows, r.deltas.length = L.used
  cells : cells tr = rows.flatMap (CsvRow.cells L) ++ r.cells L
  placed : Placed n L (wakes tr) s.tms rows.length r s.process.shared.monitor

section Steps

variable {tr : List (Input n × Output)} {s s' : Files n} {rows : List CsvRow} {r : CsvRow}
  {a : Input n} {o : Output}

/-- The loop over the workers goes on to worker `w`. -/
theorem placed_row {wakes : List ℤ} {tms : ℤ} {rows w : ℕ} (hw : w ≤ n)
    (hrows : rows + n = wakes.length * n + w) (hlast : wakes.getLast? = some tms) :
    Placed n L wakes tms rows ⟨tms, w, []⟩ (Process.row n L w) := by
  rw [Process.row]
  split
  · rename_i hlt
    exact ⟨hlt, hrows, hlast, rfl, rfl, Nat.zero_le _, rfl⟩
  · exact ⟨by omega, rfl⟩

/-- Nothing is printed. -/
theorem Sheet.quiet (h : Sheet L tr s rows r) {r' : CsvRow} (hcsv : s'.csv = s.csv)
    (hcell : o.cell = none) (hwake : o.wake = none) (hbegun : r'.begun = r.begun)
    (hcells : r'.cells L = r.cells L)
    (hplaced : Placed n L (wakes tr) s'.tms rows.length r' s'.process.shared.monitor) :
    Sheet L (tr ++ [(a, o)]) s' rows r' := by
  have hwakes : wakes (tr ++ [(a, o)]) = wakes tr := by
    rw [wakes_snoc, hwake, Option.toList_none, List.append_nil]
  refine ⟨by rw [hcsv, h.csv, hbegun], ?_, h.columns, ?_, by rw [hwakes]; exact hplaced⟩
  · rw [hwakes]
    exact h.sweeps
  · rw [cells_snoc, hcell, Option.toList_none, List.append_nil, hcells]
    exact h.cells

/-- A new sweep. -/
theorem Sheet.woken (h : Sheet L tr s rows r) (hsleep : s.process.shared.monitor = .sleep)
    (tms : ℤ) : Sheet L (tr ++ [(a, .woken tms)])
      { s.goTo (Process.row n L 0) with tms := tms } rows ⟨tms, 0, []⟩ := by
  obtain ⟨hrows, hnil⟩ : rows.length = (wakes tr).length * n ∧ r.deltas = [] := by
    have hplaced := h.placed
    rwa [hsleep] at hplaced
  have hwakes : wakes (tr ++ [(a, .woken tms)]) = wakes tr ++ [tms] := wakes_snoc _ _
  refine ⟨?_, ?_, h.columns, ?_, ?_⟩
  · rw [CsvRow.begun_nil rfl, ← CsvRow.begun_nil hnil]
    exact h.csv
  · intro k row hrow
    obtain ⟨hworker, htms⟩ := h.sweeps k row hrow
    rw [hwakes, List.getElem?_append_left (List.getElem?_eq_some_iff.mp htms).1]
    exact ⟨hworker, htms⟩
  · rw [cells_snoc, h.cells, CsvRow.cells_nil hnil, CsvRow.cells_nil rfl, List.append_nil]
    exact List.append_nil _
  · rw [hwakes]
    refine placed_row (Nat.zero_le n) ?_ List.getLast?_concat
    rw [List.length_append, List.length_singleton, Nat.add_mul]
    omega

/-- One slot more in the row under way. -/
theorem Sheet.printed (h : Sheet L tr s rows r) {w i : ℕ} {cols : List ℕ}
    (hpc : s.process.shared.monitor = .print w (i :: cols)) :
    Sheet L (tr ++ [(a, .stats (.printed (w * L.batchStride + i)
        (s.process.shared.stats (w * L.batchStride + i))
        (s.process.shared.prev (w * L.batchStride + i))))])
      { s with
        process := s.process.goTo (.print w cols)
        csv := s.csv ++ BatchFiles.printed L s.tms s.process.shared } rows
      (r.add (sub64 (s.process.shared.stats (w * L.batchStride + i))
        (s.process.shared.prev (w * L.batchStride + i)))) := by
  obtain ⟨hw, hrows, hlast, rfl, htms, hle, hcols⟩ : Placed n L (wakes tr) s.tms rows.length r
      (.print w (i :: cols)) := hpc ▸ h.placed
  have hlt : r.deltas.length < L.used := by
    by_contra hge
    rw [List.drop_eq_nil_of_le (length_columns ▸ Nat.le_of_not_lt hge)] at hcols
    cases hcols
  have hdrop : L.columns.drop r.deltas.length =
      r.deltas.length :: L.columns.drop (r.deltas.length + 1) := by
    rw [List.drop_eq_getElem_cons (length_columns ▸ hlt)]
    simp only [Layout.columns_eq, List.getElem_range]
  rw [hdrop] at hcols
  obtain ⟨rfl, rfl⟩ := List.cons.inj hcols
  refine ⟨?_, ?_, h.columns, ?_, ?_⟩
  · simp only [BatchFiles.printed, hpc]
    rw [h.csv, List.append_assoc, CsvRow.begun_add, htms]
  · rw [wakes_snoc]
    simpa [Output.wake] using h.sweeps
  · rw [cells_snoc, h.cells, CsvRow.cells_add, List.append_assoc]
    rfl
  · rw [wakes_snoc]
    simp only [Output.wake, Option.toList_none, List.append_nil]
    refine ⟨hw, hrows, hlast, rfl, htms, ?_, ?_⟩
    · rw [CsvRow.add, List.length_append, List.length_singleton]
      exact hlt
    · rw [CsvRow.add, List.length_append, List.length_singleton]

/-- The row gets its end. -/
theorem Sheet.rowPrinted (h : Sheet L tr s rows r) {w : ℕ}
    (hpc : s.process.shared.monitor = .print w []) :
    Sheet L (tr ++ [(a, .stats .silent)])
      { s with
        process := s.process.goTo (.copy w 0)
        csv := s.csv ++ BatchFiles.printed L s.tms s.process.shared } (rows ++ [r])
      ⟨s.tms, w, []⟩ := by
  obtain ⟨hw, hrows, hlast, rfl, htms, hle, hcols⟩ : Placed n L (wakes tr) s.tms rows.length r
      (.print w []) := hpc ▸ h.placed
  have hwakes : wakes (tr ++ [(a, .stats .silent)]) = wakes tr := by
    rw [wakes_snoc]
    exact List.append_nil _
  have hfull : r.deltas.length = L.used := by
    have hge := List.drop_eq_nil_iff.mp hcols.symm
    rw [length_columns] at hge
    exact Nat.le_antisymm hle hge
  have hne : r.deltas ≠ [] := by
    intro hnil
    rw [hnil, List.length_nil, Layout.used] at hfull
    omega
  refine ⟨?_, ?_, ?_, ?_, ?_⟩
  · simp only [BatchFiles.printed, hpc]
    rw [h.csv, CsvRow.begun, if_neg hne, CsvRow.begun_nil rfl, List.map_append,
      writeTable_append, List.append_nil]
    simp only [List.map_cons, List.map_nil, writeTable, List.flatMap_cons, List.flatMap_nil,
      List.append_nil, r.writeRow_fields, List.append_assoc]
    rfl
  · rw [hwakes]
    intro k row hrow
    rcases Nat.lt_or_ge k rows.length with hlt | hge
    · rw [List.getElem?_append_left hlt] at hrow
      exact h.sweeps k row hrow
    · -- the new row is that of worker `w` in the last sweep
      rw [List.getElem?_append_right hge, List.getElem?_singleton] at hrow
      split at hrow
      · cases hrow
        have hk : k = rows.length := by omega
        have hpos : (wakes tr).length ≠ 0 := by
          intro hzero
          rw [List.eq_nil_of_length_eq_zero hzero] at hlast
          cases hlast
        obtain ⟨q, hq⟩ := Nat.exists_eq_succ_of_ne_zero hpos
        rw [hq, Nat.succ_mul] at hrows
        have hplace : k = r.worker + n * q := by
          rw [Nat.mul_comm n q]
          omega
        rw [hplace, Nat.add_mul_mod_self_left, Nat.mod_eq_of_lt hw,
          Nat.add_mul_div_left _ _ (Nat.zero_lt_of_lt hw), Nat.div_eq_of_lt hw, Nat.zero_add]
        rw [List.getLast?_eq_getElem?, hq] at hlast
        exact ⟨rfl, htms ▸ hlast⟩
      · cases hrow
  · intro row hrow
    rcases List.mem_append.mp hrow with hrow | hrow
    · exact h.columns row hrow
    · rw [List.mem_singleton.mp hrow]
      exact hfull
  · rw [cells_snoc, h.cells, List.flatMap_append, List.flatMap_singleton]
    rfl
  · rw [hwakes, List.length_append, List.length_singleton]
    exact ⟨hw, by omega, hlast, rfl⟩

/-- The monitor does something else. -/
theorem Sheet.monitored (h : Sheet L tr s rows r) {process : Process n} {out : BatchStats.Output}
    (hsleep : s.process.shared.monitor ≠ .sleep)
    (hstep : s.process.monitor L = some (process, out)) :
    ∃ rows r, Sheet L (tr ++ [(a, .stats out)]) { s with
      process := process
      csv := s.csv ++ BatchFiles.printed L s.tms s.process.shared } rows r := by
  have hplaced := h.placed
  cases Process.monitor_spec hstep with
  | woken hpc => exact (hsleep hpc).elim
  | printed hpc => exact ⟨_, _, h.printed hpc⟩
  | rowPrinted hpc => exact ⟨_, _, h.rowPrinted hpc⟩
  | @copied v i hpc hlt =>
      rw [hpc] at hplaced
      refine ⟨rows, r, h.quiet ?_ rfl rfl rfl rfl hplaced⟩
      simp only [BatchFiles.printed, hpc, List.append_nil]
  | @rowCopied v i hpc hle =>
      rw [hpc] at hplaced
      obtain ⟨hw, hrows, hlast, hnil⟩ := hplaced
      refine ⟨rows, ⟨s.tms, v + 1, []⟩, h.quiet ?_ rfl rfl ?_ ?_ (placed_row hw hrows hlast)⟩
      · simp only [BatchFiles.printed, hpc, List.append_nil]
      · rw [CsvRow.begun_nil rfl, CsvRow.begun_nil hnil]
      · rw [CsvRow.cells_nil rfl, CsvRow.cells_nil hnil]
  | _ hpc =>
      rw [hpc] at hplaced
      refine ⟨rows, r, h.quiet ?_ rfl rfl rfl rfl hplaced⟩
      simp only [BatchFiles.printed, hpc, List.append_nil]

/-- A worker leaves the monitor where it is. -/
theorem worked_monitor {p p' : Process n} {a : BatchStats.Input n} {out : BatchStats.Output}
    (hworker : ofWorker a = true) (h : p.step L a = some (p', out)) :
    p'.shared.monitor = p.shared.monitor ∧ (Output.stats out).cell = none := by
  cases Process.step_spec h with
  | entered | left | loaded | stored => exact ⟨rfl, rfl⟩
  | _ => cases hworker

theorem Sheet.step (h : Sheet L tr s rows r) (hstep : s.step L a = some (s', o)) :
    ∃ rows r, Sheet L (tr ++ [(a, o)]) s' rows r := by
  have hplaced := h.placed
  cases Files.step_spec hstep with
  | worked hworker hprocess =>
      obtain ⟨hmonitor, hcell⟩ := worked_monitor hworker hprocess
      refine ⟨rows, r, h.quiet rfl hcell rfl rfl rfl ?_⟩
      rw [hmonitor]
      exact hplaced
  | woken hsleep => exact ⟨_, _, h.woken hsleep _⟩
  | monitored hsleep hprocess => exact h.monitored hsleep hprocess
  | _ hpc =>
      rw [hpc] at hplaced
      exact ⟨rows, r, h.quiet rfl rfl rfl rfl rfl hplaced⟩

end Steps

/-! ## Runs -/

theorem sheet_start {s : Files n} (h : (files n batchSz).Init s) :
    Sheet (upcallInit batchSz) [] s [] ⟨0, 0, []⟩ := by
  obtain ⟨⟨-, hshared⟩, -, hcsv, -⟩ := h
  refine ⟨?_, ?_, ?_, rfl, ?_⟩
  · rw [hcsv, CsvRow.begun_nil rfl, List.append_nil]
    exact (List.append_nil _).symm
  · intro k r hrow
    cases hrow
  · intro r hr
    cases hr
  · rw [hshared]
    exact ⟨(Nat.zero_mul n).symm, rfl⟩

theorem reaches_sheet {tr : List (Input n × Output)} {s : Files n}
    (h : (files n batchSz).Reaches tr s) :
    ∃ rows r, Sheet (upcallInit batchSz) tr s rows r := by
  induction h with
  | init hs => exact ⟨_, _, sheet_start hs⟩
  | step _ hstep ih =>
      obtain ⟨rows, r, hsheet⟩ := ih
      exact hsheet.step hstep

theorem Placed.length {wakes : List ℤ} {tms : ℤ} {rows : ℕ} {r : CsvRow} {pc : Monitor}
    (h : Placed n L wakes tms rows r pc) :
    (wakes.length * n ≤ rows + n ∧ rows ≤ wakes.length * n) ∧ r.deltas.length ≤ L.used := by
  cases pc with
  | print w cols =>
      obtain ⟨hw, hrows, -, -, -, hle, -⟩ := h
      exact ⟨by omega, hle⟩
  | copy w i =>
      obtain ⟨hw, hrows, -, hnil⟩ := h
      exact ⟨by omega, hnil ▸ Nat.zero_le _⟩
  | _ =>
      obtain ⟨hrows, hnil⟩ := h
      exact ⟨by omega, hnil ▸ Nat.zero_le _⟩

/-- Whatever the workers, the clock and the control file do, what is printed of the CSV file at
any moment is read back. -/
theorem csv_tells {tr : List (Input n × Output)} {s : Files n}
    (h : (files n batchSz).Reaches tr s) :
    ∃ rows, readCsv (upcallInit batchSz) s.csv = some rows ∧
      Tells n (upcallInit batchSz) (wakes tr) (cells tr) rows := by
  obtain ⟨rows, r, hsheet⟩ := reaches_sheet h
  obtain ⟨hlength, hle⟩ := hsheet.placed.length
  refine ⟨rows, ?_, hlength, hsheet.sweeps, ?_, r.cells _, hsheet.cells, ?_⟩
  · rw [hsheet.csv]
    exact readCsv_append rows r.newline_not_mem_begun
  · rw [length_columns]
    exact hsheet.columns
  · rw [r.length_cells, length_columns]
    exact hle

def emptyFiles (n batchSz : ℕ) : Files n :=
  ⟨idleProcess n, 0, List.replicate cmdSize 0, csvHeader (upcallInit batchSz), []⟩

theorem emptyFiles_init : (files n batchSz).Init (emptyFiles n batchSz) :=
  ⟨idleProcess_init, rfl, rfl, rfl⟩

/-- One iteration, and the monitor prints the first slot. -/
def firstCell (w : Fin n) : List (Input n) :=
  (firstIteration w).map .worker ++ [.monitor 100, .monitor 100]

theorem firstCell_runs : ((files 1 1).exec (emptyFiles 1 1) (firstCell 0)).isSome := by decide

theorem csv_tells_firstCell :
    ∃ tr s, (files 1 1).Reaches tr s ∧ wakes tr = [100] ∧ cells tr = [(0, 1)] ∧
      ∃ rows, readCsv (upcallInit 1) s.csv = some rows ∧
        Tells 1 (upcallInit 1) (wakes tr) (cells tr) rows := by
  have hreach := Machine.reaches_exec_get emptyFiles_init firstCell_runs
  exact ⟨_, _, hreach, rfl, rfl, csv_tells hreach⟩

end Upcalls.BatchFiles
