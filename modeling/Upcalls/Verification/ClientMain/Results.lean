import Upcalls.Library.Tables
import Upcalls.Model.ResultsFile
import Upcalls.Verification.ClientMain.Outcome
import Upcalls.Verification.TcpClient.Entries
import Upcalls.Verification.TscLogger.RoundTrip

/-! # What the results tell

The file can be read back, and the rows of a client are what it did: its connections with all
its transactions, unless `main` says that the log of its worker has overflowed.
-/

namespace Upcalls.ClientMain

open Library TcpClient

variable {m n : ℕ} {o : Options}

/-! ## Reading the file -/

structure Row where
  entry : Entry
  tsc : ℕ
  tscKhz : ℕ

def readEvent : ℕ → Option LogEvent
  | 0 => some .connectStart
  | 1 => some .connectDone
  | 2 => some .sendStart
  | 3 => some .sendDone
  | 4 => some .recvStart
  | 5 => some .recvDone
  | _ => none

def readRow (fields : List (List UInt8)) : Option Row :=
  match fields.mapM ofDecimal with
  | some [worker, client, txn, event, tsc, tscKhz] =>
      (readEvent event).map fun event => ⟨⟨worker, client, txn, event⟩, tsc, tscKhz⟩
  | _ => none

def outFields : List (List UInt8) :=
  [ascii "WORKER", ascii "CLIENT", ascii "TRANSACTION ID", ascii "EVENT ID", ascii "TSC",
    ascii "TSC_KHZ"]

/-- The rows behind the header. -/
def readFile (text : List UInt8) : Option (List Row) :=
  match readTable tab newline text with
  | header :: rows => if header = outFields then rows.mapM readRow else none
  | [] => none

/-! ## Writing a row -/

def Row.fields (r : Row) : List (List UInt8) :=
  [decimal r.entry.index, decimal r.entry.client, decimal r.entry.txn,
    decimal r.entry.event.code.toNat, decimal r.tsc, decimal r.tscKhz]

theorem outHeader_eq : outHeader = writeRow tab newline outFields := by decide

theorem outFields_readable : Readable tab newline outFields := ⟨by decide, by decide⟩

theorem Row.fields_readable (r : Row) : Readable tab newline r.fields := by
  have hfield : ∀ k, tab ∉ decimal k ∧ newline ∉ decimal k :=
    fun k => ⟨not_mem_decimal rfl, not_mem_decimal rfl⟩
  refine ⟨List.cons_ne_nil _ _, ?_⟩
  intro field hmem
  simp only [fields, List.mem_cons, List.not_mem_nil, or_false] at hmem
  rcases hmem with rfl | rfl | rfl | rfl | rfl | rfl <;> exact hfield _

theorem readEvent_code (event : LogEvent) : readEvent event.code.toNat = some event := by
  cases event <;> rfl

theorem Row.readRow_fields (r : Row) : readRow r.fields = some r := by
  simp [readRow, fields, ofDecimal_decimal, readEvent_code]

/-- A table of rows is read back. -/
theorem readFile_writeTable (rows : List Row) :
    readFile (outHeader ++ writeTable tab newline (rows.map Row.fields)) = some rows := by
  have hrows : (rows.map Row.fields).mapM readRow = some rows := by
    induction rows with
    | nil => rfl
    | cons r rows ih => simp [List.map_cons, r.readRow_fields, ih]
  have hread : readTable tab newline (writeTable tab newline (rows.map Row.fields)) =
      rows.map Row.fields := by
    apply readTable_writeTable newline_ne_tab
    intro row hrow
    obtain ⟨r, -, rfl⟩ := List.mem_map.mp hrow
    exact r.fields_readable
  rw [readFile, outHeader_eq, readTable_writeRow newline_ne_tab outFields_readable, hread]
  exact hrows

/-! ## Printing a log -/

/-- The row of an entry. -/
def rowOf (tscKhz : UInt64) (stamp : UInt64 × UInt32) (e : Entry) : Row :=
  ⟨e, stamp.1.toNat, tscKhz.toNat⟩

theorem line_eq (fields : List UInt64) (tscKhz : UInt64) :
    TscLogger.line fields tscKhz =
      writeRow tab newline ((fields ++ [tscKhz]).map fun v => decimal v.toNat) := by
  rw [List.map_append, List.map_singleton, writeRow_snoc, List.flatMap_map]
  rfl

theorem call_line {index : ℕ} {e : Entry} (he : e.Fits n index) (hn : n ≤ 2 ^ 64)
    (hindex : index < 2 ^ 64) (tscKhz : UInt64) (stamp : UInt64 × UInt32) :
    (e.call stamp.1 stamp.2).line tscKhz =
      writeRow tab newline (rowOf tscKhz stamp e).fields := by
  have hword : ∀ {k : ℕ}, k < 2 ^ 64 → (UInt64.ofNat k).toNat = k := fun hk =>
    UInt64.toNat_ofNat_of_lt hk
  have hclient : e.client < 2 ^ 64 := Nat.lt_of_lt_of_le he.client hn
  simp only [TscLogger.Call.line, Entry.call, line_eq, List.cons_append, List.nil_append,
    List.map_cons, List.map_nil, hword (he.index ▸ hindex), hword hclient, hword he.txn]
  rfl

/-- The rows of a worker: the log keeps the first `maxEvents` entries. -/
def workerRows (tscKhz : UInt64) (maxEvents : ℕ) (stamps : ℕ → UInt64 × UInt32)
    (es : List Entry) : List Row :=
  (es.mapIdx fun i e => rowOf tscKhz (stamps i) e).take maxEvents

section Log

variable {pid : UInt32} {raw maxEvents index : ℕ} {stamps : ℕ → UInt64 × UInt32} {es : List Entry}
  {tscKhz : UInt64}

theorem map_entry_workerRows :
    (workerRows tscKhz maxEvents stamps es).map Row.entry = es.take maxEvents := by
  rw [workerRows, List.map_take]
  congr 1
  apply List.ext_getElem
  · simp
  · intro i h₁ h₂
    simp [rowOf]

theorem map_tsc_workerRows : (workerRows tscKhz maxEvents stamps es).map Row.tsc =
    (List.range (min maxEvents es.length)).map fun i => (stamps i).1.toNat := by
  rw [workerRows]
  apply List.ext_getElem
  · simp
  · intro i h₁ h₂
    simp [rowOf]

theorem memLog_logged (pid : UInt32) (stamps : ℕ → UInt64 × UInt32) (es : List Entry)
    (hwrap : raw + TscLogger.hdrSize + TscLogger.TscLogEntrySize 4 * maxEvents +
      TscLogger.L1_CACHE_BYTES + TscLogger.TscLogEntrySize 4 ≤ 2 ^ 64) :
    TscLogger.Logged (TscLogger.entriesOf (TscLogger.alignLog raw)) maxEvents
      (es.mapIdx fun i e => e.call (stamps i).1 (stamps i).2)
      (memLog pid raw maxEvents stamps es) := by
  obtain ⟨hlt, hstart⟩ := TscLogger.logged_workerLog pid hwrap
  exact TscLogger.logged_calls hstart hlt

theorem memLog_overflow (hwrap : raw + TscLogger.hdrSize +
    TscLogger.TscLogEntrySize 4 * maxEvents + TscLogger.L1_CACHE_BYTES +
      TscLogger.TscLogEntrySize 4 ≤ 2 ^ 64) :
    (memLog pid raw maxEvents stamps es).overflow = true ↔ maxEvents < es.length := by
  rw [(memLog_logged pid stamps es hwrap).overflow, List.length_mapIdx]

/-- The loop of `main` over a log prints the rows of the worker. -/
theorem memLog_dump (hwrap : raw + TscLogger.hdrSize + TscLogger.TscLogEntrySize 4 * maxEvents +
    TscLogger.L1_CACHE_BYTES + TscLogger.TscLogEntrySize 4 ≤ 2 ^ 64)
    (hfits : ∀ e ∈ es, e.Fits n index) (hn : n ≤ 2 ^ 64) (hindex : index < 2 ^ 64) {fuel : ℕ}
    (hfuel : maxEvents ≤ fuel) :
    TscLogger.dump tscKhz (memLog pid raw maxEvents stamps es) fuel
        (TscLogger.entriesOf (TscLogger.alignLog raw)) =
      some (writeTable tab newline
        ((workerRows tscKhz maxEvents stamps es).map Row.fields)) := by
  have hlt := (TscLogger.logged_workerLog pid hwrap).1
  have hall : min (es.mapIdx fun i e => e.call (stamps i).1 (stamps i).2).length maxEvents ≤
      0 + fuel := by omega
  have hlogged := memLog_logged pid stamps es hwrap
  have hdump := hlogged.dump hlt tscKhz 0 (Nat.zero_le _) hall
  rw [Nat.mul_zero, Nat.add_zero, List.drop_zero] at hdump
  rw [hdump, writeTable, List.flatMap_map, workerRows, List.mapIdx_eq_zipIdx_map,
    List.mapIdx_eq_zipIdx_map, ← List.map_take, ← List.map_take, List.flatMap_map,
    List.flatMap_map]
  congr 1
  apply List.flatMap_congr
  intro x hx
  exact call_line (hfits x.1 (List.fst_mem_of_mem_zipIdx (List.mem_of_mem_take hx))) hn hindex
    tscKhz _

end Log

/-! ## The whole file -/

/-- The rows of all workers. -/
def fileRows (tscKhz : UInt64) (maxEvents : ℕ) (stamps : Fin m → ℕ → UInt64 × UInt32)
    (es : Fin m → List Entry) : List Row :=
  (List.finRange m).flatMap fun w => workerRows tscKhz maxEvents (stamps w) (es w)

section File

variable {pid : UInt32} {raw : Fin m → ℕ} {maxEvents : ℕ} {stamps : Fin m → ℕ → UInt64 × UInt32}
  {es : Fin m → List Entry} {tscKhz : UInt64}

theorem outFile_eq (hwrap : ∀ w, raw w + TscLogger.hdrSize +
    TscLogger.TscLogEntrySize 4 * maxEvents + TscLogger.L1_CACHE_BYTES +
      TscLogger.TscLogEntrySize 4 ≤ 2 ^ 64) (hfits : ∀ w, ∀ e ∈ es w, e.Fits n w)
    (hn : n ≤ 2 ^ 64) (hm : m ≤ 2 ^ 64) {fuel : ℕ} (hfuel : maxEvents ≤ fuel) :
    outFile tscKhz raw fuel (fun w => memLog pid (raw w) maxEvents (stamps w) (es w)) =
      some (outHeader ++ writeTable tab newline
        ((fileRows tscKhz maxEvents stamps es).map Row.fields)) := by
  have hdump : ∀ w : Fin m, TscLogger.dump tscKhz
      (memLog pid (raw w) maxEvents (stamps w) (es w)) fuel
      (TscLogger.entriesOf (TscLogger.alignLog (raw w))) = some (writeTable tab newline
        ((workerRows tscKhz maxEvents (stamps w) (es w)).map Row.fields)) :=
    fun w => memLog_dump (hwrap w) (hfits w) hn (Nat.lt_of_lt_of_le w.isLt hm) hfuel
  have hall : ((List.finRange m).mapM fun w => some (writeTable tab newline
      ((workerRows tscKhz maxEvents (stamps w) (es w)).map Row.fields))) = _ := List.mapM_pure
  rw [outFile, funext hdump, hall]
  simp only [Option.pure_def, Option.map_some, fileRows, List.map_flatMap, writeTable,
    List.flatMap_assoc]
  rfl

/-- The rows of one worker are found by its number. -/
theorem filter_fileRows (hfits : ∀ w, ∀ e ∈ es w, e.Fits n w) (w : Fin m) :
    (fileRows tscKhz maxEvents stamps es).filter (fun r => r.entry.index = (w : ℕ)) =
      workerRows tscKhz maxEvents (stamps w) (es w) := by
  have hindex : ∀ v, ∀ r ∈ workerRows tscKhz maxEvents (stamps v) (es v),
      r.entry.index = (v : ℕ) := by
    intro v r hr
    have hentry := List.mem_map_of_mem (f := Row.entry) hr
    rw [map_entry_workerRows] at hentry
    exact (hfits v _ (List.mem_of_mem_take hentry)).index
  obtain ⟨pre, post, hsplit⟩ := List.append_of_mem (List.mem_finRange w)
  have hnodup := List.nodup_finRange m
  rw [hsplit, List.nodup_append, List.nodup_cons] at hnodup
  have hnone : ∀ ws : List (Fin m), w ∉ ws → (ws.flatMap fun v =>
      (workerRows tscKhz maxEvents (stamps v) (es v)).filter
        (fun r => r.entry.index = (w : ℕ))) = [] := by
    intro ws hws
    rw [List.flatMap_eq_nil_iff]
    intro v hv
    rw [List.filter_eq_nil_iff]
    intro r hr heq
    rw [decide_eq_true_eq, hindex v r hr] at heq
    exact hws (Fin.ext heq ▸ hv)
  have hself : (workerRows tscKhz maxEvents (stamps w) (es w)).filter
      (fun r => r.entry.index = (w : ℕ)) = workerRows tscKhz maxEvents (stamps w) (es w) := by
    rw [List.filter_eq_self]
    intro r hr
    rw [decide_eq_true_eq]
    exact hindex w r hr
  rw [fileRows, List.filter_flatMap, hsplit, List.flatMap_append, List.flatMap_cons, hself,
    hnone pre fun hmem => hnodup.2.2 w hmem w List.mem_cons_self rfl,
    hnone post hnodup.2.1.1, List.nil_append, List.append_nil]

end File

/-! ## What the rows tell -/

/-- What client `j` of worker `w` did, in the order of the rows. -/
def clientRows (w : Fin m) (j : Fin n) (rows : List Row) : List (ℕ × LogEvent) :=
  (rows.filter fun r => r.entry.index = (w : ℕ) ∧ r.entry.client = (j : ℕ)).map
    fun r => (r.entry.txn, r.entry.event)

/-- All rows are about clients, in the order of the time stamps of their worker. The rows of a
client are those of its connections with all its transactions; only those behind an overflow
of the log are missing. -/
structure Tells (n : ℕ) (o : Options) (tscKhz : UInt64) (stamps : Fin m → ℕ → UInt64 × UInt32)
    (dropped : List (Fin m)) (rows : List Row) : Prop where
  known : ∀ r ∈ rows, r.entry.index < m ∧ r.entry.client < n ∧ r.tscKhz = tscKhz.toNat
  times : ∀ w : Fin m, ∃ k, (rows.filter fun r => r.entry.index = (w : ℕ)).map Row.tsc =
    (List.range k).map fun i => (stamps w i).1.toNat
  whole : ∀ (w : Fin m) (j : Fin n), ∃ cs, WellFormed o.batchSize cs ∧
    cs.flatten.length = o.transactionCount ∧ clientRows w j rows <+: connections 0 cs ∧
      (w ∉ dropped → clientRows w j rows = connections 0 cs)

section Rows

variable {maxEvents : ℕ} {stamps : Fin m → ℕ → UInt64 × UInt32} {es : Fin m → List Entry}
  {tscKhz : UInt64}

/-- The rows of a client are what its worker has logged of it. -/
theorem clientRows_fileRows (hfits : ∀ w, ∀ e ∈ es w, e.Fits n w) (w : Fin m) (j : Fin n) :
    clientRows w j (fileRows tscKhz maxEvents stamps es) =
      (((es w).take maxEvents).filter fun e => e.client = (j : ℕ)).map
        fun e => (e.txn, e.event) := by
  have hsplit : clientRows w j (fileRows tscKhz maxEvents stamps es) =
      (((fileRows tscKhz maxEvents stamps es).filter fun r => r.entry.index = (w : ℕ)).filter
        fun r => r.entry.client = (j : ℕ)).map fun r => (r.entry.txn, r.entry.event) := by
    rw [clientRows, List.filter_filter]
    congr 2
    funext r
    rw [Bool.decide_and, Bool.and_comm]
  have hentries : (workerRows tscKhz maxEvents (stamps w) (es w)).map Row.entry =
      (es w).take maxEvents := map_entry_workerRows
  rw [hsplit, filter_fileRows hfits, ← hentries, List.filter_map, List.map_map]
  rfl

theorem mem_fileRows {r : Row} (hr : r ∈ fileRows tscKhz maxEvents stamps es) :
    ∃ w, r.entry ∈ es w ∧ r.tscKhz = tscKhz.toNat := by
  obtain ⟨w, -, hr⟩ := List.mem_flatMap.mp hr
  have hentry := List.mem_map_of_mem (f := Row.entry) hr
  rw [map_entry_workerRows] at hentry
  refine ⟨w, List.mem_of_mem_take hentry, ?_⟩
  obtain ⟨i, hi, rfl⟩ := List.mem_mapIdx.mp (List.mem_of_mem_take hr)
  rfl

end Rows

/-- What `main` writes when it gets to the results can be read back and tells what all clients
did, wherever the logs are and however few entries they hold. The logs of the model have room
for all calls. -/
theorem results_tell (hb : 1 ≤ o.batchSize) (ht : 1 ≤ o.transactionCount)
    (hfit : o.transactionCount * n < 2 ^ 64) (hm : m ≤ 2 ^ 64) {p s : Program m n}
    {tr : List (Input m × Output n)} (hstart : (program m n o).Init p)
    (hrun : (program m n o).Run p tr s) (hmain : s.main = .results)
    (hkept : ∀ w, (s.workers w).log.overflow = false) (tscKhz : UInt64)
    (pid : UInt32) (raw : Fin m → ℕ) (maxEvents : ℕ) (stamps : Fin m → ℕ → UInt64 × UInt32)
    (hwrap : ∀ w, raw w + TscLogger.hdrSize + TscLogger.TscLogEntrySize 4 * maxEvents +
      TscLogger.L1_CACHE_BYTES + TscLogger.TscLogEntrySize 4 ≤ 2 ^ 64) :
    let logs w := memLog pid (raw w) maxEvents (stamps w) (s.workers w).log.entries
    ∃ text rows, (∀ fuel, maxEvents ≤ fuel → outFile tscKhz raw fuel logs = some text) ∧
      readFile text = some rows ∧ Tells n o tscKhz stamps (overflowed logs) rows := by
  intro logs
  have hinv := run_inv hb ht hfit hstart hrun
  have hthrough := hinv.results hmain
  have halive : ∀ w, (s.workers w).dying = false := fun w => (hthrough w).2.1
  have hreach := (Machine.Reaches.init hstart.workers).run hinv.run
  have hn : n ≤ 2 ^ 64 :=
    (Nat.le_mul_of_pos_left n ht).trans (Nat.le_of_lt hfit)
  have hfits : ∀ w, ∀ e ∈ (s.workers w).log.entries, e.Fits n w := by
    intro w e he
    have hsigned := Worker.reaches_signed (process_own hreach halive w) (halive w) e he
    rwa [process_index hreach halive w] at hsigned
  refine ⟨_, fileRows tscKhz maxEvents stamps fun w => (s.workers w).log.entries,
    fun fuel hfuel => outFile_eq hwrap hfits hn hm hfuel, readFile_writeTable _, ?_, ?_, ?_⟩
  · intro r hr
    obtain ⟨w, hentry, hkhz⟩ := mem_fileRows hr
    have hfit := hfits w _ hentry
    exact ⟨hfit.index ▸ w.isLt, hfit.client, hkhz⟩
  · intro w
    exact ⟨_, by rw [filter_fileRows hfits]; exact map_tsc_workerRows⟩
  · intro w j
    obtain ⟨l, hl⟩ := Worker.reaches_known (process_own hreach halive w) (halive w) hb ht j
    obtain ⟨hstate, -, hnone⟩ := (hthrough w).2.2.2.done j
    obtain ⟨cs, hwell, hlength, hlog⟩ := hl.whole hstate hnone (hkept w)
    refine ⟨cs, hwell, hlength, ?_, ?_⟩
    · rw [clientRows_fileRows hfits, ← hlog]
      exact ((List.take_prefix _ _).filter _).map _
    · intro hw
      have hroom : (s.workers w).log.entries.length ≤ maxEvents := by
        by_contra hlt
        refine hw (List.mem_filter.mpr ⟨List.mem_finRange w, ?_⟩)
        exact (memLog_overflow (hwrap w)).mpr (Nat.lt_of_not_le hlt)
      rw [clientRows_fileRows hfits, List.take_of_length_le hroom, ← hlog]
      rfl

/-- The log of the worker has 34 entries. -/
theorem toResults_logged : ∃ tr s, (program 1 2 threeTxns).Run oneWorker tr s ∧
    s.main = .results ∧ ∀ w, (s.workers w).log.overflow = false ∧
      (s.workers w).log.entries.length = 34 :=
  ⟨_, _, Machine.run_of_exec (Option.some_get toResults_runs).symm, rfl, by decide +kernel⟩

/-- There is room for 40. -/
theorem results_tell_toResults :
    ∃ tr s, (program 1 2 threeTxns).Run oneWorker tr s ∧ s.main = .results ∧
      ∃ text rows, outFile 1 (fun _ => 1000) 40 (fun w => memLog 4711 1000 40
        (fun i => (.ofNat i, 0)) (s.workers w).log.entries) = some text ∧
        readFile text = some rows ∧
        Tells 2 threeTxns 1 (fun (_ : Fin 1) i => (.ofNat i, 0)) [] rows := by
  obtain ⟨tr, s, hrun, hmain, hlogged⟩ := toResults_logged
  obtain ⟨text, rows, htext, hrows, htells⟩ := results_tell (by decide) (by decide) (by decide)
    (by decide) oneWorker_start hrun hmain (fun w => (hlogged w).1) 1 4711 (fun _ => 1000) 40
    (fun _ i => (.ofNat i, 0)) (by decide)
  have hnone : overflowed (fun w => memLog 4711 1000 40 (fun i => (.ofNat i, 0))
      (s.workers w).log.entries) = [] := by
    rw [overflowed, List.filter_eq_nil_iff]
    intro w _
    rw [memLog_overflow (by decide), (hlogged w).2]
    decide
  exact ⟨tr, s, hrun, hmain, text, rows, htext 40 (Nat.le_refl 40), hrows, hnone ▸ htells⟩

end Upcalls.ClientMain
