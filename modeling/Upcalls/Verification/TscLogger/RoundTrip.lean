import Upcalls.Library.Regions
import Upcalls.Model.TscLogger

/-! # What the dump prints is what was logged -/

namespace Upcalls.TscLogger

open Library

/-! ## Entries in memory -/

section Memory

variable {mem mem' : ByteMem} {e i p q a : ℕ} {v : UInt64} {values : List UInt64}

theorem loadWord_writeNti64_self : (writeNti64 p v mem).loadWord 8 p = v.toNat := by
  rw [writeNti64, ByteMem.loadWord_storeWord_self]
  exact Nat.mod_eq_of_lt v.toNat_lt

theorem loadWord_writeNti64_of_disjoint (h : q + 8 ≤ p ∨ p + 8 ≤ q) :
    (writeNti64 p v mem).loadWord 8 q = mem.loadWord 8 q :=
  ByteMem.loadWord_storeWord_of_disjoint h

theorem loadWord_writeNti32_of_disjoint {v : UInt32} (h : q + 8 ≤ p ∨ p + 4 ≤ q) :
    (writeNti32 p v mem).loadWord 8 q = mem.loadWord 8 q :=
  ByteMem.loadWord_storeWord_of_disjoint h

theorem loadWord_tsclogHdr {now : UInt64} {pid cpuid : UInt32} :
    (tsclogHdr pid e now cpuid mem).loadWord 8 (e + 8) = now.toNat := by
  rw [tsclogHdr, loadWord_writeNti32_of_disjoint (by omega),
    loadWord_writeNti32_of_disjoint (by omega), loadWord_writeNti64_self]

theorem tsclogHdr_of_outside {now : UInt64} {pid cpuid : UInt32} (h : a < e ∨ e + 16 ≤ a) :
    tsclogHdr pid e now cpuid mem a = mem a := by
  rw [tsclogHdr, writeNti32, ByteMem.storeWord_of_outside (by omega), writeNti32,
    ByteMem.storeWord_of_outside (by omega), writeNti64, ByteMem.storeWord_of_outside (by omega)]

theorem tscWritevals_of_outside (h : a < e + 16 + i * 8 ∨ e + 16 + (i + values.length) * 8 ≤ a) :
    tscWritevals e i values mem a = mem a := by
  induction values generalizing i mem with
  | nil => rfl
  | cons v values ih =>
      simp only [List.length_cons] at h
      rw [tscWritevals, ih (by omega), tscWriteval, writeNti64,
        ByteMem.storeWord_of_outside (by omega)]

theorem loadWord_tscWritevals_of_le (h : q + 8 ≤ e + 16 + i * 8) :
    (tscWritevals e i values mem).loadWord 8 q = mem.loadWord 8 q := by
  induction values generalizing i mem with
  | nil => rfl
  | cons v values ih =>
      rw [tscWritevals, ih (by omega), tscWriteval, loadWord_writeNti64_of_disjoint (by omega)]

/-- Each value is where its index says. -/
theorem loadWord_tscWritevals {k : ℕ} (hv : values[k]? = some v) :
    (tscWritevals e i values mem).loadWord 8 (e + 16 + (i + k) * 8) = v.toNat := by
  induction values generalizing i k mem with
  | nil => cases hv
  | cons v' values ih =>
      cases k with
      | zero =>
          cases hv
          rw [tscWritevals, loadWord_tscWritevals_of_le (by omega)]
          exact loadWord_writeNti64_self
      | succ k =>
          have hindex : i + (k + 1) = i + 1 + k := by omega
          rw [tscWritevals, hindex]
          exact ih hv

theorem writeEntry_of_outside {pid : UInt32} {r : Record}
    (h : a < e ∨ e + TscLogEntrySize r.values.length ≤ a) : writeEntry pid e r mem a = mem a := by
  rw [TscLogEntrySize] at h
  rw [writeEntry, tscWritevals_of_outside (by omega), tsclogHdr_of_outside (by omega)]

end Memory

/-- The entry at `e` has the time stamp and the values of a call. -/
structure Holds (mem : ByteMem) (e : ℕ) (c : Call) : Prop where
  tsc : word mem e 8 = c.tsc
  v0 : word mem e 16 = c.v0
  v1 : word mem e 24 = c.v1
  v2 : word mem e 32 = c.v2
  v3 : word mem e 40 = c.v3

def Call.record (c : Call) : Record := ⟨c.tsc, c.cpu, [c.v0, c.v1, c.v2, c.v3]⟩

theorem holds_writeEntry (pid : UInt32) (mem : ByteMem) (e : ℕ) (c : Call) :
    Holds (writeEntry pid e c.record mem) e c := by
  have hvalue : ∀ {k : ℕ} {v : UInt64}, c.record.values[k]? = some v →
      word (writeEntry pid e c.record mem) e (16 + k * 8) = v := by
    intro k v hv
    have hload : (tscWritevals e 0 c.record.values
        (tsclogHdr pid e c.tsc c.cpu mem)).loadWord 8 (e + 16 + (0 + k) * 8) = v.toNat :=
      loadWord_tscWritevals hv
    rw [Nat.zero_add, Nat.add_assoc] at hload
    rw [word, writeEntry]
    exact (congrArg UInt64.ofNat hload).trans UInt64.ofNat_toNat
  refine ⟨?_, hvalue (k := 0) rfl, hvalue (k := 1) rfl, hvalue (k := 2) rfl,
    hvalue (k := 3) rfl⟩
  rw [word, writeEntry, loadWord_tscWritevals_of_le (by omega), loadWord_tsclogHdr]
  exact UInt64.ofNat_toNat

/-- Stores elsewhere leave an entry alone. -/
theorem Holds.frame {mem mem' : ByteMem} {e : ℕ} {c : Call} (h : Holds mem e c)
    (hsame : ∀ a, e ≤ a → a < e + TscLogEntrySize 4 → mem' a = mem a) : Holds mem' e c := by
  have hword : ∀ off, off + 8 ≤ 48 → word mem' e off = word mem e off := by
    intro off hoff
    have hload : mem'.load (e + off) 8 = mem.load (e + off) 8 := by
      apply ByteMem.load_congr
      intro a hle hlt
      exact hsame a (by omega) (by simp only [TscLogEntrySize]; omega)
    rw [word, word, ByteMem.loadWord, hload, ByteMem.loadWord]
  constructor
  · rw [hword 8 (by decide), h.tsc]
  · rw [hword 16 (by decide), h.v0]
  · rw [hword 24 (by decide), h.v1]
  · rw [hword 32 (by decide), h.v2]
  · rw [hword 40 (by decide), h.v3]

/-! ## Any number of calls -/

def calls (cs : List Call) (log : TscLog) : TscLog := cs.foldl (fun log c => call c log) log

theorem calls_snoc (cs : List Call) (c : Call) (log : TscLog) :
    calls (cs ++ [c]) log = call c (calls cs log) := by
  rw [calls, List.foldl_concat, calls]

/-- A log with `max` entries from `base` on, after the calls `cs`. -/
structure Logged (base max : ℕ) (cs : List Call) (log : TscLog) : Prop where
  cur : log.cur = base + TscLogEntrySize 4 * min cs.length max
  fin : log.fin = base + TscLogEntrySize 4 * max
  overflow : log.overflow = true ↔ max < cs.length
  kept : ∀ {i c}, i < max → cs[i]? = some c →
    Holds log.mem (base + TscLogEntrySize 4 * i) c
  outside : ∀ {a}, a < base ∨ base + TscLogEntrySize 4 * max ≤ a → log.mem a = 0

section Calls

variable {base max : ℕ} {cs : List Call} {c : Call} {log : TscLog}

/-- A call that finds room. -/
theorem call_of_le (h : log.cur + TscLogEntrySize 4 ≤ log.fin)
    (hwrap : log.fin + TscLogEntrySize 4 < 2 ^ 64) :
    call c log = { log with
      cur := log.cur + TscLogEntrySize 4
      mem := writeEntry log.pid log.cur c.record log.mem } := by
  have hfresh : fresh (bytesFor 4) log.cur = log.cur + TscLogEntrySize 4 := by
    simp only [fresh, bytesFor, TscLogEntrySize] at h hwrap ⊢
    omega
  have hroom : ¬ log.fin < log.cur + TscLogEntrySize 4 := by omega
  simp only [call, tsclog4, tsclog, tsclogGetentry, tscBufferReserve, List.length_cons,
    List.length_nil, Nat.zero_add, Nat.reduceAdd, hfresh, if_neg hroom]
  rfl

/-- A call that finds the log full. -/
theorem call_of_full (h : log.cur = log.fin) (hwrap : log.fin + TscLogEntrySize 4 < 2 ^ 64) :
    call c log = { log with overflow := true } := by
  have hfull : log.fin < fresh (bytesFor 4) log.cur := by
    simp only [fresh, bytesFor, TscLogEntrySize] at hwrap ⊢
    omega
  simp only [call, tsclog4, tsclog, tsclogGetentry, tscBufferReserve, List.length_cons,
    List.length_nil, Nat.zero_add, Nat.reduceAdd, if_pos hfull]

theorem Logged.call (h : Logged base max cs log)
    (hwrap : base + TscLogEntrySize 4 * max + TscLogEntrySize 4 < 2 ^ 64) :
    Logged base max (cs ++ [c]) (call c log) := by
  have hfin := h.fin
  have hcur := h.cur
  rcases Nat.lt_or_ge cs.length max with hlt | hge
  · have hle : TscLogEntrySize 4 * (cs.length + 1) ≤ TscLogEntrySize 4 * max :=
      Nat.mul_le_mul_left _ hlt
    rw [Nat.mul_succ] at hle
    rw [Nat.min_eq_left (Nat.le_of_lt hlt)] at hcur
    rw [call_of_le (by omega) (by omega)]
    refine ⟨?_, hfin, ?_, ?_, ?_⟩
    · rw [List.length_append, List.length_singleton, Nat.min_eq_left (by omega), Nat.mul_succ]
      exact (congrArg (· + TscLogEntrySize 4) hcur).trans (Nat.add_assoc ..)
    · simp only [h.overflow, List.length_append, List.length_singleton]
      omega
    · intro i c' hi hc'
      rcases Nat.lt_or_ge i cs.length with hold | hnew
      · rw [List.getElem?_append_left hold] at hc'
        refine (h.kept hi hc').frame ?_
        intro a hle' hlt'
        apply writeEntry_of_outside
        left
        have hbelow : TscLogEntrySize 4 * (i + 1) ≤ TscLogEntrySize 4 * cs.length :=
          Nat.mul_le_mul_left _ hold
        rw [Nat.mul_succ] at hbelow
        omega
      · rw [List.getElem?_append_right hnew] at hc'
        have hlast := (List.getElem?_eq_some_iff.mp hc').1
        rw [List.length_singleton] at hlast
        have heq : i = cs.length := by omega
        rw [heq, Nat.sub_self] at hc'
        cases hc'
        rw [heq, ← hcur]
        exact holds_writeEntry ..
    · intro a ha
      have hentry : a < log.cur ∨ log.cur + TscLogEntrySize 4 ≤ a := by omega
      exact (writeEntry_of_outside (r := c.record) hentry).trans (h.outside ha)
  · rw [Nat.min_eq_right hge] at hcur
    rw [call_of_full (by omega) (by omega)]
    refine ⟨?_, hfin, ?_, ?_, h.outside⟩
    · rw [List.length_append, List.length_singleton, Nat.min_eq_right (by omega)]
      exact hcur
    · simp only [List.length_append, List.length_singleton, true_iff]
      omega
    · intro i c' hi hc'
      rw [List.getElem?_append_left (by omega)] at hc'
      exact h.kept hi hc'

theorem logged_calls (h : Logged base max [] log)
    (hwrap : base + TscLogEntrySize 4 * max + TscLogEntrySize 4 < 2 ^ 64) :
    Logged base max cs (calls cs log) := by
  induction cs using List.reverseRecOn with
  | nil => exact h
  | append_singleton cs c ih =>
      rw [calls_snoc]
      exact ih.call hwrap

/-! ## The dump -/

def Call.line (tscKhz : UInt64) (c : Call) : List UInt8 :=
  TscLogger.line [c.v0, c.v1, c.v2, c.v3, c.tsc] tscKhz

theorem Holds.dumpEntry {mem : ByteMem} {e : ℕ} (h : Holds mem e c) (tscKhz : UInt64) :
    dumpEntry tscKhz mem e = c.line tscKhz := by
  rw [TscLogger.dumpEntry, h.tsc, h.v0, h.v1, h.v2, h.v3, Call.line]

/-- The loop is back at `cur` once it has printed all entries from the `i`-th on. -/
theorem Logged.dump (h : Logged base max cs log)
    (hwrap : base + TscLogEntrySize 4 * max + TscLogEntrySize 4 < 2 ^ 64) (tscKhz : UInt64)
    {fuel : ℕ} (i : ℕ) (hi : i ≤ min cs.length max) (hfuel : min cs.length max ≤ i + fuel) :
    dump tscKhz log fuel (base + TscLogEntrySize 4 * i) =
      some (((cs.take max).drop i).flatMap (Call.line tscKhz)) := by
  induction fuel generalizing i with
  | zero =>
      have hend : i = min cs.length max := by omega
      have hnone : (cs.take max).drop i = [] := by
        apply List.drop_eq_nil_of_le
        rw [List.length_take]
        omega
      rw [TscLogger.dump, h.cur, hend, if_pos rfl, ← hend, hnone, List.flatMap_nil]
  | succ fuel ih =>
      rcases Nat.eq_or_lt_of_le hi with hend | hlt
      · have hnone : (cs.take max).drop i = [] := by
          apply List.drop_eq_nil_of_le
          rw [List.length_take]
          omega
        rw [TscLogger.dump, h.cur, ← hend, if_pos rfl, hnone, List.flatMap_nil]
      · have hlength : i < (cs.take max).length := by
          rw [List.length_take]
          omega
        have hc : cs[i]? = some ((cs.take max)[i]) := by
          rw [List.getElem_take]
          exact List.getElem?_eq_getElem _
        have hmore : base + TscLogEntrySize 4 * i ≠ log.cur := by
          rw [h.cur, TscLogEntrySize]
          omega
        have hnext : (base + TscLogEntrySize 4 * i + TscLogEntrySize 4) % 2 ^ 64 =
            base + TscLogEntrySize 4 * (i + 1) := by
          rw [TscLogEntrySize] at hwrap ⊢
          omega
        have hrest := ih (i + 1) (by omega) (by omega)
        rw [TscLogger.dump, if_neg hmore]
        simp only [hnext, hrest, (h.kept (by omega) hc).dumpEntry]
        rw [List.drop_eq_getElem_cons hlength]
        rfl

end Calls

/-! ## The log of a worker -/

section Worker

variable {pid : UInt32} {raw max : ℕ} {cs : List Call}

theorem alignLog_spec (raw : ℕ) (h : raw + L1_CACHE_BYTES ≤ 2 ^ 64) :
    L1_CACHE_BYTES ∣ alignLog raw ∧ raw ≤ alignLog raw ∧ alignLog raw < raw + L1_CACHE_BYTES := by
  have hlow : raw &&& (L1_CACHE_BYTES - 1) = raw % 64 := Nat.and_two_pow_sub_one_eq_mod raw 6
  rw [alignLog, hlow]
  split
  · rename_i hmod
    have hlt : raw + L1_CACHE_BYTES < 2 ^ 64 := by
      simp only [L1_CACHE_BYTES] at h ⊢
      omega
    have hmask : raw + L1_CACHE_BYTES &&& (2 ^ 64 - 1 - (L1_CACHE_BYTES - 1)) =
        (raw + L1_CACHE_BYTES) / 2 ^ 6 * 2 ^ 6 := and_mask (k := 6) hlt (by decide)
    rw [Nat.mod_eq_of_lt hlt, hmask]
    refine ⟨Dvd.intro_left _ rfl, ?_, ?_⟩
    · simp only [L1_CACHE_BYTES]
      omega
    · simp only [L1_CACHE_BYTES]
      omega
  · rename_i hmod
    refine ⟨?_, Nat.le_refl raw, Nat.lt_add_of_pos_right (by decide)⟩
    apply Nat.dvd_of_mod_eq_zero
    exact not_not.mp hmod

theorem logged_workerLog (pid : UInt32) (hwrap : raw + hdrSize + TscLogEntrySize 4 * max +
    L1_CACHE_BYTES + TscLogEntrySize 4 ≤ 2 ^ 64) :
    entriesOf (alignLog raw) + TscLogEntrySize 4 * max + TscLogEntrySize 4 < 2 ^ 64 ∧
      Logged (entriesOf (alignLog raw)) max [] (workerLog pid raw (TscLogEntrySize 4 * max)) := by
  have halign := alignLog_spec raw (by omega)
  have hlt : entriesOf (alignLog raw) + TscLogEntrySize 4 * max + TscLogEntrySize 4 < 2 ^ 64 := by
    rw [entriesOf]
    omega
  refine ⟨hlt, ?_, ?_, ?_, ?_, fun _ => rfl⟩
  · rw [List.length_nil, Nat.zero_min]
    rfl
  · exact Nat.mod_eq_of_lt (by omega)
  · simp [workerLog]
  · intro i c _ hc
    cases hc

/-- What comes of the calls `cs` on the log of a worker of the process `pid`, with `max`
entries in the block at `raw`. -/
structure RoundTrip (pid : UInt32) (raw max : ℕ) (cs : List Call) : Prop where
  aligned : L1_CACHE_BYTES ∣ alignLog raw
  header : Region.Within raw (raw + blockSize (TscLogEntrySize 4 * max))
    ⟨alignLog raw, hdrSize⟩
  entries : ∀ i < min cs.length max, Region.Within (entriesOf (alignLog raw))
    (raw + blockSize (TscLogEntrySize 4 * max))
    ⟨entriesOf (alignLog raw) + TscLogEntrySize 4 * i, TscLogEntrySize 4⟩
  outside : ∀ a, a < entriesOf (alignLog raw) ∨
    raw + blockSize (TscLogEntrySize 4 * max) ≤ a →
      (calls cs (workerLog pid raw (TscLogEntrySize 4 * max))).mem a = 0
  dump : ∀ tscKhz fuel, min cs.length max ≤ fuel →
    dump tscKhz (calls cs (workerLog pid raw (TscLogEntrySize 4 * max))) fuel
      (entriesOf (alignLog raw)) = some ((cs.take max).flatMap (Call.line tscKhz))
  overflow : (calls cs (workerLog pid raw (TscLogEntrySize 4 * max))).overflow = true ↔
    max < cs.length

/-- The dump prints the first `max` calls, whatever the address of the block, as long as no
address wraps, not even that of an entry behind the block. -/
theorem round_trip (pid : UInt32) (raw max : ℕ) (cs : List Call)
    (hwrap : raw + hdrSize + TscLogEntrySize 4 * max + L1_CACHE_BYTES + TscLogEntrySize 4 ≤
      2 ^ 64) : RoundTrip pid raw max cs := by
  have halign := alignLog_spec raw (by omega)
  obtain ⟨hlt, hstart⟩ := logged_workerLog pid hwrap
  have hlogged : Logged _ max cs _ := logged_calls hstart hlt
  have hsize : blockSize (TscLogEntrySize 4 * max) =
      hdrSize + TscLogEntrySize 4 * max + L1_CACHE_BYTES := by
    apply Nat.mod_eq_of_lt
    simp only [TscLogEntrySize] at hwrap ⊢
    omega
  have hfin : entriesOf (alignLog raw) + TscLogEntrySize 4 * max ≤
      raw + blockSize (TscLogEntrySize 4 * max) := by
    rw [hsize, entriesOf]
    omega
  refine ⟨halign.1, ⟨halign.2.1, ?_⟩, ?_, ?_, ?_, hlogged.overflow⟩
  · simp only [Region.stop, hsize]
    omega
  · intro i hi
    have hentry : TscLogEntrySize 4 * (i + 1) ≤ TscLogEntrySize 4 * max :=
      Nat.mul_le_mul_left _ (by omega)
    rw [Nat.mul_succ] at hentry
    refine ⟨Nat.le_add_right _ _, ?_⟩
    simp only [Region.stop]
    omega
  · intro a ha
    apply hlogged.outside
    omega
  · intro tscKhz fuel hfuel
    have hall : min cs.length max ≤ 0 + fuel := by omega
    simpa using hlogged.dump hlt tscKhz 0 (Nat.zero_le _) hall

/-- Three calls on a log of two entries, in a block that is not aligned. -/
theorem round_trip_three : RoundTrip 4711 1000 2
    [⟨5, 0, 0, 1, 0, 0⟩, ⟨6, 0, 0, 1, 0, 1⟩, ⟨7, 0, 0, 1, 0, 2⟩] :=
  round_trip 4711 1000 2 _ (by decide)

end Worker

end Upcalls.TscLogger
