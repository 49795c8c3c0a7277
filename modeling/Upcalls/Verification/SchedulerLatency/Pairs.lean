import Upcalls.Verification.SchedulerLatency.Turns

/-! # Pairs of log entries

The entries at one place of both logs belong to the same hand-over, and that of the thread
which wakes the other one has the earlier time stamp.
-/

namespace Upcalls.SchedulerLatency

open Library

variable {count : ℕ}

/-! ## One log -/

/-- A log in memory, with room for `2 * count` entries. -/
structure TscLog.Placed (count : ℕ) (log : TscLog) : Prop where
  cur : log.cur = log.base + entrySize * log.entries.length
  fin : log.fin = log.base + entrySize * (2 * count)
  fits : log.base + entrySize * (2 * count) < 2 ^ 64

/-- A log with `k` entries, the one at place `j` of value `value j`. -/
structure TscLog.Holds (clock k : ℕ) (value : ℕ → Value) (log : TscLog) : Prop where
  length : log.entries.length = k
  overflow : log.overflow = false
  stamps : ∀ j e, log.entries[j]? = some e → e.value = value j ∧ e.tsc ≤ clock

theorem placed_initLogger {base : ℕ} (h : base + 2 * count * entrySize < 2 ^ 64) :
    (initLogger base count).Placed count := by
  have hcomm : 2 * count * entrySize = entrySize * (2 * count) := Nat.mul_comm _ _
  rw [hcomm] at h
  refine ⟨rfl, ?_, h⟩
  have hsize : entrySize * (2 * count) < 2 ^ 64 := by omega
  rw [initLogger, hcomm, Nat.mod_eq_of_lt hsize, Nat.mod_eq_of_lt h]

theorem holds_initLogger (base clock : ℕ) (value : ℕ → Value) :
    (initLogger base count).Holds clock 0 value := by
  refine ⟨rfl, rfl, ?_⟩
  intro j e he
  cases he

/-- An entry of a log with one more entry. -/
theorem getElem?_snoc {α : Type*} {l : List α} {a b : α} {j : ℕ}
    (h : (l ++ [a])[j]? = some b) : l[j]? = some b ∨ j = l.length ∧ b = a := by
  rw [List.getElem?_append] at h
  split at h
  · exact .inl h
  · rename_i hj
    rw [List.getElem?_singleton] at h
    split at h
    · exact .inr ⟨by omega, (Option.some.inj h).symm⟩
    · cases h

section Add

variable {log : TscLog} {e : TscLogEntry} {clock k : ℕ} {value : ℕ → Value}

/-- An entry that has room goes to the end. -/
theorem TscLog.Placed.tsclog1 (h : log.Placed count) (hroom : log.entries.length < 2 * count) :
    log.tsclog1 e =
      { log with cur := log.cur + entrySize, entries := log.entries ++ [e] } := by
  have hcur := h.cur
  have hfin := h.fin
  have hfits := h.fits
  have hmul : entrySize * (log.entries.length + 1) ≤ entrySize * (2 * count) :=
    Nat.mul_le_mul_left entrySize hroom
  rw [Nat.mul_add, Nat.mul_one] at hmul
  have hlt : log.cur + entrySize < 2 ^ 64 := by omega
  have hle : ¬ log.fin < log.cur + entrySize := by omega
  simp only [TscLog.tsclog1, Nat.mod_eq_of_lt hlt, if_neg hle]

theorem TscLog.Placed.add (h : log.Placed count) (hroom : log.entries.length < 2 * count) :
    (log.tsclog1 e).Placed count := by
  rw [h.tsclog1 hroom]
  refine ⟨?_, h.fin, h.fits⟩
  simp only [List.length_append, List.length_singleton, Nat.mul_add, Nat.mul_one, h.cur,
    Nat.add_assoc]

theorem TscLog.Holds.add (h : log.Holds clock k value) (hlog : log.Placed count)
    (hroom : k < 2 * count) (hclock : clock ≤ e.tsc) (hvalue : e.value = value k) :
    (log.tsclog1 e).Holds e.tsc (k + 1) value := by
  rw [hlog.tsclog1 (h.length ▸ hroom)]
  refine ⟨?_, h.overflow, ?_⟩
  · simp only [List.length_append, List.length_singleton, h.length]
  · intro j d hd
    rcases getElem?_snoc hd with hd | ⟨rfl, rfl⟩
    · obtain ⟨hj, hle⟩ := h.stamps j d hd
      exact ⟨hj, Nat.le_trans hle hclock⟩
    · rw [h.length]
      exact ⟨hvalue, Nat.le_refl _⟩

/-- Time goes on. -/
theorem TscLog.Holds.later (h : log.Holds clock k value) {tsc : ℕ} (hclock : clock ≤ tsc) :
    log.Holds tsc k value := by
  refine ⟨h.length, h.overflow, ?_⟩
  intro j e he
  obtain ⟨hj, hle⟩ := h.stamps j e he
  exact ⟨hj, Nat.le_trans hle hclock⟩

end Add

/-! ## Both logs -/

/-- The values of the entries of `sleeper`, and those of `waker`. -/
def sleeperValue (j : ℕ) : Value := if j % 2 = 0 then .read else .write

def wakerValue (j : ℕ) : Value := if j % 2 = 0 then .write else .read

/-- The thread that writes is not later than the one that reads. -/
def InOrder (sc wc : TscLogEntry) : Prop :=
  if sc.value = .read then wc.tsc ≤ sc.tsc else sc.tsc ≤ wc.tsc

def Ordered (slp wkr : List TscLogEntry) : Prop :=
  ∀ (j : ℕ) (sc wc : TscLogEntry), slp[j]? = some sc → wkr[j]? = some wc → InOrder sc wc

/-- The entries of `sleeper` after `b` steps, and those of `waker` after `a` steps. -/
def slpCount (b : ℕ) : ℕ := (b + 2) / 4 + (b + 1) / 4

def wkrCount (a : ℕ) : ℕ := (a + 3) / 4 + a / 4

section Counts

variable {a b : ℕ}

theorem slpCount_quiet (hb : b % 4 = 0 ∨ b % 4 = 3) : slpCount (b + 1) = slpCount b := by
  rw [slpCount, slpCount]
  omega

theorem slpCount_adds (hb : b % 4 = 1 ∨ b % 4 = 2) : slpCount (b + 1) = slpCount b + 1 := by
  rw [slpCount, slpCount]
  omega

theorem wkrCount_quiet (ha : a % 4 = 1 ∨ a % 4 = 2) : wkrCount (a + 1) = wkrCount a := by
  rw [wkrCount, wkrCount]
  omega

theorem wkrCount_adds (ha : a % 4 = 0 ∨ a % 4 = 3) : wkrCount (a + 1) = wkrCount a + 1 := by
  rw [wkrCount, wkrCount]
  omega

end Counts

section Ordered

variable {slp wkr : List TscLogEntry} {e : TscLogEntry}

theorem Ordered.sleeper_add (h : Ordered slp wkr)
    (he : ∀ wc, wkr[slp.length]? = some wc → InOrder e wc) : Ordered (slp ++ [e]) wkr := by
  intro j sc wc hsc hwc
  rcases getElem?_snoc hsc with hsc | ⟨rfl, rfl⟩
  · exact h j sc wc hsc hwc
  · exact he wc hwc

theorem Ordered.waker_add (h : Ordered slp wkr)
    (he : ∀ sc, slp[wkr.length]? = some sc → InOrder sc e) : Ordered slp (wkr ++ [e]) := by
  intro j sc wc hsc hwc
  rcases getElem?_snoc hwc with hwc | ⟨rfl, rfl⟩
  · exact h j sc wc hsc hwc
  · exact he sc hsc

end Ordered

namespace Tester

def slpEntries (s : Tester) : ℕ := slpCount s.slept

def wkrEntries (s : Tester) : ℕ := wkrCount s.woken

structure Logs (count : ℕ) (s : Tester) : Prop where
  slp : s.sleeper.log.Holds s.clock s.slpEntries sleeperValue
  wkr : s.waker.log.Holds s.clock s.wkrEntries wakerValue
  slpPlaced : s.sleeper.pc ≠ .start → s.sleeper.log.Placed count
  wkrPlaced : s.waker.pc ≠ .start → s.waker.log.Placed count
  ordered : Ordered s.sleeper.log.entries s.waker.log.entries

section Logs

variable {s s' : Tester} {a : Input} {out : Output}

theorem logs_start (h : Start s) : s.Logs count := by
  obtain ⟨hpc, hi, hentries⟩ := h.sleeper
  obtain ⟨hpc', hi', hentries'⟩ := h.waker
  have hnone : ∀ (j : ℕ) (e : TscLogEntry), ([] : List TscLogEntry)[j]? ≠ some e := by
    intro j e he
    cases he
  have hslp : s.slpEntries = 0 := by rw [slpEntries, slept_eq (k := 0) hpc rfl, hi]; rfl
  have hwkr : s.wkrEntries = 0 := by rw [wkrEntries, woken_eq (k := 0) hpc' rfl, hi']; rfl
  refine ⟨?_, ?_, fun hstart => absurd hpc hstart, fun hstart => absurd hpc' hstart, ?_⟩
  · rw [hslp]
    refine ⟨by rw [hentries]; rfl, h.overflow.1, ?_⟩
    intro j e he
    rw [hentries] at he
    exact absurd he (hnone j e)
  · rw [hwkr]
    refine ⟨by rw [hentries']; rfl, h.overflow.2, ?_⟩
    intro j e he
    rw [hentries'] at he
    exact absurd he (hnone j e)
  · intro j sc wc hsc
    rw [hentries] at hsc
    exact absurd hsc (hnone j sc)

/-- A step that makes no entry. -/
theorem Logs.quiet (hs : s.Logs count) (hslp : s'.sleeper.log = s.sleeper.log)
    (hwkr : s'.waker.log = s.waker.log) (hclock : s'.clock = s.clock)
    (hslept : s'.slpEntries = s.slpEntries) (hwoken : s'.wkrEntries = s.wkrEntries)
    (hslpStart : s'.sleeper.pc ≠ .start → s.sleeper.pc ≠ .start)
    (hwkrStart : s'.waker.pc ≠ .start → s.waker.pc ≠ .start) : s'.Logs count := by
  refine ⟨?_, ?_, ?_, ?_, ?_⟩
  · rw [hslp, hclock, hslept]
    exact hs.slp
  · rw [hwkr, hclock, hwoken]
    exact hs.wkr
  · intro hpc
    rw [hslp]
    exact hs.slpPlaced (hslpStart hpc)
  · intro hpc
    rw [hwkr]
    exact hs.wkrPlaced (hwkrStart hpc)
  · rw [hslp, hwkr]
    exact hs.ordered

/-- An entry of `sleeper`, which leaves it as `t`. -/
theorem Logs.slp_add (hs : s.Logs count) {e : TscLogEntry} {t : Thread}
    (hlog : t.log = s.sleeper.log.tsclog1 e) (hstart : s.sleeper.pc ≠ .start)
    (hclock : s.clock ≤ e.tsc) {k : ℕ} (hk : s.slpEntries = k) (hroom : k < 2 * count)
    (hk' : slpEntries ⟨s.efd1, s.efd2, t, s.waker, e.tsc⟩ = k + 1)
    (hvalue : e.value = sleeperValue k)
    (horder : ∀ wc, s.waker.log.entries[k]? = some wc → InOrder e wc) :
    Logs count ⟨s.efd1, s.efd2, t, s.waker, e.tsc⟩ := by
  have hplaced := hs.slpPlaced hstart
  have hholds := hs.slp
  rw [hk] at hholds
  refine ⟨?_, hs.wkr.later hclock, fun _ => ?_, hs.wkrPlaced, ?_⟩
  · rw [hk']
    change t.log.Holds e.tsc (k + 1) sleeperValue
    rw [hlog]
    exact hholds.add hplaced hroom hclock hvalue
  · change t.log.Placed count
    rw [hlog]
    exact hplaced.add (hholds.length ▸ hroom)
  · change Ordered t.log.entries s.waker.log.entries
    rw [hlog, hplaced.tsclog1 (hholds.length ▸ hroom)]
    apply hs.ordered.sleeper_add
    rw [hholds.length]
    exact horder

/-- An entry of `waker`, which leaves it as `t`. -/
theorem Logs.wkr_add (hs : s.Logs count) {e : TscLogEntry} {t : Thread}
    (hlog : t.log = s.waker.log.tsclog1 e) (hstart : s.waker.pc ≠ .start)
    (hclock : s.clock ≤ e.tsc) {k : ℕ} (hk : s.wkrEntries = k) (hroom : k < 2 * count)
    (hk' : wkrEntries ⟨s.efd1, s.efd2, s.sleeper, t, e.tsc⟩ = k + 1)
    (hvalue : e.value = wakerValue k)
    (horder : ∀ sc, s.sleeper.log.entries[k]? = some sc → InOrder sc e) :
    Logs count ⟨s.efd1, s.efd2, s.sleeper, t, e.tsc⟩ := by
  have hplaced := hs.wkrPlaced hstart
  have hholds := hs.wkr
  rw [hk] at hholds
  refine ⟨hs.slp.later hclock, ?_, hs.slpPlaced, fun _ => ?_, ?_⟩
  · rw [hk']
    change t.log.Holds e.tsc (k + 1) wakerValue
    rw [hlog]
    exact hholds.add hplaced hroom hclock hvalue
  · change t.log.Placed count
    rw [hlog]
    exact hplaced.add (hholds.length ▸ hroom)
  · change Ordered s.sleeper.log.entries t.log.entries
    rw [hlog, hplaced.tsclog1 (hholds.length ▸ hroom)]
    apply hs.ordered.waker_add
    rw [hholds.length]
    exact horder

theorem Logs.slp_starts (hs : s.Logs count) {base : ℕ} {t : Thread}
    (hbase : base + 2 * count * entrySize < 2 ^ 64)
    (hlog : t.log = SchedulerLatency.initLogger base count) (hi : t.i = 0)
    (hpc : t.pc.slept = 0) : Logs count ⟨s.efd1, s.efd2, t, s.waker, s.clock⟩ := by
  have hk : slpEntries ⟨s.efd1, s.efd2, t, s.waker, s.clock⟩ = 0 := by
    rw [slpEntries, slept, hpc, hi]
    rfl
  refine ⟨?_, hs.wkr, fun _ => ?_, hs.wkrPlaced, ?_⟩
  · rw [hk]
    change t.log.Holds s.clock 0 sleeperValue
    rw [hlog]
    exact holds_initLogger base s.clock sleeperValue
  · change t.log.Placed count
    rw [hlog]
    exact placed_initLogger hbase
  · intro j sc wc hsc
    change t.log.entries[j]? = some sc at hsc
    rw [hlog] at hsc
    cases hsc

theorem Logs.wkr_starts (hs : s.Logs count) {base : ℕ} {t : Thread}
    (hbase : base + 2 * count * entrySize < 2 ^ 64)
    (hlog : t.log = SchedulerLatency.initLogger base count) (hi : t.i = 0)
    (hpc : t.pc.woken = 0) : Logs count ⟨s.efd1, s.efd2, s.sleeper, t, s.clock⟩ := by
  have hk : wkrEntries ⟨s.efd1, s.efd2, s.sleeper, t, s.clock⟩ = 0 := by
    rw [wkrEntries, woken, hpc, hi]
    rfl
  refine ⟨hs.slp, ?_, hs.slpPlaced, fun _ => ?_, ?_⟩
  · rw [hk]
    change t.log.Holds s.clock 0 wakerValue
    rw [hlog]
    exact holds_initLogger base s.clock wakerValue
  · change t.log.Placed count
    rw [hlog]
    exact placed_initLogger hbase
  · intro j sc wc _ hwc
    change t.log.entries[j]? = some wc at hwc
    rw [hlog] at hwc
    cases hwc

theorem Stepped.logs (ht : s.Turns count) (hs : s.Logs count)
    (h : Stepped count s a s' out) : s'.Logs count := by
  have hrunning : ∀ {t : Thread} {pc : Pc}, t.pc = pc → pc ≠ .start → t.pc ≠ .start := by
    intro t pc hpc hne
    rw [hpc]
    exact hne
  cases h with
  | sleeperStarts hpc hbase => exact hs.slp_starts hbase rfl rfl loop_slept
  | wakerStarts hpc hbase => exact hs.wkr_starts hbase rfl rfl loop_woken
  | sleeperReads hpc hefd =>
      refine hs.quiet (by rfl) (by rfl) (by rfl) ?_ (by rfl) ?_ id
      · rw [slpEntries, slpEntries, slept_eq (k := 0) hpc rfl]
        exact slpCount_quiet (.inl (Nat.mul_mod_right 4 _))
      · exact fun _ => hrunning hpc (by decide)
  | @sleeperAddsRead tsc hpc hclock hlt =>
      have hi := ht.sleeper.lt hpc (by decide)
      have hk : s.slpEntries = 2 * s.sleeper.i := by
        rw [slpEntries, slpCount, slept_eq (k := 1) hpc rfl]
        omega
      refine hs.slp_add (e := ⟨tsc, .read⟩) rfl (hrunning hpc (by decide)) hclock hk ?_ ?_ ?_ ?_
      · omega
      · change (4 * s.sleeper.i + 2 + 2) / 4 + (4 * s.sleeper.i + 2 + 1) / 4 = _
        omega
      · rw [sleeperValue, if_pos (Nat.mul_mod_right 2 _)]
      · intro wc hwc
        rw [InOrder, if_pos rfl]
        exact Nat.le_trans (hs.wkr.stamps _ wc hwc).2 hclock
  | @sleeperAddsWrite tsc hpc hclock hlt =>
      have hi := ht.sleeper.lt hpc (by decide)
      have hslept : s.slept = 4 * s.sleeper.i + 2 := slept_eq hpc rfl
      have hk : s.slpEntries = 2 * s.sleeper.i + 1 := by
        rw [slpEntries, slpCount, hslept]
        omega
      have hwkr : s.wkrEntries = 2 * s.sleeper.i + 1 := by
        have h1 := ht.efd1
        have h2 := ht.efd2
        rw [hslept] at h1 h2
        rw [wkrEntries, wkrCount]
        omega
      refine hs.slp_add (e := ⟨tsc, .write⟩) rfl (hrunning hpc (by decide)) hclock hk ?_ ?_ ?_ ?_
      · omega
      · change (4 * s.sleeper.i + 3 + 2) / 4 + (4 * s.sleeper.i + 3 + 1) / 4 = _
        omega
      · have hodd : (2 * s.sleeper.i + 1) % 2 ≠ 0 := by omega
        rw [sleeperValue, if_neg hodd]
      · intro wc hwc
        have hlt := (List.getElem?_eq_some_iff.mp hwc).1
        rw [hs.wkr.length, hwkr] at hlt
        exact absurd hlt (Nat.lt_irrefl _)
  | sleeperWrites hpc =>
      refine hs.quiet (by rfl) (by rfl) (by rfl) ?_ (by rfl) ?_ id
      · rw [slpEntries, slpEntries, slept_eq (k := 3) hpc rfl, slept, Thread.next, loop_slept]
        exact slpCount_quiet (.inr (Nat.mul_add_mod 4 s.sleeper.i 3))
      · exact fun _ => hrunning hpc (by decide)
  | @wakerAddsWrite tsc hpc hclock hlt =>
      have hi := ht.waker.lt hpc (by decide)
      have hwoken : s.woken = 4 * s.waker.i := woken_eq hpc rfl
      have hk : s.wkrEntries = 2 * s.waker.i := by
        rw [wkrEntries, wkrCount, hwoken]
        omega
      have hslp : s.slpEntries = 2 * s.waker.i := by
        have h1 := ht.efd1
        have h2 := ht.efd2
        rw [hwoken] at h1 h2
        rw [slpEntries, slpCount]
        omega
      refine hs.wkr_add (e := ⟨tsc, .write⟩) rfl (hrunning hpc (by decide)) hclock hk ?_ ?_ ?_ ?_
      · omega
      · change (4 * s.waker.i + 1 + 3) / 4 + (4 * s.waker.i + 1) / 4 = _
        omega
      · rw [wakerValue, if_pos (Nat.mul_mod_right 2 _)]
      · intro sc hsc
        have hlt := (List.getElem?_eq_some_iff.mp hsc).1
        rw [hs.slp.length, hslp] at hlt
        exact absurd hlt (Nat.lt_irrefl _)
  | wakerWrites hpc =>
      refine hs.quiet (by rfl) (by rfl) (by rfl) (by rfl) ?_ id ?_
      · rw [wkrEntries, wkrEntries, woken_eq (k := 1) hpc rfl]
        exact wkrCount_quiet (.inl (Nat.mul_add_mod 4 s.waker.i 1))
      · exact fun _ => hrunning hpc (by decide)
  | wakerReads hpc hefd =>
      refine hs.quiet (by rfl) (by rfl) (by rfl) (by rfl) ?_ id ?_
      · rw [wkrEntries, wkrEntries, woken_eq (k := 2) hpc rfl]
        exact wkrCount_quiet (.inr (Nat.mul_add_mod 4 s.waker.i 2))
      · exact fun _ => hrunning hpc (by decide)
  | @wakerAddsRead tsc hpc hclock hlt =>
      have hi := ht.waker.lt hpc (by decide)
      have hk : s.wkrEntries = 2 * s.waker.i + 1 := by
        rw [wkrEntries, wkrCount, woken_eq (k := 3) hpc rfl]
        omega
      have hodd : (2 * s.waker.i + 1) % 2 ≠ 0 := by omega
      refine hs.wkr_add (e := ⟨tsc, .read⟩) rfl (hrunning hpc (by decide)) hclock hk ?_ ?_ ?_ ?_
      · omega
      · rw [wkrEntries, woken, Thread.next, loop_woken]
        change (4 * (s.waker.i + 1) + 0 + 3) / 4 + (4 * (s.waker.i + 1) + 0) / 4 = _
        omega
      · rw [wakerValue, if_neg hodd]
      · intro sc hsc
        obtain ⟨hvalue, hle⟩ := hs.slp.stamps _ sc hsc
        rw [sleeperValue, if_neg hodd] at hvalue
        have hne : sc.value ≠ .read := by
          rw [hvalue]
          decide
        rw [InOrder, if_neg hne]
        exact Nat.le_trans hle hclock

theorem reaches_logs {tr : List (Input × Output)} (h : (tester count).Reaches tr s) :
    s.Logs count := by
  refine h.invariant (P := fun _ s => s.Logs count) (fun s hs => logs_start hs) ?_
  intro tr s a out t hreach hs hstep
  exact (step_spec hstep).logs (reaches_turns hreach).1 hs

end Logs

end Tester

/-! ## Hand-overs

Each write to an eventfd hands over to the thread that waits for it. The hand-overs of an
eventfd are numbered from one on, in the order of these writes.
-/

/-- The eventfd that a thread reads, and the one that it writes. -/
def Side.reads : Side → Efd
  | .sleeper => .efd1
  | .waker => .efd2

def Side.writes : Side → Efd
  | .sleeper => .efd2
  | .waker => .efd1

/-- How much was written to an eventfd and taken from it so far, and which hand-overs the
entries of a log belong to. -/
structure History where
  written : Efd → ℕ
  taken : Efd → ℕ
  handOvers : Side → List (Efd × ℕ)

/-- An entry for a read is made behind it, one for a write ahead of it. -/
def History.handOver (h : History) (t : Side) : Value → Efd × ℕ
  | .read => (t.reads, h.taken t.reads)
  | .write => (t.writes, h.written t.writes + 1)

def History.next (h : History) : Output → History
  | .silent => h
  | .stamped t value =>
      { h with
        handOvers := Function.update h.handOvers t (h.handOvers t ++ [h.handOver t value]) }
  | .wrote efd => { h with written := Function.update h.written efd (h.written efd + 1) }
  | .took efd val => { h with taken := Function.update h.taken efd (h.taken efd + val) }

def history (tr : List (Input × Output)) : History :=
  tr.foldl (fun h x => h.next x.2) ⟨fun _ => 0, fun _ => 0, fun _ => []⟩

theorem history_snoc (tr : List (Input × Output)) (a : Input) (out : Output) :
    history (tr ++ [(a, out)]) = (history tr).next out := by
  rw [history, List.foldl_append]
  rfl

/-- The hand-over that the entries at place `j` belong to. -/
def handOverAt (j : ℕ) : Efd × ℕ := (if j % 2 = 0 then .efd1 else .efd2, j / 2 + 1)

/-- How both threads go on with a step, after `b` steps of `sleeper` and `a` of `waker`. -/
inductive Moved (b a : ℕ) : Output → ℕ → ℕ → Prop
  | starts : Moved b a .silent b a
  | sleeperReads : b % 4 = 0 → Moved b a (.took .efd1 1) (b + 1) a
  | sleeperAddsRead : b % 4 = 1 → Moved b a (.stamped .sleeper .read) (b + 1) a
  | sleeperAddsWrite : b % 4 = 2 → Moved b a (.stamped .sleeper .write) (b + 1) a
  | sleeperWrites : b % 4 = 3 → Moved b a (.wrote .efd2) (b + 1) a
  | wakerAddsWrite : a % 4 = 0 → Moved b a (.stamped .waker .write) b (a + 1)
  | wakerWrites : a % 4 = 1 → Moved b a (.wrote .efd1) b (a + 1)
  | wakerReads : a % 4 = 2 → Moved b a (.took .efd2 1) b (a + 1)
  | wakerAddsRead : a % 4 = 3 → Moved b a (.stamped .waker .read) b (a + 1)

/-- What has happened in so many steps. -/
structure History.Tells (h : History) (b a : ℕ) : Prop where
  written1 : h.written .efd1 = (a + 2) / 4
  written2 : h.written .efd2 = b / 4
  taken1 : h.taken .efd1 = (b + 3) / 4
  taken2 : h.taken .efd2 = (a + 1) / 4
  slp : h.handOvers .sleeper = (List.range (slpCount b)).map handOverAt
  wkr : h.handOvers .waker = (List.range (wkrCount a)).map handOverAt

theorem map_range_succ {α : Type*} (f : ℕ → α) {n m : ℕ} (h : m = n + 1) :
    (List.range m).map f = (List.range n).map f ++ [f n] := by
  rw [h, List.range_succ, List.map_append]
  rfl

theorem Moved.tells {h : History} {b a b' a' : ℕ} {out : Output} (hs : h.Tells b a)
    (hmoved : Moved b a out b' a') : (h.next out).Tells b' a' := by
  obtain ⟨hw1, hw2, ht1, ht2, hslp, hwkr⟩ := hs
  cases hmoved with
  | starts => exact ⟨hw1, hw2, ht1, ht2, hslp, hwkr⟩
  | sleeperReads hb =>
      refine ⟨hw1, ?_, ?_, ht2, ?_, hwkr⟩
      · rw [History.next, hw2]
        omega
      · simp only [History.next, Function.update_self, ht1]
        omega
      · rw [slpCount_quiet (.inl hb)]
        exact hslp
  | sleeperAddsRead hb =>
      have hplace : handOverAt (slpCount b) = (.efd1, (b + 3) / 4) := by
        have heven : slpCount b % 2 = 0 := by rw [slpCount]; omega
        have hnumber : slpCount b / 2 + 1 = (b + 3) / 4 := by rw [slpCount]; omega
        rw [handOverAt, if_pos heven, hnumber]
      refine ⟨hw1, ?_, ?_, ht2, ?_, hwkr⟩
      · rw [History.next, hw2]
        omega
      · rw [History.next, ht1]
        omega
      · rw [map_range_succ handOverAt (slpCount_adds (.inl hb)), hplace, ← hslp, ← ht1]
        rfl
  | sleeperAddsWrite hb =>
      have hplace : handOverAt (slpCount b) = (.efd2, b / 4 + 1) := by
        have hodd : slpCount b % 2 ≠ 0 := by rw [slpCount]; omega
        have hnumber : slpCount b / 2 + 1 = b / 4 + 1 := by rw [slpCount]; omega
        rw [handOverAt, if_neg hodd, hnumber]
      refine ⟨hw1, ?_, ?_, ht2, ?_, hwkr⟩
      · rw [History.next, hw2]
        omega
      · rw [History.next, ht1]
        omega
      · rw [map_range_succ handOverAt (slpCount_adds (.inr hb)), hplace, ← hslp, ← hw2]
        rfl
  | sleeperWrites hb =>
      refine ⟨hw1, ?_, ?_, ht2, ?_, hwkr⟩
      · simp only [History.next, Function.update_self, hw2]
        omega
      · rw [History.next, ht1]
        omega
      · rw [slpCount_quiet (.inr hb)]
        exact hslp
  | wakerAddsWrite ha =>
      have hplace : handOverAt (wkrCount a) = (.efd1, (a + 2) / 4 + 1) := by
        have heven : wkrCount a % 2 = 0 := by rw [wkrCount]; omega
        have hnumber : wkrCount a / 2 + 1 = (a + 2) / 4 + 1 := by rw [wkrCount]; omega
        rw [handOverAt, if_pos heven, hnumber]
      refine ⟨?_, hw2, ht1, ?_, hslp, ?_⟩
      · rw [History.next, hw1]
        omega
      · rw [History.next, ht2]
        omega
      · rw [map_range_succ handOverAt (wkrCount_adds (.inl ha)), hplace, ← hwkr, ← hw1]
        rfl
  | wakerWrites ha =>
      refine ⟨?_, hw2, ht1, ?_, hslp, ?_⟩
      · simp only [History.next, Function.update_self, hw1]
        omega
      · rw [History.next, ht2]
        omega
      · rw [wkrCount_quiet (.inl ha)]
        exact hwkr
  | wakerReads ha =>
      refine ⟨?_, hw2, ht1, ?_, hslp, ?_⟩
      · rw [History.next, hw1]
        omega
      · simp only [History.next, Function.update_self, ht2]
        omega
      · rw [wkrCount_quiet (.inr ha)]
        exact hwkr
  | wakerAddsRead ha =>
      have hplace : handOverAt (wkrCount a) = (.efd2, (a + 1) / 4) := by
        have hodd : wkrCount a % 2 ≠ 0 := by rw [wkrCount]; omega
        have hnumber : wkrCount a / 2 + 1 = (a + 1) / 4 := by rw [wkrCount]; omega
        rw [handOverAt, if_neg hodd, hnumber]
      refine ⟨?_, hw2, ht1, ?_, hslp, ?_⟩
      · rw [History.next, hw1]
        omega
      · rw [History.next, ht2]
        omega
      · rw [map_range_succ handOverAt (wkrCount_adds (.inr ha)), hplace, ← hwkr, ← ht2]
        rfl

/-- A read takes one hand-over. -/
theorem Moved.took {b a b' a' : ℕ} {efd : Efd} {val : ℕ}
    (hmoved : Moved b a (.took efd val) b' a') : val = 1 := by
  cases hmoved with
  | sleeperReads => rfl
  | wakerReads => rfl

namespace Tester

section Moved

variable {s s' : Tester} {a : Input} {out : Output}

theorem Stepped.moved (hs : s.Turns count) (h : Stepped count s a s' out) :
    Moved s.slept s.woken out s'.slept s'.woken := by
  cases h with
  | @sleeperStarts base hpc hbase =>
      have hslept : s.slept = 0 := by rw [slept_eq (k := 0) hpc rfl, hs.starts.1 hpc]
      rw [hslept, slept_loop]
      exact .starts
  | wakerStarts hpc hbase =>
      have hwoken : s.woken = 0 := by rw [woken_eq (k := 0) hpc rfl, hs.starts.2 hpc]
      rw [hwoken, woken_loop]
      exact .starts
  | sleeperReads hpc hefd =>
      have hslept : s.slept = 4 * s.sleeper.i := slept_eq hpc rfl
      rw [hs.efd1_eq hpc hefd, hslept]
      apply Moved.sleeperReads
      omega
  | sleeperAddsRead hpc =>
      have hslept : s.slept = 4 * s.sleeper.i + 1 := slept_eq hpc rfl
      rw [hslept]
      apply Moved.sleeperAddsRead
      omega
  | sleeperAddsWrite hpc =>
      have hslept : s.slept = 4 * s.sleeper.i + 2 := slept_eq hpc rfl
      rw [hslept]
      apply Moved.sleeperAddsWrite
      omega
  | sleeperWrites hpc =>
      have hslept : s.slept = 4 * s.sleeper.i + 3 := slept_eq hpc rfl
      rw [hslept, Thread.next, slept_loop]
      apply Moved.sleeperWrites
      omega
  | wakerAddsWrite hpc =>
      have hwoken : s.woken = 4 * s.waker.i := woken_eq hpc rfl
      rw [hwoken]
      apply Moved.wakerAddsWrite
      omega
  | wakerWrites hpc =>
      have hwoken : s.woken = 4 * s.waker.i + 1 := woken_eq hpc rfl
      rw [hwoken]
      apply Moved.wakerWrites
      omega
  | wakerReads hpc hefd =>
      have hwoken : s.woken = 4 * s.waker.i + 2 := woken_eq hpc rfl
      rw [hs.efd2_eq hpc hefd, hwoken]
      apply Moved.wakerReads
      omega
  | wakerAddsRead hpc =>
      have hwoken : s.woken = 4 * s.waker.i + 3 := woken_eq hpc rfl
      rw [hwoken, Thread.next, woken_loop]
      apply Moved.wakerAddsRead
      omega

end Moved

theorem reaches_tells {tr : List (Input × Output)} {s : Tester}
    (h : (tester count).Reaches tr s) : (history tr).Tells s.slept s.woken ∧
      ∀ x ∈ tr, ∀ efd val, x.2 = .took efd val → val = 1 := by
  refine h.invariant (P := fun tr s => (history tr).Tells s.slept s.woken ∧
    ∀ x ∈ tr, ∀ efd val, x.2 = .took efd val → val = 1) ?_ ?_
  · intro s hs
    obtain ⟨hpc, hi, -⟩ := hs.sleeper
    obtain ⟨hpc', hi', -⟩ := hs.waker
    rw [slept_eq (k := 0) hpc rfl, woken_eq (k := 0) hpc' rfl, hi, hi']
    refine ⟨⟨rfl, rfl, rfl, rfl, rfl, rfl⟩, ?_⟩
    intro x hx
    cases hx
  · intro tr s a out t hreach ⟨htells, htook⟩ hstep
    have hmoved := (step_spec hstep).moved (reaches_turns hreach).1
    refine ⟨?_, ?_⟩
    · rw [history_snoc]
      exact hmoved.tells htells
    · intro x hx efd val hout
      rcases List.mem_append.mp hx with hx | hx
      · exact htook x hx efd val hout
      · rw [List.mem_singleton.mp hx] at hout
        change out = .took efd val at hout
        rw [hout] at hmoved
        exact hmoved.took

end Tester

/-! ## The table -/

/-- The latencies without the bounds of `size_t`. -/
def latency (sc wc : TscLogEntry) : ℕ :=
  if sc.value = .read then sc.tsc - wc.tsc else wc.tsc - sc.tsc

/-- A table of two logs in order has no subtraction below zero. -/
theorem writeTimes_eq {slp wkr : List TscLogEntry} (h : Ordered slp wkr)
    (hslp : ∀ e ∈ slp, e.tsc < 2 ^ 64) (hwkr : ∀ e ∈ wkr, e.tsc < 2 ^ 64) :
    writeTimes slp wkr = List.zipWith latency slp wkr := by
  induction slp generalizing wkr with
  | nil => rfl
  | cons sc slp ih =>
      cases wkr with
      | nil => rfl
      | cons wc wkr =>
          have hrest : Ordered slp wkr := fun j sc wc hsc hwc => h (j + 1) sc wc hsc hwc
          have hfirst : InOrder sc wc := h 0 sc wc rfl rfl
          have htail := ih hrest (fun e he => hslp e (List.mem_cons_of_mem _ he))
            fun e he => hwkr e (List.mem_cons_of_mem _ he)
          rw [writeTimes, List.zipWith_cons_cons, htail, latency]
          rw [InOrder] at hfirst
          split
          · rename_i hread
            rw [if_pos hread] at hfirst
            rw [sub64_eq hfirst (hslp sc List.mem_cons_self)]
          · rename_i hwrite
            rw [if_neg hwrite] at hfirst
            rw [sub64_eq hfirst (hwkr wc List.mem_cons_self)]

namespace Tester

variable {s : Tester} {tr : List (Input × Output)}

/-- The entries at one place are a read and a write of one hand-over, in this order. -/
def Paired (tr : List (Input × Output)) (s : Tester) : Prop :=
  ∀ (j : ℕ) (sc wc : TscLogEntry), s.sleeper.log.entries[j]? = some sc →
    s.waker.log.entries[j]? = some wc →
      (sc.value = .read ∧ wc.value = .write ∧ wc.tsc ≤ sc.tsc ∨
        sc.value = .write ∧ wc.value = .read ∧ sc.tsc ≤ wc.tsc) ∧
      ∃ handOver, ((history tr).handOvers .sleeper)[j]? = some handOver ∧
        ((history tr).handOvers .waker)[j]? = some handOver

/-- Both logs are full, and `write_times` gets to both ends at once: no latency is below
zero. -/
structure Complete (count : ℕ) (s : Tester) : Prop where
  slp : s.sleeper.log.entries.length = 2 * count
  wkr : s.waker.log.entries.length = 2 * count
  slpCur : s.sleeper.log.cur = s.sleeper.log.base + entrySize * (2 * count)
  wkrCur : s.waker.log.cur = s.waker.log.base + entrySize * (2 * count)
  times : writeTimes s.sleeper.log.entries s.waker.log.entries =
    List.zipWith latency s.sleeper.log.entries s.waker.log.entries

theorem paired (h : (tester count).Reaches tr s) : s.Paired tr := by
  have hlogs := reaches_logs h
  have htells := (reaches_tells h).1
  intro j sc wc hsc hwc
  have hj := (List.getElem?_eq_some_iff.mp hsc).1
  have hj' := (List.getElem?_eq_some_iff.mp hwc).1
  rw [hlogs.slp.length, slpEntries] at hj
  rw [hlogs.wkr.length, wkrEntries] at hj'
  have hvalue := (hlogs.slp.stamps j sc hsc).1
  have hvalue' := (hlogs.wkr.stamps j wc hwc).1
  have horder := hlogs.ordered j sc wc hsc hwc
  refine ⟨?_, handOverAt j, ?_, ?_⟩
  · rw [InOrder] at horder
    by_cases heven : j % 2 = 0
    · rw [sleeperValue, if_pos heven] at hvalue
      rw [wakerValue, if_pos heven] at hvalue'
      rw [if_pos hvalue] at horder
      exact .inl ⟨hvalue, hvalue', horder⟩
    · rw [sleeperValue, if_neg heven] at hvalue
      rw [wakerValue, if_neg heven] at hvalue'
      have hne : sc.value ≠ .read := by
        rw [hvalue]
        decide
      rw [if_neg hne] at horder
      exact .inr ⟨hvalue, hvalue', horder⟩
  · rw [htells.slp, List.getElem?_map, List.getElem?_range hj]
    rfl
  · rw [htells.wkr, List.getElem?_map, List.getElem?_range hj']
    rfl

theorem complete (h : (tester count).Reaches tr s) (hended : s.Ended) : s.Complete count := by
  obtain ⟨hpc, hpc'⟩ := hended
  have hlogs := reaches_logs h
  have hturns := (reaches_turns h).1
  have hi := hturns.sleeper
  rw [Thread.Within, hpc] at hi
  have hi' := hturns.waker
  rw [Thread.Within, hpc'] at hi'
  have hslp : s.sleeper.log.entries.length = 2 * count := by
    rw [hlogs.slp.length, slpEntries, slpCount, slept_eq (k := 0) hpc rfl, hi]
    omega
  have hwkr : s.waker.log.entries.length = 2 * count := by
    rw [hlogs.wkr.length, wkrEntries, wkrCount, woken_eq (k := 0) hpc' rfl, hi']
    omega
  have hplaced := hlogs.slpPlaced (by rw [hpc]; decide)
  have hplaced' := hlogs.wkrPlaced (by rw [hpc']; decide)
  refine ⟨hslp, hwkr, ?_, ?_, ?_⟩
  · rw [hplaced.cur, hslp]
  · rw [hplaced'.cur, hwkr]
  · apply writeTimes_eq hlogs.ordered
    · intro e he
      obtain ⟨j, hj⟩ := List.getElem?_of_mem he
      exact Nat.lt_of_le_of_lt (hlogs.slp.stamps j e hj).2 hturns.clock
    · intro e he
      obtain ⟨j, hj⟩ := List.getElem?_of_mem he
      exact Nat.lt_of_le_of_lt (hlogs.wkr.stamps j e hj).2 hturns.clock

/-- Every run of the test ends, with both logs complete, and all along the entries at one
place of both logs form a pair. -/
theorem handOvers_paired (h : (tester count).Reaches tr s)
    (hmem : 2 * count * entrySize < 2 ^ 64) :
    s.sleeper.log.overflow = false ∧ s.waker.log.overflow = false ∧ s.Paired tr ∧
      (∀ x ∈ tr, ∀ efd val, x.2 = .took efd val → val = 1) ∧
      tr.length ≤ 8 * count + 2 ∧ ((∀ a, (tester count).step s a = none) ↔ s.Ended) ∧
      (s.Ended → s.Complete count) := by
  obtain ⟨hturns, hlength⟩ := reaches_turns h
  have hlogs := reaches_logs h
  refine ⟨hlogs.slp.overflow, hlogs.wkr.overflow, paired h, (reaches_tells h).2, ?_, ?_,
    complete h⟩
  · have hstarted : ∀ t : Thread, t.started ≤ 1 := by
      intro t
      rw [Thread.started]
      split <;> decide
    have hslept := hturns.le.1
    have hwoken := hturns.le.2
    have hsleeper := hstarted s.sleeper
    have hwaker := hstarted s.waker
    rw [hlength, steps]
    omega
  · constructor
    · intro hstuck
      by_contra hended
      obtain ⟨a, ha⟩ := hturns.moves hmem hended
      have hnone : s.step count a = none := hstuck a
      rw [hnone] at ha
      cases ha
    · exact ended_stuck

end Tester

/-! ## One round -/

def fresh : Thread := ⟨0, .start, ⟨0, 0, 0, false, []⟩⟩

def testerStart : Tester := ⟨0, 0, fresh, fresh, 5⟩

theorem testerStart_start (count : ℕ) : (tester count).Init testerStart :=
  ⟨rfl, rfl, ⟨rfl, rfl, rfl⟩, ⟨rfl, rfl, rfl⟩, ⟨rfl, rfl⟩, by decide⟩

def oneRound : List Input :=
  [.initLogger .waker 64, .stamp .waker 10, .run .waker, .initLogger .sleeper 640,
    .run .sleeper, .stamp .sleeper 17, .stamp .sleeper 18, .run .sleeper, .run .waker,
    .stamp .waker 25]

theorem oneRound_runs : ((tester 1).exec testerStart oneRound).isSome := by decide

theorem handOvers_paired_oneRound :
    ∃ tr s, (tester 1).Reaches tr s ∧ s.Ended ∧ s.Paired tr ∧ s.Complete 1 ∧
      writeTimes s.sleeper.log.entries s.waker.log.entries = [7, 7] := by
  have hreach := Machine.reaches_exec_get (testerStart_start 1) oneRound_runs
  have hpaired := Tester.handOvers_paired hreach (by decide)
  have hended : (((tester 1).exec testerStart oneRound).get oneRound_runs).1.Ended := ⟨rfl, rfl⟩
  exact ⟨_, _, hreach, hended, hpaired.2.2.1, hpaired.2.2.2.2.2.2 hended, rfl⟩

end Upcalls.SchedulerLatency
