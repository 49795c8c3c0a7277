import Upcalls.Model.SchedulerLatency

/-! # Whose turn it is

How far each thread is decides the counters of both eventfds, so the threads take turns: one
of them can go on until both have returned.
-/

namespace Upcalls.SchedulerLatency

open Library

variable {count : ℕ}

namespace Tester

/-! ## Inversion -/

/-- What one step can do. -/
inductive Stepped (count : ℕ) (s : Tester) : Input → Tester → Output → Prop
  | sleeperStarts {base} : s.sleeper.pc = .start → base + 2 * count * entrySize < 2 ^ 64 →
      Stepped count s (.initLogger .sleeper base) { s with
        sleeper := Thread.loop count .read
          { s.sleeper with i := 0, log := SchedulerLatency.initLogger base count } } .silent
  | wakerStarts {base} : s.waker.pc = .start → base + 2 * count * entrySize < 2 ^ 64 →
      Stepped count s (.initLogger .waker base) { s with
        waker := Thread.loop count .addWrite
          { s.waker with i := 0, log := SchedulerLatency.initLogger base count } } .silent
  | sleeperReads : s.sleeper.pc = .read → s.efd1 ≠ 0 →
      Stepped count s (.run .sleeper)
        { s with efd1 := 0, sleeper := { s.sleeper with pc := .addRead } } (.took .efd1 s.efd1)
  | sleeperAddsRead {tsc} : s.sleeper.pc = .addRead → s.clock ≤ tsc → tsc < 2 ^ 64 →
      Stepped count s (.stamp .sleeper tsc) { s with
        clock := tsc
        sleeper := { s.sleeper.add tsc .read with pc := .addWrite } } (.stamped .sleeper .read)
  | sleeperAddsWrite {tsc} : s.sleeper.pc = .addWrite → s.clock ≤ tsc → tsc < 2 ^ 64 →
      Stepped count s (.stamp .sleeper tsc) { s with
        clock := tsc
        sleeper := { s.sleeper.add tsc .write with pc := .write } } (.stamped .sleeper .write)
  | sleeperWrites : s.sleeper.pc = .write →
      Stepped count s (.run .sleeper)
        { s with efd2 := s.efd2 + 1, sleeper := s.sleeper.next count .read } (.wrote .efd2)
  | wakerAddsWrite {tsc} : s.waker.pc = .addWrite → s.clock ≤ tsc → tsc < 2 ^ 64 →
      Stepped count s (.stamp .waker tsc) { s with
        clock := tsc
        waker := { s.waker.add tsc .write with pc := .write } } (.stamped .waker .write)
  | wakerWrites : s.waker.pc = .write →
      Stepped count s (.run .waker)
        { s with efd1 := s.efd1 + 1, waker := { s.waker with pc := .read } } (.wrote .efd1)
  | wakerReads : s.waker.pc = .read → s.efd2 ≠ 0 →
      Stepped count s (.run .waker)
        { s with efd2 := 0, waker := { s.waker with pc := .addRead } } (.took .efd2 s.efd2)
  | wakerAddsRead {tsc} : s.waker.pc = .addRead → s.clock ≤ tsc → tsc < 2 ^ 64 →
      Stepped count s (.stamp .waker tsc) { s with
        clock := tsc
        waker := (s.waker.add tsc .read).next count .addWrite } (.stamped .waker .read)

section Inversion

variable {s s' : Tester} {out : Output}

theorem initLogger_spec {t : Side} {base : ℕ} (h : s.initLogger count t base = some s') :
    Stepped count s (.initLogger t base) s' .silent := by
  rw [initLogger] at h
  split at h
  · rename_i hbase
    split at h
    · rename_i hpc
      cases Option.some.inj h
      exact .sleeperStarts hpc hbase
    · rename_i hpc
      cases Option.some.inj h
      exact .wakerStarts hpc hbase
    · cases h
  · cases h

theorem stamp_spec {t : Side} {tsc : ℕ} (h : s.stamp count t tsc = some (s', out)) :
    Stepped count s (.stamp t tsc) s' out := by
  rw [stamp] at h
  split at h
  · rename_i hclock
    obtain ⟨hle, hlt⟩ := hclock
    simp only at h
    split at h
    · rename_i hpc
      cases Option.some.inj h
      exact .sleeperAddsRead hpc hle hlt
    · rename_i hpc
      cases Option.some.inj h
      exact .sleeperAddsWrite hpc hle hlt
    · rename_i hpc
      cases Option.some.inj h
      exact .wakerAddsWrite hpc hle hlt
    · rename_i hpc
      cases Option.some.inj h
      exact .wakerAddsRead hpc hle hlt
    · cases h
  · cases h

theorem sleep_spec (h : s.sleep count = some (s', out)) :
    Stepped count s (.run .sleeper) s' out := by
  rw [sleep] at h
  split at h
  · rename_i hpc
    split at h
    · cases h
    · rename_i hefd
      cases Option.some.inj h
      exact .sleeperReads hpc hefd
  · rename_i hpc
    split at h
    · cases Option.some.inj h
      exact .sleeperWrites hpc
    · cases h
  · cases h

theorem wake_spec (h : s.wake = some (s', out)) : Stepped count s (.run .waker) s' out := by
  rw [wake] at h
  split at h
  · rename_i hpc
    split at h
    · cases Option.some.inj h
      exact .wakerWrites hpc
    · cases h
  · rename_i hpc
    split at h
    · cases h
    · rename_i hefd
      cases Option.some.inj h
      exact .wakerReads hpc hefd
  · cases h

theorem step_spec {a : Input} (h : s.step count a = some (s', out)) :
    Stepped count s a s' out := by
  cases a with
  | initLogger t base =>
      obtain ⟨u, hu, hpair⟩ := Option.map_eq_some_iff.mp h
      cases hpair
      exact initLogger_spec hu
  | stamp t tsc => exact stamp_spec h
  | run t =>
      cases t with
      | sleeper => exact sleep_spec h
      | waker => exact wake_spec h

end Inversion

end Tester

/-! ## How far the threads are -/

/-- How many steps of a round `sleeper` has behind it. -/
def Pc.slept : Pc → ℕ
  | .addRead => 1
  | .addWrite => 2
  | .write => 3
  | _ => 0

/-- The same for `waker`. -/
def Pc.woken : Pc → ℕ
  | .write => 1
  | .read => 2
  | .addRead => 3
  | _ => 0

/-- The rounds behind a thread fit to where it is. -/
def Thread.Within (count : ℕ) (t : Thread) : Prop :=
  match t.pc with
  | .start => t.i = 0
  | .returned => t.i = count
  | _ => t.i < count

def Thread.started (t : Thread) : ℕ := if t.pc = .start then 0 else 1

namespace Tester

/-- The steps of `sleeper` so far. -/
def slept (s : Tester) : ℕ := 4 * s.sleeper.i + s.sleeper.pc.slept

/-- The steps of `waker` so far. -/
def woken (s : Tester) : ℕ := 4 * s.waker.i + s.waker.pc.woken

/-- Both counters hold the writes that are not read. -/
structure Turns (count : ℕ) (s : Tester) : Prop where
  sleeper : s.sleeper.Within count
  waker : s.waker.Within count
  efd1 : s.efd1 + (s.slept + 3) / 4 = (s.woken + 2) / 4
  efd2 : s.efd2 + (s.woken + 1) / 4 = s.slept / 4
  clock : s.clock < 2 ^ 64

end Tester

section Loop

variable {t : Thread}

theorem loop_slept : (t.loop count .read).pc.slept = 0 := by
  simp only [Thread.loop]
  split <;> rfl

theorem loop_woken : (t.loop count .addWrite).pc.woken = 0 := by
  simp only [Thread.loop]
  split <;> rfl

/-- `body` is where the body of a loop begins. -/
theorem loop_within {body : Pc} (hbody : body = .read ∨ body = .addWrite) (hi : t.i ≤ count) :
    (t.loop count body).Within count := by
  simp only [Thread.loop]
  split
  · rename_i hlt
    rcases hbody with rfl | rfl
    · exact hlt
    · exact hlt
  · rename_i hge
    exact Nat.le_antisymm hi (Nat.le_of_not_lt hge)

theorem Thread.Within.lt (h : t.Within count) {pc : Pc} (hpc : t.pc = pc)
    (hbody : pc ≠ .start ∧ pc ≠ .returned) : t.i < count := by
  rw [Within, hpc] at h
  split at h
  · exact absurd rfl hbody.1
  · exact absurd rfl hbody.2
  · exact h

theorem Thread.Within.le (h : t.Within count) : t.i ≤ count := by
  rw [Within] at h
  split at h
  · rw [h]
    exact Nat.zero_le _
  · exact Nat.le_of_eq h
  · exact Nat.le_of_lt h

end Loop

namespace Tester

section Turns

variable {s s' : Tester} {a : Input} {out : Output}

theorem slept_eq {pc : Pc} {k : ℕ} (hpc : s.sleeper.pc = pc) (hk : pc.slept = k) :
    s.slept = 4 * s.sleeper.i + k := by
  rw [slept, hpc, hk]

theorem woken_eq {pc : Pc} {k : ℕ} (hpc : s.waker.pc = pc) (hk : pc.woken = k) :
    s.woken = 4 * s.waker.i + k := by
  rw [woken, hpc, hk]

theorem slept_loop {efd1 efd2 clock : ℕ} {t w : Thread} :
    slept ⟨efd1, efd2, t.loop count .read, w, clock⟩ = 4 * t.i := by
  rw [slept, loop_slept]
  rfl

theorem woken_loop {efd1 efd2 clock : ℕ} {t w : Thread} :
    woken ⟨efd1, efd2, t, w.loop count .addWrite, clock⟩ = 4 * w.i := by
  rw [woken, loop_woken]
  rfl

theorem turns_start (h : Start s) : s.Turns count := by
  obtain ⟨hpc, hi, -⟩ := h.sleeper
  obtain ⟨hpc', hi', -⟩ := h.waker
  have hslept : s.slept = 0 := by rw [slept, hpc, hi]; rfl
  have hwoken : s.woken = 0 := by rw [woken, hpc', hi']; rfl
  refine ⟨?_, ?_, ?_, ?_, h.clock⟩
  · rw [Thread.Within, hpc]
    exact hi
  · rw [Thread.Within, hpc']
    exact hi'
  · rw [hslept, hwoken, h.efd1]
  · rw [hslept, hwoken, h.efd2]

/-- What a step of `sleeper` leaves of the invariant to show. -/
theorem Turns.slept_step (hs : s.Turns count) {t : Thread} (ht : t.Within count) {k : ℕ}
    (hk : s.slept = k) (hk' : 4 * t.i + t.pc.slept = k + 1) {efd1 efd2 clock : ℕ}
    (hefd1 : efd1 + (k + 4) / 4 = s.efd1 + (k + 3) / 4)
    (hefd2 : efd2 + k / 4 = s.efd2 + (k + 1) / 4) (hclock : clock < 2 ^ 64) :
    Turns count ⟨efd1, efd2, t, s.waker, clock⟩ := by
  have hslept : slept ⟨efd1, efd2, t, s.waker, clock⟩ = k + 1 := hk'
  have hwoken : woken ⟨efd1, efd2, t, s.waker, clock⟩ = s.woken := rfl
  have h1 := hs.efd1
  have h2 := hs.efd2
  rw [hk] at h1 h2
  refine ⟨ht, hs.waker, ?_, ?_, hclock⟩
  · rw [hslept, hwoken]
    change efd1 + (k + 4) / 4 = _
    omega
  · rw [hslept, hwoken]
    change efd2 + _ = (k + 1) / 4
    omega

/-- The same for a step of `waker`. -/
theorem Turns.woken_step (hs : s.Turns count) {t : Thread} (ht : t.Within count) {k : ℕ}
    (hk : s.woken = k) (hk' : 4 * t.i + t.pc.woken = k + 1) {efd1 efd2 clock : ℕ}
    (hefd1 : efd1 + (k + 2) / 4 = s.efd1 + (k + 3) / 4)
    (hefd2 : efd2 + (k + 2) / 4 = s.efd2 + (k + 1) / 4) (hclock : clock < 2 ^ 64) :
    Turns count ⟨efd1, efd2, s.sleeper, t, clock⟩ := by
  have hwoken : woken ⟨efd1, efd2, s.sleeper, t, clock⟩ = k + 1 := hk'
  have hslept : slept ⟨efd1, efd2, s.sleeper, t, clock⟩ = s.slept := rfl
  have h1 := hs.efd1
  have h2 := hs.efd2
  rw [hk] at h1 h2
  refine ⟨hs.sleeper, ht, ?_, ?_, hclock⟩
  · rw [hslept, hwoken]
    change efd1 + _ = (k + 3) / 4
    omega
  · rw [hslept, hwoken]
    change efd2 + (k + 2) / 4 = _
    omega

/-- A counter that is not zero is one. -/
theorem Turns.efd1_eq (hs : s.Turns count) (hpc : s.sleeper.pc = .read) (h : s.efd1 ≠ 0) :
    s.efd1 = 1 := by
  have hslept : s.slept = 4 * s.sleeper.i := slept_eq hpc rfl
  have h1 := hs.efd1
  have h2 := hs.efd2
  rw [hslept] at h1 h2
  omega

theorem Turns.efd2_eq (hs : s.Turns count) (hpc : s.waker.pc = .read) (h : s.efd2 ≠ 0) :
    s.efd2 = 1 := by
  have hwoken : s.woken = 4 * s.waker.i + 2 := woken_eq hpc rfl
  have h1 := hs.efd1
  have h2 := hs.efd2
  rw [hwoken] at h1 h2
  omega

theorem Turns.starts (hs : s.Turns count) :
    (s.sleeper.pc = .start → s.sleeper.i = 0) ∧ (s.waker.pc = .start → s.waker.i = 0) := by
  constructor
  · intro hpc
    have hwithin := hs.sleeper
    rw [Thread.Within, hpc] at hwithin
    exact hwithin
  · intro hpc
    have hwithin := hs.waker
    rw [Thread.Within, hpc] at hwithin
    exact hwithin

theorem Stepped.turns (hs : s.Turns count) (h : Stepped count s a s' out) : s'.Turns count := by
  cases h with
  | sleeperStarts hpc hbase =>
      have hslept : s.slept = 0 := by rw [slept_eq (k := 0) hpc rfl, hs.starts.1 hpc]
      have h1 := hs.efd1
      have h2 := hs.efd2
      rw [hslept] at h1 h2
      refine ⟨loop_within (.inl rfl) (Nat.zero_le _), hs.waker, ?_, ?_, hs.clock⟩
      · rw [slept_loop]
        exact h1
      · rw [slept_loop]
        exact h2
  | wakerStarts hpc hbase =>
      have hwoken : s.woken = 0 := by rw [woken_eq (k := 0) hpc rfl, hs.starts.2 hpc]
      have h1 := hs.efd1
      have h2 := hs.efd2
      rw [hwoken] at h1 h2
      refine ⟨hs.sleeper, loop_within (.inr rfl) (Nat.zero_le _), ?_, ?_, hs.clock⟩
      · rw [woken_loop]
        exact h1
      · rw [woken_loop]
        exact h2
  | sleeperReads hpc hefd =>
      have hone := hs.efd1_eq hpc hefd
      refine hs.slept_step ?_ (slept_eq (k := 0) hpc rfl) rfl ?_ ?_ hs.clock
      · exact hs.sleeper.lt hpc (by decide)
      · omega
      · omega
  | sleeperAddsRead hpc _ hclock =>
      refine hs.slept_step ?_ (slept_eq (k := 1) hpc rfl) rfl ?_ ?_ hclock
      · exact hs.sleeper.lt hpc (by decide)
      · omega
      · omega
  | sleeperAddsWrite hpc _ hclock =>
      refine hs.slept_step ?_ (slept_eq (k := 2) hpc rfl) rfl ?_ ?_ hclock
      · exact hs.sleeper.lt hpc (by decide)
      · omega
      · omega
  | sleeperWrites hpc =>
      refine hs.slept_step ?_ (slept_eq (k := 3) hpc rfl) ?_ ?_ ?_ hs.clock
      · exact loop_within (.inl rfl) (hs.sleeper.lt hpc (by decide))
      · rw [Thread.next, loop_slept]
        rfl
      · omega
      · omega
  | wakerAddsWrite hpc _ hclock =>
      refine hs.woken_step ?_ (woken_eq (k := 0) hpc rfl) rfl ?_ ?_ hclock
      · exact hs.waker.lt hpc (by decide)
      · omega
      · omega
  | wakerWrites hpc =>
      refine hs.woken_step ?_ (woken_eq (k := 1) hpc rfl) rfl ?_ ?_ hs.clock
      · exact hs.waker.lt hpc (by decide)
      · omega
      · omega
  | wakerReads hpc hefd =>
      have hone := hs.efd2_eq hpc hefd
      refine hs.woken_step ?_ (woken_eq (k := 2) hpc rfl) rfl ?_ ?_ hs.clock
      · exact hs.waker.lt hpc (by decide)
      · omega
      · omega
  | wakerAddsRead hpc _ hclock =>
      refine hs.woken_step ?_ (woken_eq (k := 3) hpc rfl) ?_ ?_ ?_ hclock
      · exact loop_within (.inr rfl) (hs.waker.lt hpc (by decide))
      · rw [Thread.next, loop_woken]
        rfl
      · omega
      · omega

/-! ## Runs -/

theorem loop_started (t : Thread) {body : Pc} (hbody : body ≠ .start) :
    (t.loop count body).started = 1 := by
  rw [Thread.started, if_neg]
  simp only [Thread.loop]
  split
  · exact hbody
  · decide

theorem started_eq {t : Thread} {pc : Pc} (hpc : t.pc = pc) (h : pc ≠ .start) :
    t.started = 1 := by
  rw [Thread.started, hpc, if_neg h]

/-- The steps of both threads so far. -/
def steps (s : Tester) : ℕ := s.slept + s.sleeper.started + (s.woken + s.waker.started)

theorem Stepped.steps (hs : s.Turns count) (h : Stepped count s a s' out) :
    s'.steps = s.steps + 1 := by
  cases h with
  | sleeperStarts hpc hbase =>
      have hstarted : s.sleeper.started = 0 := if_pos hpc
      rw [Tester.steps, Tester.steps, slept_eq (k := 0) hpc rfl, hs.starts.1 hpc, hstarted,
        slept, loop_slept, loop_started _ (by decide)]
      change 4 * 0 + 0 + 1 + (s.woken + s.waker.started) = _
      omega
  | wakerStarts hpc hbase =>
      have hstarted : s.waker.started = 0 := if_pos hpc
      rw [Tester.steps, Tester.steps, woken_eq (k := 0) hpc rfl, hs.starts.2 hpc, hstarted,
        woken, loop_woken, loop_started _ (by decide)]
      change s.slept + s.sleeper.started + (4 * 0 + 0 + 1) = _
      omega
  | sleeperReads hpc hefd =>
      rw [Tester.steps, Tester.steps, slept_eq (k := 0) hpc rfl, started_eq hpc (by decide)]
      change 4 * s.sleeper.i + 1 + 1 + (s.woken + s.waker.started) = _
      omega
  | sleeperAddsRead hpc _ hclock =>
      rw [Tester.steps, Tester.steps, slept_eq (k := 1) hpc rfl, started_eq hpc (by decide)]
      change 4 * s.sleeper.i + 2 + 1 + (s.woken + s.waker.started) = _
      omega
  | sleeperAddsWrite hpc _ hclock =>
      rw [Tester.steps, Tester.steps, slept_eq (k := 2) hpc rfl, started_eq hpc (by decide)]
      change 4 * s.sleeper.i + 3 + 1 + (s.woken + s.waker.started) = _
      omega
  | sleeperWrites hpc =>
      rw [Tester.steps, Tester.steps, slept_eq (k := 3) hpc rfl, started_eq hpc (by decide),
        slept, Thread.next, loop_slept, loop_started _ (by decide)]
      change 4 * (s.sleeper.i + 1) + 0 + 1 + (s.woken + s.waker.started) = _
      omega
  | wakerAddsWrite hpc _ hclock =>
      rw [Tester.steps, Tester.steps, woken_eq (k := 0) hpc rfl, started_eq hpc (by decide)]
      change s.slept + s.sleeper.started + (4 * s.waker.i + 1 + 1) = _
      omega
  | wakerWrites hpc =>
      rw [Tester.steps, Tester.steps, woken_eq (k := 1) hpc rfl, started_eq hpc (by decide)]
      change s.slept + s.sleeper.started + (4 * s.waker.i + 2 + 1) = _
      omega
  | wakerReads hpc hefd =>
      rw [Tester.steps, Tester.steps, woken_eq (k := 2) hpc rfl, started_eq hpc (by decide)]
      change s.slept + s.sleeper.started + (4 * s.waker.i + 3 + 1) = _
      omega
  | wakerAddsRead hpc _ hclock =>
      rw [Tester.steps, Tester.steps, woken_eq (k := 3) hpc rfl, started_eq hpc (by decide),
        woken, Thread.next, loop_woken, loop_started _ (by decide)]
      change s.slept + s.sleeper.started + (4 * (s.waker.i + 1) + 0 + 1) = _
      omega

theorem Turns.le (hs : s.Turns count) : s.slept ≤ 4 * count ∧ s.woken ≤ 4 * count := by
  have hplace : ∀ pc : Pc, pc.slept ≤ 3 ∧ pc.woken ≤ 3 := by
    intro pc
    cases pc <;> decide
  constructor
  · by_cases hlt : s.sleeper.i < count
    · have hle := (hplace s.sleeper.pc).1
      rw [slept]
      omega
    · have hle := hs.sleeper.le
      have hzero : s.sleeper.pc.slept = 0 := by
        cases hpc : s.sleeper.pc with
        | start => rfl
        | returned => rfl
        | _ => exact absurd (hs.sleeper.lt hpc (by decide)) hlt
      rw [slept, hzero]
      omega
  · by_cases hlt : s.waker.i < count
    · have hle := (hplace s.waker.pc).2
      rw [woken]
      omega
    · have hle := hs.waker.le
      have hzero : s.waker.pc.woken = 0 := by
        cases hpc : s.waker.pc with
        | start => rfl
        | returned => rfl
        | _ => exact absurd (hs.waker.lt hpc (by decide)) hlt
      rw [woken, hzero]
      omega

theorem reaches_turns {tr : List (Input × Output)} (h : (tester count).Reaches tr s) :
    s.Turns count ∧ tr.length = s.steps := by
  refine h.invariant (P := fun tr s => s.Turns count ∧ tr.length = s.steps) ?_ ?_
  · intro s hs
    refine ⟨turns_start hs, ?_⟩
    obtain ⟨hpc, hi, -⟩ := hs.sleeper
    obtain ⟨hpc', hi', -⟩ := hs.waker
    rw [steps, slept_eq (k := 0) hpc rfl, woken_eq (k := 0) hpc' rfl, hi, hi',
      Thread.started, Thread.started, if_pos hpc, if_pos hpc']
    rfl
  · intro tr s a out t _ ⟨hs, hlength⟩ hstep
    have hstepped := step_spec hstep
    refine ⟨hstepped.turns hs, ?_⟩
    rw [List.length_append, hlength, hstepped.steps hs]
    rfl

/-! ## Progress -/

/-- Both threads have returned. -/
def Ended (s : Tester) : Prop := s.sleeper.pc = .returned ∧ s.waker.pc = .returned

/-- A thread that has not returned waits for the other one, or can go on. -/
theorem Turns.sleeper_moves (hs : s.Turns count) (hmem : 2 * count * entrySize < 2 ^ 64)
    (h : s.sleeper.pc ≠ .returned) (hread : s.sleeper.pc = .read → s.efd1 ≠ 0) :
    ∃ a, (s.step count a).isSome := by
  cases hpc : s.sleeper.pc with
  | start =>
      refine ⟨.initLogger .sleeper 0, ?_⟩
      simpa [step, initLogger, hpc] using hmem
  | read =>
      refine ⟨.run .sleeper, ?_⟩
      simp [step, sleep, hpc, hread hpc]
  | addRead =>
      refine ⟨.stamp .sleeper s.clock, ?_⟩
      simpa [step, stamp, hpc] using hs.clock
  | addWrite =>
      refine ⟨.stamp .sleeper s.clock, ?_⟩
      simpa [step, stamp, hpc] using hs.clock
  | write =>
      refine ⟨.run .sleeper, ?_⟩
      have hslept : s.slept = 4 * s.sleeper.i + 3 := slept_eq hpc rfl
      have h1 := hs.efd1
      have h2 := hs.efd2
      have hroom : s.efd2 < eventfdMax := by
        rw [hslept] at h1 h2
        rw [eventfdMax]
        omega
      simp [step, sleep, hpc, hroom]
  | returned => exact absurd hpc h

theorem Turns.waker_moves (hs : s.Turns count) (hmem : 2 * count * entrySize < 2 ^ 64)
    (h : s.waker.pc ≠ .returned) (hread : s.waker.pc = .read → s.efd2 ≠ 0) :
    ∃ a, (s.step count a).isSome := by
  cases hpc : s.waker.pc with
  | start =>
      refine ⟨.initLogger .waker 0, ?_⟩
      simpa [step, initLogger, hpc] using hmem
  | read =>
      refine ⟨.run .waker, ?_⟩
      simp [step, wake, hpc, hread hpc]
  | addRead =>
      refine ⟨.stamp .waker s.clock, ?_⟩
      simpa [step, stamp, hpc] using hs.clock
  | addWrite =>
      refine ⟨.stamp .waker s.clock, ?_⟩
      simpa [step, stamp, hpc] using hs.clock
  | write =>
      refine ⟨.run .waker, ?_⟩
      have hwoken : s.woken = 4 * s.waker.i + 1 := woken_eq hpc rfl
      have h1 := hs.efd1
      have h2 := hs.efd2
      have hroom : s.efd1 < eventfdMax := by
        rw [hwoken] at h1 h2
        rw [eventfdMax]
        omega
      simp [step, wake, hpc, hroom]
  | returned => exact absurd hpc h

/-- The threads never wait for each other. -/
theorem Turns.moves (hs : s.Turns count) (hmem : 2 * count * entrySize < 2 ^ 64)
    (h : ¬ s.Ended) : ∃ a, (s.step count a).isSome := by
  have h1 := hs.efd1
  have h2 := hs.efd2
  by_cases hreturned : s.sleeper.pc = .returned
  · have hi : s.sleeper.i = count := by
      have hwithin := hs.sleeper
      rw [Thread.Within, hreturned] at hwithin
      exact hwithin
    rw [slept_eq (k := 0) hreturned rfl, hi] at h1 h2
    apply hs.waker_moves hmem
    · intro hpc
      exact h ⟨hreturned, hpc⟩
    · intro hpc
      have hlt := hs.waker.lt hpc (by decide)
      rw [woken_eq (k := 2) hpc rfl] at h1 h2
      omega
  · by_cases hwaits : s.sleeper.pc = .read ∧ s.efd1 = 0
    · obtain ⟨hread, hefd⟩ := hwaits
      have hlt := hs.sleeper.lt hread (by decide)
      rw [slept_eq (k := 0) hread rfl, hefd] at h1
      rw [slept_eq (k := 0) hread rfl] at h2
      apply hs.waker_moves hmem
      · intro hpc
        have hi : s.waker.i = count := by
          have hwithin := hs.waker
          rw [Thread.Within, hpc] at hwithin
          exact hwithin
        rw [woken_eq (k := 0) hpc rfl, hi] at h1
        omega
      · intro hpc
        rw [woken_eq (k := 2) hpc rfl] at h1 h2
        omega
    · exact hs.sleeper_moves hmem hreturned fun hpc hefd => hwaits ⟨hpc, hefd⟩

theorem ended_stuck (h : s.Ended) (a : Input) : s.step count a = none := by
  cases hstep : s.step count a with
  | none => rfl
  | some x =>
      obtain ⟨hsleeper, hwaker⟩ := h
      obtain ⟨t, out⟩ := x
      have hstepped := step_spec hstep
      exfalso
      cases hstepped with
      | sleeperStarts hpc => cases hsleeper.symm.trans hpc
      | wakerStarts hpc => cases hwaker.symm.trans hpc
      | sleeperReads hpc => cases hsleeper.symm.trans hpc
      | sleeperAddsRead hpc => cases hsleeper.symm.trans hpc
      | sleeperAddsWrite hpc => cases hsleeper.symm.trans hpc
      | sleeperWrites hpc => cases hsleeper.symm.trans hpc
      | wakerAddsWrite hpc => cases hwaker.symm.trans hpc
      | wakerWrites hpc => cases hwaker.symm.trans hpc
      | wakerReads hpc => cases hwaker.symm.trans hpc
      | wakerAddsRead hpc => cases hwaker.symm.trans hpc

end Turns

end Tester

end Upcalls.SchedulerLatency
