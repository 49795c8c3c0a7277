import Upcalls.Model.Startup

/-! # The barriers between the main thread and the workers

As long as all workers belong to one call of `upcall_init`, `g_init_count` counts those that
have completed their setup, and nobody waits for something that has happened already.
-/

namespace Upcalls.Startup

open Library

variable {nr : ℕ}

/-! ## What the threads have behind them -/

/-- The main thread is between `pthread_mutex_lock` and `pthread_mutex_unlock`. -/
def MainPc.holds : MainPc → Bool
  | .check | .sleep | .unlock | .setGo | .broadcast | .goUnlock => true
  | _ => false

/-- It has left the loop around `g_init_count`. -/
def MainPc.ready : MainPc → Bool
  | .unlock | .inited | .goLock | .setGo | .broadcast | .goUnlock | .done => true
  | _ => false

/-- It has set `g_go`. -/
def MainPc.gone : MainPc → Bool
  | .broadcast | .goUnlock | .done => true
  | _ => false

def WorkerPc.holds : WorkerPc → Bool
  | .count | .signal | .check | .sleep | .unlock => true
  | _ => false

/-- The worker is part of `g_init_count`. -/
def WorkerPc.counted : WorkerPc → Bool
  | .setup | .lock | .count => false
  | _ => true

/-- It has left the loop around `g_go`. -/
def WorkerPc.released : WorkerPc → Bool
  | .unlock | .running => true
  | _ => false

theorem Worker.notified_pc (w : Worker) :
    w.notified.pc = if w.pc = .waiting then .woken else w.pc := by
  rw [notified]
  split <;> rfl

theorem Worker.notified_id (w : Worker) : w.notified.id = w.id := by
  rw [notified]
  split <;> rfl

theorem Worker.notified_call (w : Worker) : w.notified.call = w.call := by
  rw [notified]
  split <;> rfl

theorem Worker.notified_counted (w : Worker) : w.notified.pc.counted = w.pc.counted := by
  rw [notified_pc]
  split
  · rename_i h
    rw [h]
    rfl
  · rfl

namespace Process

/-- The workers that are made, as far as the main thread is. -/
def Made (nr : ℕ) (main : MainPc) (workers : List Worker) : Prop :=
  match main with
  | .idle => True
  | .create | .attrInit => workers = []
  | .setAffinity i | .createThread i => i < nr ∧ workers.map (·.id) = List.range i
  | _ => workers.map (·.id) = List.range nr

/-- What holds of worker `w` at place `k`. -/
structure Fits (s : Process) (k : ℕ) (w : Worker) : Prop where
  holds : w.pc.holds = true ↔ s.lock = some (.worker k)
  sleeps : w.pc = .sleep → s.go = false
  waits : w.pc = .waiting → s.go = false ∨ s.main = .broadcast
  released : w.pc.released = true → s.go = true
  ready : s.main.ready = true → w.pc.counted = true

structure Inv (nr : ℕ) (s : Process) : Prop where
  made : Made nr s.main s.workers
  count : s.initCount = s.workers.countP (·.pc.counted)
  holds : s.main.holds = true ↔ s.lock = some .main
  holder : ∀ k, s.lock = some (.worker k) → k < s.workers.length
  gone : s.go = s.main.gone
  fits : ∀ k w, s.workers[k]? = some w → s.Fits k w
  sleeps : s.main = .sleep → s.initCount < nr
  waits : s.main = .waiting → s.initCount < nr ∨ ∃ w ∈ s.workers, w.pc = .signal

theorem inv_start {s : Process} (h : Start s) : s.Inv nr := by
  refine ⟨?_, ?_, ?_, ?_, ?_, ?_, ?_, ?_⟩
  · rw [h.main]
    trivial
  · rw [h.initCount, h.workers]
    rfl
  · rw [h.main, h.lock]
    decide
  · intro k hk
    cases h.lock.symm.trans hk
  · rw [h.go, h.main]
    rfl
  · intro k w hw
    rw [h.workers] at hw
    cases hw
  · intro hpc
    cases h.main.symm.trans hpc
  · intro hpc
    cases h.main.symm.trans hpc

/-! ## Steps -/

section Set

variable {ws : List Worker} {k : ℕ} {w : Worker} (hw : ws[k]? = some w) (pc : WorkerPc)

include hw

theorem map_id_set : (ws.set k { w with pc := pc }).map (·.id) = ws.map (·.id) := by
  rw [List.map_set]
  apply List.ext_getElem?
  intro j
  by_cases hj : k = j
  · subst hj
    rw [List.getElem?_set_self', List.getElem?_map, hw]
    rfl
  · rw [List.getElem?_set_ne hj]

theorem made_set {main : MainPc} (h : Made nr main ws) :
    Made nr main (ws.set k { w with pc := pc }) := by
  have hne : ws ≠ [] := List.ne_nil_of_mem (List.mem_of_getElem? hw)
  cases main with
  | idle => trivial
  | create => exact absurd h hne
  | attrInit => exact absurd h hne
  | setAffinity i => exact ⟨h.1, (map_id_set hw pc).trans h.2⟩
  | createThread i => exact ⟨h.1, (map_id_set hw pc).trans h.2⟩
  | _ => exact (map_id_set hw pc).trans h

theorem countP_set_add (p : WorkerPc → Bool) :
    (ws.set k { w with pc := pc }).countP (fun w => p w.pc) + (if p w.pc then 1 else 0) =
      ws.countP (fun w => p w.pc) + if p pc then 1 else 0 := by
  obtain ⟨hk, hget⟩ := List.getElem?_eq_some_iff.mp hw
  rw [List.countP_set hk, hget]
  simp only
  by_cases hp : p w.pc
  · have hpos : 0 < ws.countP fun w => p w.pc :=
      List.countP_pos_iff.mpr ⟨w, List.mem_of_getElem? hw, hp⟩
    rw [if_pos hp]
    omega
  · rw [if_neg hp]
    omega

/-- The entries of a list with one entry replaced. -/
theorem getElem?_set_cases {j : ℕ} {v : Worker}
    (hv : (ws.set k { w with pc := pc })[j]? = some v) :
    j = k ∧ v = { w with pc := pc } ∨ j ≠ k ∧ ws[j]? = some v := by
  by_cases hj : k = j
  · subst hj
    rw [List.getElem?_set_self', hw] at hv
    exact .inl ⟨rfl, (Option.some.inj hv).symm⟩
  · rw [List.getElem?_set_ne hj] at hv
    exact .inr ⟨Ne.symm hj, hv⟩

/-- A worker that is not the one at place `k` is still there. -/
theorem mem_set_of_ne {v : Worker} (hv : v ∈ ws) (hne : v ≠ w) :
    v ∈ ws.set k { w with pc := pc } := by
  obtain ⟨j, hj⟩ := List.getElem?_of_mem hv
  have hkj : k ≠ j := by
    rintro rfl
    exact hne (Option.some.inj (hj.symm.trans hw))
  apply List.mem_of_getElem? (i := j)
  rw [List.getElem?_set_ne hkj, hj]

theorem mem_set_self : { w with pc := pc } ∈ ws.set k { w with pc := pc } := by
  apply List.mem_of_getElem? (i := k)
  rw [List.getElem?_set_self', hw]
  rfl

end Set

section Steps

variable {s s' : Process} {out : Output}

/-- A step of the main thread that neither makes nor releases workers. -/
theorem Inv.main_step (hs : s.Inv nr) {p : MainPc} {l : Option Holder} {upfd : ℤ} {calls : ℕ}
    (hmade : Made nr p s.workers) (hholds : p.holds = true ↔ l = some .main)
    (hlock : ∀ k, l = some (.worker k) ↔ s.lock = some (.worker k))
    (hgone : p.gone = s.main.gone)
    (hready : p.ready = true → ∀ w ∈ s.workers, w.pc.counted = true)
    (hsleeps : p = .sleep → s.initCount < nr)
    (hwaits : p = .waiting → s.initCount < nr ∨ ∃ w ∈ s.workers, w.pc = .signal)
    (hmain : s.main ≠ .broadcast) :
    Inv nr ⟨upfd, s.initCount, s.go, l, p, s.workers, calls⟩ := by
  refine ⟨hmade, hs.count, hholds, ?_, ?_, ?_, hsleeps, hwaits⟩
  · intro k hk
    exact hs.holder k ((hlock k).mp hk)
  · rw [hs.gone, hgone]
  · intro k w hw
    have hfits := hs.fits k w hw
    refine ⟨?_, hfits.sleeps, ?_, hfits.released, ?_⟩
    · rw [hfits.holds]
      exact (hlock k).symm
    · intro hpc
      exact (hfits.waits hpc).imp id fun hbroadcast => absurd hbroadcast hmain
    · intro hpc
      exact hready hpc w (List.mem_of_getElem? hw)

/-- A step of worker `w` at place `k`, which goes to `pc`. -/
theorem Inv.worker_step (hs : s.Inv nr) {k : ℕ} {w : Worker} (hw : s.workers[k]? = some w)
    {pc : WorkerPc} {l : Option Holder} {main : MainPc} {count : ℕ}
    (hholds : pc.holds = true ↔ l = some (.worker k))
    (hlock : ∀ j, j ≠ k → (l = some (.worker j) ↔ s.lock = some (.worker j)))
    (hmainLock : l = some .main ↔ s.lock = some .main)
    (hsleep : pc = .sleep → s.go = false)
    (hwait : pc = .waiting → s.go = false ∨ s.main = .broadcast)
    (hreleased : pc.released = true → s.go = true)
    (hcounted : w.pc.counted = true → pc.counted = true)
    (hcount : count + (if w.pc.counted then 1 else 0) =
      s.initCount + if pc.counted then 1 else 0)
    (hmain : main = s.main ∨ s.main = .waiting ∧ main = .woken)
    (hsleeps : main = .sleep → count < nr)
    (hwaits : main = .waiting → count < nr ∨ pc = .signal ∨
      w.pc ≠ .signal ∧ ∃ w ∈ s.workers, w.pc = .signal) :
    Inv nr ⟨s.upfd, count, s.go, l, main, s.workers.set k { w with pc := pc }, s.calls⟩ := by
  have hready : main.ready = true → s.main.ready = true := by
    rcases hmain with rfl | ⟨_, rfl⟩
    · exact id
    · intro hwoken
      cases hwoken
  refine ⟨?_, ?_, ?_, ?_, ?_, ?_, hsleeps, ?_⟩
  · have hmade := hs.made
    apply made_set hw
    rcases hmain with rfl | ⟨hwaiting, rfl⟩
    · exact hmade
    · rw [hwaiting] at hmade
      exact hmade
  · have hadd := countP_set_add hw pc WorkerPc.counted
    have hs' := hs.count
    change count = (s.workers.set k { w with pc := pc }).countP fun w => w.pc.counted
    omega
  · rw [hmainLock, ← hs.holds]
    rcases hmain with rfl | ⟨hwaiting, rfl⟩
    · rfl
    · rw [hwaiting]
      rfl
  · intro j hj
    rw [List.length_set]
    by_cases hk : j = k
    · rw [hk]
      exact (List.getElem?_eq_some_iff.mp hw).1
    · exact hs.holder j ((hlock j hk).mp hj)
  · rw [hs.gone]
    rcases hmain with rfl | ⟨hwaiting, rfl⟩
    · rfl
    · rw [hwaiting]
      rfl
  · have hbroadcast : s.main = .broadcast → main = .broadcast := by
      rcases hmain with rfl | ⟨hwaiting, rfl⟩
      · exact id
      · intro h
        cases hwaiting.symm.trans h
    intro j v hv
    rcases getElem?_set_cases hw pc hv with ⟨rfl, rfl⟩ | ⟨hj, hv⟩
    · refine ⟨hholds, hsleep, fun h => (hwait h).imp id hbroadcast, hreleased, ?_⟩
      intro h
      exact hcounted ((hs.fits j w hw).ready (hready h))
    · have hfits := hs.fits j v hv
      refine ⟨?_, hfits.sleeps, fun h => (hfits.waits h).imp id hbroadcast, hfits.released,
        fun h => hfits.ready (hready h)⟩
      rw [hfits.holds]
      exact (hlock j hj).symm
  · intro hwaiting
    rcases hwaits hwaiting with hlt | hsignal | ⟨hne, v, hv, hsignal⟩
    · exact .inl hlt
    · exact .inr ⟨_, mem_set_self hw pc, hsignal⟩
    · refine .inr ⟨v, mem_set_of_ne hw pc hv ?_, hsignal⟩
      rintro rfl
      exact hne hsignal

/-- The main thread goes on without the lock changing hands. -/
theorem Inv.goes (hs : s.Inv nr) {p : MainPc} {upfd : ℤ} {calls : ℕ}
    (hmade : Made nr p s.workers) (hholds : p.holds = s.main.holds)
    (hgone : p.gone = s.main.gone) (hready : p.ready = true → s.main.ready = true)
    (hsleeps : p ≠ .sleep) (hwaits : p ≠ .waiting) (hmain : s.main ≠ .broadcast) :
    Inv nr ⟨upfd, s.initCount, s.go, s.lock, p, s.workers, calls⟩ := by
  apply hs.main_step hmade
  · rw [hholds]
    exact hs.holds
  · exact fun _ => Iff.rfl
  · exact hgone
  · intro hpc w hw
    obtain ⟨k, hk⟩ := List.getElem?_of_mem hw
    exact (hs.fits k w hk).ready (hready hpc)
  · exact fun h => absurd h hsleeps
  · exact fun h => absurd h hwaits
  · exact hmain

theorem loop_cases (nr i : ℕ) :
    loop nr i = .setAffinity i ∧ i < nr ∨ loop nr i = .lock ∧ nr ≤ i := by
  rw [loop]
  split
  · rename_i hlt
    exact .inl ⟨rfl, hlt⟩
  · rename_i hge
    exact .inr ⟨rfl, Nat.le_of_not_lt hge⟩

theorem made_loop {i : ℕ} {ws : List Worker} (hi : i ≤ nr) (h : ws.map (·.id) = List.range i) :
    Made nr (loop nr i) ws := by
  rcases loop_cases nr i with ⟨hpc, hlt⟩ | ⟨hpc, hge⟩
  · rw [hpc]
    exact ⟨hlt, h⟩
  · rw [hpc]
    rw [Nat.le_antisymm hi hge] at h
    exact h

theorem acquire_spec {holder : Holder} (h : s.acquire holder = some s') :
    s.lock = none ∧ s' = { s with lock := some holder } := by
  rw [acquire] at h
  split at h
  · rename_i hlock
    exact ⟨hlock, (Option.some.inj h).symm⟩
  · cases h

/-- A step that waits for the lock. -/
theorem map_acquire_spec {holder : Holder} {f : Process → Process} {o : Output}
    (h : (s.acquire holder).map (fun u => (f u, o)) = some (s', out)) :
    s.lock = none ∧ s' = f { s with lock := some holder } ∧ out = o := by
  obtain ⟨u, hu, hpair⟩ := Option.map_eq_some_iff.mp h
  obtain ⟨hlock, rfl⟩ := acquire_spec hu
  cases hpair
  exact ⟨hlock, rfl, rfl⟩

/-- The main thread takes the lock. -/
theorem Inv.takes (hs : s.Inv nr) {p : MainPc} (hlock : s.lock = none)
    (hmade : Made nr p s.workers) (hholds : p.holds = true) (hgone : p.gone = s.main.gone)
    (hready : p.ready = true → s.main.ready = true) (hsleeps : p ≠ .sleep)
    (hmain : s.main ≠ .broadcast) :
    Inv nr ⟨s.upfd, s.initCount, s.go, some .main, p, s.workers, s.calls⟩ := by
  apply hs.main_step hmade
  · exact ⟨fun _ => rfl, fun _ => hholds⟩
  · intro k
    rw [hlock]
    constructor <;> intro h <;> cases h
  · exact hgone
  · intro hpc w hw
    obtain ⟨k, hk⟩ := List.getElem?_of_mem hw
    exact (hs.fits k w hk).ready (hready hpc)
  · exact fun h => absurd h hsleeps
  · rintro rfl
    cases hholds
  · exact hmain

/-- The main thread gives the lock back. -/
theorem Inv.gives (hs : s.Inv nr) {p : MainPc} (hmade : Made nr p s.workers)
    (hheld : s.main.holds = true) (hholds : p.holds = false) (hgone : p.gone = s.main.gone)
    (hready : p.ready = true → s.main.ready = true)
    (hwaits : p = .waiting → s.initCount < nr) (hmain : s.main ≠ .broadcast) :
    Inv nr ⟨s.upfd, s.initCount, s.go, none, p, s.workers, s.calls⟩ := by
  have hlock := hs.holds.mp hheld
  apply hs.main_step hmade
  · rw [hholds]
    constructor <;> intro h <;> cases h
  · intro k
    rw [hlock]
    constructor <;> intro h <;> cases h
  · exact hgone
  · intro hpc w hw
    obtain ⟨k, hk⟩ := List.getElem?_of_mem hw
    exact (hs.fits k w hk).ready (hready hpc)
  · rintro rfl
    cases hholds
  · exact fun h => .inl (hwaits h)
  · exact hmain

/-- A worker that is made has everything ahead of it. -/
theorem Inv.makes (hs : s.Inv nr) {i : ℕ} (hpc : s.main = .createThread i) (call : ℕ) :
    Inv nr { s with workers := s.workers ++ [⟨call, i, .setup⟩], main := loop nr (i + 1) } := by
  have hmade := hs.made
  rw [hpc] at hmade
  obtain ⟨hi, hids⟩ := hmade
  have hmade : Made nr (loop nr (i + 1)) (s.workers ++ [⟨call, i, .setup⟩]) := by
    apply made_loop hi
    rw [List.map_append, hids, List.range_succ]
    rfl
  have hfree : (loop nr (i + 1)).holds = false ∧ (loop nr (i + 1)).gone = false ∧
      (loop nr (i + 1)).ready = false ∧ loop nr (i + 1) ≠ .sleep ∧
      loop nr (i + 1) ≠ .waiting := by
    rcases loop_cases nr (i + 1) with ⟨hloop, -⟩ | ⟨hloop, -⟩
    · rw [hloop]
      simp [MainPc.holds, MainPc.gone, MainPc.ready]
    · rw [hloop]
      decide
  obtain ⟨hholds, hgone, hready, hsleep, hwait⟩ := hfree
  have hlock := hs.holds
  rw [hpc] at hlock
  have hgo : s.go = false := by
    rw [hs.gone, hpc]
    rfl
  refine ⟨hmade, ?_, ?_, ?_, ?_, ?_, fun h => absurd h hsleep, fun h => absurd h hwait⟩
  · rw [hs.count, List.countP_append]
    rfl
  · change (loop nr (i + 1)).holds = true ↔ _
    rw [hholds]
    exact hlock
  · intro k hk
    rw [List.length_append]
    exact Nat.lt_succ_of_lt (hs.holder k hk)
  · rw [hgone]
    exact hgo
  · intro k w hw
    rw [List.getElem?_append] at hw
    split at hw
    · have hfits := hs.fits k w hw
      refine ⟨hfits.holds, hfits.sleeps, fun _ => .inl hgo, hfits.released, ?_⟩
      intro h
      cases hready.symm.trans h
    · rename_i hk
      rw [List.getElem?_singleton] at hw
      split at hw
      · cases Option.some.inj hw
        refine ⟨?_, nofun, nofun, nofun, ?_⟩
        · constructor
          · nofun
          · intro h
            exact absurd (hs.holder k h) hk
        · intro h
          cases hready.symm.trans h
      · cases hw

/-- The main thread looks at `g_init_count`. -/
theorem Inv.checks (hs : s.Inv nr) (hpc : s.main = .check) :
    (s.setMain (if s.initCount < nr then .sleep else .unlock)).Inv nr := by
  have hmade : s.workers.map (·.id) = List.range nr := by
    have hmade := hs.made
    rw [hpc] at hmade
    exact hmade
  have hlock : s.lock = some .main := by
    apply hs.holds.mp
    rw [hpc]
    rfl
  split
  · rename_i hlt
    apply hs.main_step (p := .sleep) hmade
    · exact ⟨fun _ => hlock, fun _ => rfl⟩
    · exact fun _ => Iff.rfl
    · rw [hpc]
      rfl
    · intro h
      cases h
    · exact fun _ => hlt
    · intro h
      cases h
    · rw [hpc]
      decide
  · rename_i hge
    have hlength : s.workers.length = nr := by
      rw [← List.length_map, hmade, List.length_range]
    have hall : s.workers.countP (·.pc.counted) = s.workers.length := by
      apply Nat.le_antisymm List.countP_le_length
      rw [← hs.count, hlength]
      exact Nat.le_of_not_lt hge
    apply hs.main_step (p := .unlock) hmade
    · exact ⟨fun _ => hlock, fun _ => rfl⟩
    · exact fun _ => Iff.rfl
    · rw [hpc]
      rfl
    · exact fun _ => List.countP_eq_length.mp hall
    · intro h
      cases h
    · intro h
      cases h
    · rw [hpc]
      decide

/-- `g_go` is set: nobody is between its check of it and its wait. -/
theorem Inv.sets (hs : s.Inv nr) (hpc : s.main = .setGo) :
    Inv nr { s with go := true, main := .broadcast } := by
  have hlock : s.lock = some .main := by
    apply hs.holds.mp
    rw [hpc]
    rfl
  have hmade := hs.made
  rw [hpc] at hmade
  refine ⟨hmade, hs.count, ⟨fun _ => hlock, fun _ => rfl⟩, hs.holder, rfl, ?_, ?_, ?_⟩
  · intro k w hw
    have hfits := hs.fits k w hw
    refine ⟨hfits.holds, ?_, fun _ => .inr rfl, fun _ => rfl, ?_⟩
    · intro h
      have hworker : s.lock = some (.worker k) := by
        apply hfits.holds.mp
        rw [h]
        rfl
      cases hlock.symm.trans hworker
    · intro _
      apply hfits.ready
      rw [hpc]
      rfl
  · intro h
    cases h
  · intro h
    cases h

/-- All workers that wait are woken. -/
theorem Inv.broadcasts (hs : s.Inv nr) (hpc : s.main = .broadcast) :
    (s.broadcast.setMain .goUnlock).Inv nr := by
  have hlock : s.lock = some .main := by
    apply hs.holds.mp
    rw [hpc]
    rfl
  have hmade : s.workers.map (·.id) = List.range nr := by
    have hmade := hs.made
    rw [hpc] at hmade
    exact hmade
  have hids : (s.workers.map Worker.notified).map (·.id) = s.workers.map (·.id) := by
    rw [List.map_map]
    exact List.map_congr_left fun w _ => w.notified_id
  refine ⟨?_, ?_, ⟨fun _ => hlock, fun _ => rfl⟩, ?_, ?_, ?_, nofun, nofun⟩
  · change (s.workers.map Worker.notified).map (·.id) = _
    rw [hids]
    exact hmade
  · change s.initCount = (s.workers.map Worker.notified).countP _
    rw [hs.count, List.countP_map]
    apply List.countP_congr
    intro w _
    rw [Function.comp_apply, w.notified_counted]
  · intro k hk
    change k < (s.workers.map Worker.notified).length
    rw [List.length_map]
    exact hs.holder k hk
  · change s.go = true
    rw [hs.gone, hpc]
    rfl
  · intro k v hv
    obtain ⟨w, hw, rfl⟩ := Option.map_eq_some_iff.mp ((List.getElem?_map).symm.trans hv)
    have hfits := hs.fits k w hw
    have hgo : s.go = true := by
      rw [hs.gone, hpc]
      rfl
    have hready : s.main.ready = true := by
      rw [hpc]
      rfl
    by_cases hwaiting : w.pc = .waiting
    · have hwoken : w.notified = { w with pc := .woken } := if_pos hwaiting
      rw [hwoken]
      have hholds := hfits.holds
      rw [hwaiting] at hholds
      exact ⟨hholds, nofun, nofun, nofun, fun _ => rfl⟩
    · have hsame : w.notified = w := if_neg hwaiting
      rw [hsame]
      exact ⟨hfits.holds, hfits.sleeps, fun h => absurd h hwaiting, fun _ => hgo,
        fun _ => hfits.ready hready⟩

theorem mainStep_inv (hs : s.Inv nr) (h : s.mainStep nr = some (s', out)) : s'.Inv nr := by
  have hmade := hs.made
  rw [mainStep] at h
  split at h
  · rename_i hpc
    cases h
    rw [hpc] at hmade
    have hnone : s.workers.map (·.id) = List.range 0 := by
      rw [show s.workers = [] from hmade]
      rfl
    have hnext := made_loop (Nat.zero_le nr) hnone
    rcases loop_cases nr 0 with ⟨hloop, -⟩ | ⟨hloop, -⟩
    · rw [hloop] at hnext ⊢
      apply hs.goes hnext <;> simp [hpc, MainPc.holds, MainPc.gone, MainPc.ready]
    · rw [hloop] at hnext ⊢
      apply hs.goes hnext <;> simp [hpc, MainPc.holds, MainPc.gone, MainPc.ready]
  · rename_i i hpc
    cases h
    rw [hpc] at hmade
    apply hs.goes (p := .createThread i) hmade <;>
      simp [hpc, MainPc.holds, MainPc.gone, MainPc.ready]
  · rename_i i hpc
    cases h
    exact hs.makes hpc s.calls
  · rename_i hpc
    obtain ⟨hlock, rfl, rfl⟩ := map_acquire_spec h
    rw [hpc] at hmade
    apply hs.takes (p := .check) hlock hmade <;>
      simp [hpc, MainPc.holds, MainPc.gone, MainPc.ready]
  · rename_i hpc
    obtain ⟨hlock, rfl, rfl⟩ := map_acquire_spec h
    rw [hpc] at hmade
    apply hs.takes (p := .check) hlock hmade <;>
      simp [hpc, MainPc.holds, MainPc.gone, MainPc.ready]
  · rename_i hpc
    cases h
    exact hs.checks hpc
  · rename_i hpc
    cases h
    rw [hpc] at hmade
    apply hs.gives (p := .waiting) hmade <;>
      simp [hpc, MainPc.holds, MainPc.gone, MainPc.ready]
    exact hs.sleeps hpc
  · rename_i hpc
    cases h
    rw [hpc] at hmade
    apply hs.gives (p := .inited) hmade <;>
      simp [hpc, MainPc.holds, MainPc.gone, MainPc.ready]
  · rename_i hpc
    cases h
    rw [hpc] at hmade
    apply hs.goes (p := .goLock) hmade <;>
      simp [hpc, MainPc.holds, MainPc.gone, MainPc.ready]
  · rename_i hpc
    obtain ⟨hlock, rfl, rfl⟩ := map_acquire_spec h
    rw [hpc] at hmade
    apply hs.takes (p := .setGo) hlock hmade <;>
      simp [hpc, MainPc.holds, MainPc.gone, MainPc.ready]
  · rename_i hpc
    cases h
    exact hs.sets hpc
  · rename_i hpc
    cases h
    exact hs.broadcasts hpc
  · rename_i hpc
    cases h
    rw [hpc] at hmade
    apply hs.gives (p := .done) hmade <;>
      simp [hpc, MainPc.holds, MainPc.gone, MainPc.ready]
  · cases h

/-! ## Steps of a worker -/

section WorkerSteps

variable {k : ℕ} {w : Worker} {p : WorkerPc}

/-- A worker goes on without the lock changing hands. -/
theorem Inv.worker_goes (hs : s.Inv nr) (hw : s.workers[k]? = some w)
    (hholds : p.holds = w.pc.holds) (hcounted : p.counted = w.pc.counted)
    (hsleep : p = .sleep → s.go = false) (hwait : p ≠ .waiting)
    (hreleased : p.released = true → s.go = true) (hsignal : w.pc ≠ .signal) :
    (s.setWorker k w p).Inv nr := by
  apply hs.worker_step hw
  · rw [hholds]
    exact (hs.fits k w hw).holds
  · exact fun _ _ => Iff.rfl
  · exact Iff.rfl
  · exact hsleep
  · exact fun h => absurd h hwait
  · exact hreleased
  · rw [hcounted]
    exact id
  · rw [hcounted]
  · exact .inl rfl
  · exact hs.sleeps
  · intro h
    exact (hs.waits h).imp id fun hex => .inr ⟨hsignal, hex⟩

theorem Inv.worker_takes (hs : s.Inv nr) (hw : s.workers[k]? = some w) (hfree : s.lock = none)
    (hholds : p.holds = true) (hcounted : p.counted = w.pc.counted) (hsleep : p ≠ .sleep)
    (hreleased : p.released = false) (hsignal : w.pc ≠ .signal) :
    (({ s with lock := some (.worker k) } : Process).setWorker k w p).Inv nr := by
  apply hs.worker_step hw
  · exact ⟨fun _ => rfl, fun _ => hholds⟩
  · intro j hj
    rw [hfree]
    constructor
    · intro h
      exact absurd (Holder.worker.inj (Option.some.inj h)).symm hj
    · nofun
  · rw [hfree]
    constructor <;> nofun
  · exact fun h => absurd h hsleep
  · rintro rfl
    cases hholds
  · rw [hreleased]
    nofun
  · rw [hcounted]
    exact id
  · rw [hcounted]
  · exact .inl rfl
  · exact hs.sleeps
  · intro h
    exact (hs.waits h).imp id fun hex => .inr ⟨hsignal, hex⟩

theorem Inv.worker_gives (hs : s.Inv nr) (hw : s.workers[k]? = some w)
    (hheld : w.pc.holds = true) (hholds : p.holds = false) (hcounted : p.counted = w.pc.counted)
    (hwait : p = .waiting → s.go = false) (hreleased : p.released = true → s.go = true)
    (hsignal : w.pc ≠ .signal) : (s.release.setWorker k w p).Inv nr := by
  have hlock := (hs.fits k w hw).holds.mp hheld
  apply hs.worker_step hw
  · rw [hholds]
    constructor <;> nofun
  · intro j hj
    rw [hlock]
    constructor
    · nofun
    · intro h
      exact absurd (Holder.worker.inj (Option.some.inj h)).symm hj
  · rw [hlock]
    constructor <;> nofun
  · rintro rfl
    cases hholds
  · exact fun h => .inl (hwait h)
  · exact hreleased
  · rw [hcounted]
    exact id
  · rw [hcounted]
    rfl
  · exact .inl rfl
  · exact hs.sleeps
  · intro h
    exact (hs.waits h).imp id fun hex => .inr ⟨hsignal, hex⟩

/-- A worker counts itself, and will signal that. -/
theorem Inv.counts (hs : s.Inv nr) (hw : s.workers[k]? = some w) (hpc : w.pc = .count) :
    (({ s with initCount := s.initCount + 1 } : Process).setWorker k w .signal).Inv nr := by
  have hlock : s.lock = some (.worker k) := by
    apply (hs.fits k w hw).holds.mp
    rw [hpc]
    rfl
  apply hs.worker_step hw
  · exact ⟨fun _ => hlock, fun _ => rfl⟩
  · exact fun _ _ => Iff.rfl
  · exact Iff.rfl
  · nofun
  · nofun
  · nofun
  · exact fun _ => rfl
  · rw [hpc]
    rfl
  · exact .inl rfl
  · intro h
    have hmain : s.lock = some .main := by
      apply hs.holds.mp
      rw [h]
      rfl
    cases hlock.symm.trans hmain
  · exact fun _ => .inr (.inl rfl)

/-- A worker wakes the main thread, if that waits. -/
theorem Inv.signals (hs : s.Inv nr) (hw : s.workers[k]? = some w) (hpc : w.pc = .signal) :
    (s.signal.setWorker k w .check).Inv nr := by
  have hlock : s.lock = some (.worker k) := by
    apply (hs.fits k w hw).holds.mp
    rw [hpc]
    rfl
  have hstep : ∀ main, main = s.main ∨ s.main = .waiting ∧ main = .woken → main ≠ .waiting →
      (({ s with main := main } : Process).setWorker k w .check).Inv nr := by
    intro main hmain hne
    apply hs.worker_step hw
    · exact ⟨fun _ => hlock, fun _ => rfl⟩
    · exact fun _ _ => Iff.rfl
    · exact Iff.rfl
    · nofun
    · nofun
    · nofun
    · exact fun _ => rfl
    · rw [hpc]
      rfl
    · exact hmain
    · rintro rfl
      rcases hmain with hsame | ⟨-, hwoken⟩
      · exact hs.sleeps hsame.symm
      · cases hwoken
    · exact fun h => absurd h hne
  rw [signal]
  split
  · rename_i hwaiting
    exact hstep .woken (.inr ⟨hwaiting, rfl⟩) MainPc.noConfusion
  · rename_i hne
    exact hstep s.main (.inl rfl) hne

theorem workerStep_inv (hs : s.Inv nr) (h : s.workerStep k = some (s', out)) : s'.Inv nr := by
  obtain ⟨w, hw, h⟩ := Option.bind_eq_some_iff.mp h
  have hfits := hs.fits k w hw
  split at h
  · rename_i hpc
    cases h
    apply hs.worker_goes hw <;> simp [hpc, WorkerPc.holds, WorkerPc.counted, WorkerPc.released]
  · rename_i hpc
    obtain ⟨hlock, rfl, rfl⟩ := map_acquire_spec h
    apply hs.worker_takes hw hlock <;>
      simp [hpc, WorkerPc.holds, WorkerPc.counted, WorkerPc.released]
  · rename_i hpc
    cases h
    exact hs.counts hw hpc
  · rename_i hpc
    cases h
    exact hs.signals hw hpc
  · rename_i hpc
    cases h
    cases hgo : s.go with
    | true =>
        apply hs.worker_goes hw <;>
          simp [hpc, hgo, WorkerPc.holds, WorkerPc.counted, WorkerPc.released]
    | false =>
        apply hs.worker_goes hw <;>
          simp [hpc, hgo, WorkerPc.holds, WorkerPc.counted, WorkerPc.released]
  · rename_i hpc
    cases h
    apply hs.worker_gives hw <;>
      simp [hpc, hfits.sleeps hpc, WorkerPc.holds, WorkerPc.counted, WorkerPc.released]
  · rename_i hpc
    obtain ⟨hlock, rfl, rfl⟩ := map_acquire_spec h
    apply hs.worker_takes hw hlock <;>
      simp [hpc, WorkerPc.holds, WorkerPc.counted, WorkerPc.released]
  · rename_i hpc
    cases h
    have hgo : s.go = true := by
      apply hfits.released
      rw [hpc]
      rfl
    apply hs.worker_gives hw <;>
      simp [hpc, hgo, WorkerPc.holds, WorkerPc.counted, WorkerPc.released]
  · cases h
  · cases h

theorem wakeWorker_inv (hs : s.Inv nr) (h : s.wakeWorker k = some s') : s'.Inv nr := by
  obtain ⟨w, hw, h⟩ := Option.bind_eq_some_iff.mp h
  split at h
  · rename_i hpc
    cases h
    apply hs.worker_goes hw <;> simp [hpc, WorkerPc.holds, WorkerPc.counted, WorkerPc.released]
  · cases h

end WorkerSteps

/-! ## Runs -/

theorem call_inv (hs : s.Inv nr) (hnone : s.workers = []) (h : s.call = some s') :
    s'.Inv nr := by
  rw [call] at h
  split at h
  · rename_i hpc
    cases h
    apply hs.goes (p := .create) hnone <;> simp [hpc, MainPc.holds, MainPc.gone, MainPc.ready]
  · cases h

theorem created_inv (hs : s.Inv nr) {fd : ℤ} (h : s.created fd = some s') : s'.Inv nr := by
  rw [created] at h
  split at h
  · rename_i hguard
    obtain ⟨hpc, -⟩ := hguard
    cases h
    have hmade := hs.made
    rw [hpc] at hmade
    apply hs.goes (p := .attrInit) hmade <;>
      simp [hpc, MainPc.holds, MainPc.gone, MainPc.ready]
  · cases h

theorem fail_inv (hs : s.Inv nr) (h : s.fail = some s') : s'.Inv nr := by
  rw [fail] at h
  split at h <;> rename_i hpc
  case h_5 => cases h
  all_goals
    cases h
    apply hs.goes (p := .idle) trivial <;> simp [hpc, MainPc.holds, MainPc.gone, MainPc.ready]

theorem wakeMain_inv (hs : s.Inv nr) (h : s.wakeMain = some s') : s'.Inv nr := by
  rw [wakeMain] at h
  split at h
  · rename_i hpc
    cases h
    have hmade := hs.made
    rw [hpc] at hmade
    apply hs.goes (p := .woken) hmade <;> simp [hpc, MainPc.holds, MainPc.gone, MainPc.ready]
  · cases h

/-- A call of `upcall_init` begins without workers of an earlier one. -/
def alone (s : Process) : Input → Bool
  | .call => s.workers.isEmpty
  | _ => true

theorem step_inv (hs : s.Inv nr) {a : Input} (ha : s.alone a = true)
    (h : s.step nr a = some (s', out)) : s'.Inv nr := by
  cases a with
  | call =>
      obtain ⟨u, hu, hpair⟩ := Option.map_eq_some_iff.mp h
      cases hpair
      exact call_inv hs (List.isEmpty_iff.mp ha) hu
  | created fd =>
      obtain ⟨u, hu, hpair⟩ := Option.map_eq_some_iff.mp h
      cases hpair
      exact created_inv hs hu
  | fail =>
      obtain ⟨u, hu, hpair⟩ := Option.map_eq_some_iff.mp h
      cases hpair
      exact fail_inv hs hu
  | main => exact mainStep_inv hs h
  | worker k => exact workerStep_inv hs h
  | wakeMain =>
      obtain ⟨u, hu, hpair⟩ := Option.map_eq_some_iff.mp h
      cases hpair
      exact wakeMain_inv hs hu
  | wakeWorker k =>
      obtain ⟨u, hu, hpair⟩ := Option.map_eq_some_iff.mp h
      cases hpair
      exact wakeWorker_inv hs hu

theorem reaches_alone {tr : List (Input × Output)}
    (h : ((startup nr).guard alone).Reaches tr s) : s.Inv nr := by
  refine h.invariant (P := fun _ s => s.Inv nr) (fun s hs => inv_start hs) ?_
  intro tr s a out t _ hs hstep
  obtain ⟨ha, hstep⟩ := Machine.guard_step.mp hstep
  exact step_inv hs ha hstep

end Steps

end Process

end Upcalls.Startup
