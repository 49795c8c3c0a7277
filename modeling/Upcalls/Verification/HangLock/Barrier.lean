import Upcalls.Model.HangLock

/-! # No worker runs ahead

As long as the main thread holds `worker_hang_lock` it may wait for workers, and no worker gets
past that lock. Each lock has one holder, `init_count` counts the workers that are set up, and
nobody waits for something that has happened already.
-/

namespace Upcalls.HangLock

open Library

variable {n : ℕ}

/-! ## What the threads have behind them -/

/-- The main thread holds `init_lock`. -/
def MainPc.holdsInit : MainPc → Bool
  | .check | .sleep | .initUnlock => true
  | _ => false

/-- It holds `worker_hang_lock`. -/
def MainPc.holdsHang : MainPc → Bool
  | .hangLock | .done => false
  | _ => true

/-- It has left the loop around `init_count`. -/
def MainPc.ready : MainPc → Bool
  | .initUnlock | .hangUnlock | .done => true
  | _ => false

/-- Worker `w` is still to be created. -/
def MainPc.ahead (w : ℕ) : MainPc → Bool
  | .hangLock => true
  | .pthreadCreate i => i ≤ w
  | _ => false

def WorkerPc.holdsInit : WorkerPc → Bool
  | .count | .signal | .initUnlock => true
  | _ => false

def WorkerPc.holdsHang : WorkerPc → Bool
  | .hangUnlock => true
  | _ => false

/-- The worker is part of `init_count`. -/
def WorkerPc.inCount : WorkerPc → Bool
  | .signal | .initUnlock | .hangLock | .hangUnlock | .loop => true
  | _ => false

/-- It has got `worker_hang_lock`. -/
def WorkerPc.released : WorkerPc → Bool
  | .hangUnlock | .loop => true
  | _ => false

namespace Process

/-- The workers of which `f` holds. -/
def number (f : WorkerPc → Bool) (s : Process n) : ℕ := s.tally fun p => (f p).toNat

theorem number_set (f : WorkerPc → Bool) (s : Process n) (w : Fin n) (p : WorkerPc) (sh : Shared) :
    number f ((s.set w p).share sh) + (f (s.worker w)).toNat = s.number f + (f p).toNat :=
  Team.tally_set (fun p => (f p).toNat) s w p

theorem le_number {f : WorkerPc → Bool} {s : Process n} {w : Fin n} (h : f (s.worker w) = true) :
    1 ≤ s.number f := by
  have hle := Team.le_tally (fun p => (f p).toNat) s w
  rw [h] at hle
  exact hle

theorem exists_of_number {f : WorkerPc → Bool} {s : Process n} (h : 1 ≤ s.number f) :
    ∃ w, f (s.worker w) = true := by
  obtain ⟨w, hw⟩ := Team.exists_of_tally_pos h
  refine ⟨w, ?_⟩
  cases hf : f (s.worker w) with
  | true => rfl
  | false =>
      rw [hf] at hw
      cases hw

theorem number_not (f : WorkerPc → Bool) (s : Process n) :
    s.number f + s.number (fun p => !f p) = n := by
  have hone : ∀ p : WorkerPc, (f p).toNat + (!f p).toNat = 1 := by
    intro p
    cases f p <;> rfl
  rw [number, number, ← Team.tally_add]
  simp [Team.tally, hone]

/-- What holds of `n` workers holds of all. -/
theorem all_of_number {f : WorkerPc → Bool} {s : Process n} (h : n ≤ s.number f) (w : Fin n) :
    f (s.worker w) = true := by
  by_contra hnot
  have hone : 1 ≤ s.number fun p => !f p := le_number (w := w) (by simpa using hnot)
  have hsum := number_not f s
  omega

structure Inv (s : Process n) : Prop where
  init : s.shared.main.holdsInit.toNat + s.number WorkerPc.holdsInit = s.shared.initHeld.toNat
  hang : s.shared.main.holdsHang.toNat + s.number WorkerPc.holdsHang = s.shared.hangHeld.toNat
  count : s.shared.main ≠ .done → s.shared.initCount = s.number WorkerPc.inCount
  made : ∀ w, s.worker w = .absent ↔ s.shared.main.ahead w = true
  creates : ∀ i, s.shared.main = .pthreadCreate i → i < n
  ready : s.shared.main.ready = true → ∀ w, (s.worker w).inCount = true
  sleeps : s.shared.main = .sleep → s.shared.initCount < n
  waits : s.shared.main = .waiting → s.shared.initCount < n ∨ ∃ w, s.worker w = .signal
  released : ∀ w, (s.worker w).released = true → s.shared.main = .done

theorem inv_start {s : Process n} (h : (hangLock n).Init s) : s.Inv := by
  obtain ⟨habsent, hshared⟩ := h
  have hnone : ∀ f : WorkerPc → Bool, f .absent = false → s.number f = 0 := by
    intro f hf
    apply Team.tally_eq_zero
    intro w
    rw [habsent w, hf]
    rfl
  refine ⟨?_, ?_, ?_, ?_, ?_, ?_, ?_, ?_, ?_⟩
  · rw [hshared, hnone _ rfl]
    rfl
  · rw [hshared, hnone _ rfl]
    rfl
  · intro _
    rw [hshared, hnone _ rfl]
  · intro w
    rw [hshared, habsent w]
    exact iff_of_true rfl rfl
  · intro i hpc
    rw [hshared] at hpc
    cases hpc
  · intro hready
    rw [hshared] at hready
    cases hready
  · intro hpc
    rw [hshared] at hpc
    cases hpc
  · intro hpc
    rw [hshared] at hpc
    cases hpc
  · intro w hreleased
    rw [habsent w] at hreleased
    cases hreleased

/-! ## Who holds a lock -/

section Locks

variable {s : Process n} (hs : s.Inv)

include hs

theorem Inv.main_apart {w : Fin n} (h : (s.worker w).holdsInit = true) :
    s.shared.main.holdsInit = false := by
  have hone := le_number h
  have hinit := hs.init
  have hle := Bool.toNat_le s.shared.initHeld
  rw [← Bool.toNat_eq_zero]
  omega

theorem Inv.init_held (h : s.shared.main.holdsInit = true) : s.shared.initHeld = true := by
  have hinit := hs.init
  rw [h, Bool.toNat_true] at hinit
  exact Bool.toNat_eq_one.mp (by have hle := Bool.toNat_le s.shared.initHeld; omega)

theorem Inv.hang_held (h : s.shared.main.holdsHang = true) : s.shared.hangHeld = true := by
  have hhang := hs.hang
  rw [h, Bool.toNat_true] at hhang
  exact Bool.toNat_eq_one.mp (by have hle := Bool.toNat_le s.shared.hangHeld; omega)

theorem Inv.worker_init_held {w : Fin n} (h : (s.worker w).holdsInit = true) :
    s.shared.initHeld = true := by
  have hone := le_number h
  have hinit := hs.init
  exact Bool.toNat_eq_one.mp (by have hle := Bool.toNat_le s.shared.initHeld; omega)

theorem Inv.worker_hang_held {w : Fin n} (h : (s.worker w).holdsHang = true) :
    s.shared.hangHeld = true := by
  have hone := le_number h
  have hhang := hs.hang
  exact Bool.toNat_eq_one.mp (by have hle := Bool.toNat_le s.shared.hangHeld; omega)

/-- A held `init_lock` is held by the main thread or by some worker. -/
theorem Inv.init_holder (h : s.shared.initHeld = true) (hmain : s.shared.main.holdsInit = false) :
    ∃ w, (s.worker w).holdsInit = true := by
  have hinit := hs.init
  rw [h, hmain] at hinit
  rw [Bool.toNat_false, Nat.zero_add] at hinit
  exact exists_of_number (Nat.le_of_eq hinit.symm)

theorem Inv.hang_holder (h : s.shared.hangHeld = true) (hmain : s.shared.main.holdsHang = false) :
    ∃ w, (s.worker w).holdsHang = true := by
  have hhang := hs.hang
  rw [h, hmain] at hhang
  rw [Bool.toNat_false, Nat.zero_add] at hhang
  exact exists_of_number (Nat.le_of_eq hhang.symm)

end Locks

/-! ## Steps of the main thread -/

section MainSteps

variable {s s' : Process n}

theorem Inv.main_goes (hs : s.Inv) {sh : Shared}
    (hinit : sh.main.holdsInit.toNat + s.shared.initHeld.toNat =
      s.shared.main.holdsInit.toNat + sh.initHeld.toNat)
    (hhang : sh.main.holdsHang.toNat + s.shared.hangHeld.toNat =
      s.shared.main.holdsHang.toNat + sh.hangHeld.toNat)
    (hcount : sh.main ≠ .done → s.shared.main ≠ .done ∧ sh.initCount = s.shared.initCount)
    (hahead : ∀ w : Fin n, sh.main.ahead w = s.shared.main.ahead w)
    (hcreates : ∀ i, sh.main = .pthreadCreate i → i < n)
    (hready : sh.main.ready = true → ∀ w, (s.worker w).inCount = true)
    (hsleeps : sh.main = .sleep → sh.initCount < n)
    (hwaits : sh.main = .waiting → sh.initCount < n)
    (hdone : s.shared.main = .done → sh.main = .done) : Inv (s.share sh) where
  init := by
    have hheld := hs.init
    change sh.main.holdsInit.toNat + s.number WorkerPc.holdsInit = sh.initHeld.toNat
    omega
  hang := by
    have hheld := hs.hang
    change sh.main.holdsHang.toNat + s.number WorkerPc.holdsHang = sh.hangHeld.toNat
    omega
  count hpc := by
    obtain ⟨hold, hsame⟩ := hcount hpc
    exact hsame.trans (hs.count hold)
  made w := by
    rw [Team.share_worker, Team.share_shared, hahead]
    exact hs.made w
  creates := hcreates
  ready := hready
  sleeps := hsleeps
  waits hpc := .inl (hwaits hpc)
  released w hw := hdone (hs.released w hw)

theorem ahead_loop (i : ℕ) (w : Fin n) : (loop n i).ahead w = decide (i ≤ (w : ℕ)) := by
  have hw := w.isLt
  rw [loop]
  split
  · rfl
  · have hlt : ¬ i ≤ (w : ℕ) := by omega
    rw [decide_eq_false hlt]
    rfl

theorem loop_cases (n i : ℕ) : loop n i = .pthreadCreate i ∧ i < n ∨ loop n i = .initLock := by
  rw [loop]
  split
  · rename_i hlt
    exact .inl ⟨rfl, hlt⟩
  · exact .inr rfl

theorem lt_of_loop {i j : ℕ} (h : loop n i = .pthreadCreate j) : j < n := by
  rcases loop_cases n i with ⟨hloop, hlt⟩ | hloop
  · cases hloop.symm.trans h
    exact hlt
  · cases hloop.symm.trans h

/-- The main thread makes the next worker. -/
theorem Inv.create_goes (hs : s.Inv) {i : ℕ} (hi : i < n) (hpc : s.shared.main = .pthreadCreate i) :
    Inv ((s.set ⟨i, hi⟩ .setup).share { s.shared with main := loop n (i + 1) }) := by
  have habsent : s.worker ⟨i, hi⟩ = .absent := by
    rw [hs.made, hpc]
    exact decide_eq_true (Nat.le_refl i)
  have hinit := hs.init
  have hhang := hs.hang
  have hcount := hs.count (by rw [hpc]; exact MainPc.noConfusion)
  have hnumber : ∀ f : WorkerPc → Bool, f .absent = f .setup →
      number f ((s.set ⟨i, hi⟩ .setup).share { s.shared with main := loop n (i + 1) }) =
        s.number f := by
    intro f hf
    have hset := number_set f s ⟨i, hi⟩ .setup { s.shared with main := loop n (i + 1) }
    rw [habsent, hf] at hset
    omega
  rw [hpc] at hinit hhang
  have hloop : (loop n (i + 1)).holdsInit = false ∧ (loop n (i + 1)).holdsHang = true ∧
      (loop n (i + 1)).ready = false ∧ loop n (i + 1) ≠ .sleep ∧ loop n (i + 1) ≠ .waiting := by
    rcases loop_cases n (i + 1) with ⟨h, -⟩ | h
    all_goals
      rw [h]
      simp [MainPc.holdsInit, MainPc.holdsHang, MainPc.ready]
  obtain ⟨hholdsInit, hholdsHang, hnot, hsleep, hwaiting⟩ := hloop
  refine ⟨?_, ?_, ?_, ?_, ?_, ?_, ?_, ?_, ?_⟩
  · rw [hnumber _ rfl, Team.share_shared, hholdsInit]
    exact hinit
  · rw [hnumber _ rfl, Team.share_shared, hholdsHang]
    exact hhang
  · intro _
    rw [hnumber _ rfl]
    exact hcount
  · intro w
    rw [Team.share_worker, Team.share_shared, ahead_loop, Team.set_worker]
    have hmade := hs.made w
    rw [hpc, MainPc.ahead] at hmade
    split
    · rename_i hw
      rw [hw]
      simp
    · rename_i hw
      have hne : (w : ℕ) ≠ i := fun heq => hw (Fin.ext heq)
      rw [hmade, decide_eq_true_eq, decide_eq_true_eq]
      omega
  · exact fun _ => lt_of_loop
  · intro h
    rw [Team.share_shared, hnot] at h
    cases h
  · exact fun h => absurd h hsleep
  · exact fun h => absurd h hwaiting
  · refine Team.forall_set (P := fun _ (p : WorkerPc) => p.released = true → loop n (i + 1) = .done)
      ?_ ?_
    · intro h
      cases h
    · intro v _ h
      have hdone := hs.released v h
      rw [hpc] at hdone
      cases hdone

theorem mainStep_inv (hs : s.Inv) (h : s.mainStep = some s') : s'.Inv := by
  simp only [mainStep] at h
  split at h <;> rename_i hpc
  case h_1 =>
    split at h
    · cases h
    · rename_i hheld
      cases h
      have hahead : ∀ w : Fin n, (loop n 0).ahead w = s.shared.main.ahead w := by
        intro w
        rw [ahead_loop, hpc]
        exact decide_eq_true (Nat.zero_le _)
      have hcreates : ∀ i, loop n 0 = .pthreadCreate i → i < n := fun _ => lt_of_loop
      rcases loop_cases n 0 with ⟨hloop, -⟩ | hloop
      all_goals
        rw [hloop] at hahead hcreates ⊢
        apply hs.main_goes
        case hahead => exact hahead
        case hcreates => exact hcreates
        all_goals simp [hpc, hheld, MainPc.holdsInit, MainPc.holdsHang, MainPc.ready]
  case h_2 =>
    split at h
    · rename_i hi
      cases h
      exact hs.create_goes hi hpc
    · cases h
  case h_3 | h_4 =>
    split at h
    · cases h
    · rename_i hheld
      cases h
      apply hs.main_goes <;>
        simp [hpc, hheld, MainPc.holdsInit, MainPc.holdsHang, MainPc.ready, MainPc.ahead]
  case h_5 =>
    cases h
    have hcount := hs.count (by rw [hpc]; exact MainPc.noConfusion)
    split
    · rename_i hlt
      apply hs.main_goes <;>
        simp [hpc, hlt, MainPc.holdsInit, MainPc.holdsHang, MainPc.ready, MainPc.ahead]
    · rename_i hle
      have hall : ∀ w, (s.worker w).inCount = true := all_of_number (by omega)
      apply hs.main_goes <;>
        simp [hpc, hall, MainPc.holdsInit, MainPc.holdsHang, MainPc.ahead]
  case h_6 =>
    cases h
    have hheld := hs.init_held (by rw [hpc]; rfl)
    apply hs.main_goes <;>
      simp [hpc, hheld, hs.sleeps hpc, MainPc.holdsInit, MainPc.holdsHang, MainPc.ready,
        MainPc.ahead]
  case h_7 =>
    cases h
    have hheld := hs.init_held (by rw [hpc]; rfl)
    have hall := hs.ready (by rw [hpc]; rfl)
    apply hs.main_goes <;>
      simp [hpc, hheld, hall, MainPc.holdsInit, MainPc.holdsHang, MainPc.ahead]
  case h_8 =>
    cases h
    have hheld := hs.hang_held (by rw [hpc]; rfl)
    have hall := hs.ready (by rw [hpc]; rfl)
    apply hs.main_goes <;>
      simp [hpc, hheld, hall, MainPc.holdsInit, MainPc.holdsHang, MainPc.ahead]
  case h_9 | h_10 => cases h

theorem wakeMain_inv (hs : s.Inv) (h : s.wakeMain = some s') : s'.Inv := by
  rw [wakeMain] at h
  split at h
  · rename_i hpc
    cases h
    apply hs.main_goes <;>
      simp [hpc, MainPc.holdsInit, MainPc.holdsHang, MainPc.ready, MainPc.ahead]
  · cases h

theorem onStats_inv (hs : s.Inv) (h : s.onStats = some s') : s'.Inv := by
  rw [onStats] at h
  split at h
  · rename_i hpc
    cases h
    have hall := hs.ready (by rw [hpc]; rfl)
    apply hs.main_goes <;> simp [hpc, hall]
  · cases h

end MainSteps

/-! ## Steps of a worker -/

section WorkerSteps

variable {s s' : Process n} {w : Fin n}

/-- What the main thread may see of a worker's step: it is woken. -/
theorem Inv.worker_goes (hs : s.Inv) {p : WorkerPc} {u : Shared}
    (hmain : u.main = s.shared.main ∨ s.shared.main = .waiting ∧ u.main = .woken)
    (hinit : p.holdsInit.toNat + s.shared.initHeld.toNat =
      (s.worker w).holdsInit.toNat + u.initHeld.toNat)
    (hhang : p.holdsHang.toNat + s.shared.hangHeld.toNat =
      (s.worker w).holdsHang.toNat + u.hangHeld.toNat)
    (hcount : u.initCount + (s.worker w).inCount.toNat =
      s.shared.initCount + p.inCount.toNat)
    (habsent : s.worker w ≠ .absent) (hpresent : p ≠ .absent)
    (hcounted : (s.worker w).inCount = true → p.inCount = true)
    (hsleeps : u.main = .sleep → u.initCount = s.shared.initCount)
    (hwaits : u.main = .waiting → p = .signal ∨ u.initCount = s.shared.initCount ∧
      s.worker w ≠ .signal)
    (hreleased : p.released = true → s.shared.main = .done) :
    Inv ((s.set w p).share u) := by
  have hsame : u.main.holdsInit = s.shared.main.holdsInit ∧
      u.main.holdsHang = s.shared.main.holdsHang ∧ u.main.ready = s.shared.main.ready ∧
      (∀ v, u.main.ahead v = s.shared.main.ahead v) ∧
      (u.main = .done ↔ s.shared.main = .done) := by
    rcases hmain with h | ⟨h, h'⟩
    · rw [h]
      exact ⟨rfl, rfl, rfl, fun _ => rfl, Iff.rfl⟩
    · rw [h, h']
      exact ⟨rfl, rfl, rfl, fun _ => rfl, by simp⟩
  obtain ⟨hholdsInit, hholdsHang, hready, hahead, hdone⟩ := hsame
  have hold : ∀ pc, pc = .sleep ∨ pc = .waiting → u.main = pc → s.shared.main = pc := by
    intro pc hpc h
    rcases hmain with heq | ⟨-, heq⟩
    · exact heq.symm.trans h
    · rw [← h, heq] at hpc
      simp at hpc
  refine ⟨?_, ?_, ?_, ?_, ?_, ?_, ?_, ?_, ?_⟩
  · have hset := number_set WorkerPc.holdsInit s w p u
    have hheld := hs.init
    rw [Team.share_shared, hholdsInit]
    omega
  · have hset := number_set WorkerPc.holdsHang s w p u
    have hheld := hs.hang
    rw [Team.share_shared, hholdsHang]
    omega
  · intro hpc
    have hset := number_set WorkerPc.inCount s w p u
    have hall := hs.count (fun h => hpc (hdone.mpr h))
    rw [Team.share_shared]
    omega
  · intro v
    rw [Team.share_worker, Team.share_shared, hahead, Team.set_worker]
    split
    · rename_i hv
      rw [← hs.made v, hv]
      exact iff_of_false hpresent habsent
    · exact hs.made v
  · intro i h
    refine hs.creates i ?_
    rcases hmain with heq | ⟨-, heq⟩
    · exact heq.symm.trans h
    · cases heq.symm.trans h
  · intro h
    rw [Team.share_shared, hready] at h
    refine Team.forall_set (P := fun _ (p : WorkerPc) => p.inCount = true) ?_ ?_
    · exact hcounted (hs.ready h w)
    · exact fun v _ => hs.ready h v
  · intro h
    rw [Team.share_shared, hsleeps h]
    exact hs.sleeps (hold _ (.inl rfl) h)
  · intro h
    rw [Team.share_worker, Team.share_shared]
    rcases hwaits h with hp | ⟨hsame, hne⟩
    · exact .inr ⟨w, by rw [Team.set_worker_self, hp]⟩
    · rcases hs.waits (hold _ (.inr rfl) h) with hlt | ⟨v, hv⟩
      · exact .inl (hsame ▸ hlt)
      · refine .inr ⟨v, ?_⟩
        rw [Team.set_worker_ne s p (by intro heq; exact hne (heq ▸ hv))]
        exact hv
  · refine Team.forall_set (P := fun _ (p : WorkerPc) => p.released = true → u.main = .done) ?_ ?_
    · exact fun h => hdone.mpr (hreleased h)
    · exact fun v _ h => hdone.mpr (hs.released v h)

/-- A worker that finds `worker_hang_lock` free is behind the main thread. -/
theorem Inv.done_of_free (hs : s.Inv) (hpc : s.worker w = .hangLock)
    (hfree : s.shared.hangHeld = false) : s.shared.main = .done := by
  have hhang := hs.hang
  have hmade := hs.made w
  rw [hfree, Bool.toNat_false] at hhang
  have hnot : s.shared.main.holdsHang = false := Bool.toNat_eq_zero.mp (by omega)
  cases hmain : s.shared.main <;> rw [hmain] at hnot hmade <;> simp [MainPc.holdsHang] at hnot
  · rw [hpc] at hmade
    simp [MainPc.ahead] at hmade

theorem workerStep_inv (hs : s.Inv) (h : s.workerStep w = some s') : s'.Inv := by
  simp only [workerStep] at h
  split at h <;> rename_i hpc
  case h_1 =>
    cases h
    apply hs.worker_goes (u := s.shared) <;>
      simp [hpc, WorkerPc.holdsInit, WorkerPc.holdsHang, WorkerPc.inCount, WorkerPc.released]
  case h_2 =>
    split at h
    · cases h
    · rename_i hheld
      cases h
      apply hs.worker_goes <;>
        simp [hpc, hheld, WorkerPc.holdsInit, WorkerPc.holdsHang, WorkerPc.inCount,
          WorkerPc.released]
  case h_3 =>
    cases h
    have hmain := hs.main_apart (w := w) (by rw [hpc]; rfl)
    have hawake : s.shared.main ≠ .sleep := by
      intro hsleep
      rw [hsleep] at hmain
      cases hmain
    apply hs.worker_goes <;>
      simp [hpc, hawake, WorkerPc.holdsInit, WorkerPc.holdsHang, WorkerPc.inCount,
        WorkerPc.released]
  case h_4 =>
    cases h
    have hsignal : (signal s.shared).main = s.shared.main ∧ s.shared.main ≠ .waiting ∨
        s.shared.main = .waiting ∧ (signal s.shared).main = .woken := by
      rw [signal]
      split
      · rename_i hwaiting
        exact .inr ⟨hwaiting, rfl⟩
      · rename_i hne
        exact .inl ⟨rfl, hne⟩
    have hrest : (signal s.shared).initHeld = s.shared.initHeld ∧
        (signal s.shared).hangHeld = s.shared.hangHeld ∧
        (signal s.shared).initCount = s.shared.initCount := by
      rw [signal]
      split <;> exact ⟨rfl, rfl, rfl⟩
    obtain ⟨hinit, hhang, hcount⟩ := hrest
    apply hs.worker_goes (u := signal s.shared) (hsignal.imp_left And.left)
    case hwaits =>
      intro hwaiting
      rcases hsignal with ⟨hsame, hne⟩ | ⟨-, hwoken⟩
      · exact (hne (hsame.symm.trans hwaiting)).elim
      · cases hwoken.symm.trans hwaiting
    all_goals simp [hpc, hinit, hhang, hcount, WorkerPc.holdsInit, WorkerPc.holdsHang,
      WorkerPc.inCount, WorkerPc.released]
  case h_5 =>
    cases h
    have hheld := hs.worker_init_held (w := w) (by rw [hpc]; rfl)
    apply hs.worker_goes <;>
      simp [hpc, hheld, WorkerPc.holdsInit, WorkerPc.holdsHang, WorkerPc.inCount,
        WorkerPc.released]
  case h_6 =>
    split at h
    · cases h
    · rename_i hheld
      cases h
      have hdone := hs.done_of_free hpc (Bool.eq_false_of_not_eq_true hheld)
      apply hs.worker_goes <;>
        simp [hpc, hheld, hdone, WorkerPc.holdsInit, WorkerPc.holdsHang, WorkerPc.inCount]
  case h_7 =>
    cases h
    have hheld := hs.worker_hang_held (w := w) (by rw [hpc]; rfl)
    have hdone := hs.released w (by rw [hpc]; rfl)
    apply hs.worker_goes <;>
      simp [hpc, hheld, hdone, WorkerPc.holdsInit, WorkerPc.holdsHang, WorkerPc.inCount]
  case h_8 | h_9 => cases h

end WorkerSteps

/-! ## Runs -/

theorem step_inv {s s' : Process n} (hs : s.Inv) {a : Input n} {x : Unit}
    (h : (hangLock n).step s a = some (s', x)) : s'.Inv := by
  obtain ⟨t, ht, hpair⟩ := Option.map_eq_some_iff.mp h
  cases hpair
  cases a with
  | main => exact mainStep_inv hs ht
  | worker w => exact workerStep_inv hs ht
  | wakeMain => exact wakeMain_inv hs ht
  | onStats => exact onStats_inv hs ht

theorem reaches_inv {s : Process n} {tr : List (Input n × Unit)}
    (h : (hangLock n).Reaches tr s) : s.Inv :=
  h.invariant (P := fun _ s => s.Inv) (fun _ hs => inv_start hs) fun _ _ _ _ _ _ hs hstep =>
    step_inv hs hstep

/-! ## The count of the workers -/

/-- `init_count` is the number of the workers that are set up. -/
def Counted (s : Process n) : Prop := s.shared.initCount = s.number WorkerPc.inCount

section Counted

variable {s s' : Process n} {w : Fin n}

theorem Counted.set (h : s.Counted) {p : WorkerPc} {u : Shared}
    (hcount : u.initCount + (s.worker w).inCount.toNat = s.shared.initCount + p.inCount.toNat) :
    Counted ((s.set w p).share u) := by
  have hset := number_set WorkerPc.inCount s w p u
  have hold : s.shared.initCount = s.number WorkerPc.inCount := h
  rw [Counted, Team.share_shared]
  omega

theorem mainStep_counted (hs : s.Inv) (hc : s.Counted) (h : s.mainStep = some s') :
    s'.Counted := by
  simp only [mainStep] at h
  split at h <;> rename_i hpc
  case h_2 i =>
    split at h
    · rename_i hi
      cases h
      have habsent : s.worker ⟨i, hi⟩ = .absent := by
        rw [hs.made, hpc]
        exact decide_eq_true (Nat.le_refl i)
      apply hc.set
      rw [habsent]
      rfl
    · cases h
  case h_1 | h_3 | h_4 =>
    split at h
    · cases h
    · cases h
      exact hc
  case h_5 | h_6 | h_7 | h_8 =>
    cases h
    exact hc
  case h_9 | h_10 => cases h

theorem signal_initCount (u : Shared) : (signal u).initCount = u.initCount := by
  rw [signal]
  split <;> rfl

theorem workerStep_counted (hc : s.Counted) (h : s.workerStep w = some s') : s'.Counted := by
  simp only [workerStep] at h
  split at h <;> rename_i hpc
  case h_2 | h_6 =>
    split at h
    · cases h
    · cases h
      apply hc.set
      rw [hpc]
      rfl
  case h_1 =>
    cases h
    apply hc.set (u := s.shared)
    rw [hpc]
    rfl
  case h_3 | h_5 | h_7 =>
    cases h
    apply hc.set
    rw [hpc]
    rfl
  case h_4 =>
    cases h
    apply hc.set
    rw [hpc, signal_initCount]
    rfl
  case h_8 | h_9 => cases h

theorem step_counted (hs : s.Inv) (hc : s.Counted) {a : Input n} (ha : a ≠ .onStats)
    (h : s.step a = some s') : s'.Counted := by
  cases a with
  | main => exact mainStep_counted hs hc h
  | worker w => exact workerStep_counted hc h
  | wakeMain =>
      simp only [step, wakeMain] at h
      split at h
      · cases h
        exact hc
      · cases h
  | onStats => exact (ha rfl).elim

end Counted

/-- Only a request for statistics makes `init_count` something else. -/
theorem reaches_counted {s : Process n} {tr : List (Input n × Unit)}
    (h : (hangLock n).Reaches tr s) : (∀ x ∈ tr, x.1 ≠ .onStats) → s.Counted := by
  refine h.invariant (P := fun tr (s : Process n) => (∀ x ∈ tr, x.1 ≠ .onStats) → s.Counted) ?_ ?_
  · intro s hinit _
    have hcount := (inv_start hinit).count
    rw [hinit.2] at hcount
    rw [Counted, hinit.2]
    exact hcount MainPc.noConfusion
  · intro tr s a t x hreach ih hstep hno
    obtain ⟨t', ht, hpair⟩ := Option.map_eq_some_iff.mp hstep
    cases hpair
    refine step_counted (reaches_inv hreach) (ih fun y hy => hno y ?_) (hno (a, ()) ?_) ht
    · exact List.mem_append_left _ hy
    · exact List.mem_append_right _ (List.mem_singleton_self _)

/-! ## The barrier -/

/-- No worker is in its loop before all of them are set up and the main thread waits for
nobody any more, and no two threads hold the same lock. -/
structure Barrier (tr : List (Input n × Unit)) (s : Process n) : Prop where
  entered : ∀ w, s.worker w = .loop → s.shared.main = .done
  setup : s.shared.main = .done → ∀ w, (s.worker w).inCount = true
  count : (s.shared.main ≠ .done ∨ ∀ x ∈ tr, x.1 ≠ .onStats) → s.Counted
  initOne : s.shared.main.holdsInit.toNat + s.number WorkerPc.holdsInit ≤ 1
  hangOne : s.shared.main.holdsHang.toNat + s.number WorkerPc.holdsHang ≤ 1

theorem barrier {s : Process n} {tr : List (Input n × Unit)} (h : (hangLock n).Reaches tr s) :
    Barrier tr s := by
  have hs := reaches_inv h
  refine ⟨?_, ?_, ?_, ?_, ?_⟩
  · intro w hw
    exact hs.released w (by rw [hw]; rfl)
  · intro hmain
    exact hs.ready (by rw [hmain]; rfl)
  · rintro (hmain | hno)
    · exact hs.count hmain
    · exact reaches_counted h hno
  · rw [hs.init]
    exact Bool.toNat_le _
  · rw [hs.hang]
    exact Bool.toNat_le _

def fresh : Process 2 := ⟨fun _ => .absent, ⟨0, false, false, .hangLock⟩⟩

/-- The first worker is counted ahead of the check, and the second one wakes the main thread. -/
def lateWorker (v w : Fin 2) : List (Input 2) :=
  [.main, .main, .main, .worker v, .worker v, .worker v, .worker v, .worker v, .main, .main,
    .main, .worker w, .worker w, .worker w, .worker w, .worker w, .main, .main, .main, .main,
    .worker v, .worker v, .worker w]

theorem barrier_lateWorker :
    ∃ tr s, (hangLock 2).Reaches tr s ∧ s.worker 0 = .loop ∧ s.worker 1 = .hangUnlock ∧
      s.shared.initCount = 2 ∧ Barrier tr s := by
  have hrun : ((hangLock 2).exec fresh (lateWorker 0 1)).isSome := by decide
  have hreach := Machine.reaches_exec_get (by exact ⟨fun _ => rfl, rfl⟩) hrun
  exact ⟨_, _, hreach, rfl, rfl, rfl, barrier hreach⟩

end Process

end Upcalls.HangLock
