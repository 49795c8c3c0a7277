import Upcalls.Model.BatchStats
import Mathlib.Data.List.Range

/-! # The slots of a worker, and what one step does to them -/

namespace Upcalls.BatchStats

open Library

/-! ## Slots -/

namespace Layout

variable {L : Layout}

/-- The number of slots in use. -/
def used (L : Layout) : ℕ := 1 + L.batchHistLen + 2 * L.timeHistLen

/-- The slots in use fit into the stride. -/
structure Fits (L : Layout) : Prop where
  used : L.used ≤ L.batchStride
  batch : 0 < L.batchHistLen
  time : 0 < L.timeHistLen

theorem upcallInit_fits (batchSz : ℕ) : (upcallInit batchSz).Fits := by
  refine ⟨?_, Nat.succ_pos _, Nat.succ_pos 39⟩
  simp only [Layout.used, upcallInit, UPCALL_CACHELINE]
  omega

theorem Fits.timeBucket (h : L.Fits) (d : ℕ) : L.timeBucket d < L.timeHistLen := by
  have hpos := h.time
  simp only [Layout.timeBucket]
  split <;> split <;> omega

theorem Fits.batchBucket (h : L.Fits) (ret : ℕ) : L.batchBucket ret < L.batchHistLen := by
  have hpos := h.batch
  simp only [Layout.batchBucket]
  split <;> omega

theorem Fits.utimeSlot (h : L.Fits) (d : ℕ) : L.utimeSlot d < L.used := by
  have hbucket := h.timeBucket d
  simp only [Layout.utimeSlot, Layout.used]
  omega

theorem Fits.ktimeSlot (h : L.Fits) (d : ℕ) : L.ktimeSlot d < L.used := by
  have hbucket := h.timeBucket d
  simp only [Layout.ktimeSlot, Layout.used]
  omega

theorem Fits.batchSlot (h : L.Fits) (ret : ℕ) : L.batchSlot ret < L.used := by
  have hbucket := h.batchBucket ret
  simp only [Layout.batchSlot, Layout.used]
  omega

/-- A row prints the slots in use in their order. -/
theorem columns_eq (L : Layout) : L.columns = List.range L.used := by
  have hused : L.used = 1 + (L.batchHistLen + (L.timeHistLen + L.timeHistLen)) := by
    rw [used]
    omega
  rw [hused, List.range_add, List.range_add, List.range_add, columns]
  simp only [List.map_append, List.map_map, List.append_assoc, Function.comp_def,
    ← Nat.add_assoc]
  rfl

theorem mem_columns {i : ℕ} : i ∈ L.columns ↔ i < L.used := by
  rw [columns_eq, List.mem_range]

theorem nodup_columns (L : Layout) : L.columns.Nodup := by
  rw [columns_eq]
  exact List.nodup_range

end Layout

variable {n : ℕ} {L : Layout}

theorem place_lt {w : Fin n} {i : ℕ} (h : i < L.batchStride) :
    Process.place L w i < n * L.batchStride := by
  have hle : (w + 1) * L.batchStride ≤ n * L.batchStride := Nat.mul_le_mul_right _ w.2
  rw [Nat.add_mul, Nat.one_mul] at hle
  rw [Process.place]
  omega

/-- Different slots have different places. -/
theorem place_eq_iff {w : Fin n} {v i j : ℕ} (hi : i < L.batchStride)
    (hj : j < L.batchStride) :
    Process.place L w i = v * L.batchStride + j ↔ w = v ∧ i = j := by
  rw [Process.place]
  constructor
  · intro h
    have hpos : 0 < L.batchStride := by omega
    have hdiv : (w * L.batchStride + i) / L.batchStride = w := by
      rw [Nat.mul_comm, Nat.mul_add_div hpos, Nat.div_eq_of_lt hi, Nat.add_zero]
    have hdiv' : (v * L.batchStride + j) / L.batchStride = v := by
      rw [Nat.mul_comm, Nat.mul_add_div hpos, Nat.div_eq_of_lt hj, Nat.add_zero]
    have hw : (w : ℕ) = v := by rw [← hdiv, h, hdiv']
    rw [hw] at h
    exact ⟨hw, by omega⟩
  · rintro ⟨rfl, rfl⟩
    rfl

/-! ## Steps -/

namespace Process

open Team

/-- The steps that each input allows. -/
inductive Stepped (L : Layout) (s : Process n) : Input n → Process n → Output → Prop
  | entered {w t0} : (s.worker w).inSubmit = false → (s.worker w).todo = [] →
      (s.worker w).procStart ≤ t0 → 0 < t0 → t0 < 2 ^ 64 →
      Stepped L s (.enter w t0) (s.set w { s.worker w with
        inSubmit := true
        t0 := t0
        todo := if (s.worker w).procStart ≠ 0 then [L.utimeSlot (t0 - (s.worker w).procStart)]
          else [] }) .silent
  | left {w ret t1} : (s.worker w).inSubmit = true → (s.worker w).todo = [] →
      (s.worker w).t0 ≤ t1 → t1 < 2 ^ 64 → ret < L.batchHistLen →
      Stepped L s (.leave w ret t1) (s.set w { s.worker w with
        inSubmit := false
        procStart := t1
        todo := [L.ktimeSlot (t1 - (s.worker w).t0), 0, L.batchSlot ret] }) .silent
  | loaded {w i todo} : (s.worker w).todo = i :: todo → (s.worker w).loaded = none →
      Stepped L s (.load w)
        (s.set w { s.worker w with loaded := some (s.shared.stats (place L w i)) })
        (.loaded (place L w i) (s.shared.stats (place L w i)))
  | stored {w i todo v} : (s.worker w).todo = i :: todo → (s.worker w).loaded = some v →
      Stepped L s (.store w) ((s.set w { s.worker w with todo := todo, loaded := none }).share
        { s.shared with stats := Function.update s.shared.stats (place L w i) (v + 1) })
        (.stored (place L w i))
  | woken : s.shared.monitor = .sleep →
      Stepped L s .monitor (s.goTo (row n L 0)) .silent
  | printed {v i cols} : s.shared.monitor = .print v (i :: cols) →
      Stepped L s .monitor (s.goTo (.print v cols)) (.printed (v * L.batchStride + i)
        (s.shared.stats (v * L.batchStride + i)) (s.shared.prev (v * L.batchStride + i)))
  | rowPrinted {v} : s.shared.monitor = .print v [] →
      Stepped L s .monitor (s.goTo (.copy v 0)) .silent
  | copied {v i} : s.shared.monitor = .copy v i → i < L.batchStride →
      Stepped L s .monitor (s.share { s.shared with
        prev := Function.update s.shared.prev (v * L.batchStride + i)
          (s.shared.stats (v * L.batchStride + i))
        monitor := .copy v (i + 1) }) (.copied (v * L.batchStride + i))
  | rowCopied {v i} : s.shared.monitor = .copy v i → L.batchStride ≤ i →
      Stepped L s .monitor (s.goTo (row n L (v + 1))) .silent
  | zeroed {k} : s.shared.monitor = .zero k → k < n * L.batchStride →
      Stepped L s .monitor (s.share { s.shared with
        stats := Function.update s.shared.stats k 0
        monitor := .zero (k + 1) }) (.zeroed k)
  | allZeroed {k} : s.shared.monitor = .zero k → n * L.batchStride ≤ k →
      Stepped L s .monitor (s.goTo (.zeroPrev 0)) .silent
  | zeroedPrev {k} : s.shared.monitor = .zeroPrev k → k < n * L.batchStride →
      Stepped L s .monitor (s.share { s.shared with
        prev := Function.update s.shared.prev k 0
        monitor := .zeroPrev (k + 1) }) (.zeroedPrev k)
  | reset {k} : s.shared.monitor = .zeroPrev k → n * L.batchStride ≤ k →
      Stepped L s .monitor (s.goTo .sleep) .silent
  | polled {cmd c} : s.shared.monitor = .poll →
      Stepped L s (.poll cmd) (s.share { s.shared with monitor := .sleep, last := c }) .silent
  | resetting {tag} : s.shared.monitor = .poll →
      Stepped L s (.poll (some (.reset tag)))
        (s.share { s.shared with monitor := .zero 0, last := .reset tag }) .silent
  | dumped {path} : s.shared.monitor = .poll →
      Stepped L s (.poll (some (.dump path)))
        (s.share { s.shared with monitor := .sleep, last := .dump path })
        (.dumped path (dump n s.shared.stats L))

theorem enter_spec {s s' : Process n} {w : Fin n} {t0 : ℕ} (h : s.enter L w t0 = some s') :
    Stepped L s (.enter w t0) s' .silent := by
  rw [enter] at h
  split at h
  · rename_i hguard
    cases h
    exact .entered hguard.1 hguard.2.1 hguard.2.2.1 hguard.2.2.2.1 hguard.2.2.2.2
  · cases h

theorem leave_spec {s s' : Process n} {w : Fin n} {ret t1 : ℕ}
    (h : s.leave L w ret t1 = some s') : Stepped L s (.leave w ret t1) s' .silent := by
  rw [leave] at h
  split at h
  · rename_i hguard
    cases h
    exact .left hguard.1 hguard.2.1 hguard.2.2.1 hguard.2.2.2.1 hguard.2.2.2.2
  · cases h

theorem load_spec {s s' : Process n} {w : Fin n} {o : Output} (h : s.load L w = some (s', o)) :
    Stepped L s (.load w) s' o := by
  simp only [load] at h
  split at h
  · rename_i htodo hloaded
    cases h
    exact .loaded htodo hloaded
  · cases h

theorem store_spec {s s' : Process n} {w : Fin n} {o : Output}
    (h : s.store L w = some (s', o)) : Stepped L s (.store w) s' o := by
  simp only [store] at h
  split at h
  · rename_i htodo hloaded
    cases h
    exact .stored htodo hloaded
  · cases h

theorem monitor_spec {s s' : Process n} {o : Output} (h : s.monitor L = some (s', o)) :
    Stepped L s .monitor s' o := by
  simp only [monitor] at h
  split at h
  · rename_i hpc
    cases h
    exact .woken hpc
  · rename_i hpc
    cases h
    exact .printed hpc
  · rename_i hpc
    cases h
    exact .rowPrinted hpc
  · rename_i hpc
    split at h
    · rename_i hlt
      cases h
      exact .copied hpc hlt
    · rename_i hlt
      cases h
      exact .rowCopied hpc (Nat.le_of_not_lt hlt)
  · rename_i hpc
    split at h
    · rename_i hlt
      cases h
      exact .zeroed hpc hlt
    · rename_i hlt
      cases h
      exact .allZeroed hpc (Nat.le_of_not_lt hlt)
  · rename_i hpc
    split at h
    · rename_i hlt
      cases h
      exact .zeroedPrev hpc hlt
    · rename_i hlt
      cases h
      exact .reset hpc (Nat.le_of_not_lt hlt)
  · cases h

theorem poll_spec {s s' : Process n} {cmd : Option Command} {o : Output}
    (h : s.poll L cmd = some (s', o)) : Stepped L s (.poll cmd) s' o := by
  simp only [poll] at h
  split at h
  · rename_i hpc
    cases h
    exact .polled (c := s.shared.last) hpc
  · rename_i cmd hpc
    split at h
    · cases h
      exact .polled (c := s.shared.last) hpc
    · split at h
      · cases h
        exact .resetting hpc
      · cases h
        exact .dumped hpc
      · cases h
        exact .polled hpc
  · cases h

theorem step_spec {s s' : Process n} {a : Input n} {o : Output}
    (h : s.step L a = some (s', o)) : Stepped L s a s' o := by
  cases a with
  | enter w t0 =>
      obtain ⟨t, ht, hpair⟩ := Option.map_eq_some_iff.mp h
      cases hpair
      exact enter_spec ht
  | leave w ret t1 =>
      obtain ⟨t, ht, hpair⟩ := Option.map_eq_some_iff.mp h
      cases hpair
      exact leave_spec ht
  | load w => exact load_spec h
  | store w => exact store_spec h
  | monitor => exact monitor_spec h
  | poll cmd => exact poll_spec h

end Process

end Upcalls.BatchStats
