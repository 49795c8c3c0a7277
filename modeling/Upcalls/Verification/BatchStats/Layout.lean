import Mathlib.Tactic.Ring
import Upcalls.Model.BatchLayout
import Upcalls.Verification.BatchStats.Equations

/-! # Each counter is in its own section of the slot of its worker -/

namespace Upcalls.BatchStats

open Library

/-! ## Words as numbers -/

theorem toNat_and_mask (x : UInt64) : (x &&& ~~~((8 : UInt64) - 1)).toNat = x.toNat / 8 * 8 := by
  have hmask : (~~~((8 : UInt64) - 1)).toNat = 2 ^ 64 - 1 - (2 ^ 3 - 1) := by decide
  rw [UInt64.toNat_and, hmask]
  exact and_mask x.toNat_lt (by decide)

namespace SizesFit

variable {nr batchSz : UInt64}

theorem stride_lt (h : SizesFit nr batchSz) (hnr : 1 ≤ nr.toNat) :
    (upcallInit batchSz.toNat).batchStride * 8 < 2 ^ 64 := by
  have hle := Nat.mul_le_mul_right ((upcallInit batchSz.toNat).batchStride * 8) hnr
  rw [SizesFit, Nat.mul_assoc] at h
  omega

theorem batchSz_lt (h : SizesFit nr batchSz) (hnr : 1 ≤ nr.toNat) :
    batchSz.toNat + 82 < 2 ^ 61 := by
  have hstride := h.stride_lt hnr
  simp only [upcallInit, UPCALL_CACHELINE, UPCALL_TIME_BUCKETS] at hstride
  omega

/-- The words are the numbers that they stand for. -/
theorem toLayout (h : SizesFit nr batchSz) (hnr : 1 ≤ nr.toNat) :
    (upcallInit64 batchSz).toLayout = upcallInit batchSz.toNat := by
  have hlt := h.batchSz_lt hnr
  have hhist : (batchSz + 1).toNat = batchSz.toNat + 1 := by
    rw [UInt64.toNat_add]
    exact Nat.mod_eq_of_lt (by simp only [UInt64.toNat_one]; omega)
  have hsum : (1 + (batchSz + 1) + 2 * UInt64.ofNat UPCALL_TIME_BUCKETS + (8 - 1)).toNat =
      1 + (batchSz.toNat + 1) + 2 * UPCALL_TIME_BUCKETS + (8 - 1) := by
    have hone : (1 + (batchSz + 1)).toNat = 1 + (batchSz.toNat + 1) := by
      rw [UInt64.toNat_add, hhist]
      exact Nat.mod_eq_of_lt (by simp only [UInt64.toNat_one]; omega)
    have htwo : (2 * UInt64.ofNat UPCALL_TIME_BUCKETS : UInt64).toNat = 80 := by decide
    have hseven : ((8 : UInt64) - 1).toNat = 7 := by decide
    rw [UInt64.toNat_add, UInt64.toNat_add, hone, htwo, hseven]
    simp only [UPCALL_TIME_BUCKETS]
    omega
  have hstride : (upcallInit64 batchSz).batchStride.toNat =
      (upcallInit batchSz.toNat).batchStride := by
    refine (toNat_and_mask _).trans ?_
    exact congrArg (fun x => x / 8 * 8) hsum
  simp only [Layout64.toLayout, hstride]
  simp only [upcallInit64, hhist]
  rfl

end SizesFit

/-! ## Buckets -/

/-- The arithmetic of `int` on the number of leading zeros. -/
theorem ofInt_clamp (k : Fin 64) :
    (Layout64.ofInt (if (40 : Int32) ≤ 63 - .ofNat (63 - k) then 40 - 1
      else 63 - .ofNat (63 - k))).toNat = if 40 ≤ (k : ℕ) then 40 - 1 else (k : ℕ) := by
  revert k
  decide +kernel

theorem toNat_timeBucket (batchSz d : UInt64) :
    (Layout64.ofInt ((upcallInit64 batchSz).timeBucket d)).toNat =
      (upcallInit batchSz.toNat).timeBucket d.toNat := by
  have hlen : (UInt64.ofNat UPCALL_TIME_BUCKETS).toUInt32.toInt32 = 40 := by decide
  by_cases hd : d = 0
  · subst hd
    rfl
  · have hd' : d.toNat ≠ 0 := by
      intro hzero
      exact hd (UInt64.toNat_inj.mp hzero)
    have hlog : Nat.log2 d.toNat < 64 := (Nat.log2_lt hd').mpr d.toNat_lt
    have hclamp := ofInt_clamp ⟨Nat.log2 d.toNat, hlog⟩
    simp only [Layout64.timeBucket, upcallInit64, hlen, if_pos hd, builtinClzll]
    refine hclamp.trans ?_
    simp only [Layout.timeBucket, upcallInit, UPCALL_TIME_BUCKETS, if_pos hd', builtinClzll]
    have hback : 63 - (63 - Nat.log2 d.toNat) = Nat.log2 d.toNat := by omega
    rw [hback]

/-! ## Indices -/

/-- The sections, the indices and the cache lines of `nr` workers. -/
structure LaidOut (nr : UInt64) (L : Layout64) : Prop where
  allocSize : (L.allocSize nr).toNat = nr.toNat * L.batchStride.toNat * 8
  apart : L.sections.Pairwise Region.Disjoint
  inside : ∀ r ∈ L.sections, r.Within 0 L.batchStride.toNat
  submits : Layout64.submits.Contains Layout64.submitsIndex.toNat
  batch : ∀ ret, L.batchHist.Contains (L.batchIndex ret).toNat
  utime : ∀ procStart t0, L.utimeHist.Contains (L.utimeIndex procStart t0).toNat
  ktime : ∀ t0 t1, L.ktimeHist.Contains (L.ktimeIndex t0 t1).toNat
  own : ∀ w i, w < nr → i < L.batchStride → (L.slot w + i).toNat = (L.slot w).toNat + i.toNat ∧
    (L.slot w + i).toNat < nr.toNat * L.batchStride.toNat
  lines : ∀ base w w' i i' byte byte', UPCALL_CACHELINE ∣ base → w < nr → w' < nr → w ≠ w' →
    i < L.batchStride → i' < L.batchStride → byte < 8 → byte' < 8 →
      cacheLine base (L.slot w + i) byte ≠ cacheLine base (L.slot w' + i') byte'
  poll : ∀ i, L.PollUses nr i → i.toNat < nr.toNat * L.batchStride.toNat
  monitor : ∀ i, L.MonitorUses nr i → i.toNat < nr.toNat * L.batchStride.toNat

/-- The sections are one behind the other. -/
theorem Layout64.tiles (L : Layout64) : Tiles 0 L.sections L.toLayout.used := by
  refine ⟨rfl, rfl, rfl, rfl, ?_⟩
  simp only [Tiles, Region.stop, ktimeHist, Layout.used, toLayout]
  omega

/-- What the words are, without any that wraps. -/
structure Words (nr : UInt64) (L : Layout64) : Prop where
  size : nr.toNat * L.batchStride.toNat * 8 < 2 ^ 64
  used : L.toLayout.used ≤ L.batchStride.toNat
  line : 8 ∣ L.batchStride.toNat
  pos : 1 ≤ nr.toNat

theorem SizesFit.words {nr batchSz : UInt64} (h : SizesFit nr batchSz) (hnr : 1 ≤ nr.toNat) :
    Words nr (upcallInit64 batchSz) := by
  have hlayout := h.toLayout hnr
  have hstride : (upcallInit64 batchSz).batchStride.toNat =
      (upcallInit batchSz.toNat).batchStride := congrArg Layout.batchStride hlayout
  refine ⟨?_, ?_, ?_, hnr⟩
  · rw [hstride]
    exact h
  · rw [hlayout, hstride]
    exact (Layout.upcallInit_fits batchSz.toNat).used
  · rw [hstride]
    exact Nat.dvd_mul_left _ _

namespace Words

variable {nr : UInt64} {L : Layout64}

/-- The words of a worker end ahead of those of the next one. -/
theorem next_le {w : UInt64} (hw : w < nr) :
    w.toNat * L.batchStride.toNat + L.batchStride.toNat ≤ nr.toNat * L.batchStride.toNat := by
  rw [← Nat.succ_mul]
  exact Nat.mul_le_mul_right _ (UInt64.lt_iff_toNat_lt.mp hw)

theorem slot (h : Words nr L) {w : UInt64} (hw : w < nr) :
    (L.slot w).toNat = w.toNat * L.batchStride.toNat := by
  have hle := next_le (L := L) hw
  have hsize := h.size
  rw [Layout64.slot, UInt64.toNat_mul]
  exact Nat.mod_eq_of_lt (by omega)

/-- An index in a slot, as the numbers that it is the sum of. -/
theorem place (h : Words nr L) {w i : UInt64} {k : ℕ} (hw : w < nr)
    (hi : i.toNat = (w.toNat * L.batchStride.toNat + k) % 2 ^ 64) (hk : k < L.batchStride.toNat) :
    i.toNat = w.toNat * L.batchStride.toNat + k ∧ i.toNat < nr.toNat * L.batchStride.toNat := by
  have hle := next_le (L := L) hw
  have hsize := h.size
  have heq : i.toNat = w.toNat * L.batchStride.toNat + k := by
    rw [hi]
    exact Nat.mod_eq_of_lt (by omega)
  exact ⟨heq, by omega⟩

theorem own (h : Words nr L) {w i : UInt64} (hw : w < nr) (hi : i < L.batchStride) :
    (L.slot w + i).toNat = w.toNat * L.batchStride.toNat + i.toNat ∧
      (L.slot w + i).toNat < nr.toNat * L.batchStride.toNat := by
  apply h.place hw
  · rw [UInt64.toNat_add, h.slot hw]
  · exact UInt64.lt_iff_toNat_lt.mp hi

/-- No line of one slot is a line of another one. -/
theorem lines (h : Words nr L) {base byte byte' : ℕ} {w w' i i' : UInt64}
    (hbase : UPCALL_CACHELINE ∣ base) (hw : w < nr) (hw' : w' < nr) (hne : w ≠ w')
    (hi : i < L.batchStride) (hi' : i' < L.batchStride) (hbyte : byte < 8) (hbyte' : byte' < 8) :
    cacheLine base (L.slot w + i) byte ≠ cacheLine base (L.slot w' + i') byte' := by
  obtain ⟨lines, hlines⟩ := h.line
  obtain ⟨start, rfl⟩ := hbase
  have hline : ∀ {v j : UInt64} {b : ℕ}, v < nr → j < L.batchStride → b < 8 →
      v.toNat * lines ≤ cacheLine (UPCALL_CACHELINE * start) (L.slot v + j) b - start ∧
        cacheLine (UPCALL_CACHELINE * start) (L.slot v + j) b - start < (v.toNat + 1) * lines ∧
        start ≤ cacheLine (UPCALL_CACHELINE * start) (L.slot v + j) b := by
    intro v j b hv hj hb
    have hjlt : j.toNat < 8 * lines := by
      rw [← hlines]
      exact UInt64.lt_iff_toNat_lt.mp hj
    have hsum : UPCALL_CACHELINE * start + 8 * (v.toNat * (8 * lines) + j.toNat) + b =
        UPCALL_CACHELINE * (start + v.toNat * lines) + (8 * j.toNat + b) := by
      simp only [UPCALL_CACHELINE]
      ring
    rw [cacheLine, (h.own hv hj).1, hlines, hsum, Nat.mul_add_div (by decide),
      Nat.succ_mul v.toNat lines]
    have hlt : (8 * j.toNat + b) / UPCALL_CACHELINE < lines := by
      rw [Nat.div_lt_iff_lt_mul (by decide)]
      simp only [UPCALL_CACHELINE]
      omega
    generalize v.toNat * lines = first
    generalize (8 * j.toNat + b) / UPCALL_CACHELINE = line at hlt ⊢
    omega
  intro heq
  obtain ⟨hle, hlt, hstart⟩ := hline hw hi hbyte
  obtain ⟨hle', hlt', hstart'⟩ := hline hw' hi' hbyte'
  rw [heq] at hle hlt
  have hfirst := Nat.lt_of_mul_lt_mul_right (Nat.lt_of_le_of_lt hle hlt')
  have hsecond := Nat.lt_of_mul_lt_mul_right (Nat.lt_of_le_of_lt hle' hlt)
  exact hne (UInt64.toNat_inj.mp (by omega))

theorem poll (h : Words nr L) {i : UInt64} (hi : L.PollUses nr i) :
    i.toNat < nr.toNat * L.batchStride.toNat := by
  have hused := h.used
  simp only [Layout.used, Layout64.toLayout] at hused
  cases hi with
  | @utime w b hw hb =>
      rw [UInt64.lt_iff_toNat_lt] at hb
      refine (h.place (k := 1 + L.batchHistLen.toNat + b.toNat) hw ?_ ?_).2
      · simp only [UInt64.toNat_add, UInt64.toNat_mul, UInt64.toNat_one]
        omega
      · omega
  | @ktime w b hw hb =>
      rw [UInt64.lt_iff_toNat_lt] at hb
      refine (h.place (k := 1 + L.batchHistLen.toNat + L.timeHistLen.toNat + b.toNat) hw ?_ ?_).2
      · simp only [UInt64.toNat_add, UInt64.toNat_mul, UInt64.toNat_one]
        omega
      · omega
  | @batch w b hw hb =>
      rw [UInt64.lt_iff_toNat_lt] at hb
      refine (h.place (k := 1 + b.toNat) hw ?_ ?_).2
      · simp only [UInt64.toNat_add, UInt64.toNat_mul, UInt64.toNat_one]
        omega
      · omega

theorem monitor (h : Words nr L) {i : UInt64} (hi : L.MonitorUses nr i) :
    i.toNat < nr.toNat * L.batchStride.toNat := by
  have hused := h.used
  simp only [Layout.used, Layout64.toLayout] at hused
  cases hi with
  | submits hw =>
      refine (h.place (k := 0) hw ?_ ?_).2
      · simp only [UInt64.toNat_add, UInt64.toNat_mul, UInt64.toNat_zero]
        omega
      · omega
  | @batch w b hw hb =>
      rw [UInt64.lt_iff_toNat_lt] at hb
      refine (h.place (k := 1 + b.toNat) hw ?_ ?_).2
      · simp only [UInt64.toNat_add, UInt64.toNat_mul, UInt64.toNat_one]
        omega
      · omega
  | @utime w b hw hb =>
      rw [UInt64.lt_iff_toNat_lt] at hb
      refine (h.place (k := 1 + L.batchHistLen.toNat + b.toNat) hw ?_ ?_).2
      · simp only [UInt64.toNat_add, UInt64.toNat_mul, UInt64.toNat_one]
        omega
      · omega
  | @ktime w b hw hb =>
      rw [UInt64.lt_iff_toNat_lt] at hb
      refine (h.place (k := 1 + L.batchHistLen.toNat + L.timeHistLen.toNat + b.toNat) hw ?_ ?_).2
      · simp only [UInt64.toNat_add, UInt64.toNat_mul, UInt64.toNat_one]
        omega
      · omega
  | @copy w k hw hk =>
      rw [UInt64.lt_iff_toNat_lt] at hk
      refine (h.place hw ?_ hk).2
      simp only [UInt64.toNat_add, UInt64.toNat_mul]
      omega

end Words

/-- Each index that the workers and the monitor compute is inside of its own section, of the
slot of its worker and of what is allocated, for every number of workers and batch size whose
sizes fit. -/
theorem laidOut {nr batchSz : UInt64} (hnr : 1 ≤ nr.toNat) (hfit : SizesFit nr batchSz) :
    LaidOut nr (upcallInit64 batchSz) := by
  have hlayout := hfit.toLayout hnr
  have hwords := hfit.words hnr
  have hused := hwords.used
  have hhist : (upcallInit64 batchSz).batchHistLen.toNat =
      (upcallInit batchSz.toNat).batchHistLen := congrArg Layout.batchHistLen hlayout
  have htime : (upcallInit64 batchSz).timeHistLen.toNat =
      (upcallInit batchSz.toNat).timeHistLen := congrArg Layout.timeHistLen hlayout
  have hfits := Layout.upcallInit_fits batchSz.toNat
  have hlt := hfit.batchSz_lt hnr
  have htiles := (upcallInit64 batchSz).tiles
  have hhistlt : (upcallInit batchSz.toNat).batchHistLen + 81 < 2 ^ 61 := by
    change batchSz.toNat + 1 + 81 < 2 ^ 61
    omega
  have hforty : (upcallInit batchSz.toNat).timeHistLen = 40 := rfl
  refine ⟨?_, htiles.disjoint, ?_, ⟨Nat.le_refl 0, Nat.one_pos⟩, ?_, ?_, ?_, ?_, ?_, ?_, ?_⟩
  · rw [Layout64.allocSize, UInt64.toNat_mul, UInt64.toNat_mul]
    have hsize := hwords.size
    rw [Nat.mod_eq_of_lt (a := nr.toNat * _) (by omega)]
    exact Nat.mod_eq_of_lt hsize
  · intro r hr
    exact (htiles.within hr).mono (Nat.le_refl 0) hused
  · intro ret
    have hbucket : ((upcallInit64 batchSz).batchBucket ret).toNat <
        (upcallInit64 batchSz).batchHistLen.toNat := by
      have hone : (1 : UInt64) ≤ (upcallInit64 batchSz).batchHistLen := by
        rw [UInt64.le_iff_toNat_le, hhist]
        exact hfits.batch
      simp only [Layout64.batchBucket]
      split
      · rw [UInt64.toNat_sub_of_le _ _ hone, UInt64.toNat_one]
        have hpos := UInt64.le_iff_toNat_le.mp hone
        rw [UInt64.toNat_one] at hpos
        omega
      · rename_i hle
        exact UInt64.lt_iff_toNat_lt.mp (UInt64.not_le.mp hle)
    simp only [Region.Contains, Layout64.batchHist, Region.stop, Layout64.batchIndex,
      UInt64.toNat_add, UInt64.toNat_one]
    omega
  · intro procStart t0
    have hbucket := hfits.timeBucket (t0 - procStart).toNat
    rw [← toNat_timeBucket] at hbucket
    simp only [Region.Contains, Layout64.utimeHist, Region.stop, Layout64.utimeIndex,
      UInt64.toNat_add, UInt64.toNat_one]
    omega
  · intro t0 t1
    have hbucket := hfits.timeBucket (t1 - t0).toNat
    rw [← toNat_timeBucket] at hbucket
    simp only [Region.Contains, Layout64.ktimeHist, Region.stop, Layout64.ktimeIndex,
      UInt64.toNat_add, UInt64.toNat_one]
    omega
  · intro w i hw hi
    rw [hwords.slot hw]
    exact hwords.own hw hi
  · intro base w w' i i' byte byte' hbase hw hw' hne hi hi' hbyte hbyte'
    exact hwords.lines hbase hw hw' hne hi hi' hbyte hbyte'
  · exact fun i hi => hwords.poll hi
  · exact fun i hi => hwords.monitor hi

/-- Two workers with batches of 64. -/
theorem laidOut_two : LaidOut 2 (upcallInit64 64) := laidOut (by decide) (by rw [SizesFit]; decide)

/-- The counters of the machine words are those of the numbers. -/
theorem slots_eq {nr batchSz : UInt64} (hnr : 1 ≤ nr.toNat) (hfit : SizesFit nr batchSz)
    (procStart t0 : UInt64) :
    ((upcallInit64 batchSz).utimeIndex procStart t0).toNat =
      (upcallInit batchSz.toNat).utimeSlot (t0 - procStart).toNat ∧
    ((upcallInit64 batchSz).ktimeIndex procStart t0).toNat =
      (upcallInit batchSz.toNat).ktimeSlot (t0 - procStart).toNat := by
  have hlayout := hfit.toLayout hnr
  have hhist : (upcallInit64 batchSz).batchHistLen.toNat =
      (upcallInit batchSz.toNat).batchHistLen := congrArg Layout.batchHistLen hlayout
  have htime : (upcallInit64 batchSz).timeHistLen.toNat =
      (upcallInit batchSz.toNat).timeHistLen := congrArg Layout.timeHistLen hlayout
  have hforty : (upcallInit batchSz.toNat).timeHistLen = 40 := rfl
  have hbucket := (Layout.upcallInit_fits batchSz.toNat).timeBucket (t0 - procStart).toNat
  have hlt := hfit.batchSz_lt hnr
  have hhistlt : (upcallInit batchSz.toNat).batchHistLen + 81 < 2 ^ 61 := by
    change batchSz.toNat + 1 + 81 < 2 ^ 61
    omega
  simp only [Layout64.utimeIndex, Layout64.ktimeIndex, Layout.utimeSlot, Layout.ktimeSlot,
    UInt64.toNat_add, UInt64.toNat_one, toNat_timeBucket, hhist, htime]
  omega

end Upcalls.BatchStats
