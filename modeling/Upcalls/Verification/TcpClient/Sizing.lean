import Upcalls.Model.LogSizing

/-! # When the size of a log is the one the formulas mean -/

namespace Upcalls.TcpClient

open TscLogger (hdrSize TscLogEntrySize L1_CACHE_BYTES)

/-! ## The computation on 64 bits -/

section Words

variable {x y : UInt64} {a b : ℕ}

theorem toNat_add_of_lt (hx : x.toNat = a) (hy : y.toNat = b) (h : a + b < 2 ^ 64) :
    (x + y).toNat = a + b := by
  rw [UInt64.toNat_add, hx, hy, Nat.mod_eq_of_lt h]

theorem toNat_mul_of_lt (hx : x.toNat = a) (hy : y.toNat = b) (h : a * b < 2 ^ 64) :
    (x * y).toNat = a * b := by
  rw [UInt64.toNat_mul, hx, hy, Nat.mod_eq_of_lt h]

end Words

section Intended

variable {s : Settings}

/-- What a client needs is a part of the size of the log, if there are clients. -/
theorem intended_le (s : Settings) : (intendedSizing s).perThread ≤ (intendedSizing s).maxEvents ∧
    48 * (intendedSizing s).maxEvents + 128 = (intendedSizing s).logSize := by
  simp only [intendedSizing, hdrSize, TscLogEntrySize, L1_CACHE_BYTES]
  omega

/-- When the number of events of a client and the size of the log fit, so does all that is
computed on the way. -/
theorem sizedRight_of_lt (hbatch : s.batchSize ≠ 0)
    (hclient : (intendedSizing s).perClient < 2 ^ 64)
    (hlog : (intendedSizing s).logSize < 2 ^ 64) : SizedRight s := by
  obtain ⟨hthread, hsize⟩ := intended_le s
  have hparts : (intendedSizing s).ios + (intendedSizing s).connects < 2 ^ 64 := hclient
  have hmsg := s.msgSize.toNat_lt
  have hminIo : (1 + s.msgSize / 1380).toNat = (intendedSizing s).minIo :=
    toNat_add_of_lt (a := 1) (b := s.msgSize.toNat / 1380) rfl (UInt64.toNat_div _ _) (by omega)
  have hfour : (4 * (1 + s.msgSize / 1380)).toNat = 4 * (intendedSizing s).minIo := by
    apply toNat_mul_of_lt (a := 4) rfl hminIo
    simp only [intendedSizing]
    omega
  have hios : (4 * (1 + s.msgSize / 1380) * s.transactionCount).toNat = (intendedSizing s).ios :=
    toNat_mul_of_lt hfour rfl (Nat.lt_of_le_of_lt (Nat.le_add_right _ _) hparts)
  have hconnectsLt : (intendedSizing s).connects < 2 ^ 64 := by omega
  have hbatches : (1 + s.transactionCount / s.batchSize).toNat =
      1 + s.transactionCount.toNat / s.batchSize.toNat := by
    apply toNat_add_of_lt (a := 1) rfl (UInt64.toNat_div _ _)
    simp only [intendedSizing] at hconnectsLt
    omega
  have hconnects : (2 * (1 + s.transactionCount / s.batchSize)).toNat =
      (intendedSizing s).connects := toNat_mul_of_lt rfl hbatches hconnectsLt
  have hperClient := toNat_add_of_lt hios hconnects hparts
  have hperThread : ((4 * (1 + s.msgSize / 1380) * s.transactionCount +
      2 * (1 + s.transactionCount / s.batchSize)) * s.clientsPerThread).toNat =
      (intendedSizing s).perThread := by
    apply toNat_mul_of_lt hperClient rfl
    change (intendedSizing s).perThread < 2 ^ 64
    omega
  have hmaxEvents := toNat_mul_of_lt hperThread (y := 8) (b := 8) rfl
    (show (intendedSizing s).maxEvents < 2 ^ 64 by omega)
  have hentrySize := toNat_mul_of_lt (x := .ofNat (TscLogEntrySize 4)) (a := 48) rfl hmaxEvents
    (show 48 * (intendedSizing s).maxEvents < 2 ^ 64 by omega)
  have hheader := toNat_add_of_lt (x := .ofNat hdrSize) (a := 64) rfl hentrySize
    (show 64 + 48 * (intendedSizing s).maxEvents < 2 ^ 64 by omega)
  have hlogSize := toNat_add_of_lt hheader (y := .ofNat L1_CACHE_BYTES) (b := 64) rfl
    (show 64 + 48 * (intendedSizing s).maxEvents + 64 < 2 ^ 64 by omega)
  simp only [SizedRight, logSizing, if_neg hbatch, Option.map_some, Sizing.map, hminIo, hios,
    hconnects, hperClient, hperThread, hmaxEvents, hentrySize, hlogSize]
  rfl

end Intended

/-- The sizes are right exactly when a batch has some transaction, and the number of events
of a client and the size of the log fit in 64 bits. -/
theorem sizedRight_iff (s : Settings) :
    SizedRight s ↔ s.batchSize.toNat ≠ 0 ∧
      4 * (1 + s.msgSize.toNat / 1380) * s.transactionCount.toNat +
        2 * (1 + s.transactionCount.toNat / s.batchSize.toNat) < 2 ^ 64 ∧
      64 + 48 * ((4 * (1 + s.msgSize.toNat / 1380) * s.transactionCount.toNat +
        2 * (1 + s.transactionCount.toNat / s.batchSize.toNat)) * s.clientsPerThread.toNat * 8) +
        64 < 2 ^ 64 := by
  constructor
  · intro h
    simp only [SizedRight, logSizing] at h
    split at h
    · cases h
    · rename_i hbatch
      rw [Option.map_some, Option.some.injEq] at h
      refine ⟨?_, ?_, ?_⟩
      · intro hzero
        exact hbatch (UInt64.toNat_inj.mp hzero)
      · have hclient := congrArg Sizing.perClient h
        simp only [Sizing.map] at hclient
        exact Nat.lt_of_le_of_lt (Nat.le_of_eq hclient.symm) (UInt64.toNat_lt _)
      · have hlog := congrArg Sizing.logSize h
        simp only [Sizing.map] at hlog
        exact Nat.lt_of_le_of_lt (Nat.le_of_eq hlog.symm) (UInt64.toNat_lt _)
  · intro h
    obtain ⟨hbatch, hclient, hlog⟩ := h
    refine sizedRight_of_lt ?_ hclient hlog
    intro hzero
    rw [hzero] at hbatch
    exact hbatch rfl

/-- The option parsing accepts any sizes. -/
theorem readOptions_sizes (nrCpus m b t c : UInt64) :
    ∃ opts s, readOptions nrCpus opts ["10.0.0.1", "2000000"] = some s ∧ s.msgSize = m ∧
      s.batchSize = b ∧ s.transactionCount = t ∧ s.clientsPerThread = c := by
  refine ⟨[.msgSize m.toInt64, .batchSize b.toInt64, .txnCount t.toInt64, .clients c.toInt64],
    { Settings.default with
      msgSize := m, batchSize := b, transactionCount := t, clientsPerThread := c
      nrThreads := nrCpus }, ?_, rfl, rfl, rfl, rfl⟩
  simp [readOptions, Settings.set, Settings.default]

/-- With a batch size of zero, the client divides by it. -/
theorem not_sizedRight :
    ¬ ∀ (nrCpus : UInt64) (opts : List Opt) (args : List String) (s : Settings),
      readOptions nrCpus opts args = some s → SizedRight s := by
  intro h
  have hzero := h 1 [.batchSize 0] ["10.0.0.1", "2000000"]
    { Settings.default with batchSize := 0, nrThreads := 1 } (by decide)
  cases hzero

end Upcalls.TcpClient
