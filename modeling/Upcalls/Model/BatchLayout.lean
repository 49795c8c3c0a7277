import Upcalls.Library.Regions
import Upcalls.Model.BatchStats

/-! # The layout of the batch statistics in machine words

The sizes of `upcall_init` in `size_t`, and the indices that `run_event_loop`,
`batch_ctl_poll` and `batch_monitor_fn` compute from them. An index is into `g_batch_stats`
or into the slot of a worker, in words of 8 bytes.
-/

namespace Upcalls.BatchStats

open Library

/-- `g_batch_hist_len`, `g_time_hist_len` and `g_batch_stride`. -/
structure Layout64 where
  batchHistLen : UInt64
  timeHistLen : UInt64
  batchStride : UInt64
  deriving DecidableEq, Repr

def upcallInit64 (batchSz : UInt64) : Layout64 :=
  let perLine : UInt64 := .ofNat (UPCALL_CACHELINE / 8)
  let batchHistLen := batchSz + 1
  let timeHistLen := .ofNat UPCALL_TIME_BUCKETS
  let batchStride := (1 + batchHistLen + 2 * timeHistLen + (perLine - 1)) &&& ~~~(perLine - 1)
  ⟨batchHistLen, timeHistLen, batchStride⟩

/-- The numbers of words and bytes that `upcall_init` computes do not wrap. With one worker
at least, the sums in the stride do not either. -/
def SizesFit (nr batchSz : UInt64) : Prop :=
  nr.toNat * (upcallInit batchSz.toNat).batchStride * 8 < 2 ^ 64

namespace Layout64

/-- The bytes that are allocated for `nr` workers, and cleared by a reset. -/
def allocSize (L : Layout64) (nr : UInt64) : UInt64 := nr * L.batchStride * 8

def toLayout (L : Layout64) : Layout :=
  ⟨L.batchHistLen.toNat, L.timeHistLen.toNat, L.batchStride.toNat⟩

/-! ## Counters of a worker -/

/-- The index of the slot of a worker, which is what `my_batch_slot` points to. -/
def slot (L : Layout64) (w : UInt64) : UInt64 := w * L.batchStride

/-- `tb` and `kb`, of type `int`. -/
def timeBucket (L : Layout64) (d : UInt64) : Int32 :=
  let tb : Int32 := if d ≠ 0 then 63 - .ofNat (builtinClzll d.toNat) else 0
  let len := L.timeHistLen.toUInt32.toInt32
  if len ≤ tb then len - 1 else tb

/-- A `size_t` out of an `int`. -/
def ofInt (i : Int32) : UInt64 := i.toInt64.toUInt64

def batchBucket (L : Layout64) (ret : Int32) : UInt64 :=
  let b := ofInt ret
  if L.batchHistLen ≤ b then L.batchHistLen - 1 else b

def submitsIndex : UInt64 := 0

def batchIndex (L : Layout64) (ret : Int32) : UInt64 := 1 + L.batchBucket ret

def utimeIndex (L : Layout64) (procStart t0 : UInt64) : UInt64 :=
  1 + L.batchHistLen + ofInt (L.timeBucket (t0 - procStart))

def ktimeIndex (L : Layout64) (t0 t1 : UInt64) : UInt64 :=
  1 + L.batchHistLen + L.timeHistLen + ofInt (L.timeBucket (t1 - t0))

/-! ## Sections of a slot -/

def submits : Region := ⟨0, 1⟩

def batchHist (L : Layout64) : Region := ⟨1, L.batchHistLen.toNat⟩

def utimeHist (L : Layout64) : Region := ⟨1 + L.batchHistLen.toNat, L.timeHistLen.toNat⟩

def ktimeHist (L : Layout64) : Region :=
  ⟨1 + L.batchHistLen.toNat + L.timeHistLen.toNat, L.timeHistLen.toNat⟩

def sections (L : Layout64) : List Region := [submits, L.batchHist, L.utimeHist, L.ktimeHist]

/-! ## What the monitor thread uses -/

/-- The indices of the loads in `batch_ctl_poll`, for `n` workers. -/
inductive PollUses (L : Layout64) (n : UInt64) : UInt64 → Prop
  | utime {w b} : w < n → b < L.timeHistLen →
      PollUses L n (w * L.batchStride + 1 + L.batchHistLen + b)
  | ktime {w b} : w < n → b < L.timeHistLen →
      PollUses L n (w * L.batchStride + 1 + L.batchHistLen + L.timeHistLen + b)
  | batch {w b} : w < n → b < L.batchHistLen → PollUses L n (w * L.batchStride + 1 + b)

/-- The indices into `g_batch_stats` and `prev` in `batch_monitor_fn`. -/
inductive MonitorUses (L : Layout64) (n : UInt64) : UInt64 → Prop
  | submits {w} : w < n → MonitorUses L n (w * L.batchStride + 0)
  | batch {w b} : w < n → b < L.batchHistLen → MonitorUses L n (w * L.batchStride + (1 + b))
  | utime {w b} : w < n → b < L.timeHistLen →
      MonitorUses L n (w * L.batchStride + (1 + L.batchHistLen + b))
  | ktime {w b} : w < n → b < L.timeHistLen →
      MonitorUses L n (w * L.batchStride + (1 + L.batchHistLen + L.timeHistLen + b))
  | copy {w k} : w < n → k < L.batchStride → MonitorUses L n (w * L.batchStride + k)

end Layout64

/-- The cache line of a byte of the word at index `i`, in an array at address `base`. -/
def cacheLine (base : ℕ) (i : UInt64) (byte : ℕ) : ℕ :=
  (base + 8 * i.toNat + byte) / UPCALL_CACHELINE

end Upcalls.BatchStats
