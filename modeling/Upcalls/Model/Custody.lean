import Mathlib.Data.Multiset.AddSub
import Upcalls.Model.LibUpcall

/-! # Who holds a buffer

The worker thread together with the buffers that the kernel and the user code hold. A
token is the address of a buffer. The kernel copies the `iovec` arrays of a batch during
`upcall_submit`; which completions hand back a buffer is its own affair and stays the
parameter `carries`.
-/

namespace Upcalls.LibUpcall

open Library

variable {φ : Type}

/-! ## What a batch hands to the kernel -/

namespace Worker

/-- The entries behind one record of a batch, read through the record's pointer: `none`
when it does not point at `len` entries of the live array. -/
def vecEntries (w : Worker φ) (e : UpEvent φ) : Option (List IoVec) :=
  if e.type = .upVec then
    if e.buf = w.buffers ∧ e.len ≤ w.iovs.length then some (w.iovs.take e.len) else none
  else some []

def handed (w : Worker φ) : List (UpEvent φ) → Option (List Ptr)
  | [] => some []
  | e :: batch => do
      let entries ← w.vecEntries e
      let rest ← handed w batch
      return entries.map IoVec.base ++ rest

end Worker

/-! ## Kernel and user -/

/-- `first` holds until the first submit; `tokens` are the buffers there are. -/
structure Custody (φ : Type) where
  thread : Thread φ
  first : Bool
  kernel : Multiset Ptr
  user : Multiset Ptr
  tokens : Multiset Ptr

namespace Custody

/-- Besides what the thread does, user code allocates and frees buffers of its own. -/
inductive Input (φ : Type)
  | thread (a : LibUpcall.Input φ)
  | malloc (buf : Ptr)
  | free (buf : Ptr)

/-- `handed` are the buffers that the kernel got in this step. -/
structure Output (φ : Type) where
  visible : LibUpcall.Output φ
  handed : List Ptr

/-- How many entries of the array are free buffers. Setup puts `buf_cnt` back to 0 with
the whole array filled. -/
def validCnt (p : Custody φ) : ℕ :=
  if p.first then p.thread.worker.bufMax else p.thread.worker.bufCnt

/-- The buffers listed in the array, waiting for the next submit. -/
def listed (p : Custody φ) : List Ptr :=
  (p.thread.worker.iovs.take p.validCnt).map IoVec.base

/-- Callers return only buffers they hold, and none in `setup_fn`. -/
def returnBuffer (buf : Ptr) (t : Thread φ) (p : Custody φ) : Option (Custody φ) :=
  if p.thread.phase ≠ .setup ∧ buf ∈ p.user then
    some { p with thread := t, user := p.user.erase buf }
  else none

/-- The kernel hands back only buffers it holds, these included. A completion's buffer
is the user's from the return of `upcall_submit` on. -/
def submit (handed given : List Ptr) (t : Thread φ) (p : Custody φ) : Option (Custody φ) :=
  if (given : Multiset Ptr) ≤ p.kernel + handed then
    some { p with
      thread := t
      first := false
      kernel := p.kernel + handed - given
      user := p.user + given }
  else none

def step (carries : UpEvent φ → Option Ptr) (p : Custody φ) :
    Input φ → Option (Custody φ × Output φ)
  | .thread a => do
      let (t, o) ← p.thread.step a
      match a, o with
      | .call _ (.returnBuffer buf _), _ =>
          let p' ← p.returnBuffer buf t
          return (p', ⟨o, []⟩)
      | .submit _ completions, .submitted batch =>
          let handed ← p.thread.worker.handed batch
          let p' ← p.submit handed (completions.filterMap carries) t
          return (p', ⟨o, handed⟩)
      | _, _ => return ({ p with thread := t }, ⟨o, []⟩)
  | .malloc buf =>
      if buf ∈ p.tokens then none
      else some ({ p with user := buf ::ₘ p.user, tokens := buf ::ₘ p.tokens }, ⟨.silent, []⟩)
  | .free buf =>
      if buf ∈ p.user then
        some ({ p with user := p.user.erase buf, tokens := p.tokens.erase buf }, ⟨.silent, []⟩)
      else none

end Custody

/-- At first only the initial pool exists, all of it listed. -/
def custody (φ : Type) (batchSz bufSz : ℕ) (carries : UpEvent φ → Option Ptr) :
    Machine (Custody φ) (Custody.Input φ) (Custody.Output φ) where
  Init p := ∃ r array pool,
    Worker.upcallWorkerSetup r array pool batchSz bufSz = some p.thread.worker ∧
      p.thread.phase = .setup ∧ p.first = true ∧ p.kernel = 0 ∧ p.user = 0 ∧
      p.tokens = pool.firsts batchSz
  step := Custody.step carries

end Upcalls.LibUpcall
