import Upcalls.Library.Regions
import Upcalls.Model.TscLogger

/-! # What the threads that share a log reserve -/

namespace Upcalls.TscLogger

open Library Team

variable {n entries fin : ℕ}

/-! ## The history of a log -/

/-- The regions handed out, in the order of the swaps. -/
def regions (tr : List (Input n × Output n)) : List Region :=
  tr.filterMap fun x =>
    match x.2 with
    | .reserved _ e bytes => some ⟨e, bytes⟩
    | _ => none

/-- Some reservation has failed. -/
def Refused (tr : List (Input n × Output n)) : Prop := ∃ a w, (a, .refused w) ∈ tr

def Output.reserves : Output n → Bool
  | .reserved _ _ _ => true
  | _ => false

def Output.refuses : Output n → Bool
  | .refused _ => true
  | _ => false

section Trace

variable {tr : List (Input n × Output n)} {a : Input n} {o : Output n}

theorem regions_snoc (h : o.reserves = false) : regions (tr ++ [(a, o)]) = regions tr := by
  rw [regions, List.filterMap_append]
  cases o with
  | reserved => cases h
  | _ => simp [regions]

theorem regions_reserved (w : Fin n) (e bytes : ℕ) :
    regions (tr ++ [(a, .reserved w e bytes)]) = regions tr ++ [⟨e, bytes⟩] := by
  simp [regions]

theorem refused_snoc (h : o.refuses = false) : Refused (tr ++ [(a, o)]) ↔ Refused tr := by
  constructor
  · intro hr
    obtain ⟨a', w, hmem⟩ := hr
    rcases List.mem_append.mp hmem with hmem | hmem
    · exact ⟨a', w, hmem⟩
    · cases List.mem_singleton.mp hmem
      cases h
  · intro hr
    obtain ⟨a', w, hmem⟩ := hr
    exact ⟨a', w, List.mem_append_left _ hmem⟩

end Trace

namespace Threads

/-! ## Steps -/

inductive Stepped (s : Threads n) : Input n → Threads n → Output n → Prop
  | called {w r} : s.worker w = .idle →
      Stepped s (.tsclog w r) (s.set w (.reserve r)) .silent
  | loaded {w r} : s.worker w = .reserve r →
      Stepped s (.run w) (s.set w (.test r s.shared.cur)) .silent
  | refused {w r old} : s.worker w = .test r old →
      s.shared.fin < fresh (bytesFor r.values.length) old →
      Stepped s (.run w) (s.set w .full) (.refused w)
  | passed {w r old} : s.worker w = .test r old →
      fresh (bytesFor r.values.length) old ≤ s.shared.fin →
      Stepped s (.run w) (s.set w (.swap r old)) .silent
  | swapped {w r old} : s.worker w = .swap r old → s.shared.cur = old →
      Stepped s (.run w)
        ((s.set w (.write r old)).share
          { s.shared with cur := fresh (bytesFor r.values.length) old })
        (.reserved w old (bytesFor r.values.length))
  | retried {w r old} : s.worker w = .swap r old → s.shared.cur ≠ old →
      Stepped s (.run w) (s.set w (.reserve r)) .silent
  | flagged {w} : s.worker w = .full →
      Stepped s (.run w) ((s.set w .idle).share { s.shared with overflow := true }) .silent
  | written {w r e} : s.worker w = .write r e →
      Stepped s (.run w)
        ((s.set w .idle).share
          { s.shared with mem := writeEntry s.shared.pid e r s.shared.mem })
        .silent

section Step

variable {s s' : Threads n} {a : Input n} {o : Output n}

theorem run_spec {w : Fin n} (h : s.run w = some (s', o)) : Stepped s (.run w) s' o := by
  simp only [run] at h
  cases hpc : s.worker w with
  | idle =>
      rw [hpc] at h
      cases h
  | reserve r =>
      rw [hpc] at h
      cases h
      exact .loaded hpc
  | test r old =>
      simp only [hpc] at h
      split at h
      · rename_i hlt
        cases h
        exact .refused hpc hlt
      · rename_i hge
        cases h
        exact .passed hpc (Nat.le_of_not_lt hge)
  | swap r old =>
      simp only [hpc] at h
      split at h
      · rename_i heq
        cases h
        exact .swapped hpc heq
      · rename_i hne
        cases h
        exact .retried hpc hne
  | full =>
      rw [hpc] at h
      cases h
      exact .flagged hpc
  | write r e =>
      rw [hpc] at h
      cases h
      exact .written hpc

theorem step_spec (h : s.step a = some (s', o)) : Stepped s a s' o := by
  cases a with
  | tsclog w r =>
      simp only [step] at h
      split at h
      · rename_i hidle
        cases h
        exact .called hidle
      · cases h
  | run w => exact run_spec h

/-- Only a successful swap moves `cur`. -/
theorem Stepped.cur (h : Stepped s a s' o) (ho : o.reserves = false) :
    s'.shared.cur = s.shared.cur := by
  cases h with
  | swapped => cases ho
  | _ => rfl

end Step

/-! ## The invariant -/

/-- What a thread knows: it is ahead of a swap only behind the limit test, and ahead of the
store to `overflow` only behind a failed reservation. -/
def Knows (fin : ℕ) (tr : List (Input n × Output n)) : Pc → Prop
  | .swap r old =>
      let bytes := bytesFor r.values.length
      fresh bytes old = old + bytes ∧ old + bytes ≤ fin
  | .full => Refused tr
  | _ => True

structure Inv (entries fin : ℕ) (tr : List (Input n × Output n)) (s : Threads n) : Prop where
  limit : s.shared.fin = fin
  tiles : Tiles entries (regions tr) s.shared.cur
  le : s.shared.cur ≤ fin
  knows : ∀ w, Knows fin tr (s.worker w)
  flag : s.shared.overflow = true → Refused tr
  flagged : Refused tr → s.shared.overflow = true ∨ ∃ w, s.worker w = .full

theorem inv_init {s : Threads n} (h : (threads n entries fin).Init s) : s.Inv entries fin [] := by
  obtain ⟨hidle, hcur, hfin, hoverflow, hle⟩ := h
  refine ⟨hfin, hcur.symm, hcur.trans_le hle, ?_, ?_, ?_⟩
  · intro w
    rw [hidle w]
    trivial
  · intro h
    rw [hoverflow] at h
    cases h
  · intro h
    obtain ⟨a, w, hmem⟩ := h
    cases hmem

section Kept

variable {s : Threads n} {tr : List (Input n × Output n)} {a : Input n} {o : Output n}

theorem Knows.snoc {pc : Pc} (h : Knows fin tr pc) (x : Input n × Output n) :
    Knows fin (tr ++ [x]) pc := by
  cases pc with
  | full =>
      obtain ⟨a, w, hmem⟩ := h
      exact ⟨a, w, List.mem_append_left _ hmem⟩
  | swap => exact h
  | _ => trivial

/-- The other threads know what they knew. -/
theorem Inv.knows_set (h : s.Inv entries fin tr) {w : Fin n} {pc : Pc} {x : Input n × Output n}
    (hpc : Knows fin (tr ++ [x]) pc) (v : Fin n) :
    Knows fin (tr ++ [x]) ((s.set w pc).worker v) := by
  apply forall_set (P := fun _ pc => Knows fin (tr ++ [x]) pc) hpc
  intro v _
  exact (h.knows v).snoc x

/-- Another thread that is ahead of its store to `overflow` stays there. -/
theorem full_set {w : Fin n} {pc : Pc} (hw : s.worker w ≠ .full)
    (h : ∃ v, s.worker v = .full) : ∃ v, (s.set w pc).worker v = .full := by
  obtain ⟨v, hv⟩ := h
  refine ⟨v, ?_⟩
  rw [set_worker_ne s pc]
  · exact hv
  · intro heq
    rw [heq] at hv
    exact hw hv

/-- A step of one thread that leaves the log alone. -/
theorem Inv.moved (h : s.Inv entries fin tr) {w : Fin n} {pc : Pc} (hold : s.worker w ≠ .full)
    (hpc : Knows fin (tr ++ [(a, o)]) pc) (hres : o.reserves = false)
    (href : o.refuses = false) : Inv entries fin (tr ++ [(a, o)]) (s.set w pc) := by
  refine ⟨h.limit, ?_, h.le, h.knows_set hpc, ?_, ?_⟩
  · rw [regions_snoc hres]
    exact h.tiles
  · rw [refused_snoc href]
    exact h.flag
  · rw [refused_snoc href]
    intro hr
    exact (h.flagged hr).imp_right (full_set hold)

theorem Inv.refuse (h : s.Inv entries fin tr) (w : Fin n) :
    Inv entries fin (tr ++ [(a, .refused w)]) (s.set w .full) := by
  have hr : Refused (tr ++ [(a, .refused w)]) := ⟨a, w, by simp⟩
  refine ⟨h.limit, ?_, h.le, h.knows_set hr, fun _ => hr, ?_⟩
  · rw [regions_snoc rfl]
    exact h.tiles
  · intro _
    exact .inr ⟨w, set_worker_self s w _⟩

theorem Inv.swap (h : s.Inv entries fin tr) {w : Fin n} {r : Record}
    (hpc : s.worker w = .swap r s.shared.cur) :
    Inv entries fin (tr ++ [(a, .reserved w s.shared.cur (bytesFor r.values.length))])
      ((s.set w (.write r s.shared.cur)).share
        { s.shared with cur := fresh (bytesFor r.values.length) s.shared.cur }) := by
  have hknows := h.knows w
  rw [hpc] at hknows
  obtain ⟨hfresh, hle⟩ := hknows
  rw [hfresh]
  refine ⟨h.limit, ?_, hle, h.knows_set trivial, ?_, ?_⟩
  · rw [regions_reserved]
    exact h.tiles.snoc _
  · rw [refused_snoc rfl]
    exact h.flag
  · rw [refused_snoc rfl]
    intro hr
    exact (h.flagged hr).imp_right (full_set (by simp [hpc]))

theorem Inv.store (h : s.Inv entries fin tr) {w : Fin n} (hpc : s.worker w = .full) :
    Inv entries fin (tr ++ [(a, .silent)])
      ((s.set w .idle).share { s.shared with overflow := true }) := by
  have hr := h.knows w
  rw [hpc] at hr
  refine ⟨h.limit, ?_, h.le, h.knows_set trivial, ?_, fun _ => .inl rfl⟩
  · rw [regions_snoc rfl]
    exact h.tiles
  · rw [refused_snoc rfl]
    exact fun _ => hr

theorem Stepped.inv {s' : Threads n} (hstep : Stepped s a s' o) (h : s.Inv entries fin tr)
    (hwrap : s.noWrap a = true) : s'.Inv entries fin (tr ++ [(a, o)]) := by
  cases hstep with
  | called hpc => exact h.moved (by simp [hpc]) trivial rfl rfl
  | loaded hpc => exact h.moved (by simp [hpc]) trivial rfl rfl
  | refused hpc => exact h.refuse _
  | @passed w r old hpc hle =>
      have hsum : fresh (bytesFor r.values.length) old = old + bytesFor r.values.length := by
        apply Nat.mod_eq_of_lt
        simpa [noWrap, hpc] using hwrap
      rw [h.limit, hsum] at hle
      exact h.moved (by simp [hpc]) ⟨hsum, hle⟩ rfl rfl
  | swapped hpc hcur =>
      subst hcur
      exact h.swap hpc
  | retried hpc => exact h.moved (by simp [hpc]) trivial rfl rfl
  | flagged hpc => exact h.store hpc
  | @written w r e hpc =>
      have hmoved : Inv entries fin (tr ++ [(.run w, .silent)]) (s.set w .idle) :=
        h.moved (by simp [hpc]) trivial rfl rfl
      exact ⟨hmoved.limit, hmoved.tiles, hmoved.le, hmoved.knows, hmoved.flag, hmoved.flagged⟩

end Kept

theorem reaches_inv {tr : List (Input n × Output n)} {s : Threads n}
    (h : ((threads n entries fin).guard noWrap).Reaches tr s) : s.Inv entries fin tr := by
  refine Machine.Reaches.invariant (P := fun tr (s : Threads n) => s.Inv entries fin tr) ?_ ?_ h
  · exact fun s hs => inv_init hs
  intro tr s a o t _ hinv hstep
  obtain ⟨hwrap, hstep⟩ := Machine.guard_step.mp hstep
  exact (step_spec hstep).inv hinv hwrap

/-- What holds of the log between any two steps. -/
structure Partitioned (entries fin : ℕ) (tr : List (Input n × Output n)) (s : Threads n) :
    Prop where
  disjoint : (regions tr).Pairwise Region.Disjoint
  within : ∀ r ∈ regions tr, r.Within entries fin
  tiles : Tiles entries (regions tr) s.shared.cur
  unmoved : ∀ {a o t}, s.step a = some (t, o) → o.reserves = false →
    t.shared.cur = s.shared.cur
  overflow : (∀ w, s.worker w = .idle) → (s.shared.overflow = true ↔ Refused tr)

/-- As long as no sum of an address and a size wraps, the threads share out the log from its
first entry on, and the flag says whether it was too small. -/
theorem partitioned {tr : List (Input n × Output n)} {s : Threads n}
    (h : ((threads n entries fin).guard noWrap).Reaches tr s) :
    s.Partitioned entries fin tr := by
  have hinv := reaches_inv h
  refine ⟨hinv.tiles.disjoint, ?_, hinv.tiles, ?_, ?_⟩
  · intro r hr
    exact (hinv.tiles.within hr).mono (Nat.le_refl entries) hinv.le
  · intro a o t hstep
    exact (step_spec hstep).cur
  · intro hidle
    refine ⟨hinv.flag, ?_⟩
    intro hr
    rcases hinv.flagged hr with hflag | hfull
    · exact hflag
    · obtain ⟨w, hw⟩ := hfull
      rw [hidle w] at hw
      cases hw

/-- A call that no other thread interferes with is a call of `tsclog`. -/
theorem run_alone {s : Threads n} {w : Fin n} (hidle : s.worker w = .idle) (r : Record) :
    ∃ tr, (threads n entries fin).Run s tr (s.share (tsclog r s.shared)) := by
  have hcall : (threads n entries fin).step s (.tsclog w r) =
      some (s.set w (.reserve r), .silent) := if_pos hidle
  have hload : (threads n entries fin).step (s.set w (.reserve r)) (.run w) =
      some (s.set w (.test r s.shared.cur), .silent) := by
    simp [threads, step, run]
  have hback : s.set w .idle = s := set_same hidle
  by_cases hroom : s.shared.fin < fresh (bytesFor r.values.length) s.shared.cur
  · have htest : (threads n entries fin).step (s.set w (.test r s.shared.cur)) (.run w) =
        some (s.set w .full, .refused w) := by
      simp [threads, step, run, hroom]
    have hstore : (threads n entries fin).step (s.set w .full) (.run w) =
        some (s.share (tsclog r s.shared), .silent) := by
      simp [threads, step, run, hback, tsclog, tsclogGetentry, tscBufferReserve, hroom]
    exact ⟨_, .snoc (.snoc (.snoc (.snoc .nil hcall) hload) htest) hstore⟩
  · have htest : (threads n entries fin).step (s.set w (.test r s.shared.cur)) (.run w) =
        some (s.set w (.swap r s.shared.cur), .silent) := by
      simp [threads, step, run, hroom]
    have hswap : (threads n entries fin).step (s.set w (.swap r s.shared.cur)) (.run w) =
        some ((s.set w (.write r s.shared.cur)).share
          { s.shared with cur := fresh (bytesFor r.values.length) s.shared.cur },
          .reserved w s.shared.cur (bytesFor r.values.length)) := by
      simp [threads, step, run]
    have hwrite : (threads n entries fin).step ((s.set w (.write r s.shared.cur)).share
        { s.shared with cur := fresh (bytesFor r.values.length) s.shared.cur }) (.run w) =
        some (s.share (tsclog r s.shared), .silent) := by
      simp [threads, step, run, hback, tsclog, tsclogGetentry, tscBufferReserve, hroom]
    exact ⟨_, .snoc (.snoc (.snoc (.snoc (.snoc .nil hcall) hload) htest) hswap) hwrite⟩

/-! ## A swap that fails and a log that is full -/

def twoThreads : Threads 2 := ⟨fun _ => .idle, ⟨64, 104, false, fun _ => 0, 4711⟩⟩

/-- Both threads load the same `cur`; the one that loses retries, and the log is full. -/
def contended : List (Input 2) :=
  [.tsclog 0 ⟨5, 0, [1]⟩, .tsclog 1 ⟨6, 1, []⟩, .run 0, .run 1, .run 0, .run 1, .run 1, .run 0,
    .run 0, .run 0, .run 0, .run 1]

theorem twoThreads_init : (threads 2 64 104).Init twoThreads :=
  ⟨fun _ => rfl, rfl, rfl, rfl, by simp⟩

theorem contended_runs :
    (((threads 2 64 104).guard noWrap).exec twoThreads contended).isSome := by decide

theorem partitioned_contended :
    ∃ tr s, ((threads 2 64 104).guard noWrap).Reaches tr s ∧ s.Partitioned 64 104 tr := by
  have hreach := Machine.reaches_exec_get (M := (threads 2 64 104).guard noWrap)
    twoThreads_init contended_runs
  exact ⟨_, _, hreach, partitioned hreach⟩

end Threads

end Upcalls.TscLogger
