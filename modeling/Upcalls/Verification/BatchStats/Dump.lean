import Upcalls.Library.Histogram
import Upcalls.Verification.BatchStats.Monitor

/-! # The dump counts what the workers did -/

namespace Upcalls.BatchStats

open Library

variable {n batchSz : ℕ} {L : Layout}

/-! ## What the workers did -/

/-- One turn of `run_event_loop`: the clock before and after `upcall_submit`, and what it
returned. -/
structure Iteration where
  t0 : ℕ
  ret : ℕ
  t1 : ℕ

/-- The turns of one worker, and the clock at the head of the last one. -/
structure Log where
  t0 : ℕ
  done : List Iteration

def Log.next (w : Fin n) (l : Log) : Input n → Log
  | .enter v t0 => if v = w then { l with t0 := t0 } else l
  | .leave v ret t1 => if v = w then { l with done := l.done ++ [⟨l.t0, ret, t1⟩] } else l
  | _ => l

def log (w : Fin n) (tr : List (Input n × Output)) : Log :=
  (tr.map Prod.fst).foldl (Log.next w) ⟨0, []⟩

def iterations (w : Fin n) (tr : List (Input n × Output)) : List Iteration := (log w tr).done

/-- The time inside of `upcall_submit`. -/
def ktimes (its : List Iteration) : List ℕ := its.map fun it => it.t1 - it.t0

/-- The time between the return of `upcall_submit` and its next call. -/
def utimes : List Iteration → List ℕ
  | a :: b :: its => (b.t0 - a.t1) :: utimes (b :: its)
  | _ => []

/-- The bucket of a duration. -/
def bucket (d : ℕ) : ℕ := min (Nat.log2 d) 39

/-- What the calls of `upcall_submit` returned. -/
def rets (its : List Iteration) : List ℕ := its.map Iteration.ret

/-- The durations or the results of all workers that fall into bucket `b`. -/
def countAll (f : List Iteration → List ℕ) (bucket : ℕ → ℕ) (tr : List (Input n × Output))
    (b : ℕ) : ℕ :=
  ∑ w, (f (iterations w tr)).countP (bucket · = b)

def submits (tr : List (Input n × Output)) : ℕ := ∑ w, (iterations w tr).length

/-- The workers that have submitted at least once. -/
def started (tr : List (Input n × Output)) : ℕ :=
  (Finset.univ.filter fun w => iterations w tr ≠ []).card

theorem log_snoc (w : Fin n) (tr : List (Input n × Output)) (x : Input n × Output) :
    log w (tr ++ [x]) = (log w tr).next w x.1 := by
  rw [log, log, List.map_append, List.foldl_append]
  rfl

theorem utimes_snoc (its : List Iteration) (it : Iteration) :
    utimes (its ++ [it]) = utimes its ++ (its.getLast?.map fun last => it.t0 - last.t1).toList := by
  induction its with
  | nil => rfl
  | cons a its ih =>
      cases its with
      | nil => rfl
      | cons b its =>
          rw [List.cons_append, List.cons_append, utimes, ← List.cons_append, ih, utimes,
            List.getLast?_cons_cons]
          rfl

theorem length_utimes (its : List Iteration) :
    (utimes its).length + (if its ≠ [] then 1 else 0) = its.length := by
  induction its with
  | nil => rfl
  | cons a its ih =>
      cases its with
      | nil => rfl
      | cons b its =>
          rw [utimes, List.length_cons, List.length_cons, ← ih]
          simp

/-! ## Slots and buckets -/

theorem timeBucket_eq (d : ℕ) : (upcallInit batchSz).timeBucket d = bucket d := by
  have hlen : (upcallInit batchSz).timeHistLen = 40 := rfl
  have hzero : Nat.log2 0 = 0 := rfl
  rw [Layout.timeBucket, bucket, builtinClzll, hlen]
  by_cases hd : d = 0
  · subst hd
    simp [hzero]
  · simp only [ne_eq, hd, not_false_eq_true, if_true]
    split <;> omega

/-- The slots that the turns of a worker increment, in all. -/
def submitSlots (L : Layout) (it : Iteration) : List ℕ :=
  [L.ktimeSlot (it.t1 - it.t0), 0, L.batchSlot it.ret]

def recorded (L : Layout) (its : List Iteration) : List ℕ :=
  its.flatMap (submitSlots L) ++ (utimes its).map L.utimeSlot

theorem utimeSlot_ne (hL : L.Fits) {slot : ℕ} (d : ℕ)
    (h : slot < 1 + L.batchHistLen ∨ 1 + L.batchHistLen + L.timeHistLen ≤ slot) :
    L.utimeSlot d ≠ slot := by
  have hbucket := hL.timeBucket d
  rw [Layout.utimeSlot]
  omega

theorem count_utimeSlots (hL : L.Fits) {i : ℕ} (ds : List ℕ)
    (h : i < 1 + L.batchHistLen ∨ 1 + L.batchHistLen + L.timeHistLen ≤ i) :
    (ds.map L.utimeSlot).count i = 0 := by
  rw [List.count_eq_zero, List.mem_map]
  rintro ⟨d, -, hslot⟩
  exact utimeSlot_ne hL d h hslot

/-- Where each turn increments a slot at most once. -/
theorem count_submitSlots {p : ℕ → Bool} {f : Iteration → ℕ} {slot : ℕ}
    (h : ∀ it, (submitSlots L it).count slot = if p (f it) then 1 else 0)
    (its : List Iteration) :
    (its.flatMap (submitSlots L)).count slot = (its.map f).countP p := by
  induction its with
  | nil => rfl
  | cons it its ih =>
      rw [List.flatMap_cons, List.count_append, ih, h, List.map_cons, List.countP_cons]
      omega

theorem count_utime (hL : L.Fits) {b : ℕ} (hb : b < L.timeHistLen) (its : List Iteration) :
    (recorded L its).count (1 + L.batchHistLen + b) =
      (utimes its).countP (L.timeBucket · = b) := by
  have hsubmit : (its.flatMap (submitSlots L)).count (1 + L.batchHistLen + b) = 0 := by
    rw [List.count_eq_zero, List.mem_flatMap]
    rintro ⟨it, -, hmem⟩
    have hret := hL.batchBucket it.ret
    simp only [submitSlots, Layout.ktimeSlot, Layout.batchSlot, List.mem_cons,
      List.not_mem_nil, or_false] at hmem
    omega
  rw [recorded, List.count_append, hsubmit, Nat.zero_add, List.count, List.countP_map]
  refine List.countP_congr ?_
  intro d _
  simp only [Function.comp_apply, beq_iff_eq, decide_eq_true_eq, Layout.utimeSlot]
  omega

theorem count_ktime (hL : L.Fits) (b : ℕ) (its : List Iteration) :
    (recorded L its).count (1 + L.batchHistLen + L.timeHistLen + b) =
      (ktimes its).countP (L.timeBucket · = b) := by
  have hutime := count_utimeSlots hL (i := 1 + L.batchHistLen + L.timeHistLen + b)
    (utimes its) (.inr (Nat.le_add_right _ _))
  rw [recorded, List.count_append, hutime, Nat.add_zero]
  refine count_submitSlots ?_ its
  intro it
  have hret := hL.batchBucket it.ret
  have hbatch : L.batchSlot it.ret ≠ 1 + L.batchHistLen + L.timeHistLen + b := by
    rw [Layout.batchSlot]
    omega
  have hzero : 0 ≠ 1 + L.batchHistLen + L.timeHistLen + b := by omega
  have hslot : L.ktimeSlot (it.t1 - it.t0) = 1 + L.batchHistLen + L.timeHistLen + b ↔
      L.timeBucket (it.t1 - it.t0) = b := by
    rw [Layout.ktimeSlot]
    omega
  simp only [submitSlots, List.count_cons, List.count_nil, beq_iff_eq, hbatch, hzero, hslot,
    decide_eq_true_eq, if_false, Nat.zero_add]

theorem count_batch (hL : L.Fits) {b : ℕ} (hb : b < L.batchHistLen) (its : List Iteration) :
    (recorded L its).count (1 + b) = (rets its).countP (L.batchBucket · = b) := by
  have hutime := count_utimeSlots hL (i := 1 + b) (utimes its) (.inl (by omega))
  rw [recorded, List.count_append, hutime, Nat.add_zero]
  refine count_submitSlots ?_ its
  intro it
  have hktime : L.ktimeSlot (it.t1 - it.t0) ≠ 1 + b := by
    rw [Layout.ktimeSlot]
    omega
  have hzero : 0 ≠ 1 + b := by omega
  have hslot : L.batchSlot it.ret = 1 + b ↔ L.batchBucket it.ret = b := by
    rw [Layout.batchSlot]
    omega
  simp only [submitSlots, List.count_cons, List.count_nil, beq_iff_eq, hktime, hzero, hslot,
    decide_eq_true_eq, if_false, Nat.zero_add, Nat.add_zero]

/-- One turn more. -/
theorem count_recorded_snoc (its : List Iteration) (it : Iteration) (i : ℕ) :
    (recorded L (its ++ [it])).count i =
      (recorded L its).count i + (submitSlots L it).count i +
        if its ≠ [] ∧ L.utimeSlot (it.t0 - (its.getLast?.map Iteration.t1).getD 0) = i
          then 1 else 0 := by
  have hlast : ((its.getLast?.map fun last => it.t0 - last.t1).toList.map L.utimeSlot).count i =
      if its ≠ [] ∧ L.utimeSlot (it.t0 - (its.getLast?.map Iteration.t1).getD 0) = i
        then 1 else 0 := by
    cases hget : its.getLast? with
    | none => simp [List.getLast?_eq_none_iff.mp hget]
    | some last =>
        have hne : its ≠ [] := List.ne_nil_of_mem (List.mem_of_getLast? hget)
        simp [hne, List.count_singleton]
  rw [recorded, recorded, utimes_snoc, List.flatMap_append, List.flatMap_singleton,
    List.map_append, List.count_append, List.count_append, List.count_append,
    List.count_append, hlast]
  omega

/-! ## Steps -/

namespace Process

open Team

/-- What a worker has counted and is about to count is what it did. -/
structure Kept (L : Layout) (me : Worker) (l : Log) (stored : ℕ → ℕ) : Prop where
  clock : me.inSubmit = true → me.t0 = l.t0 ∧ 0 < l.t0
  procStart : me.procStart = (l.done.getLast?.map Iteration.t1).getD 0
  running : ∀ it ∈ l.done, 0 < it.t1 ∧ it.ret < L.batchHistLen
  counted : ∀ i < L.used, stored i + me.todo.count i = (recorded L l.done).count i +
    if me.inSubmit = true ∧ l.done ≠ [] ∧ L.utimeSlot (l.t0 - me.procStart) = i then 1 else 0

theorem Kept.entered {me : Worker} {l : Log} {stored : ℕ → ℕ} {t0 : ℕ}
    (h : Kept L me l stored) (hin : me.inSubmit = false) (hnil : me.todo = []) (hpos : 0 < t0) :
    Kept L { me with
        inSubmit := true
        t0 := t0
        todo := if me.procStart ≠ 0 then [L.utimeSlot (t0 - me.procStart)] else [] }
      { l with t0 := t0 } stored where
  clock _ := ⟨rfl, hpos⟩
  procStart := h.procStart
  running := h.running
  counted i hi := by
    have hcounted := h.counted i hi
    rw [hnil, hin] at hcounted
    have hstart : me.procStart ≠ 0 ↔ l.done ≠ [] := by
      rw [h.procStart]
      cases hlast : l.done.getLast? with
      | none => simp [List.getLast?_eq_none_iff.mp hlast]
      | some it =>
          have hmem := List.mem_of_getLast? hlast
          have hpos := (h.running it hmem).1
          simp only [Option.map_some, Option.getD_some]
          exact ⟨fun _ => List.ne_nil_of_mem hmem, fun _ => by omega⟩
    simp only [List.count_nil, Bool.false_eq_true, false_and, if_false] at hcounted
    by_cases hdone : l.done = []
    · have hzero : me.procStart = 0 := by
        by_contra hne
        exact hstart.mp hne hdone
      simp [hzero, hdone] at hcounted ⊢
      exact hcounted
    · simp only [hstart.mpr hdone, hdone, ne_eq, not_false_eq_true, if_true, true_and,
        List.count_cons, List.count_nil, beq_iff_eq]
      omega

theorem Kept.left {me : Worker} {l : Log} {stored : ℕ → ℕ} {ret t1 : ℕ}
    (h : Kept L me l stored) (hin : me.inSubmit = true) (hnil : me.todo = [])
    (hle : me.t0 ≤ t1) (hret : ret < L.batchHistLen) :
    Kept L { me with
        inSubmit := false
        procStart := t1
        todo := [L.ktimeSlot (t1 - me.t0), 0, L.batchSlot ret] }
      { l with done := l.done ++ [⟨l.t0, ret, t1⟩] } stored := by
  obtain ⟨hclock, hpos⟩ := h.clock hin
  refine ⟨?_, ?_, ?_, ?_⟩
  · intro hfalse
    cases hfalse
  · rw [List.getLast?_append]
    rfl
  · intro it hit
    rcases List.mem_append.mp hit with hit | hit
    · exact h.running it hit
    · rw [List.mem_singleton.mp hit]
      exact ⟨Nat.lt_of_lt_of_le hpos (hclock ▸ hle), hret⟩
  · intro i hi
    have hcounted := h.counted i hi
    rw [hnil, hin, List.count_nil, h.procStart] at hcounted
    simp only [true_and] at hcounted
    rw [count_recorded_snoc, hclock]
    simp only [submitSlots, Bool.false_eq_true, false_and, if_false]
    omega

/-- An increment moves from what is to be counted to what is counted. -/
theorem Kept.stored {me : Worker} {l : Log} {stored : ℕ → ℕ} {j : ℕ} {todo : List ℕ}
    (h : Kept L me l stored) (htodo : me.todo = j :: todo) :
    Kept L { me with todo := todo, loaded := none } l
      (fun i => stored i + if i = j then 1 else 0) where
  clock := h.clock
  procStart := h.procStart
  running := h.running
  counted i hi := by
    have hcounted := h.counted i hi
    rw [htodo, List.count_cons] at hcounted
    simp only [beq_iff_eq, eq_comm (a := j)] at hcounted
    simp only
    omega

theorem Kept.congr {me : Worker} {l : Log} {stored stored' : ℕ → ℕ} (h : Kept L me l stored)
    (heq : ∀ i < L.used, stored' i = stored i) : Kept L me l stored' where
  clock := h.clock
  procStart := h.procStart
  running := h.running
  counted i hi := by
    rw [heq i hi]
    exact h.counted i hi

theorem Kept.loaded {me : Worker} {l : Log} {stored : ℕ → ℕ} (h : Kept L me l stored)
    (v : Option ℕ) : Kept L { me with loaded := v } l stored :=
  ⟨h.clock, h.procStart, h.running, h.counted⟩

theorem Kept.step (hL : L.Fits) {s s' : Process n} (hs : s.Inv L) {a : Input n} {o : Output}
    {w : Fin n} {l : Log} {stored : ℕ → ℕ} (hk : Kept L (s.worker w) l stored)
    (h : s.step L a = some (s', o)) :
    Kept L (s'.worker w) (l.next w a)
      (fun i => stored i + if o = .stored (place L w i) then 1 else 0) := by
  cases step_spec h with
  | @entered v t0 hin hnil hle hpos hlt =>
      by_cases hv : v = w
      · subst hv
        rw [set_worker_self, Log.next, if_pos rfl]
        exact hk.entered hin hnil hpos
      · rw [set_worker_ne _ _ (Ne.symm hv), Log.next, if_neg hv]
        exact hk
  | @left v ret t1 hin hnil hle hlt hret =>
      by_cases hv : v = w
      · subst hv
        rw [set_worker_self, Log.next, if_pos rfl]
        exact hk.left hin hnil hle hret
      · rw [set_worker_ne _ _ (Ne.symm hv), Log.next, if_neg hv]
        exact hk
  | @loaded v j todo htodo hnone =>
      by_cases hv : v = w
      · subst hv
        rw [set_worker_self]
        exact hk.loaded _
      · rw [set_worker_ne _ _ (Ne.symm hv)]
        exact hk
  | @stored v j todo u htodo hloaded =>
      have hj : j < L.used := hs.todo (htodo ▸ List.mem_cons_self)
      have hplace : ∀ i < L.used,
          (Output.stored (place L v j) = .stored (place L w i)) ↔ w = v ∧ i = j := by
        intro i hi
        have hhit := place_hit hL (w := w) (v := v) hi (Nat.lt_of_lt_of_le hj hL.used)
        rw [Output.stored.injEq, Fin.ext_iff]
        exact hhit
      by_cases hv : w = v
      · subst hv
        rw [share_worker, set_worker_self]
        refine (hk.stored htodo).congr ?_
        intro i hi
        simp only [hplace i hi, true_and]
      · rw [share_worker, set_worker_ne _ _ hv]
        refine hk.congr ?_
        intro i hi
        simp only [hplace i hi, hv, false_and, if_false, Nat.add_zero]
  | _ => exact hk

/-! ## Runs -/

/-- The increments of slot `i` that were stored. -/
def stores (batchSz : ℕ) (w : Fin n) (tr : List (Input n × Output)) (i : ℕ) : ℕ :=
  (history (place (upcallInit batchSz) w i) tr).count .store

theorem stores_snoc (w : Fin n) (tr : List (Input n × Output)) (x : Input n × Output) (i : ℕ) :
    stores batchSz w (tr ++ [x]) i = stores batchSz w tr i +
      if x.2 = .stored (place (upcallInit batchSz) w i) then 1 else 0 := by
  rw [stores, history_snoc, List.count_append, ← stores]
  obtain ⟨a, o⟩ := x
  cases o with
  | stored k => simp only [Output.event, Output.stored.injEq]; split <;> simp
  | silent => simp [Output.event]
  | dumped path sections => simp [Output.event]
  | _ => simp only [Output.event]; split <;> simp

theorem reaches_kept {tr : List (Input n × Output)} {s : Process n}
    (h : (process n batchSz).Reaches tr s) (w : Fin n) :
    Kept (upcallInit batchSz) (s.worker w) (log w tr) (stores batchSz w tr) := by
  induction h with
  | @init s hs =>
      rw [hs.1]
      refine ⟨?_, rfl, ?_, fun _ _ => rfl⟩
      · intro hfalse
        cases hfalse
      · intro it hit
        cases hit
  | @step tr s t a o hr hstep ih =>
      have hkept := ih.step (Layout.upcallInit_fits batchSz) (reaches_inv hr) hstep
      rw [log_snoc]
      exact hkept.congr fun i _ => stores_snoc w tr (a, o) i

/-- No worker is inside of an iteration. -/
def Idle (s : Process n) : Prop :=
  ∀ w, (s.worker w).inSubmit = false ∧ (s.worker w).todo = []

instance (s : Process n) : Decidable s.Idle :=
  inferInstanceAs (Decidable (∀ w, (s.worker w).inSubmit = false ∧ (s.worker w).todo = []))

/-- Between iterations each counter holds what its worker did. -/
theorem total_eq {tr : List (Input n × Output)} {s : Process n}
    (h : (process n batchSz).Reaches tr s) (hreset : NoReset tr) (hidle : s.Idle) {i : ℕ}
    (hi : i < (upcallInit batchSz).used) :
    total n s.shared.stats (upcallInit batchSz) i =
      ∑ w, (recorded (upcallInit batchSz) (iterations w tr)).count i := by
  rw [total, Histogram.sum_range_eq]
  refine Finset.sum_congr rfl ?_
  intro w _
  have hvalue := (reaches_cell h hi (w := w)).value_eq (hreset.history _)
  have hcounted := (reaches_kept h w).counted i hi
  obtain ⟨hin, hnil⟩ := hidle w
  rw [hin, hnil] at hcounted
  simp only [List.count_nil, Bool.false_eq_true, false_and, if_false, Nat.add_zero] at hcounted
  exact hvalue.trans hcounted

/-! ## The sections of a dump -/

/-- A section with a line for each bucket that is not empty, the labels increasing. -/
structure Reports (sec : Section) (header : String) (len : ℕ) (label count : ℕ → ℕ) : Prop where
  header : sec.header = header
  increasing : sec.lines.Pairwise (·.1 < ·.1)
  mem_lines : ∀ l c, (l, c) ∈ sec.lines ↔ ∃ b < len, l = label b ∧ c = count b ∧ c ≠ 0
  sum : (sec.lines.map Prod.snd).sum = ∑ b ∈ Finset.range len, count b

theorem reports_linesOf {stats : ℕ → ℕ} {L : Layout} {len : ℕ} {slot label count : ℕ → ℕ}
    (header : String) (hlabel : ∀ a b, a < b → label a < label b)
    (hcount : ∀ b < len, total n stats L (slot b) = count b) :
    Reports ⟨header, linesOf n stats L len slot label⟩ header len label count := by
  have hlines : linesOf n stats L len slot label = Histogram.table len label count :=
    Histogram.table_congr hcount
  refine ⟨rfl, ?_, ?_, ?_⟩
  · rw [hlines]
    exact Histogram.pairwise_table hlabel
  · intro l c
    rw [hlines]
    exact Histogram.mem_table
  · rw [hlines]
    exact Histogram.sum_table

theorem bucket_lt (d : ℕ) : bucket d < 40 := by
  rw [bucket]
  omega

theorem label_lt (a b : ℕ) (h : a < b) : 2 ^ (a + 1) < 2 ^ (b + 1) :=
  Nat.pow_lt_pow_right (by omega) (by omega)

/-- A worker that has submitted has one time in userspace less than it has submits. -/
theorem sum_utimes (tr : List (Input n × Output)) :
    ∑ w, (utimes (iterations w tr)).length + started tr = submits tr := by
  rw [started, Finset.card_filter, ← Finset.sum_add_distrib, submits]
  exact Finset.sum_congr rfl fun w _ => length_utimes _

theorem utimes_reported {tr : List (Input n × Output)} {s : Process n}
    (h : (process n batchSz).Reaches tr s) (hreset : NoReset tr) (hidle : s.Idle)
    (b : ℕ) (hb : b < 40) :
    total n s.shared.stats (upcallInit batchSz) (1 + (upcallInit batchSz).batchHistLen + b) =
      countAll utimes bucket tr b := by
  have hL := Layout.upcallInit_fits batchSz
  have hlen : (upcallInit batchSz).timeHistLen = 40 := rfl
  rw [total_eq h hreset hidle (by rw [Layout.used]; omega)]
  refine Finset.sum_congr rfl ?_
  intro w _
  rw [count_utime hL (by omega)]
  simp only [timeBucket_eq]

theorem ktimes_reported {tr : List (Input n × Output)} {s : Process n}
    (h : (process n batchSz).Reaches tr s) (hreset : NoReset tr) (hidle : s.Idle)
    (b : ℕ) (hb : b < 40) :
    total n s.shared.stats (upcallInit batchSz)
        (1 + (upcallInit batchSz).batchHistLen + (upcallInit batchSz).timeHistLen + b) =
      countAll ktimes bucket tr b := by
  have hL := Layout.upcallInit_fits batchSz
  have hlen : (upcallInit batchSz).timeHistLen = 40 := rfl
  rw [total_eq h hreset hidle (by rw [Layout.used]; omega)]
  refine Finset.sum_congr rfl ?_
  intro w _
  rw [count_ktime hL]
  simp only [timeBucket_eq]

theorem rets_lt {tr : List (Input n × Output)} {s : Process n}
    (h : (process n batchSz).Reaches tr s) (w : Fin n) :
    ∀ ret ∈ rets (iterations w tr), ret < batchSz + 1 := by
  intro ret hmem
  obtain ⟨it, hit, rfl⟩ := List.mem_map.mp hmem
  exact ((reaches_kept h w).running it hit).2

theorem rets_reported {tr : List (Input n × Output)} {s : Process n}
    (h : (process n batchSz).Reaches tr s) (hreset : NoReset tr) (hidle : s.Idle)
    (b : ℕ) (hb : b < batchSz + 1) :
    total n s.shared.stats (upcallInit batchSz) (1 + b) = countAll rets id tr b := by
  have hL := Layout.upcallInit_fits batchSz
  have hlen : (upcallInit batchSz).batchHistLen = batchSz + 1 := rfl
  rw [total_eq h hreset hidle (by rw [Layout.used]; omega)]
  refine Finset.sum_congr rfl ?_
  intro w _
  rw [count_batch hL (by omega)]
  refine List.countP_congr ?_
  intro ret hmem
  have hlt := rets_lt h w ret hmem
  have hbatch : (upcallInit batchSz).batchBucket ret = ret := by
    rw [Layout.batchBucket, if_neg (by omega)]
  rw [hbatch]
  rfl

/-- A dump between iterations: its three sections count the durations and the results of
all iterations of all workers. -/
theorem dump_counts {tr : List (Input n × Output)} {s s' : Process n} {a : Input n}
    {path : String} {sections : List Section} (h : (process n batchSz).Reaches tr s)
    (hreset : NoReset tr) (hidle : s.Idle)
    (hdump : (process n batchSz).step s a = some (s', .dumped path sections)) :
    ∃ u k b, sections = [u, k, b] ∧
      Reports u "=utime upper_ns count" 40 (fun b => 2 ^ (b + 1)) (countAll utimes bucket tr) ∧
      Reports k "=ktime upper_ns count" 40 (fun b => 2 ^ (b + 1)) (countAll ktimes bucket tr) ∧
      Reports b "=batch size count" (batchSz + 1) id (countAll rets id tr) ∧
      (u.lines.map Prod.snd).sum + started tr = submits tr ∧
      (k.lines.map Prod.snd).sum = submits tr ∧ (b.lines.map Prod.snd).sum = submits tr := by
  cases step_spec hdump with
  | dumped hpc =>
      have hu := reports_linesOf "=utime upper_ns count" label_lt
        (utimes_reported h hreset hidle)
      have hk := reports_linesOf "=ktime upper_ns count" label_lt
        (ktimes_reported h hreset hidle)
      have hlabel : ∀ a b : ℕ, a < b → id a < id b := fun _ _ hab => hab
      have hb := reports_linesOf "=batch size count" hlabel (rets_reported h hreset hidle)
      refine ⟨_, _, _, rfl, hu, hk, hb, ?_, ?_, ?_⟩
      · have hsum := Histogram.sum_buckets bucket (fun w => utimes (iterations w tr))
          fun w d _ => bucket_lt d
        exact (congrArg (· + started tr) (hu.sum.trans hsum)).trans (sum_utimes tr)
      · have hsum := Histogram.sum_buckets bucket (fun w => ktimes (iterations w tr))
          fun w d _ => bucket_lt d
        simp only [ktimes, List.length_map] at hsum
        exact hk.sum.trans hsum
      · have hsum := Histogram.sum_buckets id (fun w => rets (iterations w tr)) (rets_lt h)
        simp only [rets, List.length_map] at hsum
        exact hb.sum.trans hsum

end Process

/-! ## A run of one worker -/

/-- Two iterations, and the monitor up to its next look at the control file. -/
def dumpRun (w : Fin n) : List (Input n) :=
  firstIteration w ++ [.enter w 30] ++ increment w ++ [.leave w 1 40] ++
    increment w ++ increment w ++ increment w ++ List.replicate 174 .monitor

set_option maxRecDepth 8000 in
theorem dumpRun_runs : ((process 1 1).exec (idleProcess 1) (dumpRun 0)).isSome := by decide

def dumpSections : List Section :=
  [⟨"=utime upper_ns count", [(16, 1)]⟩, ⟨"=ktime upper_ns count", [(16, 2)]⟩,
    ⟨"=batch size count", [(1, 2)]⟩]

set_option maxRecDepth 8000 in
theorem dump_counts_dumpRun :
    ∃ tr s s', (process 1 1).Reaches tr s ∧
      (process 1 1).step s (.poll (some (.dump "out"))) =
        some (s', .dumped "out" dumpSections) ∧
      ∃ u k b, dumpSections = [u, k, b] ∧
        Process.Reports u "=utime upper_ns count" 40 (fun b => 2 ^ (b + 1))
          (countAll utimes bucket tr) ∧
        Process.Reports k "=ktime upper_ns count" 40 (fun b => 2 ^ (b + 1))
          (countAll ktimes bucket tr) ∧
        Process.Reports b "=batch size count" 2 id (countAll rets id tr) ∧
        (u.lines.map Prod.snd).sum + started tr = submits tr ∧
        (k.lines.map Prod.snd).sum = submits tr ∧ (b.lines.map Prod.snd).sum = submits tr := by
  have hreach := Machine.reaches_exec_get idleProcess_init dumpRun_runs
  have hdump : (process 1 1).step
      (((process 1 1).exec (idleProcess 1) (dumpRun 0)).get dumpRun_runs).1
      (.poll (some (.dump "out"))) = some (_, .dumped "out" dumpSections) := rfl
  exact ⟨_, _, _, hreach, hdump, Process.dump_counts hreach (by decide) (by decide) hdump⟩

end Upcalls.BatchStats
