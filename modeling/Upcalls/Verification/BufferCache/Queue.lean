import Upcalls.Library.Chains
import Upcalls.Model.BufferCache
import Upcalls.Model.TcpEcho

/-! # An object cache is a queue of entries -/

namespace Upcalls.BufferCache

open Library

/-! ## Links in memory -/

section Links

variable {mem : ByteMem} {e e' p len v : ℕ}

theorem next_clear_of_disjoint (h : e + 8 ≤ p ∨ p + len ≤ e) :
    next (clear p len mem) e = next mem e := by
  rw [next, ByteMem.loadWord, clear, ByteMem.load_store_of_disjoint (by simpa using h), next,
    ByteMem.loadWord]

/-- What `calloc` clears is linked nowhere. -/
theorem next_clear_self (h : 8 ≤ len) : next (clear e len mem) e = 0 := by
  rw [next, ByteMem.loadWord, clear, ByteMem.load_store_take (by simpa using h),
    List.take_replicate, Nat.min_eq_left h]
  decide

theorem next_setNext_self (h : v < 2 ^ 64) : next (setNext e v mem) e = v := by
  rw [next, setNext, ByteMem.loadWord_storeWord_self]
  exact Nat.mod_eq_of_lt h

theorem next_setNext_of_disjoint (h : e' + 8 ≤ e ∨ e + 8 ≤ e') :
    next (setNext e v mem) e' = next mem e' :=
  ByteMem.loadWord_storeWord_of_disjoint h

theorem next_setAllocCpu (cpu : Int32) (h : e' ≤ e ∨ e + hdrSize ≤ e') :
    next (setAllocCpu e cpu mem) e' = next mem e' := by
  apply ByteMem.loadWord_storeWord_of_disjoint
  simp only [hdrSize] at h
  omega

theorem next_update {a : ℕ} {b : UInt8} (h : a < e ∨ buffer e ≤ a) :
    next (Function.update mem a b) e = next mem e := by
  rw [next, ByteMem.loadWord, next, ByteMem.loadWord]
  congr 1
  apply ByteMem.load_congr
  intro i hle hlt
  apply Function.update_of_ne
  simp only [buffer, hdrSize] at h
  omega

@[simp] theorem entryOf_buffer (e : ℕ) : entryOf (buffer e) = e := Nat.add_sub_cancel ..

end Links

/-! ## The invariant -/

/-- The entries in the list are `free`, the other ones are `held`. An entry that is held has
been unlinked, which is what a later `cache_free` relies on. -/
structure Inv (entrySz : ℕ) (s : State) (free held : List ℕ) : Prop where
  size : s.cache.entrySz = entrySz
  chain : Chain 0 (next s.mem) s.cache.head free
  tail : s.cache.tail = free.getLast?.getD 0
  nodup : (free ++ held).Nodup
  blocks : ∀ e, e ∈ s.blocks ↔ e ∈ free ∨ e ∈ held
  unlinked : ∀ e ∈ held, next s.mem e = 0
  room : ∀ e ∈ s.blocks, e ≠ 0 ∧ e + (hdrSize + entrySz) ≤ 2 ^ 64
  apart : ∀ e ∈ s.blocks, ∀ e' ∈ s.blocks, e ≠ e' →
    e + (hdrSize + entrySz) ≤ e' ∨ e' + (hdrSize + entrySz) ≤ e

namespace Inv

variable {entrySz : ℕ} {s s' : State} {free held : List ℕ} {e : ℕ}

theorem lt (h : Inv entrySz s free held) (he : e ∈ s.blocks) : e < 2 ^ 64 := by
  have hroom := (h.room e he).2
  simp only [hdrSize] at hroom
  omega

/-- What is written to one entry is not seen in the header of another one. -/
theorem header (h : Inv entrySz s free held) (he : e ∈ s.blocks) {e' : ℕ} (he' : e' ∈ s.blocks)
    (hne : e ≠ e') : e' + hdrSize ≤ e ∨ e + (hdrSize + entrySz) ≤ e' := by
  rcases h.apart e he e' he' hne with hbehind | hahead
  · exact .inr hbehind
  · left
    omega

/-- Stores that no link sees. -/
theorem store (h : Inv entrySz s free held) {mem : ByteMem}
    (hsame : ∀ e ∈ s.blocks, next mem e = next s.mem e) :
    Inv entrySz { s with mem := mem } free held := by
  refine ⟨h.size, ?_, h.tail, h.nodup, h.blocks, ?_, h.room, h.apart⟩
  · apply h.chain.congr
    intro e he
    exact hsame e ((h.blocks e).mpr (.inl he))
  · intro e he
    exact (hsame e ((h.blocks e).mpr (.inr he))).trans (h.unlinked e he)

/-- The lists of the users are no concern of the cache. -/
theorem hold (h : Inv entrySz s free held) (users : List ℕ) :
    Inv entrySz { s with held := users } free held :=
  ⟨h.size, h.chain, h.tail, h.nodup, h.blocks, h.unlinked, h.room, h.apart⟩

theorem clear_buffer (h : Inv entrySz s free held) (he : e ∈ s.blocks) :
    Inv entrySz { s with mem := clear (buffer e) entrySz s.mem } free held := by
  apply h.store
  intro e' he'
  apply next_clear_of_disjoint
  by_cases hne : e = e'
  · left
    simp only [buffer, hdrSize]
    omega
  · have hheader := h.header he he' hne
    simp only [buffer, hdrSize] at hheader ⊢
    omega

theorem setAllocCpu (h : Inv entrySz s free held) (he : e ∈ s.blocks) (cpu : Int32) :
    Inv entrySz { s with mem := setAllocCpu e cpu s.mem } free held := by
  apply h.store
  intro e' he'
  apply next_setAllocCpu
  by_cases hne : e = e'
  · exact .inl (Nat.le_of_eq hne.symm)
  · have hheader := h.header he he' hne
    omega

/-! ## The operations -/

/-- A fresh entry is one that the caller has. -/
theorem calloc (h : Inv entrySz s free held) {answer : ℕ} (hc : s.calloc answer = some s') :
    answer ∉ free ++ held ∧ Inv entrySz s' free (answer :: held) ∧ s'.held = s.held := by
  simp only [State.calloc, h.size] at hc
  split at hc
  · rename_i hvalid
    obtain ⟨hne, hroom, hclear⟩ := hvalid
    cases hc
    have hfar : ∀ e ∈ s.blocks, e + (hdrSize + entrySz) ≤ answer ∨
        answer + (hdrSize + entrySz) ≤ e := by
      intro e he
      have hfar := hclear e he
      rwa [h.size] at hfar
    have hfresh : answer ∉ s.blocks := by
      intro hmem
      have hself := hfar answer hmem
      simp only [hdrSize] at hself
      omega
    have hnot : answer ∉ free ++ held := by
      rw [List.mem_append, ← h.blocks]
      exact hfresh
    have hsame : ∀ e ∈ s.blocks,
        next (clear answer (hdrSize + entrySz) s.mem) e = next s.mem e := by
      intro e he
      apply next_clear_of_disjoint
      rcases hfar e he with hahead | hbehind
      · left
        simp only [hdrSize] at hahead ⊢
        omega
      · exact .inr hbehind
    have hstored := h.store hsame
    refine ⟨hnot, ⟨h.size, hstored.chain, h.tail, ?_, ?_, ?_, ?_, ?_⟩, rfl⟩
    · rw [List.nodup_middle]
      exact List.nodup_cons.mpr ⟨hnot, h.nodup⟩
    · intro e
      rw [List.mem_append, List.mem_singleton, h.blocks, List.mem_cons]
      tauto
    · intro e he
      rcases List.mem_cons.mp he with rfl | he
      · apply next_clear_self
        simp only [hdrSize]
        omega
      · exact hstored.unlinked e he
    · intro e he
      rcases List.mem_append.mp he with he | he
      · exact h.room e he
      · cases List.mem_singleton.mp he
        exact ⟨hne, hroom⟩
    · intro e he e' he' hdiff
      rcases List.mem_append.mp he with he | he
      · rcases List.mem_append.mp he' with he' | he'
        · exact h.apart e he e' he' hdiff
        · cases List.mem_singleton.mp he'
          exact hfar e he
      · cases List.mem_singleton.mp he
        rcases List.mem_append.mp he' with he' | he'
        · exact (hfar e' he').symm
        · cases List.mem_singleton.mp he'
          exact (hdiff rfl).elim
  · cases hc

/-- The first entry is unlinked and goes to the caller. -/
theorem unlink (h : Inv entrySz s (e :: free) held) :
    Inv entrySz { s with
      mem := setNext e 0 s.mem
      cache := { s.cache with
        head := next s.mem e
        tail := if next s.mem e = 0 then 0 else s.cache.tail } } free (e :: held) := by
  have hblock : e ∈ s.blocks := (h.blocks e).mpr (.inl (by simp))
  have hnodup : (free ++ e :: held).Nodup := by
    rw [List.nodup_middle]
    exact h.nodup
  have hsame : ∀ e' ∈ s.blocks, e' ≠ e → next (setNext e 0 s.mem) e' = next s.mem e' := by
    intro e' he' hne
    apply next_setNext_of_disjoint
    have hheader := h.header hblock he' hne.symm
    simp only [hdrSize] at hheader
    omega
  have hrest : Chain 0 (next s.mem) (next s.mem e) free := h.chain.2.2
  have hnotin := (List.nodup_cons.mp h.nodup).1
  refine ⟨h.size, ?_, ?_, hnodup, ?_, ?_, h.room, h.apart⟩
  · apply hrest.congr
    intro e' he'
    refine hsame e' ((h.blocks e').mpr (.inl (List.mem_cons_of_mem e he'))) ?_
    intro heq
    rw [heq] at he'
    exact hnotin (List.mem_append_left held he')
  · cases free with
    | nil =>
        rw [if_pos (hrest.eq_null_iff.mpr rfl)]
        rfl
    | cons e' free =>
        have hmore : next s.mem e ≠ 0 := by
          intro hzero
          cases hrest.eq_null_iff.mp hzero
        rw [if_neg hmore]
        exact h.tail
  · intro e'
    rw [h.blocks, List.mem_cons, List.mem_cons]
    tauto
  · intro e' he'
    rcases List.mem_cons.mp he' with rfl | hheld
    · exact next_setNext_self (by decide)
    · refine (hsame e' ((h.blocks e').mpr (.inr hheld)) ?_).trans (h.unlinked e' hheld)
      intro heq
      rw [heq] at hheld
      exact hnotin (List.mem_append_right free hheld)

/-- An entry of the caller goes behind the last one. -/
theorem cacheFree (h : Inv entrySz s free held) (he : e ∈ held) :
    Inv entrySz (s.cacheFree (buffer e)) (free ++ [e]) (held.erase e) := by
  have hblock : e ∈ s.blocks := (h.blocks e).mpr (.inr he)
  have hnull : e ≠ 0 := (h.room e hblock).1
  have hend := h.unlinked e he
  have hperm : (free ++ [e] ++ held.erase e).Perm (free ++ held) := by
    rw [List.append_assoc, List.singleton_append]
    exact (List.perm_cons_erase he).symm.append_left free
  have hnodup : (free ++ [e] ++ held.erase e).Nodup := hperm.nodup_iff.mpr h.nodup
  have hblocks : ∀ e', e' ∈ s.blocks ↔ e' ∈ free ++ [e] ∨ e' ∈ held.erase e := by
    intro e'
    rw [h.blocks, ← List.mem_append, ← hperm.mem_iff, List.mem_append]
  simp only [State.cacheFree, entryOf_buffer]
  cases hlast : free.getLast? with
  | none =>
      rw [List.getLast?_eq_none_iff] at hlast
      subst hlast
      rw [if_neg (by simp [h.tail])]
      refine ⟨h.size, ⟨rfl, hnull, hend⟩, rfl, hnodup, hblocks, ?_, h.room, h.apart⟩
      intro e' he'
      exact h.unlinked e' (List.mem_of_mem_erase he')
  | some t =>
      have htail : s.cache.tail = t := by rw [h.tail, hlast]; rfl
      have hmem : t ∈ free := List.mem_of_getLast? hlast
      have htblock : t ∈ s.blocks := (h.blocks t).mpr (.inl hmem)
      have hsame : ∀ e' ∈ s.blocks, e' ≠ t → next (setNext t e s.mem) e' = next s.mem e' := by
        intro e' he' hne
        apply next_setNext_of_disjoint
        have hheader := h.header htblock he' hne.symm
        simp only [hdrSize] at hheader
        omega
      have hheld : ∀ e' ∈ held, e' ≠ t := by
        rintro e' he' rfl
        exact List.disjoint_of_nodup_append h.nodup hmem he'
      rw [if_pos (by rw [htail]; exact h.chain.ne_null hmem)]
      refine ⟨h.size, ?_, ?_, hnodup, hblocks, ?_, h.room, h.apart⟩
      · rw [htail]
        apply h.chain.snoc hlast (next_setNext_self (h.lt hblock)) _ hnull
        · exact (hsame e hblock (hheld e he)).trans hend
        · intro e' he'
          exact hsame e' ((h.blocks e').mpr (.inl he'))
      · rw [List.getLast?_concat]
        rfl
      · intro e' he'
        have hmem' := List.mem_of_mem_erase he'
        rw [htail]
        exact (hsame e' ((h.blocks e').mpr (.inr hmem')) (hheld e' hmem')).trans
          (h.unlinked e' hmem')

/-- An allocation takes the first free entry, or a fresh one when there is none. -/
theorem cacheAlloc (h : Inv entrySz s free held) {cpu : Int32} {answer buff : ℕ}
    (ha : s.cacheAlloc cpu answer = some (buff, s')) :
    ∃ e free', buff = buffer e ∧ Inv entrySz s' free' (e :: held) ∧ s'.held = s.held ∧
      s'.mem.load buff entrySz = List.replicate entrySz 0 ∧
      (free = e :: free' ∨ free = [] ∧ free' = [] ∧ e = answer ∧ answer ∉ held) := by
  obtain ⟨⟨e, t⟩, ht, hpair⟩ := Option.bind_eq_some_iff.mp ha
  cases hpair
  have hload : ∀ mem : ByteMem, (clear (buffer e) entrySz mem).load (buffer e) entrySz =
      List.replicate entrySz 0 := by
    intro mem
    rw [clear, ByteMem.load_store_take (by simp), List.take_replicate, Nat.min_self]
  rw [State.takeEntry] at ht
  split at ht
  · rename_i hhead
    cases ht
    cases free with
    | nil => exact (hhead h.chain).elim
    | cons first free =>
        cases h.chain.1
        have hunlinked := h.unlink
        refine ⟨_, free, rfl, ?_, rfl, ?_, .inl rfl⟩
        · rw [show s.cache.entrySz = entrySz from h.size]
          exact hunlinked.clear_buffer ((h.blocks _).mpr (.inl (by simp)))
        · rw [show s.cache.entrySz = entrySz from h.size]
          exact hload _
  · rename_i hhead
    obtain ⟨u, hu, hpair⟩ := Option.bind_eq_some_iff.mp ht
    cases hpair
    have hempty : free = [] := h.chain.eq_null_iff.mp (not_not.mp hhead)
    subst hempty
    obtain ⟨hfresh, hinv, hheld⟩ := h.calloc hu
    have hblock : answer ∈ u.blocks := (hinv.blocks _).mpr (.inr (by simp))
    refine ⟨_, [], rfl, ?_, hheld, ?_, .inr ⟨rfl, rfl, rfl, hfresh⟩⟩
    · rw [show u.cache.entrySz = entrySz from hinv.size]
      exact (hinv.setAllocCpu hblock cpu).clear_buffer hblock
    · rw [show u.cache.entrySz = entrySz from hinv.size]
      exact hload _

theorem initEntries (h : Inv entrySz s free []) (hheld : s.held = []) {answers : List ℕ}
    (hinit : State.initEntries answers s = some s') :
    ∃ free', free'.length = free.length + answers.length ∧ Inv entrySz s' free' [] ∧
      s'.held = [] := by
  induction answers generalizing s free with
  | nil =>
      cases hinit
      exact ⟨free, rfl, h, hheld⟩
  | cons answer answers ih =>
      obtain ⟨t, ht, hrest⟩ := Option.bind_eq_some_iff.mp hinit
      obtain ⟨hfresh, hinv, hsame⟩ := h.calloc ht
      have hfree := hinv.cacheFree (e := answer) (by simp)
      rw [List.erase_cons_head] at hfree
      have hnone : (t.cacheFree (buffer answer)).held = [] := by
        rw [State.cacheFree]
        split
        · exact hsame.trans hheld
        · exact hsame.trans hheld
      obtain ⟨free', hlength, hlast⟩ := ih hfree hnone hrest
      refine ⟨free', ?_, hlast⟩
      rw [hlength, List.length_append, List.length_singleton, List.length_cons]
      omega

end Inv

/-! ## Refinement -/

/-- The entries from `head` on are the free ones of the queue in their order, and end at
`tail`. -/
structure Represents (s : State) (q : Fifo) : Prop where
  chain : Chain 0 (next s.mem) s.cache.head q.free
  tail : s.cache.tail = q.free.getLast?.getD 0
  last : s.cache.tail ≠ 0 → next s.mem s.cache.tail = 0
  empty : s.cache.head = 0 ↔ s.cache.tail = 0
  held : s.held = q.held
  blocks : ∀ e, e ∈ s.blocks ↔ e ∈ q.free ∨ e ∈ q.held
  once : (q.free ++ q.held).Nodup

theorem Inv.represents {entrySz : ℕ} {s : State} {q : Fifo} (h : Inv entrySz s q.free q.held)
    (hheld : s.held = q.held) : Represents s q := by
  refine ⟨h.chain, h.tail, ?_, ?_, hheld, h.blocks, h.nodup⟩
  · intro hne
    cases hlast : q.free.getLast? with
    | none => exact (hne (by rw [h.tail, hlast]; rfl)).elim
    | some t =>
        rw [h.tail, hlast]
        exact h.chain.next_getLast hlast
  · rw [h.chain.eq_null_iff, h.tail]
    cases hlast : q.free.getLast? with
    | none => simpa using List.getLast?_eq_none_iff.mp hlast
    | some t =>
        have hmem : t ∈ q.free := List.mem_of_getLast? hlast
        have hne := h.chain.ne_null hmem
        simp [hne, List.ne_nil_of_mem hmem]

/-- The cache follows the queue. -/
theorem simulates (entrySz count : ℕ) :
    Machine.Simulates (bufferCache entrySz count) (fifo entrySz count) observe
      fun s q => Inv entrySz s q.free q.held ∧ s.held = q.held where
  init := by
    intro s hs
    obtain ⟨mem, answers, hlength, hinit⟩ := hs
    have hstart : Inv entrySz ⟨⟨0, 0, entrySz⟩, mem, [], []⟩ [] [] := by
      refine ⟨rfl, rfl, rfl, .nil, ?_, nofun, nofun, nofun⟩
      simp
    obtain ⟨free, hfree, hinv, hheld⟩ := hstart.initEntries rfl hinit
    rw [List.length_nil, Nat.zero_add, hlength] at hfree
    have hnodup := hinv.nodup
    rw [List.append_nil] at hnodup
    exact ⟨⟨free, []⟩, ⟨hfree, hnodup, rfl⟩, hinv, hheld⟩
  hidden := by
    intro s s' q a out hR hstep hobs
    cases a with
    | alloc cpu answer =>
        obtain ⟨x, hx, hpair⟩ := Option.bind_eq_some_iff.mp hstep
        cases hpair
        cases hobs
    | free buff =>
        rw [show (bufferCache entrySz count).step s (.free buff) = s.step (.free buff) from rfl,
          State.step] at hstep
        split at hstep
        · cases hstep
          cases hobs
        · cases hstep
    | store p v =>
        rw [show (bufferCache entrySz count).step s (.store p v) = s.step (.store p v) from rfl,
          State.step] at hstep
        split at hstep
        · rename_i hwritable
          cases hstep
          refine ⟨hR.1.store ?_, hR.2⟩
          intro e he
          exact next_update (hwritable e he)
        · cases hstep
  visible := by
    intro s s' q a out b p hR hstep hobs
    obtain ⟨hinv, hheld⟩ := hR
    cases a with
    | alloc cpu answer =>
        obtain ⟨⟨buff, t⟩, ht, hpair⟩ := Option.bind_eq_some_iff.mp hstep
        cases hpair
        cases hobs
        obtain ⟨e, free, rfl, hinv', hsame, hload, hfrom⟩ := hinv.cacheAlloc ht
        refine ⟨⟨free, e :: q.held⟩, ?_, hinv'.hold _, ?_⟩
        · rw [show t.cache.entrySz = entrySz from hinv'.size, hload, entryOf_buffer]
          rcases hfrom with hfree | ⟨hfree, rfl, rfl, hfresh⟩
          · simp [fifo, Fifo.step, hfree]
          · simp [fifo, Fifo.step, hfree, hfresh]
        · rw [entryOf_buffer, hsame, hheld]
    | free buff =>
        rw [show (bufferCache entrySz count).step s (.free buff) = s.step (.free buff) from rfl,
          State.step] at hstep
        split at hstep
        · rename_i hmem
          cases hstep
          cases hobs
          obtain ⟨e, he, rfl⟩ := List.mem_map.mp hmem
          rw [hheld] at he
          rw [entryOf_buffer]
          refine ⟨⟨q.free ++ [e], q.held.erase e⟩, ?_, ?_, ?_⟩
          · simp [fifo, Fifo.step, he]
          · exact (hinv.cacheFree he).hold _
          · rw [hheld]
        · cases hstep
    | store p v =>
        rw [show (bufferCache entrySz count).step s (.store p v) = s.step (.store p v) from rfl,
          State.step] at hstep
        split at hstep
        · cases hstep
          cases hobs
        · cases hstep

/-- Whatever the users do with it, a cache is a queue of entries. -/
theorem refines_fifo {entrySz count : ℕ} {tr : List (Input × Output)} {s : State}
    (h : (bufferCache entrySz count).Reaches tr s) :
    ∃ q, (fifo entrySz count).Reaches (tr.filterMap observe) q ∧ Represents s q := by
  obtain ⟨q, hq, hinv, hheld⟩ := (simulates entrySz count).reaches h
  exact ⟨q, hq, hinv.represents hheld⟩

/-! ## The caches of the servers

Their models keep the list of the free entries alone.
-/

theorem Fifo.step_alloc (entrySz : ℕ) (q : Fifo) {fresh : ℕ} (h : fresh ∉ q.held) :
    q.step entrySz (.alloc fresh) =
      some (⟨(TcpEcho.cacheAlloc q.free fresh).cache,
          (TcpEcho.cacheAlloc q.free fresh).entry :: q.held⟩,
        .allocated (TcpEcho.cacheAlloc q.free fresh).entry (List.replicate entrySz 0)) := by
  obtain ⟨free, held⟩ := q
  cases free with
  | nil => exact if_neg h
  | cons e free => rfl

theorem Fifo.step_free (entrySz : ℕ) (q : Fifo) {e : ℕ} (h : e ∈ q.held) :
    q.step entrySz (.free e) =
      some (⟨TcpEcho.cacheFree q.free e, q.held.erase e⟩, .freed) :=
  if_pos h

/-! ## A run -/

/-- A cache of one entry at 64, in a memory of junk. -/
def oneEntry : State where
  cache := ⟨64, 64, 2⟩
  mem := clear 64 18 fun _ => 7
  blocks := [64]
  held := []

/-- Two buffers, the second one fresh, are written to and freed the other way around. -/
def twoBuffers : List Input :=
  [.alloc 0 0, .alloc 0 96, .store 112 5, .free 112, .free 80, .alloc 1 0]

theorem oneEntry_init : (bufferCache 2 1).Init oneEntry :=
  ⟨fun _ => 7, [64], rfl, rfl⟩

theorem twoBuffers_runs : ((bufferCache 2 1).exec oneEntry twoBuffers).isSome := by decide

theorem refines_fifo_twoBuffers :
    ∃ (s : State) (q : Fifo) (tr : List (Input × Output)),
      tr.map Prod.snd = [.allocated 80 [0, 0], .allocated 112 [0, 0], .silent, .silent, .silent,
        .allocated 112 [0, 0]] ∧
      (fifo 2 1).Reaches (tr.filterMap observe) q ∧ Represents s q := by
  have hreach := Machine.reaches_exec_get oneEntry_init twoBuffers_runs
  obtain ⟨q, hq, hrepresents⟩ := refines_fifo hreach
  exact ⟨_, q, _, by decide +kernel, hq, hrepresents⟩

end Upcalls.BufferCache
