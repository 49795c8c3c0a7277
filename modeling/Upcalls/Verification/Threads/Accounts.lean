import Upcalls.Library.Ledger
import Upcalls.Model.Threads

/-! # What the threads server counts

The workers count the accepts, and nobody counts the connections that `conn_handler` closes.
So the books of the server balance with one more exit for each of them.
-/

namespace Upcalls.Threads

open Library

variable {n msgSize : ℕ}

/-- A handler closes its connection. -/
def Input.closes : Input n → Bool
  | .done _ => true
  | _ => false

/-- The worker has `fd` in its hands. -/
def Worker.holds (fd : ℤ) (me : Worker) : ℕ :=
  match me.pc with
  | .pthreadCreate g => if g = fd then 1 else 0
  | .accept => 0

namespace Server

open Team

/-- `k` are exits that the server has not counted. -/
def books (s : Server n) (k : ℕ) : Books ℤ where
  opened := s.shared.opened
  waiting _ := 0
  ins := s.tally (·.acceptCount)
  outs := s.tally (·.connCount) + k

/-- How often `fd` belongs to a worker or a handler. -/
def held (s : Server n) (fd : ℤ) : ℕ :=
  s.tally (·.holds fd) + s.shared.handlers.countP (·.fd = fd)

/-- A held descriptor is open, is held once, and satisfies `Q`. -/
structure Holds (Q : ℤ → Prop) (s : Server n) : Prop where
  once : ∀ fd, s.held fd ≤ if s.shared.opened fd then 1 else 0
  known : ∀ fd, 0 < s.held fd → Q fd

/-- A step after which `k` more exits are missing. -/
structure Accounted (Q : ℤ → Prop) (s s' : Server n) (k : ℕ) : Prop where
  booked : ∀ i, Books.Step Q (s.books i) (s'.books (i + k))
  holds : s'.Holds Q

variable {Q : ℤ → Prop} {s s' : Server n} {w : Fin n}

/-! ## The steps -/

theorem accept_spec {fd : ℤ} (h : s.accept w fd = some s') :
    (s.worker w).pc = .accept ∧ s.shared.opened fd = false ∧
      s' = (s.set w { s.worker w with
        pc := .pthreadCreate fd
        acceptCount := (s.worker w).acceptCount + 1 }).share
          { s.shared with opened := Function.update s.shared.opened fd true } := by
  simp only [accept] at h
  split at h
  · rename_i hguard
    exact ⟨hguard.1, hguard.2.2, (Option.some.inj h).symm⟩
  · cases h

theorem pthreadCreate_spec (h : s.pthreadCreate w = some s') :
    ∃ fd, (s.worker w).pc = .pthreadCreate fd ∧
      s' = (s.set w { s.worker w with pc := .accept }).share
        { s.shared with handlers := s.shared.handlers ++ [⟨fd, .read 0⟩] } := by
  simp only [pthreadCreate] at h
  split at h
  · rename_i fd hpc
    exact ⟨fd, hpc, (Option.some.inj h).symm⟩
  · cases h

/-- A call of a handler changes what this handler does next, and nothing else. -/
theorem io_spec {i : ℕ} {ret : ℤ} (h : s.io msgSize i ret = some s') :
    ∃ handler next, s.shared.handlers[i]? = some handler ∧
      s' = s.share { s.shared with
        handlers := s.shared.handlers.set i { handler with next := next } } := by
  rw [io] at h
  obtain ⟨handler, hi, h⟩ := Option.bind_eq_some_iff.mp h
  simp only at h
  split at h
  · split at h
    · exact ⟨handler, _, hi, (Option.some.inj h).symm⟩
    · cases h
  · split at h
    · exact ⟨handler, _, hi, (Option.some.inj h).symm⟩
    · cases h
  · cases h

theorem done_spec {i : ℕ} (h : s.done i = some s') :
    ∃ handler, s.shared.handlers[i]? = some handler ∧ s' = s.share {
      conns := Function.update s.shared.conns handler.fd none
      opened := Function.update s.shared.opened handler.fd false
      handlers := s.shared.handlers.eraseIdx i } := by
  rw [done] at h
  obtain ⟨handler, hi, h⟩ := Option.bind_eq_some_iff.mp h
  split at h
  · exact ⟨handler, hi, (Option.some.inj h).symm⟩
  · cases h

theorem held_set {me : Worker} {sh : Shared} (h : s' = (s.set w me).share sh) (fd : ℤ) :
    s'.held fd + (s.worker w).holds fd + s.shared.handlers.countP (·.fd = fd) =
      s.held fd + me.holds fd + sh.handlers.countP (·.fd = fd) := by
  have hset := tally_set (·.holds fd) s w me
  rw [held, held, h, tally_share, share_shared]
  omega

/-- A step that opens and closes nothing, and after which everything is held that was. -/
theorem Holds.quiet (hs : s.Holds Q) {k : ℕ} (hheld : ∀ fd, s'.held fd = s.held fd)
    (hopened : s'.shared.opened = s.shared.opened) (hbooks : ∀ i, s'.books (i + k) = s.books i) :
    Accounted Q s s' k := by
  refine ⟨?_, ?_, ?_⟩
  · intro i
    rw [hbooks]
    exact .same
  · intro fd
    rw [hheld, hopened]
    exact hs.once fd
  · intro fd
    rw [hheld]
    exact hs.known fd

theorem Holds.accept (hs : s.Holds Q) (hnew : ∀ fd, s.shared.opened fd = false → Q fd)
    {fd : ℤ} (h : s.accept w fd = some s') : Accounted Q s s' 0 := by
  obtain ⟨hpc, hclosed, hs'⟩ := accept_spec h
  have hheld : ∀ g, s'.held g = s.held g + if fd = g then 1 else 0 := by
    intro g
    have hset := held_set hs' g
    simp only [Worker.holds, hpc] at hset
    omega
  have hopened : s'.shared.opened = Function.update s.shared.opened fd true := by rw [hs']; rfl
  refine ⟨?_, ?_, ?_⟩
  · intro i
    have hbooks : s'.books i = (s.books i).enter fd := by
      rw [books, hs', tally_share, tally_share, tally_set_add (k := 1) (by rfl),
        tally_set_eq (by rfl)]
      rfl
    rw [Nat.add_zero, hbooks]
    exact .enter hclosed rfl
  · intro g
    have hold := hs.once g
    rw [hheld, hopened, Function.update_apply]
    by_cases hg : fd = g
    · subst hg
      rw [hclosed] at hold
      simpa using hold
    · simpa only [if_neg hg, if_neg (Ne.symm hg), Nat.add_zero] using hold
  · intro g hpos
    rw [hheld] at hpos
    by_cases hg : fd = g
    · rw [← hg]
      exact hnew fd hclosed
    · rw [if_neg hg] at hpos
      exact hs.known g hpos

theorem Holds.pthreadCreate (hs : s.Holds Q) (h : s.pthreadCreate w = some s') :
    Accounted Q s s' 0 := by
  obtain ⟨fd, hpc, hs'⟩ := pthreadCreate_spec h
  refine hs.quiet ?_ (by rw [hs']; rfl) ?_
  · intro g
    have hset := held_set hs' g
    simp only [Worker.holds, hpc, List.countP_append, List.countP_singleton,
      decide_eq_true_eq] at hset
    omega
  · intro i
    rw [books, hs', tally_share, tally_share, tally_set_eq (by rfl), tally_set_eq (by rfl)]
    rfl

theorem Holds.io (hs : s.Holds Q) {i : ℕ} {ret : ℤ} (h : s.io msgSize i ret = some s') :
    Accounted Q s s' 0 := by
  obtain ⟨handler, next, hi, hs'⟩ := io_spec h
  refine hs.quiet ?_ (by rw [hs']; rfl) (by intro i; rw [hs']; rfl)
  intro fd
  have hfds : ∀ handlers : List Handler, handlers.countP (·.fd = fd) =
      (handlers.map (·.fd)).count fd := by
    intro handlers
    rw [List.count, List.countP_map]
    rfl
  have hsame : (s.shared.handlers.set i { handler with next := next }).map (·.fd) =
      s.shared.handlers.map (·.fd) := by
    obtain ⟨hlt, hget⟩ := List.getElem?_eq_some_iff.mp hi
    have hlen : i < (s.shared.handlers.map (·.fd)).length := by simpa using hlt
    have hfd : handler.fd = (s.shared.handlers.map (·.fd))[i] := by
      rw [List.getElem_map, hget]
    rw [List.map_set, hfd, List.set_getElem_self]
  rw [held, held, hs', tally_share, share_shared, hfds, hfds, hsame]

/-- The end of a handler closes its connection, which nobody counts. -/
theorem Holds.done (hs : s.Holds Q) {i : ℕ} (h : s.done i = some s') :
    Accounted Q s s' 1 := by
  obtain ⟨handler, hi, hs'⟩ := done_spec h
  have herase : ∀ fd, s.held fd = s'.held fd + if handler.fd = fd then 1 else 0 := by
    intro fd
    have hcount := countP_eraseIdx (fun x : Handler => x.fd = fd) hi
    have hhandlers : s'.shared.handlers = s.shared.handlers.eraseIdx i := by
      rw [hs']
      rfl
    have hworkers : s'.tally (·.holds fd) = s.tally (·.holds fd) := by
      rw [hs']
      rfl
    simp only [decide_eq_true_eq] at hcount
    rw [held, held, hworkers, hhandlers]
    omega
  have hone := herase handler.fd
  rw [if_pos rfl] at hone
  have honce := hs.once handler.fd
  have hopened : s.shared.opened handler.fd = true := by
    by_contra hclosed
    rw [if_neg hclosed] at honce
    omega
  have hclosed : s'.shared.opened = Function.update s.shared.opened handler.fd false := by
    rw [hs']
    rfl
  rw [if_pos hopened] at honce
  refine ⟨?_, ?_, ?_⟩
  · intro k
    have hbooks : s'.books (k + 1) = (s.books k).leave handler.fd := by
      rw [hs']
      rfl
    rw [hbooks]
    exact .leave (hs.known handler.fd (by omega)) hopened rfl
  · intro fd
    have hold := hs.once fd
    rw [herase] at hold
    rw [hclosed, Function.update_apply]
    by_cases hfd : handler.fd = fd
    · subst hfd
      rw [if_pos rfl, if_neg Bool.false_ne_true]
      omega
    · simpa only [if_neg hfd, if_neg (Ne.symm hfd), Nat.add_zero] using hold
  · intro fd hpos
    refine hs.known fd ?_
    rw [herase]
    omega

theorem Holds.step (hs : s.Holds Q) (hnew : ∀ fd, s.shared.opened fd = false → Q fd)
    {a : Input n} {o : Unit} (h : s.step msgSize a = some (s', o)) :
    Accounted Q s s' (if a.closes then 1 else 0) := by
  cases a with
  | accept w fd =>
      obtain ⟨t, ht, hpair⟩ := Option.map_eq_some_iff.mp h
      cases hpair
      exact hs.accept hnew ht
  | pthreadCreate w =>
      obtain ⟨t, ht, hpair⟩ := Option.map_eq_some_iff.mp h
      cases hpair
      exact hs.pthreadCreate ht
  | io i ret =>
      obtain ⟨t, ht, hpair⟩ := Option.map_eq_some_iff.mp h
      cases hpair
      exact hs.io ht
  | done i =>
      obtain ⟨t, ht, hpair⟩ := Option.map_eq_some_iff.mp h
      cases hpair
      exact hs.done ht

/-! ## Runs -/

theorem holds_start (hs : s.Start) : s.Holds Q := by
  have hheld : ∀ fd, s.held fd = 0 := by
    intro fd
    have hworkers : s.tally (·.holds fd) = 0 := by
      refine tally_eq_zero ?_
      intro w
      rw [Worker.holds, hs.pc]
    rw [held, hworkers, hs.handlers]
    rfl
  refine ⟨?_, ?_⟩
  · intro fd
    rw [hheld]
    exact Nat.zero_le _
  · intro fd hpos
    rw [hheld] at hpos
    exact absurd hpos (Nat.lt_irrefl 0)

/-- What `accept_count` and `conn_count` add up to, with the connections that were accepted
since `s₀` and are not closed. -/
def ledger (s s₀ : Server n) : Ledger ℤ := (s.books 0).ledger s₀.shared.opened

/-- The ledger balances as long as no connection has been closed. -/
theorem run_balanced_iff {s₀ : Server n} (hstart : s₀.Start) {tr : List (Input n × Unit)}
    (h : (echoServer n msgSize).Run s₀ tr s) :
    (s.ledger s₀).Balanced ↔
      ((echoServer n msgSize).guard fun _ a => !a.closes).Run s₀ tr s := by
  have hstep : ∀ (u : Server n) k (a : Input n) o (v : Server n),
      (u.Holds (s₀.shared.opened · = false) ∧ (u.books k).Sound s₀.shared.opened) →
      u.step msgSize a = some (v, o) →
      v.Holds (s₀.shared.opened · = false) ∧
        (v.books (k + if !a.closes then 0 else 1)).Sound s₀.shared.opened := by
    rintro u k a o v ⟨hholds, hsound⟩ hstep
    obtain ⟨hbooked, hholds'⟩ := hholds.step (fun fd => hsound.keeps.fresh) hstep
    have hcount : (if !a.closes then 0 else 1) = if a.closes then 1 else 0 := by
      cases a.closes <;> rfl
    rw [hcount]
    exact ⟨hholds', hsound.step (hbooked k)⟩
  obtain ⟨k, ⟨-, hsound⟩, hiff⟩ := h.count ⟨holds_start hstart, Books.sound_start rfl
    (tally_eq_zero hstart.acceptCount) (tally_eq_zero hstart.connCount)⟩ hstep
  rw [← hiff]
  exact hsound.balanced.iff_of_missing_outs

end Server

end Upcalls.Threads
