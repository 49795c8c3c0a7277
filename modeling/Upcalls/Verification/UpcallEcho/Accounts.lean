import Upcalls.Library.Ledger
import Upcalls.Verification.UpcallEcho.Ownership

/-! # What the upcall server counts

`accept_count` follows the accepts that `my_accept` has seen, and `conn_count` the
connections that `on_close` has closed.
-/

namespace Upcalls.UpcallEcho

open Library LibUpcall TcpEcho

namespace Server

open Team

variable {n msgSize : ℕ}

/-- A completed accept waits until `my_accept` sees it. -/
def books (s : Server n) : Books ℤ where
  opened := s.shared.opened
  waiting := s.opening
  ins := s.tally (·.acceptCount)
  outs := s.tally (·.connCount)

/-- The server knows only descriptors that satisfy `Q`. -/
structure Knows (Q : ℤ → Prop) (s : Server n) : Prop where
  opening : ∀ fd, 0 < s.opening fd → Q fd
  conns : ∀ fd p, s.shared.conns fd = some p → Q fd

structure Accounted (Q : ℤ → Prop) (s s' : Server n) : Prop where
  booked : Books.Step Q s.books s'.books
  knows : s'.Knows Q

variable {Q : ℤ → Prop} {tr : List (Input n × Output)} {s s' : Server n} {w : Fin n}

theorem opening_same {me : Worker} (h : ∀ fd, me.opening fd = (s.worker w).opening fd)
    (sh : Shared) : Server.opening ((s.set w me).share sh) = s.opening := by
  funext fd
  have hset := opening_set s w me sh fd
  rw [h] at hset
  omega

/-- A step that neither opens nor closes a connection, nor sees an accept. -/
theorem Knows.quiet (hk : s.Knows Q) {me : Worker} {t : Shared}
    (hopening : ∀ fd, me.opening fd = (s.worker w).opening fd)
    (haccepts : me.acceptCount = (s.worker w).acceptCount)
    (hcloses : me.connCount = (s.worker w).connCount)
    (hopened : t.opened = s.shared.opened) (hconns : t.conns = s.shared.conns) :
    Accounted Q s ((s.set w me).share t) := by
  have hwaiting := opening_same hopening t
  refine ⟨?_, ?_, ?_⟩
  · have hbooks : books ((s.set w me).share t) = s.books := by
      rw [books, hwaiting, tally_share, tally_share, tally_set_eq haccepts, tally_set_eq hcloses,
        share_shared, hopened]
      rfl
    rw [hbooks]
    exact .same
  · rw [hwaiting]
    exact hk.opening
  · rw [share_shared, hconns]
    exact hk.conns

/-! ## The steps -/

/-- A completed accept waits; what else the kernel completes is not counted. -/
theorem Inv.account_complete (hs : s.Inv tr) (hk : s.Knows Q)
    (hnew : ∀ fd, s.shared.opened fd = false → Q fd) {i : ℕ} {result : ℤ} {buf : Ptr} {len : ℕ}
    {o : Output} (h : s.step msgSize (.complete w i result buf len) = some (s', o)) :
    Accounted Q s s' := by
  obtain ⟨r, sh, hr, hopen, rfl, rfl⟩ := complete_spec h
  have hplain := hs.plain w r (List.mem_append_right _ (List.mem_of_getElem? hr))
  have harrive := fun fd => Worker.opening_arrive fd (s.worker w) i
    (completion r result buf len)
  rcases openFor_spec hopen with ⟨htype, hres, hclosed, rfl⟩ | ⟨hnot, rfl⟩
  · obtain ⟨x, hx⟩ : ∃ x, x = (completion r result buf len).result := ⟨_, rfl⟩
    rw [← hx] at hres hclosed ⊢
    have hfn : (completion r result buf len).workFn = some .myAccept := by
      cases r <;> simp_all [completion, Plain]
    have hwaiting : Server.opening ((s.set w ((s.worker w).arrive i
        (completion r result buf len))).share
          { s.shared with opened := Function.update s.shared.opened x true }) =
        fun fd => s.opening fd + if x = fd then 1 else 0 := by
      funext fd
      have hset := opening_set s w ((s.worker w).arrive i (completion r result buf len))
        { s.shared with opened := Function.update s.shared.opened x true } fd
      rw [harrive, hfn, ← hx] at hset
      by_cases hfd : x = fd
      · subst hfd
        simp only [hres, and_self, if_true] at hset ⊢
        omega
      · simp only [hfd, false_and, and_false, if_false] at hset ⊢
        omega
    refine ⟨?_, ?_, ?_⟩
    · have hbooks : books ((s.set w ((s.worker w).arrive i
          (completion r result buf len))).share
            { s.shared with opened := Function.update s.shared.opened x true }) =
          s.books.arrive x := by
        rw [books, hwaiting, tally_share, tally_share, tally_set_eq (by rfl),
          tally_set_eq (by rfl)]
        rfl
      rw [hbooks]
      exact .arrive hclosed
    · intro fd hpos
      by_cases hfd : x = fd
      · rw [← hfd]
        exact hnew x hclosed
      · refine hk.opening fd ?_
        simpa only [hwaiting, if_neg hfd, Nat.add_zero] using hpos
    · exact hk.conns
  · refine hk.quiet ?_ (by rfl) (by rfl) rfl rfl
    intro fd
    rw [harrive, if_neg, Nat.add_zero]
    rintro ⟨hfn, rfl, hpos⟩
    rw [Worker.completion_workFn] at hfn
    obtain ⟨fd, rfl⟩ := hplain.accept hfn
    exact hnot ⟨rfl, hpos⟩

/-- `my_accept` counts a descriptor that waited. -/
theorem Inv.account_accepted (hs : s.Inv tr) (hk : s.Knows Q) {e : UpEvent Handler}
    {rest : List (UpEvent Handler)} (he : (s.worker w).queue.undispatched = e :: rest)
    (hfn : e.workFn = some .myAccept) (hres : 0 ≤ e.result) :
    Accounted Q s ((s.set w (myAccept e (s.worker w).pop s.shared).1).share
      (myAccept e (s.worker w).pop s.shared).2) := by
  have hneg : ¬ e.result < 0 := by omega
  obtain ⟨me, hme⟩ : ∃ me, me = (myAccept e (s.worker w).pop s.shared).1 := ⟨_, rfl⟩
  obtain ⟨sh, hsh⟩ : ∃ sh, sh = (myAccept e (s.worker w).pop s.shared).2 := ⟨_, rfl⟩
  rw [← hme, ← hsh]
  rw [myAccept, if_neg hneg] at hme hsh
  have hwaiting : ∀ fd, s.opening fd =
      Server.opening ((s.set w me).share sh) fd + if e.result = fd then 1 else 0 := by
    intro fd
    have hset := opening_set s w me sh fd
    have hpop := Worker.opening_pop he fd
    have hsame : me.opening fd = (s.worker w).pop.opening fd := by
      rw [hme]
      rfl
    by_cases hfd : e.result = fd
    · subst hfd
      simp only [hfn, hres, and_self, if_true] at hpop ⊢
      omega
    · simp only [hfd, false_and, and_false, if_false] at hpop ⊢
      omega
  have hopening := hs.opening e.result
  have hwaits := hwaiting e.result
  rw [if_pos rfl] at hwaits
  have hopened : s.shared.opened e.result = true := by
    by_contra hclosed
    rw [if_neg hclosed] at hopening
    omega
  rw [if_pos hopened] at hopening
  have hq : Q e.result := hk.opening e.result (by omega)
  refine ⟨?_, ?_, ?_⟩
  · have hbooks : books ((s.set w me).share sh) =
        s.books.record (Server.opening ((s.set w me).share sh)) := by
      have hins : (s.set w me).tally (·.acceptCount) = s.tally (·.acceptCount) + 1 := by
        refine tally_set_add ?_
        rw [hme]
        rfl
      have houts : (s.set w me).tally (·.connCount) = s.tally (·.connCount) := by
        refine tally_set_eq ?_
        rw [hme]
        rfl
      rw [books, tally_share, tally_share, hins, houts, share_shared, hsh]
      rfl
    rw [hbooks]
    exact .record hq hopened hwaiting (by omega)
  · intro fd hpos
    refine hk.opening fd ?_
    rw [hwaiting]
    omega
  · intro fd p hp
    by_cases hfd : fd = e.result
    · rw [hfd]
      exact hq
    · have hconns : sh.conns fd = s.shared.conns fd := by
        rw [hsh]
        exact Function.update_of_ne hfd _ _
      rw [share_shared, hconns] at hp
      exact hk.conns fd p hp

/-- `on_close` counts a connection that is open and has been accepted. -/
theorem Inv.account_closed (hs : s.Inv tr) (hk : s.Knows Q) {e : UpEvent Handler}
    {rest : List (UpEvent Handler)} (he : (s.worker w).queue.undispatched = e :: rest)
    {h : Handler} (hfn : e.workFn = some h) (hh : h ≠ .myAccept) {p : ℕ}
    (hp : s.shared.conns e.fd = some p) :
    Accounted Q s ((s.set w (onClose p (s.worker w).pop s.shared).1).share
      (onClose p (s.worker w).pop s.shared).2) := by
  obtain ⟨hpfd, hpos⟩ := hs.live _ _ hp
  rw [onClose_eq (by rw [hpfd]; exact hpos), hpfd]
  obtain ⟨me, hme⟩ : ∃ me : Worker, me = { (s.worker w).pop with
    msgCache := cacheFree (s.worker w).pop.msgCache (s.shared.conn p).buffer
    connCache := cacheFree (s.worker w).pop.connCache p
    connCount := (s.worker w).pop.connCount + 1 } := ⟨_, rfl⟩
  obtain ⟨sh, hsh⟩ : ∃ sh : Shared, sh = { s.shared with
    conns := Function.update s.shared.conns e.fd none
    conn := Function.update s.shared.conn p
      { s.shared.conn p with fd := -1, state := .closing }
    opened := Function.update s.shared.opened e.fd false } := ⟨_, rfl⟩
  rw [← hme, ← hsh]
  have hwaiting : Server.opening ((s.set w me).share sh) = s.opening := by
    refine opening_same ?_ sh
    intro fd
    rw [← opening_pop_of_ne he (.inl (ne_accept_of_isOp hfn hh)), hme]
    rfl
  have hopening := hs.opening e.fd
  rw [present_some hp] at hopening
  have hopened : s.shared.opened e.fd = true := by
    by_contra hclosed
    rw [if_neg hclosed] at hopening
    omega
  rw [if_pos hopened] at hopening
  refine ⟨?_, ?_, ?_⟩
  · have hbooks : books ((s.set w me).share sh) = s.books.leave e.fd := by
      have houts : (s.set w me).tally (·.connCount) = s.tally (·.connCount) + 1 := by
        refine tally_set_add ?_
        rw [hme]
        rfl
      have hins : (s.set w me).tally (·.acceptCount) = s.tally (·.acceptCount) := by
        refine tally_set_eq ?_
        rw [hme]
        rfl
      rw [books, hwaiting, tally_share, tally_share, hins, houts, share_shared, hsh]
      rfl
    rw [hbooks]
    refine .leave (hk.conns _ _ hp) hopened ?_
    have hzero : s.opening e.fd = 0 := by omega
    exact hzero
  · rw [hwaiting]
    exact hk.opening
  · intro fd q hq
    have hconns : sh.conns = Function.update s.shared.conns e.fd none := by rw [hsh]
    by_cases hfd : fd = e.fd
    · rw [share_shared, hconns, hfd, Function.update_self] at hq
      cases hq
    · rw [share_shared, hconns, Function.update_of_ne hfd] at hq
      exact hk.conns fd q hq

theorem Inv.account (hs : s.Inv tr) (hk : s.Knows Q)
    (hnew : ∀ fd, s.shared.opened fd = false → Q fd) {a : Input n} {o : Output}
    (h : s.step msgSize a = some (s', o)) : Accounted Q s s' := by
  cases a with
  | submit w =>
      obtain ⟨hnil, rfl, rfl⟩ := submit_spec h
      exact hk.quiet (t := s.shared) (Worker.opening_enter hnil) (by rfl) (by rfl) rfl rfl
  | complete w i result buf len => exact hs.account_complete hk hnew h
  | receive w =>
      obtain ⟨rfl, rfl⟩ := receive_spec h
      exact hk.quiet (t := s.shared) (by intro fd; rfl) (by rfl) (by rfl) rfl rfl
  | dispatch w =>
      obtain ⟨e, rest, effects, he, rfl, hhandled⟩ := dispatch_spec hs.live h
      cases hhandled with
      | refused hfn hres =>
          exact hk.quiet (t := s.shared) (opening_pop_of_ne he (.inr hres)) (by rfl) (by rfl)
            rfl rfl
      | accepted hfn hres => exact hs.account_accepted hk he hfn hres
      | closed hfn hh hres hp => exact hs.account_closed hk he hfn hh hp
      | failed hfn hh hres hp hfd hbuf hcur =>
          exact hk.quiet (opening_pop_of_ne he (.inl (ne_accept_of_isOp hfn hh))) (by rfl)
            (by rfl) rfl rfl
      | rearmed hfn hh hres hp hfd hbuf hr hcopy =>
          exact hk.quiet (opening_pop_of_ne he (.inl (ne_accept_of_isOp hfn hh))) (by rfl)
            (by rfl) rfl rfl

/-! ## Runs -/

theorem knows_start (hs : s.Start) : s.Knows Q := by
  refine ⟨?_, ?_⟩
  · intro fd hpos
    have hzero : s.opening fd = 0 := by
      refine tally_eq_zero ?_
      intro w
      rw [Worker.opening, hs.queue]
      rfl
    omega
  · intro fd p hp
    rw [hs.conns] at hp
    cases hp

/-- What `accept_count` and `conn_count` add up to, with the connections that were accepted
since `s₀` and are not closed. -/
def ledger (s s₀ : Server n) : Ledger ℤ := s.books.ledger s₀.shared.opened

theorem run_balanced {s₀ : Server n} (hstart : s₀.Start)
    (h : (echoServer n msgSize).Run s₀ tr s) : (s.ledger s₀).Balanced := by
  refine (h.preserves (P := fun u : Server n => (∃ tr, u.Inv tr) ∧ u.Knows (s₀.shared.opened · = false) ∧
    u.books.Sound s₀.shared.opened) ?_ ⟨⟨[], inv_start hstart⟩, knows_start hstart, ?_⟩).2.2.balanced
  · rintro u a o v - ⟨⟨tr, hinv⟩, hknows, hsound⟩ hstep
    obtain ⟨hbooked, hknows'⟩ := hinv.account hknows (fun fd => hsound.keeps.fresh) hstep
    exact ⟨⟨_, hinv.step hstep⟩, hknows', hsound.step hbooked⟩
  · refine Books.sound_start rfl ?_ ?_
    · exact tally_eq_zero hstart.acceptCount
    · exact tally_eq_zero hstart.connCount

end Server

end Upcalls.UpcallEcho
