import Upcalls.Verification.IoUring.Refused

/-! # The requests of each connection

A live connection has one request outstanding, at its owner, for the rest of the message in its
own buffer. Each worker has one accept outstanding.
-/

namespace Upcalls.IoUring

open Library TcpEcho

variable {n msgSize : ℕ}

/-- The worker that has installed `fd` last. -/
def owner (tr : List (Attempt n × Output n)) (fd : ℤ) : Option (Fin n) :=
  tr.foldl (fun before x => x.2.owner fd before) none

theorem owner_snoc (tr : List (Attempt n × Output n)) (x : Attempt n × Output n) (fd : ℤ) :
    owner (tr ++ [x]) fd = x.2.owner fd (owner tr fd) := by
  rw [owner, List.foldl_append]
  rfl

/-- The connection at `fd` has message buffer `b`. -/
def Buffered (t : Table) (fd : ℤ) (b : ℕ) : Prop :=
  ∃ p, t.conns fd = some p ∧ (t.conn p).buffer = b

namespace Server

open Team

/-- Each connection has one request outstanding, at the worker that owns it. -/
def Single (s : Server n) (own : ℤ → Option (Fin n)) : Prop :=
  ∀ w fd, (s.worker w).requests.countP (·.on fd) =
    if (s.shared.conns fd).isSome ∧ own fd = some w then 1 else 0

structure Tended (msgSize : ℕ) (tr : List (Attempt n × Output n)) (s : Server n) : Prop where
  accepts : ∀ w, (s.worker w).requests.count .accept + (s.worker w).pc.accepting = 1
  transfers : s.Single (owner tr)
  rest : ∀ w, ∀ r ∈ (s.worker w).requests, ∀ fd p, r.on fd = true →
    s.shared.conns fd = some p → r.Rest msgSize (s.shared.conn p)
  cursor : ∀ fd p, s.shared.conns fd = some p → (s.shared.conn p).cursor ≤ msgSize
  answered : ∀ w, ∀ c ∈ (s.worker w).cq, c.info.Sock → c.res ≤ c.info.len
  buffers : Separated s.msgFree (Buffered s.shared) s.shared.next

variable {tr : List (Attempt n × Output n)} {s s' : Server n} {w : Fin n} {o : Output n}
  {gone new : List (Req n)}

/-! ### What is about the worker alone -/

theorem others_requests (hx : Exchange w gone new s s') {v : Fin n} (hv : v ≠ w) :
    (s'.worker v).requests = (s.worker v).requests := by
  have hstill := hx.others v hv
  rw [Worker.requests, Worker.requests, hstill.sq, hstill.kernel, hstill.cq]

theorem exchange_countP (hx : Exchange w gone new s s') (q : Req n → Bool) :
    gone.countP q + (s'.worker w).requests.countP q =
      (s.worker w).requests.countP q + new.countP q := by
  rw [← List.countP_append, ← List.countP_append]
  exact hx.requests.countP_eq q

theorem exchange_mem (hx : Exchange w gone new s s') {v : Fin n} {r : Req n}
    (hr : r ∈ (s'.worker v).requests) : r ∈ (s.worker v).requests ∨ (v = w ∧ r ∈ new) := by
  by_cases hv : v = w
  · subst hv
    have hmem := hx.requests.mem_iff.mp (List.mem_append_right gone hr)
    rcases List.mem_append.mp hmem with hold | hnew
    · exact .inl hold
    · exact .inr ⟨rfl, hnew⟩
  · rw [others_requests hx hv] at hr
    exact .inl hr

theorem Tended.accepts_step (hs : s.Tended msgSize tr) (hx : Exchange w gone new s s')
    (v : Fin n) : (s'.worker v).requests.count .accept + (s'.worker v).pc.accepting = 1 := by
  by_cases hv : v = w
  · subst hv
    have hcount := exchange_countP hx (· == .accept)
    have haccepting := hx.accepting
    have hold := hs.accepts v
    simp only [List.count_eq_countP] at hold haccepting ⊢
    omega
  · rw [others_requests hx hv, (hx.others v hv).pc]
    exact hs.accepts v

theorem Tended.answered_step (hs : s.Tended msgSize tr) (hx : Exchange w gone new s s')
    (v : Fin n) : ∀ c ∈ (s'.worker v).cq, c.info.Sock → c.res ≤ c.info.len := by
  intro c hc hsock
  by_cases hv : v = w
  · subst hv
    rcases hx.answered c hc with hold | hnew
    · exact hs.answered v c hold hsock
    · exact hnew hsock
  · rw [(hx.others v hv).cq] at hc
    exact hs.answered v c hc hsock

/-! ### One request for each connection -/

theorem countP_same (hx : Exchange w gone new s s') {q : Req n → Bool}
    (hq : gone.countP q = new.countP q) (v : Fin n) :
    (s'.worker v).requests.countP q = (s.worker v).requests.countP q := by
  by_cases hv : v = w
  · subst hv
    have hcount := exchange_countP hx q
    omega
  · rw [others_requests hx hv]

section Single

variable {own : ℤ → Option (Fin n)} {v : Fin n} {r : Req n} {fd : ℤ}

theorem Single.of_pos (hs : s.Single own) (h : 0 < (s.worker v).requests.countP (·.on fd)) :
    (∃ p, s.shared.conns fd = some p) ∧ own fd = some v := by
  rw [hs] at h
  split at h
  · rename_i hlive
    exact ⟨Option.isSome_iff_exists.mp hlive.1, hlive.2⟩
  · exact absurd h (Nat.lt_irrefl 0)

theorem Single.of_mem (hs : s.Single own) (hr : r ∈ (s.worker v).requests)
    (hon : r.on fd = true) : (∃ p, s.shared.conns fd = some p) ∧ own fd = some v :=
  hs.of_pos (List.countP_pos_iff.mpr ⟨r, hr, hon⟩)

theorem Single.countP_le (hs : s.Single own) (v : Fin n) (fd : ℤ) :
    (s.worker v).requests.countP (·.on fd) ≤ 1 := by
  rw [hs]
  split
  · exact Nat.le_refl 1
  · exact Nat.zero_le 1

theorem Single.count_le (hs : s.Single own) (v : Fin n) (hon : r.on fd = true) :
    (s.worker v).requests.count r ≤ 1 := by
  refine Nat.le_trans ?_ (hs.countP_le v fd)
  rw [List.count_eq_countP]
  refine List.countP_mono_left ?_
  intro x _ hx
  rw [eq_of_beq hx]
  exact hon

/-- The request that is queued for a connection takes the place of the one that is handled. -/
theorem Single.eq_of_rearmed (hs : s.Single own) {info req : Req n}
    (hx : Exchange w [info] [req] s s') (hmem : info ∈ (s.worker w).requests)
    (hinfo : info.on fd = true) (hr : r ∈ (s'.worker w).requests) (hon : r.on fd = true) :
    r = req := by
  by_contra hne
  have hcount := hx.requests.count_eq r
  have hpos := List.count_pos_iff.mpr hr
  have hnew : [req].count r = 0 := List.count_eq_zero.mpr (fun h => hne (List.mem_singleton.mp h))
  rw [List.count_append, List.count_append, hnew] at hcount
  by_cases hri : r = info
  · subst hri
    have hle := hs.count_le w hon
    rw [List.count_singleton_self] at hcount
    omega
  · have hle := count_add_count_le (q := (·.on fd)) hri hon hinfo (s.worker w).requests
    have hone := hs.countP_le w fd
    have hinfo := List.count_pos_iff.mpr hmem
    omega

end Single

theorem Tended.rearmed_transfers (hs : s.Tended msgSize tr) {info r : Req n} {fd : ℤ}
    (hx : Exchange w [info] [r] s s') (hinfo : info.on fd = true) (hr : r.on fd = true)
    (hconns : s'.shared.conns = s.shared.conns) (v : Fin n) (g : ℤ) :
    (s'.worker v).requests.countP (·.on g) =
      if (s'.shared.conns g).isSome ∧ owner tr g = some v then 1 else 0 := by
  rw [hconns, ← hs.transfers]
  refine countP_same hx ?_ v
  rw [List.countP_singleton, List.countP_singleton, Req.on_congr hinfo hr]

theorem Tended.closed_transfers (hs : s.Tended msgSize tr) {info : Req n} {fd : ℤ}
    (hx : Exchange w [info] [] s s') (hinfo : info.on fd = true)
    (hconns : s'.shared.conns = Function.update s.shared.conns fd none) (v : Fin n) (g : ℤ) :
    (s'.worker v).requests.countP (·.on g) =
      if (s'.shared.conns g).isSome ∧ owner tr g = some v then 1 else 0 := by
  rw [hconns]
  by_cases hg : g = fd
  · subst hg
    rw [Function.update_self, if_neg (fun h => Bool.false_ne_true h.1)]
    have hold := hs.transfers v g
    by_cases hv : v = w
    · subst hv
      have hcount := exchange_countP hx (·.on g)
      rw [List.countP_singleton, if_pos hinfo, List.countP_nil] at hcount
      split at hold <;> omega
    · have hmem : info ∈ (s.worker w).requests := by
        have hmem := hx.requests.mem_iff.mp (List.mem_append_left _ List.mem_cons_self)
        rwa [List.append_nil] at hmem
      have howner := (hs.transfers.of_mem hmem hinfo).2
      rw [others_requests hx hv, hold, if_neg]
      rintro ⟨-, hother⟩
      exact hv (Option.some.inj (hother.symm.trans howner))
  · rw [Function.update_of_ne hg, ← hs.transfers]
    refine countP_same hx ?_ v
    rw [List.countP_singleton, List.countP_nil, if_neg]
    exact fun hon => hg (Req.on_inj hon hinfo)

theorem Tended.installed_transfers (hs : s.Tended msgSize tr) {fd : ℤ} {r after : Req n}
    (hx : Exchange w [] [r, after] s s') (hr : r.on fd = true) (hafter : ¬ after.Sock)
    (hnone : s.shared.conns fd = none) {p : ℕ}
    (hconns : s'.shared.conns = Function.update s.shared.conns fd (some p)) (v : Fin n) (g : ℤ) :
    (s'.worker v).requests.countP (·.on g) =
      if (s'.shared.conns g).isSome ∧ (if fd = g then some w else owner tr g) = some v then 1
      else 0 := by
  have hcount := exchange_countP hx (·.on g)
  have hlast : after.on g = false := Req.on_eq_false hafter g
  simp only [List.countP_cons, List.countP_nil, hlast, Bool.false_eq_true, if_false] at hcount
  have hold := hs.transfers v g
  rw [hconns]
  by_cases hg : g = fd
  · subst hg
    rw [hnone, if_neg (fun h => Bool.false_ne_true h.1)] at hold
    rw [Function.update_self, if_pos rfl]
    by_cases hv : v = w
    · subst hv
      rw [if_pos hr] at hcount
      rw [if_pos ⟨rfl, rfl⟩]
      omega
    · rw [others_requests hx hv, hold, if_neg]
      rintro ⟨-, hother⟩
      exact hv (Option.some.inj hother).symm
  · rw [Function.update_of_ne hg, if_neg (Ne.symm hg), ← hold]
    refine countP_same hx ?_ v
    have hfirst : ¬ r.on g = true := fun hon => hg (Req.on_inj hon hr)
    simp only [List.countP_cons, List.countP_nil, hlast, hfirst, Bool.false_eq_true, if_false]

theorem Tended.transfers_step (hs : s.Tended msgSize tr) (hp : s.Placed)
    (hx : Exchange w gone new s s') (hd : Deed msgSize w gone new s s' o) (a : Attempt n)
    (v : Fin n) (g : ℤ) : (s'.worker v).requests.countP (·.on g) =
      if (s'.shared.conns g).isSome ∧ owner (tr ++ [(a, o)]) g = some v then 1 else 0 := by
  rw [owner_snoc]
  cases hd with
  | plain hnone hconns hconn hnext hfree howner =>
      rw [howner, hconns, ← hs.transfers]
      have hzero : ∀ l : List (Req n), (∀ r ∈ l, r ∈ gone ++ new) → l.countP (·.on g) = 0 := by
        intro l hl
        refine List.countP_eq_zero.mpr ?_
        intro r hr
        rw [Req.on_eq_false (hnone r (hl r hr))]
        exact Bool.false_ne_true
      refine countP_same hx ?_ v
      rw [hzero gone fun r => List.mem_append_left new, hzero new fun r => List.mem_append_right gone]
  | rearmed hgone hnew hmem hinfo hlive hfd hbuffer hrest hcursor hshared hfree =>
      subst hgone hnew
      have hr := hrest.on
      rw [hfd, hp.live hlive] at hr
      have hconns := congrArg Table.conns hshared
      exact hs.rearmed_transfers hx hinfo hr hconns v g
  | closed hgone hnew hinfo hlive hshared hfree =>
      subst hgone hnew
      rw [hp.live hlive] at hshared
      exact hs.closed_transfers hx hinfo (congrArg Table.conns hshared) v g
  | installed hgone hnew hafter hholds hmid hbuf hshared hfree =>
      subst hgone hnew
      exact hs.installed_transfers hx (decide_eq_true rfl) hafter (hp.vacant hholds)
        (congrArg Table.conns hshared) v g

/-! ### Each request is for its own connection -/

theorem mem_requests_of_cq {me : Worker n} {info : Req n} {res : ℤ} (h : ⟨info, res⟩ ∈ me.cq) :
    info ∈ me.requests :=
  List.mem_append_right _ (List.mem_map_of_mem (f := fun c : Cqe n => c.info) h)

theorem Tended.rest_step (hs : s.Tended msgSize tr) (hp : s.Placed) (hp' : s'.Placed)
    (hx : Exchange w gone new s s') (hd : Deed msgSize w gone new s s' o)
    {own : ℤ → Option (Fin n)} (hsingle : s'.Single own) (v : Fin n) :
    ∀ r ∈ (s'.worker v).requests, ∀ g q, r.on g = true → s'.shared.conns g = some q →
      r.Rest msgSize (s'.shared.conn q) := by
  intro r hr g q hon hq
  cases hd with
  | plain hnone hconns hconn hnext hfree howner =>
      rw [hconns] at hq
      rw [hconn]
      rcases exchange_mem hx hr with hold | ⟨-, hnew⟩
      · exact hs.rest v r hold g q hon hq
      · exact absurd (Req.sock_of_on hon) (hnone r (List.mem_append_right gone hnew))
  | @rearmed info fd p c req res hgone hnew hmem hinfo hlive hfd hbuffer hrest hcursor hshared
      hfree =>
      subst hgone hnew
      have hmem := mem_requests_of_cq hmem
      have hreq := hrest.on
      rw [hfd, hp.live hlive] at hreq
      rw [hshared] at hq ⊢
      have hq : s.shared.conns g = some q := hq
      by_cases hg : g = fd
      · subst hg
        cases hlive.symm.trans hq
        have hcount := exchange_countP hx (·.on g)
        have hpos : 0 < (s.worker w).requests.countP (·.on g) :=
          List.countP_pos_iff.mpr ⟨info, hmem, hinfo⟩
        rw [List.countP_singleton, List.countP_singleton, if_pos hinfo, if_pos hreq] at hcount
        have hw : own g = some w := (hsingle.of_pos (by omega)).2
        have hv := (hsingle.of_mem hr hon).2
        cases hw.symm.trans hv
        rw [hs.transfers.eq_of_rearmed hx hmem hinfo hr hon]
        simp only [Table.setConn, Function.update_self]
        exact hrest
      · have hne : q ≠ p := by
          rintro rfl
          exact hg (hp.single hq hlive)
        simp only [Table.setConn, Function.update_of_ne hne]
        rcases exchange_mem hx hr with hold | ⟨-, hnew⟩
        · exact hs.rest v r hold g q hon hq
        · rw [List.mem_singleton.mp hnew] at hon
          exact absurd (Req.on_inj hon hreq) hg
  | @closed info fd p hgone hnew hinfo hlive hshared hfree =>
      subst hgone hnew
      rw [hp.live hlive] at hshared
      rw [hshared] at hq ⊢
      obtain ⟨-, hq⟩ := Table.conns_close hq
      rcases exchange_mem hx hr with hold | ⟨-, hnew⟩
      · exact hs.rest v r hold g q hon hq
      · cases hnew
  | @installed fd p after mid buf hgone hnew hafter hholds hmid hbuf hshared hfree =>
      subst hgone hnew
      have hsingle := @hp'.single
      rw [hshared] at hq hsingle ⊢
      rcases exchange_mem hx hr with hold | ⟨-, hnew⟩
      · have hlive := (hs.transfers.of_mem hold hon).1
        have hg : g ≠ fd := by
          rintro rfl
          obtain ⟨p', hp'⟩ := hlive
          cases (hp.vacant hholds).symm.trans hp'
        have hne : q ≠ p := by
          rintro rfl
          exact hg (hsingle hq Table.conns_install_self)
        rw [Table.conns_install_ne hg] at hq
        simp only [Table.install, Function.update_of_ne hne]
        exact hs.rest v r hold g q hon hq
      · rcases List.mem_pair.mp hnew with rfl | rfl
        · have hg : fd = g := of_decide_eq_true hon
          subst hg
          have hqp : p = q := Option.some.inj (Table.conns_install_self.symm.trans hq)
          subst hqp
          simp only [Table.install, Function.update_self]
          exact .inl rfl
        · exact absurd (Req.sock_of_on hon) hafter

/-! ### Transfers stay in the buffer -/

theorem Tended.cursor_step (hs : s.Tended msgSize tr) (hp' : s'.Placed)
    (hd : Deed msgSize w gone new s s' o) (g : ℤ) (q : ℕ) (hq : s'.shared.conns g = some q) :
    (s'.shared.conn q).cursor ≤ msgSize := by
  cases hd with
  | plain hnone hconns hconn hnext hfree howner =>
      rw [hconns] at hq
      rw [hconn]
      exact hs.cursor g q hq
  | @rearmed info fd p c req res hgone hnew hmem hinfo hlive hfd hbuffer hrest hcursor hshared
      hfree =>
      rw [hshared] at hq ⊢
      by_cases hqp : q = p
      · subst hqp
        simp only [Table.setConn, Function.update_self]
        have hold := hs.cursor fd q hlive
        have hres := hs.answered w _ hmem (Req.sock_of_on hinfo)
        have hlen := (hs.rest w info (mem_requests_of_cq hmem) fd q hinfo hlive).len
        refine hcursor ?_
        simp only at hres
        omega
      · simp only [Table.setConn, Function.update_of_ne hqp]
        exact hs.cursor g q hq
  | @closed info fd p hgone hnew hinfo hlive hshared hfree =>
      rw [hshared] at hq ⊢
      exact hs.cursor g q (Table.conns_close hq).2
  | @installed fd p after mid buf hgone hnew hafter hholds hmid hbuf hshared hfree =>
      have hsingle := @hp'.single
      rw [hshared] at hq hsingle ⊢
      by_cases hqp : q = p
      · subst hqp
        simp only [Table.install, Function.update_self]
        exact Nat.zero_le msgSize
      · have hg : g ≠ fd := by
          rintro rfl
          exact hqp (Option.some.inj (Table.conns_install_self.symm.trans hq)).symm
        rw [Table.conns_install_ne hg] at hq
        simp only [Table.install, Function.update_of_ne hqp]
        exact hs.cursor g q hq

/-! ### Buffers -/

theorem Tended.buffers_step (hs : s.Tended msgSize tr) (hp : s.Placed) (hp' : s'.Placed)
    (hd : Deed msgSize w gone new s s' o) :
    Separated s'.msgFree (Buffered s'.shared) s'.shared.next := by
  cases hd with
  | plain hnone hconns hconn hnext hfree howner =>
      have hbuffered : Buffered s'.shared = Buffered s.shared := by
        funext g b
        rw [Buffered, Buffered, hconns, hconn]
      rw [hfree, hbuffered, hnext]
      exact hs.buffers
  | @rearmed info fd p c req res hgone hnew hmem hinfo hlive hfd hbuffer hrest hcursor hshared
      hfree =>
      rw [hfree, hshared]
      refine hs.buffers.mono (fun _ => rfl) ?_
      rintro g b ⟨q, hq, hb⟩
      refine ⟨q, hq, ?_⟩
      by_cases hqp : q = p
      · subst hqp
        simp only [Table.setConn, Function.update_self, hbuffer] at hb
        exact hb
      · simp only [Table.setConn, Function.update_of_ne hqp] at hb
        exact hb
  | @closed info fd p hgone hnew hinfo hlive hshared hfree =>
      rw [hp.live hlive] at hshared
      rw [hshared]
      refine hs.buffers.give (k := fd) ⟨p, hlive, rfl⟩ hfree ?_
      rintro g b ⟨q, hq, hb⟩
      obtain ⟨hg, hq⟩ := Table.conns_close hq
      refine ⟨⟨q, hq, hb⟩, ?_⟩
      rintro rfl
      exact hg (hs.buffers.single ⟨q, hq, hb⟩ ⟨p, hlive, rfl⟩)
  | @installed fd p after mid buf hgone hnew hafter hholds hmid hbuf hshared hfree =>
      have hsingle := @hp'.single
      rw [hshared] at hsingle ⊢
      rw [hbuf] at hfree ⊢
      refine cacheAlloc_take (hs.buffers.grow hmid) fd hfree ?_
      rintro g b ⟨q, hq, hb⟩
      by_cases hqp : q = p
      · subst hqp
        have hg : g = fd := hsingle hq Table.conns_install_self
        simp only [Table.install, Function.update_self] at hb
        exact .inr ⟨hg, hb.symm⟩
      · have hg : g ≠ fd := by
          rintro rfl
          exact hqp (Option.some.inj (Table.conns_install_self.symm.trans hq)).symm
        rw [Table.conns_install_ne hg] at hq
        simp only [Table.install, Function.update_of_ne hqp] at hb
        exact .inl ⟨q, hq, hb⟩

/-! ### Runs -/

theorem Tended.attempt (hs : s.Tended msgSize tr) (hp : s.Placed) (hp' : s'.Placed)
    {a : Attempt n} (h : s.attempt msgSize a = some (s', o)) :
    s'.Tended msgSize (tr ++ [(a, o)]) := by
  obtain ⟨gone, new, hx, hd⟩ := attempt_turn h
  have htransfers : s'.Single (owner (tr ++ [(a, o)])) := hs.transfers_step hp hx hd a
  exact {
    accepts := hs.accepts_step hx
    transfers := htransfers
    rest := hs.rest_step hp hp' hx hd htransfers
    cursor := hs.cursor_step hp' hd
    answered := hs.answered_step hx
    buffers := hs.buffers_step hp hp' hd }

theorem Start.tended (h : s.Start) (hcached : ∀ b, s.msgFree b ≤ 1)
    (hfresh : ∀ b, s.shared.next ≤ b → s.msgFree b = 0) : s.Tended msgSize [] := by
  have hrequests : ∀ v, (s.worker v).requests = [.accept, .evRead] := by
    intro v
    rw [Worker.requests, h.sq, h.kernel, h.cq]
    rfl
  have hnone : ∀ fd p, s.shared.conns fd ≠ some p := by
    intro fd p hp
    cases (h.conns fd).symm.trans hp
  refine ⟨?_, ?_, ?_, ?_, ?_, ?_⟩
  · intro v
    rw [hrequests, h.pc]
    rfl
  · intro v fd
    rw [hrequests, h.conns, if_neg (fun hlive => Bool.false_ne_true hlive.1)]
    rfl
  · intro v r _ fd p _ hp
    exact absurd hp (hnone fd p)
  · intro fd p hp
    exact absurd hp (hnone fd p)
  · intro v c hc
    rw [h.cq] at hc
    cases hc
  · exact {
      once := hcached
      unowned := fun ho => ho.elim fun p hp => absurd hp.1 (hnone _ p)
      single := fun ho => ho.elim fun p hp => absurd hp.1 (hnone _ p)
      fresh := fun hb => ⟨hfresh _ hb, fun fd ho => ho.elim fun p hp => hnone fd p hp.1⟩ }

end Server

end Upcalls.IoUring
