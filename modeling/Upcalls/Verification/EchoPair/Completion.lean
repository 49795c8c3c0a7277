import Upcalls.Verification.EchoPair.Rank

/-! # The client completes its transactions

As long as the calls answer as they do on connections that work, a client and its server are
never both without anything to do, and what they have to do falls with every step.
-/

namespace Upcalls.EchoPair

open Library TcpClient UpcallEcho

variable {o : Options} {M : List UInt8} {s s' : Pair} {seen : Output} {c r : ℕ}

namespace Pair

/-- A registered client is reported when it is connected or has bytes to receive, `send` takes
a byte at least and `recv` hands over what there is. -/
def responsive (s : Pair) : EchoPair.Input → Bool
  | .connect (.ready _) _ _ _ => false
  | .client .timeout => false
  | .client (.wait _) =>
      match s.link with
      | some l => (only s.client).state = .connecting ∨ l.toClient ≠ []
      | none => false
  | .client (.send (some k)) => k ≠ 0
  | .client (.recv .again) =>
      match s.link with
      | some l => l.toClient = []
      | none => false
  | _ => true

def linkRank (m : ℕ) (link : Option Link) : ℕ := link.elim 0 (Link.rank m)

def rank (o : Options) (s : Pair) : ℕ := workRank s.client + linkRank o.msgSize s.link

/-- All transactions are done. -/
structure Final (o : Options) (s : Pair) : Prop where
  exited : s.client.pc = .exited
  done : (s.client.clients 0).state = .done
  complete : s.client.complete = o.transactionCount
  link : s.link = none

end Pair

/-! ## The client in the pair -/

theorem call_inv {a : TcpClient.Input} (halive : s.client.dying = false)
    (h : s.call o a = some (s', seen)) :
    ∃ client out link shown, Worker.Stepped o s.client a client out ∧
      s.client.step o a = some (client, out) ∧ s.transfer a = some (link, shown) ∧
      s' = ⟨client, if Pair.closes out then none else link⟩ ∧
      seen = { shown with completed := Pair.completes out } := by
  simp only [Pair.call, Option.bind_eq_bind, Option.bind_eq_some_iff] at h
  obtain ⟨⟨client, out⟩, hclient, ⟨link, shown⟩, htransfer, hpair⟩ := h
  cases hpair
  have hdying : client.dying = false := (dying_of_transfer htransfer hclient).trans halive
  exact ⟨client, out, link, shown, Worker.step_spec hclient hdying, hclient, htransfer, rfl, rfl⟩

/-- In a run of its own, the client has taken the same steps. -/
structure Steps (o : Options) (s : Worker 1) : Prop where
  reached : ∃ tr, (worker 1 o).Reaches tr s ∧ ∀ x ∈ tr, x.1.atOnce = false

theorem Steps.snoc {w w' : Worker 1} {a : TcpClient.Input} {out : TcpClient.Output 1}
    (h : Steps o w) (hstep : w.step o a = some (w', out)) (ha : a.atOnce = false) :
    Steps o w' := by
  obtain ⟨tr, hreach, hlater⟩ := h.reached
  refine ⟨tr ++ [(a, out)], hreach.step hstep, ?_⟩
  intro x hx
  rcases List.mem_append.mp hx with hx | hx
  · exact hlater x hx
  · rw [List.mem_singleton.mp hx]
    exact ha

theorem Steps.finished {w : Worker 1} (h : Steps o w) (hdying : w.dying = false)
    (hb : 1 ≤ o.batchSize) (ht : 1 ≤ o.transactionCount) :
    w.complete + w.pc.count = o.transactionCount - (w.clients 0).txnRemaining := by
  obtain ⟨tr, hreach, -⟩ := h.reached
  have hfit : o.transactionCount * 1 < 2 ^ 64 := by
    rw [Nat.mul_one]
    exact o.transactionCount_lt
  have hcomplete := Worker.reaches_complete hreach hdying hb ht hfit
  rw [Worker.finished, Fin.sum_univ_one] at hcomplete
  exact hcomplete

theorem Steps.steady (h : Steps o s.client) (hholds : Holds M s c r) (hb : 1 ≤ o.batchSize)
    (ht : 1 ≤ o.transactionCount) : Steady o s.client := by
  have halive := hholds.alive
  obtain ⟨tr, hreach, hlater⟩ := h.reached
  have hinv := (Worker.reaches_inv hreach halive).1
  obtain ⟨l, hl⟩ := Worker.reaches_known hreach halive hb ht 0
  have hle := hl.lives.le
  have hlt := o.transactionCount_lt
  refine ⟨hinv, ?_, hl.lives.pos, by omega, ?_⟩
  · intro hpc
    have hcomplete := h.finished halive hb ht
    rw [hpc] at hcomplete
    have hcount : s.client.complete = o.transactionCount - (s.client.clients 0).txnRemaining :=
      hcomplete
    rw [← hl.lives.left, Worker.goesOn, halive, Worker.total, Nat.mul_one, Nat.mod_eq_of_lt hlt]
    simp only [Bool.not_false, Bool.true_and, decide_eq_false_iff_not]
    omega
  · intro j count cursor hstate hpc
    cases hholds.exchange with
    | apart _ happart =>
        have hno := happart.state
        rw [hstate] at hno
        simp at hno
    | joined _ hat _ =>
        have hreceived := hat.receiving_inv hstate hpc
        have hroom := (hat.sent_inv hstate).2
        rw [hholds.keeps.bufSize]
        omega

/-! ## What holds of every state -/

structure Proper (o : Options) (M : List UInt8) (s : Pair) : Prop where
  holds : ∃ c r, Holds M s c r
  steps : Steps o s.client
  poised : Poised s.client
  told : Told s.client → ∃ l, s.link = some l ∧ l.toClient ≠ []

theorem Proper.steady (h : Proper o M s) (hb : 1 ≤ o.batchSize) (ht : 1 ≤ o.transactionCount) :
    Steady o s.client := by
  obtain ⟨c, r, hholds⟩ := h.holds
  exact h.steps.steady hholds hb ht

theorem proper_start (h : (echoPair o).Init s) (hfree : ∃ fd, 0 ≤ fd ∧ s.client.opened fd = false) :
    Proper o (s.client.clients 0).buf s := by
  obtain ⟨hstart, hlink⟩ := h
  obtain ⟨buf, -, hclient⟩ := hstart.clients 0
  have hstate : (s.client.clients 0).state = .init := by rw [hclient]
  refine ⟨⟨0, 0, (holds_start ⟨hstart, hlink⟩).2⟩, ⟨[], .init hstart, ?_⟩,
    ⟨?_, ?_, fun _ => hfree⟩, ?_⟩
  · exact List.forall_mem_nil _
  · intro hexited
    cases hstart.pc.symm.trans hexited
  · intro hlive
    rw [hstate] at hlive
    cases hlive
  · rintro ⟨hsent, -⟩
    cases hstate.symm.trans hsent

/-- The answers that `responsive` allows have something to say. -/
theorem Proper.answers (h : Proper o M s) (hs : Steady o s.client) {a : TcpClient.Input}
    {client : Worker 1} {out : TcpClient.Output 1} {x : Option Link × Output}
    (hstep : Worker.Stepped o s.client a client out) (htransfer : s.transfer a = some x)
    (hok : s.responsive (.client a) = true) : Answers s.client a := by
  obtain ⟨c, r, hholds⟩ := h.holds
  refine ⟨?_, ?_, ?_, ?_, ?_, ?_⟩
  · rintro rfl
    cases hok
  · cases a with
    | connect a => cases htransfer
    | _ => rfl
  · rintro fds rfl
    cases hstep with
    | waited hpc htodo =>
        cases hholds.exchange with
        | apart hnone =>
            rw [Pair.responsive, hnone] at hok
            cases hok
        | joined _ hat =>
            have hplaced := hs.inv.placed 0
            simp only [Worker.Placed, hpc, Pc.client] at hplaced
            cases hstate : (s.client.clients 0).state with
            | connecting => exact .inl rfl
            | sent => exact .inr rfl
            | init => exact (hat.connected.1 hstate).elim
            | done => exact (hat.connected.2 hstate).elim
            | new | ready =>
                rw [hstate] at hplaced
                cases hplaced.2
  · rintro rfl
    cases hok
  · rintro rfl
    simp only [Pair.transfer] at htransfer
    split at htransfer
    · split at htransfer
      · rename_i hbytes
        exact (hbytes.1 rfl).elim
      · cases htransfer
    · cases htransfer
  · rintro rfl j count cursor hpc rfl
    obtain ⟨l, hl, hne⟩ := h.told ⟨recv_state hstep, .inr ⟨j, count, hpc⟩⟩
    simp only [Pair.responsive, hl, decide_eq_true_eq] at hok
    exact hne hok

/-! ## One step -/

/-- The bytes on their way, with what a call has moved. -/
theorem transfer_rank {a : TcpClient.Input} {m : ℕ} {link : Option Link}
    (h : s.transfer a = some (link, seen)) :
    Pair.linkRank m link + 4 * receivedBytes a ≤ Pair.linkRank m s.link + 8 * sentBytes a := by
  unfold Pair.transfer at h
  split at h
  case h_7 =>
    split at h
    · rename_i l hpc hl
      cases h
      simp only [Pair.linkRank, hl, Option.elim_some, Link.rank, Link.load, receivedBytes,
        sentBytes, List.length_append, List.length_take]
      omega
    · cases h
  case h_8 =>
    split at h
    · rename_i l hl
      split at h
      · rename_i hbytes
        cases h
        have hle := hbytes.2.length_le
        simp only [Pair.linkRank, hl, Option.elim_some, Link.rank, Link.load, receivedBytes,
          sentBytes, List.length_drop]
        omega
      · cases h
    · cases h
  case h_9 => cases h
  all_goals
    cases h
    exact Nat.le_refl _

theorem call_proper (hM : 1 ≤ M.length) (hb : 1 ≤ o.batchSize) (ht : 1 ≤ o.transactionCount)
    {a : TcpClient.Input} (h : Proper o M s) (hcall : s.call o a = some (s', seen))
    (hok : s.responsive (.client a) = true) : Proper o M s' ∧ s'.rank o < s.rank o := by
  have hs := h.steady hb ht
  obtain ⟨c, r, hholds⟩ := h.holds
  obtain ⟨c', r', -, hnext⟩ := call_moves hM hholds hcall
  obtain ⟨client, out, link, shown, hstep, hclient, htransfer, rfl, -⟩ :=
    call_inv hholds.alive hcall
  have hanswers := h.answers hs hstep htransfer hok
  refine ⟨⟨⟨c', r', hnext⟩, h.steps.snoc hclient hanswers.later,
    stepped_poised hstep hs hanswers.inTime h.poised, ?_⟩, ?_⟩
  · intro htold
    rcases stepped_told hstep hs hanswers htold with ⟨hbefore, rfl⟩ | ⟨hsent, fds, rfl⟩
    · obtain ⟨t, -, hpair⟩ := Option.map_eq_some_iff.mp hclient
      cases hpair
      cases htransfer
      exact h.told hbefore
    · obtain ⟨t, -, hpair⟩ := Option.map_eq_some_iff.mp hclient
      cases hpair
      cases htransfer
      simp only [Pair.responsive] at hok
      split at hok
      · rename_i l hl
        simp only [only, hsent, decide_eq_true_eq] at hok
        exact ⟨l, hl, hok.resolve_left State.noConfusion⟩
      · cases hok
  · have hwork := stepped_rank hstep hs hanswers
    have hlink := transfer_rank (m := o.msgSize) htransfer
    simp only [Pair.rank]
    split
    · have hnone : Pair.linkRank o.msgSize none = 0 := rfl
      omega
    · omega

theorem connect_proper (hM : 1 ≤ M.length) (hsize : M.length = o.msgSize) (hb : 1 ≤ o.batchSize)
    (ht : 1 ≤ o.transactionCount) {a : Opened} {fd : ℤ} {block : ℕ} {buffer : List UInt8}
    (h : Proper o M s) (hconnect : s.connect o a fd block buffer = some (s', seen))
    (hok : s.responsive (.connect a fd block buffer) = true) :
    Proper o M s' ∧ s'.rank o < s.rank o := by
  have hs := h.steady hb ht
  obtain ⟨c, r, hholds⟩ := h.holds
  obtain ⟨-, hnext⟩ := connect_moves hM hsize hholds hconnect
  obtain ⟨client, out, hclient, hjoins, -, -, -, rfl⟩ := connect_inv hconnect
  have hstep := Worker.step_spec hclient hnext.alive
  have hlater : (TcpClient.Input.connect a).atOnce = false := by
    cases a with
    | ready => cases hok
    | _ => rfl
  have hanswers : Answers s.client (.connect a) := by
    refine ⟨?_, hlater, ?_, ?_, ?_, ?_⟩
    · exact TcpClient.Input.noConfusion
    · intro fds hwait
      cases hwait
    · exact TcpClient.Input.noConfusion
    · exact TcpClient.Input.noConfusion
    · intro hagain
      cases hagain
  refine ⟨⟨⟨0, 0, hnext⟩, h.steps.snoc hclient hlater,
    stepped_poised hstep hs hanswers.inTime h.poised, ?_⟩, ?_⟩
  · intro htold
    rcases stepped_told hstep hs hanswers htold with ⟨-, hrun⟩ | ⟨-, fds, hwait⟩
    · cases hrun
    · cases hwait
  · have hwork := stepped_rank hstep hs hanswers
    simp only [Pair.rank, Pair.linkRank, Option.elim_some]
    simp only [sentBytes, receivedBytes] at hwork
    have hnew : (Link.accepted fd block buffer).rank o.msgSize = 0 := rfl
    omega

theorem step_proper (hM : 1 ≤ M.length) (hsize : M.length = o.msgSize) (hb : 1 ≤ o.batchSize)
    (ht : 1 ≤ o.transactionCount) {a : EchoPair.Input} (h : Proper o M s)
    (hstep : s.step o a = some (s', seen)) (hok : s.responsive a = true) :
    Proper o M s' ∧ s'.rank o < s.rank o := by
  have hserver : ∀ {l l' : Link}, s.link = some l →
      (∀ {c r}, l.Carries M c r → l'.Carries M c r ∧ l'.rank M.length < l.rank M.length ∧
        l.toClient <+: l'.toClient) →
      Proper o M { s with link := some l' } ∧
        Pair.rank o { s with link := some l' } < s.rank o := by
    intro l l' hl hnext
    obtain ⟨c, r, hholds⟩ := h.holds
    cases hholds.exchange with
    | apart hnone =>
        rw [hl] at hnone
        cases hnone
    | joined hsome hat hcarries =>
        cases hl.symm.trans hsome
        obtain ⟨hcarries', hrank, hprefix⟩ := hnext hcarries
        refine ⟨⟨⟨c, r, hholds.alive, hholds.keeps, .joined rfl hat hcarries'⟩, h.steps,
          h.poised, ?_⟩, ?_⟩
        · intro htold
          obtain ⟨l₀, hl₀, hne⟩ := h.told htold
          cases hl.symm.trans hl₀
          exact ⟨l', rfl, fun hnil => hne (List.prefix_nil.mp (hnil ▸ hprefix))⟩
        · simp only [Pair.rank, Pair.linkRank, hl, Option.elim_some, ← hsize]
          omega
  cases a with
  | client a => exact call_proper hM hb ht h hstep hok
  | connect a fd block buffer => exact connect_proper hM hsize hb ht h hstep hok
  | kernel i k buf len =>
      simp only [Pair.step, Option.bind_eq_bind, Option.bind_eq_some_iff] at hstep
      obtain ⟨l, hl, l', hl', hpair⟩ := hstep
      cases hpair
      exact hserver hl fun hcarries => ⟨Link.kernel_carries hcarries hl',
        Link.kernel_rank hcarries hl', Link.kernel_toClient hl'⟩
  | dispatch =>
      simp only [Pair.step, Option.bind_eq_bind, Option.bind_eq_some_iff] at hstep
      obtain ⟨l, hl, l', hl', hpair⟩ := hstep
      cases hpair
      rw [← hsize] at hl'
      refine hserver hl fun hcarries => ⟨Link.dispatch_carries hcarries hl',
        Link.dispatch_rank hcarries hl', ?_⟩
      rw [(Link.dispatch_loads hcarries hl').2.1]

/-! ## Something to do -/

section Moves

variable {s : Pair}

theorem Proper.done (h : Proper o M s) (hb : 1 ≤ o.batchSize) (ht : 1 ≤ o.transactionCount)
    (hexited : s.client.pc = .exited) : s.Final o := by
  obtain ⟨c, r, hholds⟩ := h.holds
  have hdone := h.poised.exited hexited
  obtain ⟨tr, hreach, -⟩ := h.steps.reached
  obtain ⟨l, hl⟩ := Worker.reaches_known hreach hholds.alive hb ht 0
  have hzero := hl.lives.left.mpr hdone
  have hcomplete := h.steps.finished hholds.alive hb ht
  rw [hexited, hzero] at hcomplete
  refine ⟨hexited, hdone, hcomplete, ?_⟩
  cases hholds.exchange with
  | apart hnone => exact hnone
  | joined _ hat => exact (hat.connected.2 hdone).elim

theorem call_moves_on {a : TcpClient.Input} (hclient : (s.client.step o a).isSome)
    (htransfer : (s.transfer a).isSome) (hok : s.responsive (.client a) = true) :
    ∃ a t seen, ((echoPair o).guard Pair.responsive).step s a = some (t, seen) := by
  obtain ⟨⟨client, out⟩, hclient⟩ := Option.isSome_iff_exists.mp hclient
  obtain ⟨⟨link, shown⟩, htransfer⟩ := Option.isSome_iff_exists.mp htransfer
  refine ⟨.client a, ⟨client, if Pair.closes out then none else link⟩,
    { shown with completed := Pair.completes out }, Machine.guard_step.mpr ⟨hok, ?_⟩⟩
  simp only [echoPair, Pair.step, Pair.call, hclient, htransfer, Option.bind_eq_bind,
    Option.bind_some]
  rfl

/-- `epoll_wait` can report the client. -/
theorem wait_isSome (hpc : s.client.pc = .loop) (htodo : s.client.todo = [])
    (hgoes : s.client.goesOn o = true)
    (hready : s.client.ready? (s.client.clients 0).sock = some 0) :
    (s.client.step o (.wait [(s.client.clients 0).sock])).isSome := by
  have hreported : [(s.client.clients 0).sock].mapM s.client.ready? = some [0] := by
    rw [List.mapM_cons, hready]
    rfl
  simp only [Worker.step, Worker.epollWait, hpc, htodo, hreported]
  rw [if_pos ⟨hgoes, List.nodup_singleton _, Nat.le_refl 1, show 1 ≤ 20 by decide⟩]
  rfl

/-- The server goes on while the client waits for bytes. -/
theorem server_moves_on {l : Link} (hl : s.link = some l) (hcarries : l.Carries M M.length r)
    (hsize : M.length = o.msgSize) (hnil : l.toClient = []) :
    ∃ a t seen, ((echoPair o).guard Pair.responsive).step s a = some (t, seen) := by
  rcases hcarries.goes_on hnil with ⟨i, k, buf, len, hkernel⟩ | hdispatch
  · obtain ⟨l', hl'⟩ := Option.ne_none_iff_exists'.mp hkernel
    refine ⟨.kernel i k buf len, { s with link := some l' }, silent,
      Machine.guard_step.mpr ⟨rfl, ?_⟩⟩
    simp only [echoPair, Pair.step, hl, hl', Option.bind_eq_bind, Option.bind_some]
    rfl
  · obtain ⟨l', hl'⟩ := Option.ne_none_iff_exists'.mp hdispatch
    refine ⟨.dispatch, { s with link := some l' }, silent, Machine.guard_step.mpr ⟨rfl, ?_⟩⟩
    rw [hsize] at hl'
    simp only [echoPair, Pair.step, hl, hl', Option.bind_eq_bind, Option.bind_some]
    rfl

/-- In its loop the client goes on to what it has been told, or the server has bytes for it
or something to do. -/
theorem Proper.loop_moves (h : Proper o M s) (hs : Steady o s.client)
    (hsize : M.length = o.msgSize) (hpc : s.client.pc = .loop) :
    ∃ a t seen, ((echoPair o).guard Pair.responsive).step s a = some (t, seen) := by
  obtain ⟨c, r, hholds⟩ := h.holds
  obtain ⟨tr, hreach, hlater⟩ := h.steps.reached
  have hregistered := (Worker.registered_iff hreach hholds.alive hpc).mpr hlater
  cases htodo : s.client.todo with
  | cons j todo =>
      refine call_moves_on (a := .run) ?_ rfl rfl
      simp only [Worker.step, Worker.run, hpc, htodo]
      rfl
  | nil =>
      rcases hregistered.wakes 0 with hdone | hbusy | hready
      · refine call_moves_on (a := .run) ?_ rfl rfl
        have hgoes := (hs.left hpc).mpr hdone
        simp only [Worker.step, Worker.run, hpc, htodo, hgoes, Bool.false_eq_true, if_false]
        rfl
      · rw [htodo] at hbusy
        cases hbusy
      · obtain ⟨events, hinterest⟩ := Worker.ready?_eq hready
        have hlive := (hs.inv.owned hinterest).live
        cases hholds.exchange with
        | apart _ happart =>
            rcases happart.state with hstate | hstate
            · rw [hstate] at hlive
              cases hlive
            · rw [hstate] at hlive
              cases hlive
        | @joined l c r hl hat hcarries =>
            have hgoes : s.client.goesOn o = true := by
              rw [← Bool.not_eq_false, hs.left hpc]
              exact hat.connected.2
            have hwait := wait_isSome hpc htodo hgoes hready
            by_cases hbytes : (s.client.clients 0).state = .connecting ∨ l.toClient ≠ []
            · refine call_moves_on hwait rfl ?_
              simp only [Pair.responsive, hl]
              exact decide_eq_true hbytes
            · obtain ⟨hnot, hnil⟩ := not_or.mp hbytes
              have hsent : (s.client.clients 0).state = .sent := by
                have hplaced := hs.inv.placed 0
                simp only [Worker.Placed, hpc, Pc.client] at hplaced
                cases hstate : (s.client.clients 0).state with
                | sent => rfl
                | connecting => exact (hnot hstate).elim
                | init => exact (hat.connected.1 hstate).elim
                | done => exact (hat.connected.2 hstate).elim
                | new | ready =>
                    rw [hstate] at hplaced
                    cases hplaced.2
              obtain ⟨rfl, -⟩ := hat.sent_inv hsent
              exact server_moves_on hl hcarries hsize (not_not.mp hnil)

/-- A call of the client has an answer that lets it go on. -/
theorem Proper.call_moves (h : Proper o M s) (hs : Steady o s.client)
    {j : Fin 1} {count cursor : ℕ} (hpc : s.client.pc = .call j count cursor) :
    ∃ a t seen, ((echoPair o).guard Pair.responsive).step s a = some (t, seen) := by
  obtain ⟨c, r, hholds⟩ := h.holds
  obtain rfl := Subsingleton.elim j 0
  cases hstate : (s.client.clients 0).state with
  | init =>
      obtain ⟨fd, hpos, hfd⟩ := h.poised.free (by rw [hstate]; rfl)
      have hclient : (s.client.step o (.connect (.inProgress fd true))).isSome := by
        simp only [Worker.step, Worker.doStateTransition, hpc, hstate, Worker.init, hpos, hfd,
          and_self, decide_true, if_true]
        rfl
      obtain ⟨⟨client, out⟩, hclient⟩ := Option.isSome_iff_exists.mp hclient
      let buffer : List UInt8 := List.replicate o.msgSize 0
      refine ⟨.connect (.inProgress fd true) 0 0 buffer, ⟨client, some (.accepted 0 0 buffer)⟩,
        silent, Machine.guard_step.mpr ⟨rfl, ?_⟩⟩
      simp only [echoPair, Pair.step, Pair.connect, hclient, Option.bind_eq_bind, Option.bind_some]
      rw [if_pos ⟨Int.le_refl 0, List.length_replicate⟩]
      rfl
  | connecting =>
      refine call_moves_on (a := .connected .ok) ?_ rfl rfl
      simp only [Worker.step, Worker.doStateTransition, hpc, hstate]
      rfl
  | new =>
      refine call_moves_on (a := .add true) ?_ rfl rfl
      simp only [Worker.step, Worker.doStateTransition, hpc, hstate]
      rfl
  | ready =>
      cases hholds.exchange with
      | apart _ happart =>
          have hno := happart.state
          rw [hstate] at hno
          simp at hno
      | @joined l c r hl hat hcarries =>
          obtain ⟨-, hlt, -, count', hcall⟩ := hat.sending_inv hstate
          cases hpc.symm.trans hcall
          rw [← hholds.keeps.bufSize] at hlt
          refine call_moves_on (a := .send (some 1)) ?_ ?_ rfl
          · simp only [Worker.step, Worker.doStateTransition, hpc, hstate, Worker.ready]
            split
            · rfl
            · rw [if_pos (by omega)]
              rfl
          · simp only [Pair.transfer, hpc, hl]
            rfl
  | sent =>
      cases hholds.exchange with
      | apart _ happart =>
          have hno := happart.state
          rw [hstate] at hno
          simp at hno
      | @joined l c r hl hat hcarries =>
          have hroom := hs.room hstate hpc
          cases hbytes : l.toClient with
          | nil =>
              refine call_moves_on (a := .recv .again) ?_ rfl ?_
              · simp only [Worker.step, Worker.doStateTransition, hpc, hstate, Worker.sent]
                rfl
              · simp only [Pair.responsive, hl, hbytes, decide_true]
          | cons b rest =>
              refine call_moves_on (a := .recv (.data [b])) ?_ ?_ rfl
              · simp only [Worker.step, Worker.doStateTransition, hpc, hstate, Worker.sent,
                  List.length_singleton]
                split
                · rfl
                · rw [if_pos (by omega)]
                  rfl
              · simp only [Pair.transfer, hl]
                rw [if_pos ⟨List.cons_ne_nil b [], hbytes ▸ ⟨rest, rfl⟩⟩]
                rfl
  | done =>
      have hplaced := hs.inv.placed 0
      simp only [Worker.Placed, hstate, Worker.Busy, hpc, Pc.client] at hplaced
      exact (hplaced.2 (.inr trivial)).elim

theorem Proper.moves (h : Proper o M s) (hsize : M.length = o.msgSize) (hb : 1 ≤ o.batchSize)
    (ht : 1 ≤ o.transactionCount) (hnot : ¬ s.Final o) :
    ∃ a t seen, ((echoPair o).guard Pair.responsive).step s a = some (t, seen) := by
  have hs := h.steady hb ht
  cases hpc : s.client.pc with
  | loop => exact h.loop_moves hs hsize hpc
  | call j count cursor => exact h.call_moves hs hpc
  | exited => exact (hnot (h.done hb ht hpc)).elim

end Moves

/-! ## Whole runs -/

theorem ranked (hM : 1 ≤ M.length) (hsize : M.length = o.msgSize) (hb : 1 ≤ o.batchSize)
    (ht : 1 ≤ o.transactionCount) :
    ((echoPair o).guard Pair.responsive).Ranked (Proper o M) (Pair.rank o) (fun _ => false)
      (fun _ => false) 0 where
  keeps h hstep :=
    let hguard := Machine.guard_step.mp hstep
    (step_proper hM hsize hb ht h hguard.2 hguard.1).1
  falls h hstep _ :=
    let hguard := Machine.guard_step.mp hstep
    (step_proper hM hsize hb ht h hguard.2 hguard.1).2
  rests _ _ houtside := by cases houtside
  rises _ _ hpaid := by cases hpaid

theorem rank_start (h : (echoPair o).Init s) :
    s.rank o = 9 * (o.msgSize + 1) * (o.transactionCount + 1) := by
  obtain ⟨hstart, hlink⟩ := h
  obtain ⟨buf, -, hclient⟩ := hstart.clients 0
  simp only [Pair.rank, workRank, clientRank, only, hclient, hstart.pc, hlink, Pair.linkRank,
    Option.elim_none]
  rw [Nat.mul_add_one (9 * (o.msgSize + 1)) o.transactionCount]
  omega

/-- What the client counts is what shows as completed. -/
theorem step_completed (hb : 1 ≤ o.batchSize) (ht : 1 ≤ o.transactionCount)
    {a : EchoPair.Input} (h : Proper o M s) (hstep : s.step o a = some (s', seen))
    (halive : s'.client.dying = false) :
    s'.client.finished o = s.client.finished o + if seen.completed then 1 else 0 := by
  obtain ⟨c, r, hholds⟩ := h.holds
  obtain ⟨tr, hreach, -⟩ := h.steps.reached
  have hinv := (Worker.reaches_inv hreach hholds.alive).1
  have hlives : ∀ j, ∃ l, s.client.Lives o j l := by
    intro j
    obtain ⟨l, hl⟩ := Worker.reaches_known hreach hholds.alive hb ht j
    exact ⟨l, hl.lives⟩
  cases a with
  | client a =>
      obtain ⟨client, out, link, shown, hclient, -, -, rfl, rfl⟩ := call_inv hholds.alive hstep
      rw [hclient.finished_add hinv hlives]
      cases out with
      | silent | opened => rfl
      | completed => rfl
  | connect a fd block buffer =>
      obtain ⟨client, out, hclient, -, -, -, rfl, rfl⟩ := connect_inv hstep
      have hstepped := Worker.step_spec hclient halive
      rw [hstepped.finished_add hinv hlives]
      cases hstepped with
      | connectedAtOnce | began => rfl
  | kernel i k buf len =>
      simp only [Pair.step, Option.bind_eq_bind, Option.bind_eq_some_iff] at hstep
      obtain ⟨l, -, l', -, hpair⟩ := hstep
      cases hpair
      rfl
  | dispatch =>
      simp only [Pair.step, Option.bind_eq_bind, Option.bind_eq_some_iff] at hstep
      obtain ⟨l, -, l', -, hpair⟩ := hstep
      cases hpair
      rfl

theorem Transcript.length_add (t : Transcript) (seen : Output) :
    (t.add seen).completed.length = t.completed.length + if seen.completed then 1 else 0 := by
  rw [Transcript.add]
  split
  · rw [List.length_append, List.length_singleton]
  · rfl

theorem run_proper (hM : 1 ≤ M.length) (hsize : M.length = o.msgSize) (hb : 1 ≤ o.batchSize)
    (ht : 1 ≤ o.transactionCount) {s₀ : Pair} {tr : List (EchoPair.Input × Output)}
    (hrun : ((echoPair o).guard Pair.responsive).Run s₀ tr s) (hstart : Proper o M s₀)
    (hnone : s₀.client.finished o = 0) :
    Proper o M s ∧ (transcript tr).completed.length = s.client.finished o := by
  induction hrun with
  | nil => exact ⟨hstart, hnone.symm⟩
  | @snoc s s' tr a seen _ hlast ih =>
      obtain ⟨hproper, hlength⟩ := ih
      obtain ⟨hok, hstep⟩ := Machine.guard_step.mp hlast
      have hnext := (step_proper hM hsize hb ht hproper hstep hok).1
      obtain ⟨c, r, hholds⟩ := hnext.holds
      refine ⟨hnext, ?_⟩
      rw [transcript_snoc, Transcript.length_add, hlength,
        step_completed hb ht hproper hstep hholds.alive]

/-- While `s` is not final, both sides can go on, and a run of the two is no longer than their
messages ask for. In the end the client has all its messages back. -/
structure Pair.Completes (o : Options) (M : List UInt8) (tr : List (EchoPair.Input × Output))
    (s : Pair) : Prop where
  length : tr.length ≤ 9 * (o.msgSize + 1) * (o.transactionCount + 1)
  moves : ¬ s.Final o →
    ∃ a t seen, ((echoPair o).guard Pair.responsive).step s a = some (t, seen)
  final : s.Final o → (transcript tr).completed = List.replicate o.transactionCount (M, M)

/-- A client whose calls answer completes all its transactions with an upcall server. -/
theorem pair_completes {s₀ : Pair} {tr : List (EchoPair.Input × Output)} (hm : 1 ≤ o.msgSize)
    (hb : 1 ≤ o.batchSize) (ht : 1 ≤ o.transactionCount) (hstart : (echoPair o).Init s₀)
    (hfree : ∃ fd, 0 ≤ fd ∧ s₀.client.opened fd = false)
    (hrun : ((echoPair o).guard Pair.responsive).Run s₀ tr s) :
    s.Completes o (s₀.client.clients 0).buf tr ∧
      ∃ tr' t, ((echoPair o).guard Pair.responsive).Run s tr' t ∧ t.Final o := by
  obtain ⟨hsize, hholds⟩ := holds_start hstart
  have hproper := proper_start hstart hfree
  have hrank := rank_start hstart
  have hnone : s₀.client.finished o = 0 := by
    obtain ⟨buf, -, hclient⟩ := hstart.1.clients 0
    rw [Worker.finished, Fin.sum_univ_one, hclient, Nat.sub_self]
  generalize (s₀.client.clients 0).buf = M at hsize hholds hproper
  have hM : 1 ≤ M.length := hsize ▸ hm
  have hranked := ranked hM hsize hb ht
  obtain ⟨hs, hlength⟩ := run_proper hM hsize hb ht hrun hproper hnone
  obtain ⟨c, r, -, hrecords⟩ := run_holds hM hsize hholds hrun.of_guard
  refine ⟨⟨?_, hs.moves hsize hb ht, ?_⟩, ?_⟩
  · have hle := (hranked.run hrun hproper).2
    simp only [Bool.not_false, List.countP_true] at hle
    omega
  · intro hfinal
    obtain ⟨c', r', hholds'⟩ := hs.holds
    have hcomplete := hs.steps.finished hholds'.alive hb ht
    rw [hfinal.exited, hfinal.complete] at hcomplete
    have hcount : s.client.finished o = o.transactionCount := by
      rw [Worker.finished, Fin.sum_univ_one]
      exact hcomplete.symm
    exact List.eq_replicate_iff.mpr ⟨hlength.trans hcount, hrecords.completed⟩
  · obtain ⟨tr', t, hrest, ht, -⟩ := hranked.finishes (Pair.Final o)
      (fun u hu hnot => by
        obtain ⟨a, v, seen, hstep⟩ := hu.moves hsize hb ht hnot
        exact ⟨a, v, seen, rfl, hstep⟩) hs
    exact ⟨tr', t, hrest, ht⟩

/-- Two messages of two bytes go back and forth as a whole. -/
def wholeMessages : List EchoPair.Input :=
  let server : List EchoPair.Input :=
    [.kernel 0 2 ⟨7, 0⟩ 4096, .dispatch, .kernel 0 2 ⟨0, 0⟩ 0, .dispatch]
  let receive : List EchoPair.Input :=
    [.client (.wait [5]), .client .run, .client (.recv (.data [5, 6]))]
  [.client .run, .connect (.inProgress 5 true) 9 1 [0, 0], .client (.wait [5]), .client .run,
    .client (.connected .ok), .client (.add true), .client (.send (some 2))] ++ server ++
  receive ++ [.client (.send (some 2))] ++ server ++ receive ++ [.client .run]

theorem wholeMessages_runs :
    (((echoPair twoBytes).guard Pair.responsive).exec onePair wholeMessages).isSome := by decide

theorem pair_completes_wholeMessages :
    ∃ tr s, ((echoPair twoBytes).guard Pair.responsive).Run onePair tr s ∧ s.Final twoBytes ∧
      s.Completes twoBytes [5, 6] tr ∧
      (transcript tr).completed = [([5, 6], [5, 6]), ([5, 6], [5, 6])] := by
  have hrun := Machine.run_of_exec (Option.some_get wholeMessages_runs).symm
  have hfinal : Pair.Final twoBytes
      ((((echoPair twoBytes).guard Pair.responsive).exec onePair wholeMessages).get
        wholeMessages_runs).1 := ⟨rfl, rfl, rfl, rfl⟩
  have hstart : (echoPair twoBytes).Init onePair :=
    ⟨⟨fun _ => ⟨[5, 6], rfl, rfl⟩, fun _ => rfl, ⟨rfl, rfl⟩, rfl, rfl, rfl, rfl⟩, rfl⟩
  obtain ⟨hcompletes, -⟩ := pair_completes (by decide) (by decide) (by decide) hstart
    ⟨5, by decide, rfl⟩ hrun
  exact ⟨_, _, hrun, hfinal, hcompletes, hcompletes.final hfinal⟩

end Upcalls.EchoPair
