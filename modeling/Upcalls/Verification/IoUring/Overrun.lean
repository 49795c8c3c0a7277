import Upcalls.Verification.IoUring.Depth

/-! # A pass for which the submission ring is too small

One worker hands 129 connections to another, whose read of the eventfd completes once for all
of them. The 129th does not fit.
-/

namespace Upcalls.IoUring

open Library TcpEcho Team

/-- Two workers. -/
def pair (a b : Worker 2) (t : Table) : Server 2 where
  worker w := if w.val = 0 then a else b
  shared := t

section Pair

variable {a b me : Worker 2} {t t' : Table} {m k j : ℕ}

@[simp] theorem pair_zero : (pair a b t).worker 0 = a := rfl

@[simp] theorem pair_one : (pair a b t).worker 1 = b := rfl

@[simp] theorem pair_shared : (pair a b t).shared = t := rfl

@[simp] theorem pair_share : (pair a b t).share t' = pair a b t' := rfl

@[simp] theorem pair_set_zero : (pair a b t).set 0 me = pair me b t := by
  rw [Team.set, pair, pair]
  congr 1
  exact funext (Fin.forall_fin_two.mpr ⟨rfl, rfl⟩)

@[simp] theorem pair_set_one : (pair a b t).set 1 me = pair a me t := by
  rw [Team.set, pair, pair]
  congr 1
  exact funext (Fin.forall_fin_two.mpr ⟨rfl, rfl⟩)

theorem ring_goes {n m : ℕ} {s s' : Server n} {a : Input n} {o : Output n}
    (h : s.step m a = some (s', o))
    (hroom : (s.worker a.worker).sq.length + s.getSqes a ≤ QUEUE_DEPTH) :
    (ringServer n m).step ⟨s, false⟩ a = some (⟨s', false⟩, o) := by
  simp [ringServer, Ring.step, Nat.not_lt.mpr hroom, h]

/-- The worker waits for the next connection. -/
structure Listens (me : Worker 2) : Prop where
  sq : me.sq = []
  kernel : ∃ i : ℕ, me.kernel[i]? = some .accept ∧ me.kernel.eraseIdx i = [.evRead]
  cq : me.cq = []
  pc : me.pc = .wait

/-- Worker 1 has descriptor `fd` for worker 0. -/
theorem accepts (hb : Listens b) {fd : ℤ} (hfd : 0 ≤ fd) (hopened : t.opened fd = false) :
    ∃ tr b', b'.sq = [] ∧ b'.kernel = [.evRead] ∧ b'.cq = [] ∧ b'.pc = .push fd 0 ∧
      (ringServer 2 m).Run ⟨pair a b t, false⟩ tr
        ⟨pair a b' { t with opened := Function.update t.opened fd true }, false⟩ := by
  obtain ⟨i, haccept, hrest⟩ := hb.kernel
  have h₁ : (ringServer 2 m).step ⟨pair a b t, false⟩ (.complete 1 i fd) =
      some (⟨pair a { b with kernel := [.evRead], cq := [⟨.accept, fd⟩] }
        { t with opened := Function.update t.opened fd true }, false⟩, .accepted fd) := by
    apply ring_goes
    · simp [Server.step, Server.complete, Table.accept, hfd, hopened, haccept, hrest, hb.cq]
    · simp [Input.worker, hb.sq, Server.getSqes]
  generalize { t with opened := Function.update t.opened fd true } = t' at h₁ ⊢
  have h₂ : (ringServer 2 m).step
      ⟨pair a { b with kernel := [.evRead], cq := [⟨.accept, fd⟩] } t', false⟩ (.run 1) =
      some (⟨pair a { b with kernel := [.evRead], cq := [⟨.accept, fd⟩], pc := .loop } t', false⟩,
        .silent) := by
    apply ring_goes
    · simp [Server.step, Server.run, hb.pc]
    · simp [Input.worker, hb.sq, hb.pc, Server.getSqes]
  have h₃ : (ringServer 2 m).step
      ⟨pair a { b with kernel := [.evRead], cq := [⟨.accept, fd⟩], pc := .loop } t', false⟩
        (.accept 1 0) =
      some (⟨pair a { b with
        kernel := [.evRead]
        cq := []
        pc := .push fd 0
        acceptCount := b.acceptCount + 1 } t', false⟩, .assigned fd 0) := by
    apply ring_goes
    · simp [Server.step, Server.accept, Int.not_lt.mpr hfd]
    · simp [Input.worker, hb.sq, Server.getSqes]
  have hrun := ((Machine.Run.nil.snoc h₁).snoc h₂).snoc h₃
  exact ⟨_, _, by exact hb.sq, by rfl, by rfl, by rfl, hrun⟩

/-- Worker 1 hands it over. -/
theorem hands (hsq : b.sq = []) (hkernel : b.kernel = [.evRead]) (hcq : b.cq = []) {fd : ℤ}
    (hpc : b.pc = .push fd 0) (hcounter : a.counter < eventfdMax) :
    ∃ tr b', Listens b' ∧ (ringServer 2 m).Run ⟨pair a b t, false⟩ tr
      ⟨pair { a with incoming := fd :: a.incoming, counter := a.counter + 1 } b' t, false⟩ := by
  have h₁ : (ringServer 2 m).step ⟨pair a b t, false⟩ (.run 1) =
      some (⟨pair { a with incoming := fd :: a.incoming } { b with pc := .notify 0 } t, false⟩,
        .silent) := by
    apply ring_goes
    · simp [Server.step, Server.run, hpc, Server.push, Team.modify]
    · simp [Input.worker, hsq, hpc, Server.getSqes]
  have hcounter' : { a with incoming := fd :: a.incoming }.counter < eventfdMax := hcounter
  have hresult : { a with incoming := fd :: a.incoming, counter := a.counter + 1 } =
      { { a with incoming := fd :: a.incoming } with
        counter := { a with incoming := fd :: a.incoming }.counter + 1 } := rfl
  rw [hresult]
  generalize { a with incoming := fd :: a.incoming } = a' at h₁ hcounter' ⊢
  have h₂ : (ringServer 2 m).step ⟨pair a' { b with pc := .notify 0 } t, false⟩ (.run 1) =
      some (⟨pair a' { b with sq := [.evWrite 0, .accept], pc := .loop } t, false⟩,
        .silent) := by
    apply ring_goes
    · simp [Server.step, Server.run, Server.notify, Worker.addRequests, hsq, QUEUE_DEPTH]
    · simp [Input.worker, hsq, Server.getSqes, QUEUE_DEPTH]
  have h₃ : (ringServer 2 m).step
      ⟨pair a' { b with sq := [.evWrite 0, .accept], pc := .loop } t, false⟩ (.run 1) =
      some (⟨pair a' { b with
        sq := []
        kernel := [.evRead, .evWrite 0, .accept]
        pc := .wait } t, false⟩, .silent) := by
    apply ring_goes
    · simp [Server.step, Server.run, Server.loop, hcq, hkernel]
    · simp [Input.worker, hcq, Server.getSqes, QUEUE_DEPTH]
  have h₄ : (ringServer 2 m).step
      ⟨pair a' { b with
        sq := []
        kernel := [.evRead, .evWrite 0, .accept]
        pc := .wait } t, false⟩ (.complete 1 1 8) =
      some (⟨pair { a' with counter := a'.counter + 1 } { b with
        sq := []
        kernel := [.evRead, .accept]
        cq := [⟨.evWrite 0, 8⟩]
        pc := .wait } t, false⟩, .silent) := by
    apply ring_goes
    · simp [Server.step, Server.complete, hcounter', hcq, Team.modify]
    · simp [Input.worker, Server.getSqes]
  generalize { a' with counter := a'.counter + 1 } = a'' at h₄ ⊢
  have h₅ : (ringServer 2 m).step
      ⟨pair a'' { b with
        sq := []
        kernel := [.evRead, .accept]
        cq := [⟨.evWrite 0, 8⟩]
        pc := .wait } t, false⟩ (.run 1) =
      some (⟨pair a'' { b with
        sq := []
        kernel := [.evRead, .accept]
        cq := [⟨.evWrite 0, 8⟩]
        pc := .loop } t, false⟩, .silent) := by
    apply ring_goes
    · simp [Server.step, Server.run]
    · simp [Input.worker, Server.getSqes]
  have h₆ : (ringServer 2 m).step
      ⟨pair a'' { b with
        sq := []
        kernel := [.evRead, .accept]
        cq := [⟨.evWrite 0, 8⟩]
        pc := .loop } t, false⟩ (.run 1) =
      some (⟨pair a'' { b with
        sq := []
        kernel := [.evRead, .accept]
        cq := []
        pc := .loop } t, false⟩, .silent) := by
    apply ring_goes
    · simp [Server.step, Server.run, Server.loop]
    · simp [Input.worker, Server.getSqes]
  have h₇ : (ringServer 2 m).step
      ⟨pair a'' { b with
        sq := []
        kernel := [.evRead, .accept]
        cq := []
        pc := .loop } t, false⟩ (.run 1) =
      some (⟨pair a'' { b with
        sq := []
        kernel := [.evRead, .accept]
        cq := []
        pc := .wait } t, false⟩, .silent) := by
    apply ring_goes
    · simp [Server.step, Server.run, Server.loop]
    · simp [Input.worker, Server.getSqes]
  have hrun := ((((((Machine.Run.nil.snoc h₁).snoc h₂).snoc h₃).snoc h₄).snoc h₅).snoc
    h₆).snoc h₇
  exact ⟨_, _, ⟨rfl, ⟨1, rfl, rfl⟩, rfl, rfl⟩, hrun⟩

/-- The owner takes connections off its list. -/
structure Drains (k j : ℕ) (me : Worker 2) : Prop where
  pc : me.pc = .drain
  incoming : me.incoming.length = k
  sq : me.sq.length = 2 * j

theorem pops (ha : Drains (k + 1) j a) (hj : 2 * j ≤ QUEUE_DEPTH) :
    ∃ fd a', a'.pc = .install fd ∧ a'.incoming.length = k ∧ a'.sq.length = 2 * j ∧
      (ringServer 2 m).step ⟨pair a b t, false⟩ (.run 0) =
        some (⟨pair a' b t, false⟩, .silent) := by
  obtain ⟨fd, rest, hcons⟩ := List.exists_cons_of_length_eq_add_one ha.incoming
  have hlength := ha.incoming
  rw [hcons] at hlength
  refine ⟨fd, { a with incoming := rest, pc := .install fd }, rfl, Nat.succ.inj hlength, ha.sq, ?_⟩
  apply ring_goes
  · simp [Server.step, Server.run, Server.drain, ha.pc, hcons]
  · simp [Input.worker, Server.getSqes, ha.pc, ha.sq, hj]

theorem drains (ha : Drains (k + 1) j a) (hj : 2 * j + 2 ≤ QUEUE_DEPTH) :
    ∃ tr a' t', Drains k (j + 1) a' ∧
      (ringServer 2 m).Run ⟨pair a b t, false⟩ tr ⟨pair a' b t', false⟩ := by
  obtain ⟨fd, a', hpc, hincoming, hsq, h₁⟩ := pops (b := b) (t := t) (m := m) ha (by omega)
  have hroom : a'.sq.length + 2 ≤ QUEUE_DEPTH := by omega
  have h₂ : (ringServer 2 m).step ⟨pair a' b t, false⟩ (.run 0) =
      some (⟨pair { a' with
        sq := a'.sq ++ [.sockRead fd ⟨(cacheAlloc a'.msgCache
          (cacheAlloc a'.connCache t.next).next).entry, 0⟩ m, .evRead]
        connCache := (cacheAlloc a'.connCache t.next).cache
        msgCache := (cacheAlloc a'.msgCache (cacheAlloc a'.connCache t.next).next).cache
        pc := .drain } b (t.install fd (cacheAlloc a'.connCache t.next).entry
          { newConn fd with buffer := (cacheAlloc a'.msgCache
            (cacheAlloc a'.connCache t.next).next).entry }
          (cacheAlloc a'.msgCache (cacheAlloc a'.connCache t.next).next).next), false⟩,
        .installed fd 0) := by
    apply ring_goes
    · simp [Server.step, Server.run, Server.install, Worker.addRequests, hpc, hroom]
    · simp [Input.worker, Server.getSqes, hpc, hroom]
  refine ⟨_, _, _, ⟨by rfl, by exact hincoming, ?_⟩, (Machine.Run.nil.snoc h₁).snoc h₂⟩
  rw [List.length_append, hsq]
  rfl

/-- With 128 connections installed there is no room for another one. -/
theorem overruns (ha : Drains (k + 1) 128 a) :
    ∃ tr r, (ringServer 2 m).Run ⟨pair a b t, false⟩ tr r ∧ r.null = true := by
  obtain ⟨fd, a', hpc, -, hsq, h₁⟩ := pops (b := b) (t := t) (m := m) ha (by decide)
  have h₂ : (ringServer 2 m).step ⟨pair a' b t, false⟩ (.run 0) =
      some (⟨pair a' b t, true⟩, .silent) := by
    simp [ringServer, Ring.step, Input.worker, Server.getSqes, hpc, hsq, QUEUE_DEPTH]
  exact ⟨_, _, (Machine.Run.nil.snoc h₁).snoc h₂, rfl⟩

/-! ### The whole run -/

theorem pair_eta (s : Server 2) : pair (s.worker 0) (s.worker 1) s.shared = s := by
  obtain ⟨worker, shared⟩ := s
  rw [pair]
  congr 1
  exact funext (Fin.forall_fin_two.mpr ⟨rfl, rfl⟩)

/-- `k` connections are on the list of the owner, which waits. -/
structure Piled (k : ℕ) (me : Worker 2) (t : Table) : Prop where
  pc : me.pc = .wait
  sq : me.sq = []
  kernel : me.kernel = [.accept, .evRead]
  cq : me.cq = []
  incoming : me.incoming.length = k
  counter : me.counter = k
  opened : ∀ fd : ℤ, 100 + k ≤ fd → t.opened fd = false

/-- Both workers submit their first requests and wait. -/
theorem reaches_nothing : ∃ tr a b t, (ringServer 2 1).Reaches tr ⟨pair a b t, false⟩ ∧
    Piled 0 a t ∧ Listens b := by
  have hinit : (ringServer 2 1).Init ⟨pair (smallServer.worker 0) (smallServer.worker 1)
      smallServer.shared, false⟩ := by
    rw [pair_eta]
    exact ⟨smallServer_start, rfl⟩
  have hfirst : ∀ w, (smallServer.worker w).sq = [.accept, .evRead] ∧
      (smallServer.worker w).kernel = [] ∧ (smallServer.worker w).cq = [] ∧
      (smallServer.worker w).pc = .loop := fun w => ⟨rfl, rfl, rfl, rfl⟩
  obtain ⟨ha, ha', ha'', hpc⟩ := hfirst 0
  obtain ⟨hb, hb', hb'', hpc'⟩ := hfirst 1
  have hincoming : (smallServer.worker 0).incoming = [] ∧ (smallServer.worker 0).counter = 0 :=
    ⟨rfl, rfl⟩
  have hopened : ∀ fd : ℤ, 100 ≤ fd → smallServer.shared.opened fd = false := by
    intro fd hfd
    apply decide_eq_false
    simp only [List.mem_cons, List.not_mem_nil, or_false]
    omega
  generalize smallServer.worker 0 = a at *
  generalize smallServer.worker 1 = b at *
  generalize smallServer.shared = t at *
  have h₁ : (ringServer 2 1).step ⟨pair a b t, false⟩ (.run 0) =
      some (⟨pair { a with sq := [], kernel := [.accept, .evRead], pc := .wait } b t, false⟩,
        .silent) := by
    apply ring_goes
    · simp [Server.step, Server.run, Server.loop, hpc, ha, ha', ha'']
    · simp [Input.worker, Server.getSqes, hpc, ha, ha'', QUEUE_DEPTH]
  generalize ha₁ : { a with sq := [], kernel := [.accept, .evRead], pc := .wait } = a₁ at h₁
  have h₂ : (ringServer 2 1).step ⟨pair a₁ b t, false⟩ (.run 1) =
      some (⟨pair a₁ { b with sq := [], kernel := [.accept, .evRead], pc := .wait } t, false⟩,
        .silent) := by
    apply ring_goes
    · simp [Server.step, Server.run, Server.loop, hpc', hb, hb', hb'']
    · simp [Input.worker, Server.getSqes, hpc', hb, hb'', QUEUE_DEPTH]
  refine ⟨_, _, _, _, ((Machine.Reaches.init hinit).step h₁).step h₂, ?_, ?_⟩
  · subst ha₁
    refine ⟨rfl, rfl, rfl, ha'', ?_, hincoming.2, ?_⟩
    · rw [hincoming.1]
      rfl
    · intro fd hfd
      exact hopened fd (by omega)
  · exact ⟨rfl, ⟨0, rfl, rfl⟩, hb'', rfl⟩

theorem reaches_piled (hk : k ≤ eventfdMax) :
    ∃ tr a b t, (ringServer 2 1).Reaches tr ⟨pair a b t, false⟩ ∧ Piled k a t ∧ Listens b := by
  induction k with
  | zero => exact reaches_nothing
  | succ k ih =>
      obtain ⟨tr, a, b, t, hreach, ha, hb⟩ := ih (Nat.le_of_succ_le hk)
      have hcounter : a.counter < eventfdMax := by
        rw [ha.counter]
        exact hk
      obtain ⟨tr₁, b₁, hsq, hkernel, hcq, hpc, hrun₁⟩ :=
        accepts (a := a) (m := 1) hb (show (0 : ℤ) ≤ 100 + k by omega) (ha.opened _ (Int.le_refl _))
      obtain ⟨tr₂, b₂, hb₂, hrun₂⟩ :=
        hands (t := { t with opened := Function.update t.opened (100 + k) true }) (m := 1)
          hsq hkernel hcq hpc hcounter
      refine ⟨_, _, _, _, (hreach.run hrun₁).run hrun₂, ?_, hb₂⟩
      refine ⟨ha.pc, ha.sq, ha.kernel, ha.cq, ?_, ?_, ?_⟩
      · rw [List.length_cons, ha.incoming]
      · exact congrArg Nat.succ ha.counter
      · intro fd hfd
        have hne : fd ≠ 100 + k := by omega
        simp only [Function.update_of_ne hne]
        exact ha.opened fd (by omega)

theorem reaches_draining :
    ∃ tr a b t, (ringServer 2 1).Reaches tr ⟨pair a b t, false⟩ ∧ Drains 129 0 a := by
  obtain ⟨tr, a, b, t, hreach, ha, -⟩ := reaches_piled (k := 129) (by decide)
  have h₁ : (ringServer 2 1).step ⟨pair a b t, false⟩ (.complete 0 1 8) =
      some (⟨pair { a with kernel := [.accept], cq := [⟨.evRead, 8⟩], counter := 0 } b t, false⟩,
        .silent) := by
    apply ring_goes
    · simp [Server.step, Server.complete, ha.kernel, ha.cq, ha.counter]
    · simp [Input.worker, ha.sq, Server.getSqes]
  have h₂ : (ringServer 2 1).step
      ⟨pair { a with kernel := [.accept], cq := [⟨.evRead, 8⟩], counter := 0 } b t, false⟩
        (.run 0) =
      some (⟨pair { a with
        kernel := [.accept]
        cq := [⟨.evRead, 8⟩]
        counter := 0
        pc := .loop } b t, false⟩, .silent) := by
    apply ring_goes
    · simp [Server.step, Server.run, ha.pc]
    · simp [Input.worker, ha.sq, ha.pc, Server.getSqes]
  have h₃ : (ringServer 2 1).step
      ⟨pair { a with
        kernel := [.accept]
        cq := [⟨.evRead, 8⟩]
        counter := 0
        pc := .loop } b t, false⟩ (.run 0) =
      some (⟨pair { a with
        kernel := [.accept]
        cq := []
        counter := 0
        pc := .drain } b t, false⟩, .silent) := by
    apply ring_goes
    · simp [Server.step, Server.run, Server.loop]
    · simp [Input.worker, ha.sq, Server.getSqes]
  refine ⟨_, _, _, _, ((hreach.step h₁).step h₂).step h₃, rfl, ha.incoming, ?_⟩
  rw [ha.sq]
  rfl

theorem reaches_drained (hj : j ≤ 128) :
    ∃ tr a b t, (ringServer 2 1).Reaches tr ⟨pair a b t, false⟩ ∧ Drains (128 - j + 1) j a := by
  induction j with
  | zero => exact reaches_draining
  | succ j ih =>
      obtain ⟨tr, a, b, t, hreach, ha⟩ := ih (Nat.le_of_succ_le hj)
      have hroom : 2 * j + 2 ≤ QUEUE_DEPTH := by
        rw [QUEUE_DEPTH]
        omega
      obtain ⟨tr', a', t', ha', hrun⟩ := drains (b := b) (t := t) (m := 1) ha hroom
      refine ⟨_, a', b, t', hreach.run hrun, ?_⟩
      rw [show 128 - (j + 1) + 1 = 128 - j by omega]
      exact ha'

end Pair

/-- One worker hands 129 connections to another, which takes them off its list in one pass. -/
theorem not_always_room :
    ¬ ∀ (n msgSize : ℕ) (tr : List (Input n × Output n)) (r : Ring n), 1 ≤ msgSize →
      (ringServer n msgSize).Reaches tr r → r.null = false := by
  intro h
  obtain ⟨tr, a, b, t, hreach, ha⟩ := reaches_drained (Nat.le_refl 128)
  obtain ⟨tr', r, hrun, hnull⟩ := overruns (b := b) (t := t) (m := 1) ha
  have hfalse := h 2 1 _ r (Nat.le_refl 1) (hreach.run hrun)
  rw [hnull] at hfalse
  cases hfalse

end Upcalls.IoUring
