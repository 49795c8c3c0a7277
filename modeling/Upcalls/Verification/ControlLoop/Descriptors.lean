import Upcalls.Library.Ledger
import Upcalls.Library.Progress
import Upcalls.Verification.ControlLoop.Steps

/-! # The connections of the control loop

`main` closes each connection that it has accepted once, and nothing else. It wakes up for
each of them a bounded number of times.
-/

namespace Upcalls.ControlLoop

open Library

variable {l : Listeners} {s₀ s t : Control} {a : Input} {o : Output}
  {tr : List (Input × Output)} {refused : List ℕ}

/-! ## Accounts -/

def isAccept : Input × Output → Bool
  | (_, .accepted _) => true
  | _ => false

def isClose : Input × Output → Bool
  | (_, .closed _ _) => true
  | _ => false

/-- The connections that `EPOLL_CTL_ADD` has failed for. -/
def refusals (tr : List (Input × Output)) : List ℕ := tr.flatMap fun x => refusedBy x.2

def connections (table : ℕ → Slot) : Set ℕ := {fd | (table fd).isAccepted = true}

def ledger (s : Control) (tr : List (Input × Output)) : Ledger ℕ :=
  ⟨tr.countP isAccept, tr.countP isClose, connections s.table⟩

theorem ledger_snoc (s : Control) (tr : List (Input × Output)) (x : Input × Output) :
    ledger s (tr ++ [x]) = ⟨tr.countP isAccept + [x].countP isAccept,
      tr.countP isClose + [x].countP isClose, connections s.table⟩ := by
  rw [ledger, List.countP_append, List.countP_append]

section Connections

variable {table : ℕ → Slot} {fd : ℕ} {slot : Slot}

theorem connections_insert (hslot : slot.isAccepted = true) :
    connections (Function.update table fd slot) = insert fd (connections table) := by
  ext x
  by_cases hx : x = fd
  · simp [connections, hx, hslot]
  · simp [connections, hx]

theorem connections_remove (hslot : slot.isAccepted = false) :
    connections (Function.update table fd slot) = connections table \ {fd} := by
  ext x
  by_cases hx : x = fd
  · simp [connections, hx, hslot]
  · simp [connections, hx]

theorem connections_same (hslot : slot.isAccepted = (table fd).isAccepted) :
    connections (Function.update table fd slot) = connections table := by
  ext x
  by_cases hx : x = fd
  · simp [connections, hx, hslot]
  · simp [connections, hx]

end Connections

theorem Inv.posted (h : Inv l s refused) (hmoves : Moves l s a t o) :
    (ledger s tr).Posted (ledger t (tr ++ [(a, o)])) := by
  have hhand := h.hand
  rw [ledger_snoc]
  cases hmoves with
  | wait | waitFails | acceptFails | print | errorFails | del => exact .same
  | accept hpc hclosed =>
      dsimp only
      rw [connections_insert rfl]
      refine .enter ?_
      rw [ledger, connections, Set.mem_ofPred_eq, hclosed]
      exact Bool.false_ne_true
  | @add g out ok hpc =>
      rw [hpc] at hhand
      dsimp only
      rw [connections_same (by rw [hhand.1]; rfl)]
      cases ok with
      | true => exact .same
      | false => exact .same
  | write hpc =>
      rw [hpc] at hhand
      dsimp only
      rw [connections_same (by rw [hhand.1]; rfl)]
      exact .same
  | statsFails hpc =>
      rw [hpc] at hhand
      dsimp only
      rw [connections_remove rfl]
      refine .leave ?_
      rw [ledger, connections, Set.mem_ofPred_eq, hhand.1]
      rfl
  | close hpc =>
      rw [hpc] at hhand
      obtain ⟨⟨wr, hslot⟩, -⟩ := hhand
      dsimp only
      rw [connections_remove rfl]
      refine .leave ?_
      rw [ledger, connections, Set.mem_ofPred_eq, hslot]
      rfl
  | workerOpens _ hclosed =>
      dsimp only
      rw [connections_same (by rw [hclosed]; rfl)]
      exact .same
  | workerCloses _ hworker =>
      dsimp only
      rw [connections_same (by rw [hworker]; rfl)]
      exact .same

/-- A step changes the table at one place at most, and not at what is `fixed`. -/
theorem Inv.table_cases (h : Inv l s refused) (hmoves : Moves l s a t o) :
    t.table = s.table ∨
      ∃ x slot, s.table x ≠ .fixed ∧ t.table = Function.update s.table x slot := by
  have hhand := h.hand
  cases hmoves with
  | wait | waitFails | acceptFails | print | errorFails | del => exact .inl rfl
  | accept _ hclosed => exact .inr ⟨_, _, by rw [hclosed]; exact Slot.noConfusion, rfl⟩
  | add hpc =>
      rw [hpc] at hhand
      exact .inr ⟨_, _, by rw [hhand.1]; exact Slot.noConfusion, rfl⟩
  | write hpc | statsFails hpc =>
      rw [hpc] at hhand
      exact .inr ⟨_, _, by rw [hhand.1]; exact Slot.noConfusion, rfl⟩
  | close hpc =>
      rw [hpc] at hhand
      obtain ⟨⟨wr, hslot⟩, -⟩ := hhand
      exact .inr ⟨_, _, by rw [hslot]; exact Slot.noConfusion, rfl⟩
  | workerOpens _ hclosed => exact .inr ⟨_, _, by rw [hclosed]; exact Slot.noConfusion, rfl⟩
  | workerCloses _ hworker => exact .inr ⟨_, _, by rw [hworker]; exact Slot.noConfusion, rfl⟩

/-- What was there ahead of the loop stays. -/
theorem Inv.fixed (h : Inv l s refused) (hmoves : Moves l s a t o) {fd : ℕ}
    (hfd : s.table fd = .fixed) : t.table fd = .fixed := by
  rcases h.table_cases hmoves with hsame | ⟨x, slot, hx, hupdate⟩
  · rw [hsame]
    exact hfd
  · have hne : fd ≠ x := by
      rintro rfl
      exact hx hfd
    rw [hupdate, Function.update_of_ne hne]
    exact hfd

theorem Inv.finite (h : Inv l s refused) (hmoves : Moves l s a t o)
    (hfinite : ∃ k, ∀ fd, k ≤ fd → s.table fd = .closed) :
    ∃ k, ∀ fd, k ≤ fd → t.table fd = .closed := by
  obtain ⟨k, hk⟩ := hfinite
  rcases h.table_cases hmoves with hsame | ⟨x, slot, -, hupdate⟩
  · rw [hsame]
    exact ⟨k, hk⟩
  · refine ⟨max k (x + 1), fun fd hfd => ?_⟩
    have hne : fd ≠ x := by omega
    rw [hupdate, Function.update_of_ne hne]
    exact hk fd (by omega)

theorem Inv.closes (h : Inv l s refused) (hmoves : Moves l s a t o) {fd : ℕ} {was : Slot}
    (ho : o = .closed fd was) : ∃ wr, was = .accepted true wr := by
  have hhand := h.hand
  cases hmoves with
  | close hpc =>
      rw [hpc] at hhand
      obtain ⟨⟨wr, hslot⟩, -⟩ := hhand
      obtain ⟨rfl, rfl⟩ := Output.closed.inj ho
      exact ⟨wr, hslot⟩
  | statsFails hpc =>
      rw [hpc] at hhand
      obtain ⟨rfl, rfl⟩ := Output.closed.inj ho
      exact ⟨false, hhand.1⟩
  | @add g out ok => cases ok <;> cases ho
  | _ => cases ho

/-! ## Wake-ups -/

/-- What `main` does not do on its own account: a new connection or an error at a listening
socket, a call that fails, and the steps of the workers. -/
def outside (l : Listeners) : Input → Bool
  | .wait fd _ => fd = l.statsFd ∨ fd = l.errorFd
  | .waitFails | .accept none | .add false | .write false => true
  | .workerOpens _ | .workerCloses _ => true
  | _ => false

def pcRank : Pc → ℕ
  | .epollWait => 3
  | .accept _ => 10
  | .print _ => 9
  | .add _ _ => 8
  | .write _ _ | .close _ => 4
  | .del _ => 2
  | .exited => 0

def rank (s : Control) : ℕ := 3 * s.registered.length + pcRank s.pc

/-- `main` has closed all its connections that it can hear of, and waits. -/
def Drained (l : Listeners) (s : Control) : Prop :=
  s.pc = .epollWait ∧ ∀ fd ∈ s.registered, fd = l.statsFd ∨ fd = l.errorFd

theorem rank_dispatch_le (l : Listeners) (fd : ℕ) (err : Bool) :
    pcRank (Control.dispatch l fd err) ≤ 10 := by
  rw [Control.dispatch]
  split_ifs <;> simp [pcRank]

/-- A step of `main` on its own account lowers the rank and does not leave the loop. -/
theorem Inv.falls (h : Inv l s refused) (hmoves : Moves l s a t o) (ha : outside l a = false) :
    rank t < rank s ∧ (s.pc ≠ .exited → t.pc ≠ .exited) := by
  have hhand := h.hand
  cases hmoves with
  | @wait fd err hpc hmem hlistens =>
      have hother : ¬ (fd = l.statsFd ∨ fd = l.errorFd) := of_decide_eq_false ha
      have herr : err = true := by
        by_contra hne
        exact hother (hlistens (by simpa using hne))
      have hnext : Control.dispatch l fd err = .del fd := by
        rw [Control.dispatch, herr, if_pos rfl, if_neg hother]
      simp only [rank, hnext, hpc, pcRank]
      exact ⟨by omega, fun _ => Pc.noConfusion⟩
  | waitFails | acceptFails | statsFails | errorFails | workerOpens | workerCloses => cases ha
  | @accept g out hpc =>
      simp only [rank, hpc]
      cases g with
      | onStats => exact ⟨by simp only [if_pos, pcRank]; omega, fun _ => Pc.noConfusion⟩
      | onError => exact ⟨by simp [pcRank], fun _ => Pc.noConfusion⟩
  | @print out dangling hpc =>
      simp only [rank, hpc]
      cases dangling with
      | true => exact ⟨by simp [pcRank], fun _ => Pc.noConfusion⟩
      | false => exact ⟨by simp [pcRank], fun _ => Pc.noConfusion⟩
  | @add g out ok hpc =>
      cases ok with
      | true =>
          simp only [rank, hpc, pcRank, if_pos, List.length_cons]
          exact ⟨by omega, fun _ => Pc.noConfusion⟩
      | false => cases ha
  | write hpc =>
      simp only [rank, hpc, pcRank]
      exact ⟨by omega, fun _ => Pc.noConfusion⟩
  | @del fd hpc =>
      rw [hpc] at hhand
      have hpos := List.length_pos_of_mem hhand.1
      simp only [rank, hpc, pcRank, List.length_erase_of_mem hhand.1]
      exact ⟨by omega, fun _ => Pc.noConfusion⟩
  | close hpc =>
      simp only [rank, hpc, pcRank]
      exact ⟨by omega, fun _ => Pc.noConfusion⟩

theorem rank_rises (hmoves : Moves l s a t o) (ha : outside l a = true) :
    rank t ≤ rank s + 7 := by
  cases hmoves with
  | @wait fd err hpc =>
      have hle := rank_dispatch_le l fd err
      simp only [rank, hpc, pcRank] at hle ⊢
      omega
  | waitFails =>
      simp only [rank, pcRank]
      omega
  | @acceptFails g hpc =>
      have hle : pcRank (if g = .onStats then .exited else .epollWait) ≤ 3 := by
        split <;> simp [pcRank]
      simp only [rank]
      omega
  | @add g out ok hpc =>
      cases ok with
      | true => cases ha
      | false =>
          simp only [rank, hpc, pcRank, Bool.false_eq_true, if_false]
          omega
  | @statsFails out =>
      have hle := s.registered.length_erase_le (a := out)
      simp only [rank, pcRank]
      omega
  | errorFails =>
      simp only [rank, pcRank]
      omega
  | workerOpens | workerCloses => exact Nat.le_add_right _ _
  | accept | print | write | del | close => cases ha

theorem exists_step (ha : outside l a = false) (hsome : (s.step l a).isSome = true) :
    ∃ a t o, outside l a = false ∧ (controlLoop l).step s a = some (t, o) := by
  obtain ⟨⟨t, o⟩, hstep⟩ := Option.isSome_iff_exists.mp hsome
  exact ⟨a, t, o, ha, hstep⟩

/-- With a table that is finite, `main` can go on until it waits for the listening sockets. -/
theorem can_move (hfinite : ∃ k, ∀ fd, k ≤ fd → s.table fd = .closed)
    (halive : s.pc ≠ .exited) (hbusy : ¬ Drained l s) :
    ∃ a t o, outside l a = false ∧ (controlLoop l).step s a = some (t, o) := by
  obtain ⟨k, hk⟩ := hfinite
  cases hpc : s.pc with
  | epollWait =>
      obtain ⟨fd, hfd⟩ := not_forall.mp fun hall => hbusy ⟨hpc, hall⟩
      obtain ⟨hmem, hother⟩ := Classical.not_imp.mp hfd
      refine exists_step (a := .wait fd true) (decide_eq_false hother) ?_
      simp [Control.step, Control.wait, hpc, hmem]
  | accept g =>
      refine exists_step (a := .accept (some k)) rfl ?_
      simp [Control.step, Control.accept, hpc, hk k (Nat.le_refl k)]
  | print out =>
      refine exists_step (a := .print true) rfl ?_
      simp [Control.step, Control.print, hpc]
  | add g out =>
      refine exists_step (a := .add true) rfl ?_
      simp [Control.step, Control.add, hpc]
  | write g out =>
      refine exists_step (a := .write true) rfl ?_
      simp [Control.step, Control.write, hpc]
  | del fd =>
      refine exists_step (a := .del) rfl ?_
      simp [Control.step, Control.del, hpc]
  | close fd =>
      refine exists_step (a := .close) rfl ?_
      simp [Control.step, Control.close, hpc]
  | exited => exact (halive hpc).elim

/-- The invariant with the finite table, whatever was refused. -/
def Sound (l : Listeners) (s : Control) : Prop :=
  (∃ refused, Inv l s refused) ∧ ∃ k, ∀ fd, k ≤ fd → s.table fd = .closed

theorem ranked (l : Listeners) :
    (controlLoop l).Ranked (Sound l) rank (outside l) (outside l) 7 where
  keeps := by
    rintro s t a o ⟨⟨refused, hinv⟩, hfinite⟩ hstep
    have hmoves := moves_of_step hstep
    exact ⟨⟨_, hinv.step hmoves⟩, hinv.finite hmoves hfinite⟩
  falls := by
    rintro s t a o ⟨⟨refused, hinv⟩, -⟩ hstep ha
    exact (hinv.falls (moves_of_step hstep) ha).1
  rests _ _ ha hpaid := absurd (ha.symm.trans hpaid) Bool.noConfusion
  rises := by
    rintro s t a o - hstep ha
    exact rank_rises (moves_of_step hstep) ha

/-! ## Runs -/

/-- What is accounted for in every state. Among the connections that are left open when `main`
waits, the ones that it never hears of again are those that `EPOLL_CTL_ADD` has failed for. -/
structure Orderly (l : Listeners) (s₀ s : Control) (tr : List (Input × Output)) : Prop where
  fixed : ∀ fd, s₀.table fd = .fixed → s.table fd = .fixed
  listeners : l.statsFd ∈ s.registered ∧ l.errorFd ∈ s.registered
  closes : ∀ x ∈ tr, ∀ fd was, x.2 = .closed fd was → ∃ wr, was = .accepted true wr
  balanced : (ledger s tr).Balanced
  waiting : s.pc = .epollWait → ∀ fd, (s.table fd).isAccepted = true ↔
    fd ∈ s.registered ∧ fd ≠ l.statsFd ∧ fd ≠ l.errorFd ∨ fd ∈ refusals tr
  shut : s.pc = .epollWait → ∀ fd, (s.table fd).isAccepted = true →
    s.table fd = .accepted true true

structure Kept (l : Listeners) (s₀ s : Control) (tr : List (Input × Output)) : Prop where
  inv : Inv l s (refusals tr)
  fixed : ∀ fd, s₀.table fd = .fixed → s.table fd = .fixed
  closes : ∀ x ∈ tr, ∀ fd was, x.2 = .closed fd was → ∃ wr, was = .accepted true wr
  balanced : (ledger s tr).Balanced

theorem run_kept (hstart : Control.Start l s₀) (hrun : (controlLoop l).Run s₀ tr s) :
    Kept l s₀ s tr := by
  induction hrun with
  | nil =>
      refine ⟨start_inv hstart, fun _ => id, List.forall_mem_nil _, ?_⟩
      have hnone : connections s₀.table = ∅ := by
        ext fd
        have hno := (start_inv hstart).settled (by rw [hstart.pc]; exact Pc.noConfusion) fd
        cases hslot : s₀.table fd with
        | accepted rd wr => exact (hstart.none fd rd wr hslot).elim
        | _ => simp [connections, hslot, Slot.isAccepted]
      rw [ledger, hnone]
      exact Ledger.balanced_empty
  | @snoc s t tr a o _ hlast ih =>
      have hmoves := moves_of_step hlast
      refine ⟨?_, ?_, ?_, ih.balanced.post (ih.inv.posted hmoves)⟩
      · rw [refusals, List.flatMap_append, List.flatMap_singleton]
        exact ih.inv.step hmoves
      · exact fun fd hfd => ih.inv.fixed hmoves (ih.fixed fd hfd)
      · intro x hx fd was ho
        rcases List.mem_append.mp hx with hx | hx
        · exact ih.closes x hx fd was ho
        · cases List.mem_singleton.mp hx
          exact ih.inv.closes hmoves ho

/-- When `main` waits, it has nothing at hand. -/
theorem Kept.settled (h : Kept l s₀ s tr) (hpc : s.pc = .epollWait) {fd : ℕ}
    (haccepted : (s.table fd).isAccepted = true) :
    s.table fd = .accepted true true ∧ (fd ∈ s.registered ∨ fd ∈ refusals tr) := by
  apply h.inv.settled _ fd haccepted
  · rw [hpc]
    exact (Option.some_ne_none fd).symm
  · rw [hpc]
    exact Pc.noConfusion

theorem Kept.tidy (h : Kept l s₀ s tr) : Orderly l s₀ s tr where
  fixed := h.fixed
  listeners := h.inv.listeners
  closes := h.closes
  balanced := h.balanced
  waiting hpc fd := by
    constructor
    · intro haccepted
      obtain ⟨hslot, hknown⟩ := h.settled hpc haccepted
      have hfixed : s.table fd ≠ .fixed := by
        rw [hslot]
        exact Slot.noConfusion
      exact hknown.imp_left fun hmem => ⟨hmem, h.inv.ne_listener hfixed⟩
    · rintro (⟨hmem, hstats, herror⟩ | hmem)
      · exact ((h.inv.registered fd hmem).resolve_left hstats).resolve_left herror
      · exact (h.inv.failed (by rw [hpc]; exact Pc.noConfusion) fd hmem).1
  shut hpc _ haccepted := (h.settled hpc haccepted).1

/-- Without failing calls `main` does not leave the loop. -/
theorem run_alive (hsound : Sound l s) (hrun : (controlLoop l).Run s tr t)
    (hown : ∀ x ∈ tr, outside l x.1 = false) (halive : s.pc ≠ .exited) : t.pc ≠ .exited := by
  induction hrun with
  | nil => exact halive
  | @snoc u v tr a o hrun hlast ih =>
      obtain ⟨hown, ha⟩ := List.forall_mem_append.mp hown
      obtain ⟨⟨refused, hinv⟩, -⟩ := ((ranked l).run hrun hsound).1
      exact (hinv.falls (moves_of_step hlast) (ha _ (List.mem_singleton_self _))).2 (ih hown)

/-- Whatever comes in, fails and is done by the workers, `main` closes its own connections
only, takes a bounded number of steps for each thing that happens, and can always come back
to wait with no connection left that it can hear of. -/
theorem control_loop_orderly (hstart : Control.Start l s₀) (hrun : (controlLoop l).Run s₀ tr s) :
    Orderly l s₀ s tr ∧
      tr.countP (fun x => !outside l x.1) ≤ 9 + 7 * tr.countP (fun x => outside l x.1) ∧
      (s.pc ≠ .exited → ∃ tr' t, (controlLoop l).Run s tr' t ∧ Drained l t ∧
        ∀ x ∈ tr', outside l x.1 = false) := by
  have hsound : Sound l s₀ := ⟨⟨[], start_inv hstart⟩, hstart.finite⟩
  have hrank : rank s₀ = 9 := by
    rw [rank, hstart.registered, hstart.pc]
    rfl
  obtain ⟨hlater, hbound⟩ := (ranked l).run hrun hsound
  refine ⟨(run_kept hstart hrun).tidy, by omega, ?_⟩
  intro halive
  have hmoves : ∀ u, Sound l u → ¬ (u.pc = .exited ∨ Drained l u) →
      ∃ a t o, outside l a = false ∧ (controlLoop l).step u a = some (t, o) := by
    rintro u ⟨-, hfinite⟩ hnot
    obtain ⟨hlive, hbusy⟩ := not_or.mp hnot
    exact can_move hfinite hlive hbusy
  obtain ⟨tr', t, hrest, hfinal, hown, -⟩ := (ranked l).finishes _ hmoves hlater
  exact ⟨tr', t, hrest, hfinal.resolve_left (run_alive hlater hrest hown halive), hown⟩

/-- The first six descriptors are taken, with the listening sockets among them. -/
def sixTaken : Control :=
  ⟨.epollWait, fun fd => if fd < 6 then .fixed else .closed, [4, 3]⟩

theorem sixTaken_start : Control.Start ⟨3, 4⟩ sixTaken where
  pc := rfl
  apart := by decide
  registered := rfl
  stats := rfl
  error := rfl
  none fd rd wr := by
    rw [sixTaken]
    dsimp only
    split <;> exact Slot.noConfusion
  finite := ⟨6, fun fd hfd => if_neg (Nat.not_lt_of_le hfd)⟩

/-- The statistics are asked for while a worker accepts a connection, and then the error
report, which is empty. -/
def twoConnections : List Input :=
  [.wait 3 false, .accept (some 6), .add true, .workerOpens 7, .write true, .wait 6 true, .del,
    .close, .wait 4 false, .accept (some 6), .print false]

theorem twoConnections_runs :
    ((controlLoop ⟨3, 4⟩).exec sixTaken twoConnections).isSome := by decide

theorem control_loop_orderly_twoConnections :
    ∃ tr s, (controlLoop ⟨3, 4⟩).Run sixTaken tr s ∧ Orderly ⟨3, 4⟩ sixTaken s tr ∧
      ∃ tr' t, (controlLoop ⟨3, 4⟩).Run s tr' t ∧ Drained ⟨3, 4⟩ t := by
  have hrun := Machine.run_of_exec (Option.some_get twoConnections_runs).symm
  obtain ⟨horderly, -, hdrains⟩ := control_loop_orderly sixTaken_start hrun
  obtain ⟨tr', t, hrest, hdrained, -⟩ := hdrains (by decide)
  exact ⟨_, _, hrun, horderly, tr', t, hrest, hdrained⟩

end Upcalls.ControlLoop
