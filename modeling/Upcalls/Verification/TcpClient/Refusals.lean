import Upcalls.Verification.TcpClient.Returns

/-! # Sends that the kernel refuses

`client_send` takes a full socket for an error. As long as no `send` is refused, no worker is
dying and each client has sent its whole request when it is in `SENT`.
-/

namespace Upcalls.TcpClient

open Library

variable {m n : ℕ} {o : Options}

/-! ## Answers of a kernel without errors -/

/-- No call fails, unless with `EAGAIN` or `EINPROGRESS`. -/
def Input.benign : Input → Bool
  | .waitFailed | .setDying => false
  | .connect .noSocket | .connect (.noOption _) => false
  | .connect (.inProgress _ added) | .connect (.failed _ added) => added
  | .connected a => (a matches .ok)
  | .add ok => ok
  | .recv ret => !(ret matches .error)
  | _ => true

/-- `EAGAIN` for `send` or `connect`. -/
def Input.refused : Input → Bool
  | .send none => true
  | .connect (.failed _ _) => true
  | _ => false

/-- How many bytes the sends at the end of a trace have handed to the kernel. -/
def handed (tr : List (Input × Output n)) : ℕ :=
  tr.foldl (fun k x =>
    match x.1 with
    | .send ret => k + ret.getD 0
    | _ => 0) 0

theorem handed_send (tr : List (Input × Output n)) (ret : Option ℕ) (out : Output n) :
    handed (tr ++ [(.send ret, out)]) = handed tr + ret.getD 0 := by
  rw [handed, List.foldl_append]
  rfl

theorem handed_other {a : Input} (h : ∀ ret, a ≠ .send ret) (tr : List (Input × Output n))
    (out : Output n) : handed (tr ++ [(a, out)]) = 0 := by
  rw [handed, List.foldl_append]
  simp only [List.foldl_cons, List.foldl_nil]

/-! ## One worker -/

namespace Worker

/-- Inside of `client_send`, `cursor` is what the kernel has taken. -/
def Sends (tr : List (Input × Output n)) (s : Worker n) : Prop :=
  ∀ j count cursor, s.pc = .call j count cursor → (s.clients j).state = .ready →
    handed tr = cursor

theorem enter_pc (s : Worker n) (j : Fin n) (count : ℕ) :
    (s.enter o j count).pc = .loop ∨ (s.enter o j count).pc = .call j count 0 := by
  rw [enter]
  split
  · exact .inr rfl
  · exact .inr rfl
  · exact .inr rfl
  · exact .inr rfl
  · exact .inr rfl
  · exact .inl rfl

theorem enter_state (s : Worker n) (i j : Fin n) (count : ℕ) :
    ((s.enter o i count).clients j).state = (s.clients j).state := by
  have hupdate : ∀ c : Client, c.state = (s.clients i).state →
      (Function.update s.clients i c j).state = (s.clients j).state := by
    intro c hc
    by_cases hj : j = i
    · rw [hj, Function.update_self, hc]
    · rw [Function.update_of_ne hj]
  rw [enter]
  split
  · exact hupdate _ rfl
  · rfl
  · rfl
  · rfl
  · rfl
  · exact hupdate _ rfl

section Sends

variable {s s' : Worker n} {a : Input} {out : Output n} {tr : List (Input × Output n)}
  {j : Fin n}

/-- `client_send` starts at the first byte. -/
theorem Stepped.starts (h : Stepped o s a s' out) (ha : ∀ ret, a ≠ .send ret)
    {count cursor : ℕ} (hpc : s'.pc = .call j count cursor)
    (hstate : (s'.clients j).state = .ready) : cursor = 0 := by
  cases h with
  | waited hloop => cases hloop.symm.trans hpc
  | timedOut => cases hpc
  | exited => cases hpc
  | enteredInit => cases hpc; rfl
  | enteredConnecting => cases hpc; rfl
  | enteredSent => cases hpc; rfl
  | @enteredOther i todo hloop htodo hother =>
      rcases enter_pc (o := o) { s with todo := todo } i 0 with hentered | hentered
      · cases hentered.symm.trans hpc
      · cases hentered.symm.trans hpc
        rfl
  | connectedAtOnce => cases hpc; rfl
  | began => cases hpc
  | connected => cases hpc; rfl
  | added => cases hpc; rfl
  | sentPart => exact absurd rfl (ha _)
  | sentAll => exact absurd rfl (ha _)
  | receivedPart _ hsent =>
      cases hpc
      simp only [Function.update_self] at hstate
      cases hsent.symm.trans hstate
  | again => cases hpc
  | finished => cases hpc
  | batchEnded => cases hpc; rfl
  | next => cases hpc; rfl

theorem Stepped.sends (hs : s.Sends tr) (h : Stepped o s a s' out) :
    s'.Sends (tr ++ [(a, out)]) := by
  intro j count cursor hpc hstate
  by_cases ha : ∀ ret, a ≠ .send ret
  · rw [handed_other ha, h.starts ha hpc hstate]
  · simp only [ne_eq, not_forall, not_not] at ha
    obtain ⟨ret, rfl⟩ := ha
    cases h with
    | @sentPart i c k d hcall hready hlt =>
        cases hpc
        rw [handed_send, hs _ _ _ hcall hready]
        rfl
    | sentAll => cases hpc

theorem reaches_sends {tr : List (Input × Output n)} {s : Worker n}
    (h : (worker n o).Reaches tr s) (hdying : s.dying = false) : s.Sends tr := by
  refine reaches_induction (P := fun tr s => s.Sends tr) ?_ ?_ h hdying
  · intro s hs j count cursor hpc
    cases hs.pc.symm.trans hpc
  · intro tr s a out s' _ hs hstep
    exact hstep.sends hs

theorem sent_of_update {clients : Fin n → Client} {i : Fin n} {c : Client}
    (hbefore : (clients j).state ≠ .sent)
    (hafter : (Function.update clients i c j).state = .sent) : j = i ∧ c.state = .sent := by
  by_cases hj : j = i
  · rw [hj, Function.update_self] at hafter
    exact ⟨hj, hafter⟩
  · rw [Function.update_of_ne hj] at hafter
    exact absurd hafter hbefore

/-- A client enters `SENT` with the last byte of its request. -/
theorem Stepped.enters_sent (hs : s.Sends tr) (h : Stepped o s a s' out)
    (hbefore : (s.clients j).state ≠ .sent) (hafter : (s'.clients j).state = .sent) :
    handed (tr ++ [(a, out)]) = (s'.clients j).bufSize := by
  have hnot : ∀ {i : Fin n}, (s.clients i).state = .sent → j ≠ i := by
    rintro i hi rfl
    exact hbefore hi
  cases h with
  | waited => exact absurd hafter hbefore
  | timedOut => exact absurd hafter hbefore
  | exited => exact absurd hafter hbefore
  | enteredInit _ _ hinit =>
      obtain ⟨rfl, hsent⟩ := sent_of_update hbefore hafter
      exact absurd hsent hbefore
  | enteredConnecting => exact absurd hafter hbefore
  | enteredSent => exact absurd hafter hbefore
  | enteredOther =>
      rw [enter_state] at hafter
      exact absurd hafter hbefore
  | connectedAtOnce => cases (sent_of_update hbefore hafter).2
  | began => cases (sent_of_update hbefore hafter).2
  | connected => cases (sent_of_update hbefore hafter).2
  | added => cases (sent_of_update hbefore hafter).2
  | sentPart => exact absurd hafter hbefore
  | sentAll hpc hready hfull =>
      obtain ⟨rfl, -⟩ := sent_of_update hbefore hafter
      rw [handed_send, hs _ _ _ hpc hready]
      simp only [Function.update_self]
      exact hfull
  | receivedPart _ hsent => exact absurd (sent_of_update hbefore hafter).1 (hnot hsent)
  | again _ hsent => exact absurd (sent_of_update hbefore hafter).1 (hnot hsent)
  | finished _ hsent => exact absurd (sent_of_update hbefore hafter).1 (hnot hsent)
  | batchEnded _ hsent => exact absurd (sent_of_update hbefore hafter).1 (hnot hsent)
  | next _ hsent => exact absurd (sent_of_update hbefore hafter).1 (hnot hsent)

end Sends

/-! ## Refusals -/

section Refusals

variable {s s' : Worker n} {a : Input} {out : Output n} {j : Fin n} {count cursor : ℕ}

theorem init_dying {x : Opened} (hbenign : (Input.connect x).benign = true)
    (h : s.init o j count x = some (s', out)) :
    s'.dying = (s.dying || (Input.connect x).refused) := by
  simp only [init] at h
  split at h
  · cases hbenign
  · cases hbenign
  · split at h
    · cases Option.some.inj h
      exact (enter_dying _ j count).trans (Bool.or_false _).symm
    · cases h
  · rename_i fd added
    obtain rfl : added = true := hbenign
    split at h
    · cases Option.some.inj h
      exact (Bool.or_false _).symm
    · cases h
  · rename_i fd added
    obtain rfl : added = true := hbenign
    split at h
    · cases Option.some.inj h
      exact (Bool.or_true _).symm
    · cases h

theorem connecting_dying {x : Connected} (hbenign : (Input.connected x).benign = true) :
    (s.connecting o j count x).dying = s.dying := by
  cases x with
  | ok => exact enter_dying _ j count
  | _ => cases hbenign

theorem new_dying : (s.new o j count true).dying = s.dying := enter_dying _ j count

theorem ready_dying {ret : Option ℕ} (h : s.ready o j count cursor ret = some s') :
    s'.dying = (s.dying || (Input.send ret).refused) := by
  simp only [ready] at h
  split at h
  · cases Option.some.inj h
    exact (Bool.or_true _).symm
  · have hdying : s.dying = (s.dying || false) := (Bool.or_false _).symm
    split at h
    · cases Option.some.inj h
      exact hdying
    · split at h
      · cases Option.some.inj h
        exact hdying
      · cases h

theorem sent_dying {ret : Received} (hbenign : (Input.recv ret).benign = true)
    (h : s.sent o j count cursor ret = some (s', out)) : s'.dying = s.dying := by
  have hreceived : ∀ {t : Worker n} {k : ℕ}, t.dying = s.dying →
      t.received o j count k = (s', out) → s'.dying = s.dying := by
    intro t k hsame ht
    have hdying := t.received_dying (o := o) j count k
    rw [ht, hsame] at hdying
    exact hdying
  simp only [sent] at h
  split at h
  · exact hreceived (by rfl) (Option.some.inj h)
  · cases hbenign
  · split at h
    · cases Option.some.inj h
      rfl
    · split at h
      · exact hreceived (by rfl) (Option.some.inj h)
      · cases h

theorem run_dying (h : s.run o = some s') : s'.dying = s.dying := by
  rw [run] at h
  split at h
  · cases Option.some.inj h
    exact enter_dying _ _ 0
  · split at h
    · cases h
    · cases Option.some.inj h
      rfl
  · cases h

theorem epollWaitEnds_dying (h : s.epollWaitEnds o false = some s') : s'.dying = s.dying := by
  rw [epollWaitEnds] at h
  split at h
  · split at h
    · cases Option.some.inj h
      rfl
    · cases h
  · cases h

theorem epollWait_dying {fds : List ℤ} (h : s.epollWait o fds = some s') :
    s'.dying = s.dying := by
  rw [epollWait] at h
  split at h
  · split at h
    · cases Option.some.inj h
      rfl
    · cases h
  · cases h

theorem doStateTransition_dying (hbenign : a.benign = true)
    (h : s.doStateTransition o a = some (s', out)) : s'.dying = (s.dying || a.refused) := by
  rw [doStateTransition] at h
  split at h
  · split at h
    · exact init_dying hbenign h
    · cases h
      exact (connecting_dying hbenign).trans (Bool.or_false _).symm
    · rename_i ok _
      obtain rfl : ok = true := hbenign
      cases h
      exact new_dying.trans (Bool.or_false _).symm
    · obtain ⟨t, ht, hpair⟩ := Option.map_eq_some_iff.mp h
      cases hpair
      exact ready_dying ht
    · exact (sent_dying hbenign h).trans (Bool.or_false _).symm
    · cases h
  · cases h

/-- While no call fails for good, a worker is dying from the first refusal on. -/
theorem step_dying (hbenign : a.benign = true) (h : s.step o a = some (s', out)) :
    s'.dying = (s.dying || a.refused) := by
  cases a with
  | run =>
      obtain ⟨t, ht, hpair⟩ := Option.map_eq_some_iff.mp h
      cases hpair
      exact (run_dying ht).trans (Bool.or_false _).symm
  | wait fds =>
      obtain ⟨t, ht, hpair⟩ := Option.map_eq_some_iff.mp h
      cases hpair
      exact (epollWait_dying ht).trans (Bool.or_false _).symm
  | timeout =>
      obtain ⟨t, ht, hpair⟩ := Option.map_eq_some_iff.mp h
      cases hpair
      exact (epollWaitEnds_dying ht).trans (Bool.or_false _).symm
  | waitFailed => cases hbenign
  | setDying => cases hbenign
  | _ => exact doStateTransition_dying hbenign h

end Refusals

end Worker

/-! ## The process -/

variable {s t : Fin m → Worker n} {a : Fin m × Input} {out : Output n} {w : Fin m}

/-- What worker `w` did. -/
def own (w : Fin m) (tr : List ((Fin m × Input) × Output n)) : List (Input × Output n) :=
  (tr.filter fun x => x.1.1 = w).map fun x => (x.1.2, x.2)

theorem own_self (tr : List ((Fin m × Input) × Output n)) (x : Input) (out : Output n) :
    own w (tr ++ [((w, x), out)]) = own w tr ++ [(x, out)] := by
  simp [own]

theorem own_other {v : Fin m} (h : v ≠ w) (tr : List ((Fin m × Input) × Output n)) (x : Input)
    (out : Output n) : own w (tr ++ [((v, x), out)]) = own w tr := by
  simp [own, h]

/-- The spec of a step: the worker takes it, and `set_dying` is for all of them. -/
theorem processStep_spec (h : processStep o s a = some (t, out)) :
    ∃ me, (s a.1).step o a.2 = some (me, out) ∧ t =
      (if me.dying then fun w => (Function.update s a.1 me w).setDying
        else Function.update s a.1 me) := by
  rw [processStep] at h
  split at h
  · cases h
  · obtain ⟨⟨me, x⟩, hstep, hpair⟩ := Option.map_eq_some_iff.mp h
    cases hpair
    exact ⟨me, hstep, rfl⟩

/-- While no call fails for good, all workers are dying from the first refusal on. -/
theorem process_dying {tr : List ((Fin m × Input) × Output n)}
    (h : (process m n o).Reaches tr s) (hbenign : ∀ x ∈ tr, x.1.2.benign = true) :
    ∀ w, (s w).dying = tr.any fun x => x.1.2.refused := by
  induction h with
  | init hs =>
      intro w
      exact (hs w).2.dying
  | @step tr s t a out _ hlast ih =>
      have hbefore := ih fun x hx => hbenign x (List.mem_append_left _ hx)
      have ha : a.2.benign = true := hbenign (a, out) (by simp)
      obtain ⟨me, hstep, rfl⟩ := processStep_spec hlast
      have hme : me.dying = (tr ++ [(a, out)]).any fun x => x.1.2.refused := by
        rw [Worker.step_dying ha hstep, hbefore a.1, List.any_append]
        simp
      intro w
      rw [← hme]
      cases hdying : me.dying with
      | true => rfl
      | false =>
          simp only [Bool.false_eq_true, if_false]
          by_cases hw : w = a.1
          · rw [hw, Function.update_self, hdying]
          · rw [Function.update_of_ne hw, hbefore w]
            rw [hdying, List.any_append] at hme
            exact (Bool.or_eq_false_iff.mp hme.symm).1

/-- A step that leaves all workers alive is one of a worker on its own. -/
theorem processStep_alive (h : processStep o s a = some (t, out))
    (hdying : ∀ w, (t w).dying = false) :
    (s a.1).step o a.2 = some (t a.1, out) ∧ (∀ w, w ≠ a.1 → t w = s w) ∧
      ∀ w, (s w).dying = false := by
  obtain ⟨me, hstep, ht⟩ := processStep_spec h
  cases hme : me.dying with
  | true =>
      rw [if_pos hme] at ht
      have hset : (t a.1).dying = true := by
        rw [ht]
        rfl
      cases hset.symm.trans (hdying a.1)
  | false =>
      rw [hme, if_neg Bool.false_ne_true] at ht
      have hself : t a.1 = me := by rw [ht, Function.update_self]
      have hother : ∀ w, w ≠ a.1 → t w = s w := by
        intro w hw
        rw [ht, Function.update_of_ne hw]
      refine ⟨?_, hother, ?_⟩
      · rw [hself]
        exact hstep
      · intro w
        by_cases hw : w = a.1
        · rw [hw, ← (Worker.step_spec hstep hme).dying, hme]
        · rw [← hother w hw]
          exact hdying w

/-- Each of the workers that are alive has made a run of its own. -/
theorem process_own {tr : List ((Fin m × Input) × Output n)}
    (h : (process m n o).Reaches tr s) (hdying : ∀ w, (s w).dying = false) (w : Fin m) :
    (worker n o).Reaches (own w tr) (s w) := by
  induction h with
  | init hs => exact .init (hs w).2
  | @step tr s t a out _ hlast ih =>
      obtain ⟨hstep, hother, hbefore⟩ := processStep_alive hlast hdying
      obtain ⟨v, x⟩ := a
      by_cases hw : v = w
      · subst hw
        rw [own_self]
        exact (ih hbefore).step hstep
      · rw [own_other hw, hother w (Ne.symm hw)]
        exact ih hbefore

/-- Whenever a client entered `SENT`, its whole request had been handed to the kernel. -/
def WholeRequests (o : Options) (tr : List ((Fin m × Input) × Output n)) : Prop :=
  ∀ pre a out post s t, tr = pre ++ (a, out) :: post → (process m n o).Reaches pre s →
    (process m n o).step s a = some (t, out) → ∀ w j, ((s w).clients j).state ≠ .sent →
      ((t w).clients j).state = .sent →
        handed (own w (pre ++ [(a, out)])) = ((t w).clients j).bufSize

/-- As long as no call fails for good, no worker is dying and all requests are whole just
when the kernel has refused no `send` and no `connect`. -/
theorem whole_iff {tr : List ((Fin m × Input) × Output n)}
    (h : (process m n o).Reaches tr s) (hbenign : ∀ x ∈ tr, x.1.2.benign = true) (w : Fin m) :
    ((s w).dying = false ∧ WholeRequests o tr) ↔ ∀ x ∈ tr, x.1.2.refused = false := by
  have hdying := process_dying h hbenign
  constructor
  · rintro ⟨halive, -⟩ x hx
    rw [hdying w, List.any_eq_false] at halive
    exact Bool.eq_false_iff.mpr (halive x hx)
  · intro hrefused
    refine ⟨?_, ?_⟩
    · rw [hdying w, List.any_eq_false]
      intro x hx
      exact Bool.eq_false_iff.mp (hrefused x hx)
    · intro pre a out post u v htr hpre hstep w j hbefore hafter
      have hsub : ∀ x ∈ pre ++ [(a, out)], x ∈ tr := by
        intro x hx
        rw [htr]
        simp only [List.mem_append, List.mem_cons] at hx ⊢
        tauto
      have hnext : (process m n o).Reaches (pre ++ [(a, out)]) v := hpre.step hstep
      have halive : ∀ w, (v w).dying = false := by
        intro w
        rw [process_dying hnext (fun x hx => hbenign x (hsub x hx)) w, List.any_eq_false]
        intro x hx
        exact Bool.eq_false_iff.mp (hrefused x (hsub x hx))
      obtain ⟨hown, hother, hlive⟩ := processStep_alive hstep halive
      obtain ⟨i, x⟩ := a
      by_cases hw : w = i
      · subst hw
        have hsends := Worker.reaches_sends (process_own hpre hlive w) (hlive w)
        rw [own_self]
        exact (Worker.step_spec hown (halive w)).enters_sent hsends hbefore hafter
      · rw [hother w hw] at hafter
        exact absurd hafter hbefore

/-! ## Requests of two bytes -/

def twoWorkers (w : Fin 2) : Worker 1 := { twoByteClient with index := w.val }

theorem twoWorkers_start : (process 2 1 twoBytes).Init twoWorkers := fun _ =>
  ⟨rfl, fun _ => ⟨[7, 8], rfl, rfl⟩, fun _ => rfl, ⟨rfl, rfl⟩, rfl, rfl, rfl, rfl⟩

/-- What worker `w` does up to its first `send`, which takes one byte. -/
def firstByte (w : Fin m) : List (Fin m × Input) :=
  [(w, .run), (w, .connect (.inProgress 5 true)), (w, .wait [5]), (w, .run),
    (w, .connected .ok), (w, .add true), (w, .send (some 1))]

def bothBytes (w : Fin m) : List (Fin m × Input) := firstByte w ++ [(w, .send (some 1))]

theorem bothBytes_runs :
    ((process 2 1 twoBytes).exec twoWorkers (bothBytes 0)).isSome := by decide

theorem whole_iff_bothBytes :
    ∃ tr s, (process 2 1 twoBytes).Reaches tr s ∧ ((s 0).clients 0).state = .sent ∧
      (s 0).dying = false ∧ WholeRequests twoBytes tr := by
  have hreach := Machine.reaches_exec_get twoWorkers_start bothBytes_runs
  have hwhole := (whole_iff hreach (by decide) 0).mpr (by decide)
  exact ⟨_, _, hreach, rfl, hwhole⟩

theorem firstByte_runs :
    ((process 2 1 twoBytes).exec twoWorkers (firstByte 0)).isSome := by decide

/-- The socket buffer has room for one byte only: the client is in `SENT` then, and all
workers are dying. -/
theorem not_whole :
    ∃ tr s, (process 2 1 twoBytes).Reaches tr s ∧ (∀ x ∈ tr, x.1.2.benign = true) ∧
      (s 1).dying = true ∧ ¬ WholeRequests twoBytes tr := by
  have hpre := Machine.reaches_exec_get twoWorkers_start firstByte_runs
  have hreach := hpre.step (a := (0, .send none)) rfl
  refine ⟨_, _, hreach, by decide, rfl, ?_⟩
  intro h
  have hhanded := h _ (0, .send none) .silent [] _ _ rfl hpre rfl 0 0 (by decide) rfl
  revert hhanded
  decide

end Upcalls.TcpClient
