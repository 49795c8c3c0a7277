import Upcalls.Verification.IoUring.Deeds

/-! # Failed requests and the hand-off

A failed accept ends the process when its completion is handled. Up to then the hand-off of
the connections goes on as if that completion were not there.
-/

namespace Upcalls.IoUring

open Library TcpEcho

variable {n msgSize : ℕ}

/-- Not the completion of an accept that has failed. -/
def Cqe.granted (c : Cqe n) : Bool := c.info ≠ .accept ∨ 0 ≤ c.res

/-- The worker without the completions of accepts that have failed. -/
def Worker.clean (me : Worker n) : Worker n := { me with cq := me.cq.filter (·.granted) }

def Server.clean (s : Server n) : Server n := ⟨fun w => (s.worker w).clean, s.shared⟩

namespace Cqe

theorem granted_of_ne {info : Req n} (h : info ≠ .accept) (res : ℤ) :
    (⟨info, res⟩ : Cqe n).granted = true :=
  decide_eq_true (.inl h)

theorem granted_of_nonneg {res : ℤ} (h : 0 ≤ res) (info : Req n) :
    (⟨info, res⟩ : Cqe n).granted = true :=
  decide_eq_true (.inr h)

theorem granted_accept {res : ℤ} (h : res < 0) : (⟨.accept, res⟩ : Cqe n).granted = false := by
  refine decide_eq_false ?_
  rintro (hne | hge)
  · exact hne rfl
  · exact Int.not_lt.mpr hge h

end Cqe

namespace Worker

theorem clean_cons {me : Worker n} {c : Cqe n} {cq : List (Cqe n)} (h : me.cq = c :: cq)
    (hc : c.granted = true) : me.clean.cq = c :: cq.filter (·.granted) := by
  rw [clean, h]
  exact List.filter_cons_of_pos hc

theorem clean_answer (me : Worker n) (i : ℕ) {info : Req n} {res : ℤ}
    (h : (⟨info, res⟩ : Cqe n).granted = true) :
    (Server.answer me i info res).clean = Server.answer me.clean i info res := by
  rw [clean, Server.answer, Server.answer, clean]
  congr 1
  rw [List.filter_append, List.filter_cons_of_pos h]
  rfl

theorem clean_refuse {me : Worker n} {i : ℕ} {res : ℤ} (h : res < 0) :
    (Server.answer me i .accept res).clean =
      { me.clean with kernel := me.kernel.eraseIdx i } := by
  have hdrop : ¬ (⟨.accept, res⟩ : Cqe n).granted = true := by
    rw [Cqe.granted_accept h]
    exact Bool.false_ne_true
  rw [clean, Server.answer, clean]
  congr 1
  rw [List.filter_append, List.filter_cons_of_neg hdrop, List.filter_nil, List.append_nil]

end Worker

namespace Server

open Team

variable {s s' : Server n} {w : Fin n} {o : Output n}

theorem clean_set (s : Server n) (w : Fin n) (me : Worker n) (t : Table) :
    Server.clean ((s.set w me).share t) = (s.clean.set w me.clean).share t := by
  rw [clean, share, share]
  congr 1
  funext v
  rw [set_worker]
  split
  · rename_i hv
    rw [hv, set_worker_self]
  · rename_i hv
    rw [set_worker_ne _ _ hv]
    rfl

theorem clean_deliver (s : Server n) (owner : Fin n) (items : List ℤ) (k : ℕ) :
    Server.clean (s.modify owner (deliver items k)) = s.clean.modify owner (deliver items k) :=
  clean_set s owner _ s.shared

theorem accepted_nonneg {i : ℕ} {fd : ℤ} (hinfo : (s.worker w).kernel[i]? = some .accept)
    (h : s.complete w i fd = some (s', o)) : 0 ≤ fd := by
  simp only [complete, hinfo, Option.bind_eq_bind, Option.bind_some] at h
  obtain ⟨table, htable, -⟩ := Option.bind_eq_some_iff.mp h
  rw [Table.accept] at htable
  split at htable
  · rename_i hfd
    exact hfd.1
  · cases htable

theorem assigned_nonneg {cpu : Fin n} {fd : ℤ} {cq : List (Cqe n)}
    (hpc : (s.worker w).pc = .loop) (hcq : (s.worker w).cq = ⟨.accept, fd⟩ :: cq)
    (h : s.accept w cpu = some (s', o)) : 0 ≤ fd := by
  simp only [accept, hpc, hcq] at h
  split at h
  · cases h
  · rename_i hfd
    exact Int.not_lt.mp hfd

theorem Stepped.to {t : Server n} {a : Input n} (ht : s' = t) (h : Stepped s a t o) :
    Stepped s a s' o := by
  rw [ht]
  exact h

/-- A step of the server is one without the failed accepts. -/
theorem clean_stepped {a : Input n} (h : s.step msgSize a = some (s', o)) :
    Stepped s.clean a s'.clean o := by
  cases step_spec h with
  | accepted hinfo hfd =>
      refine Stepped.to (clean_set s _ _ _) ?_
      rw [Worker.clean_answer _ _ (Cqe.granted_of_nonneg (accepted_nonneg hinfo h) _)]
      exact .accepted hinfo hfd
  | @taken w i res hinfo hpos =>
      have hclean := Worker.clean_answer (s.worker w) i
        (Cqe.granted_of_ne (show Req.evRead ≠ Req.accept by simp) res)
      refine Stepped.to (clean_set s _ _ s.shared) ?_
      have hmark : ∀ me : Worker n, Worker.clean { me with counter := 0 } =
          { me.clean with counter := 0 } := fun me => rfl
      rw [hmark, hclean]
      exact .taken hinfo hpos
  | @rung w i res owner hinfo =>
      have hclean := Worker.clean_answer (s.worker w) i
        (Cqe.granted_of_ne (show Req.evWrite owner ≠ Req.accept by simp) res)
      refine Stepped.to (clean_deliver _ owner [] 1) ?_
      rw [show Server.clean (s.set w (answer (s.worker w) i (.evWrite owner) res)) =
        s.clean.set w (answer (s.worker w) i (.evWrite owner) res).clean
        from clean_set s w _ s.shared, hclean]
      exact .rung hinfo
  | moved hinfo hsock =>
      refine Stepped.to (clean_set s _ _ s.shared) ?_
      rw [Worker.clean_answer _ _ (Cqe.granted_of_ne hsock.ne_accept _)]
      exact .moved hinfo hsock
  | assigned hpc hcq hnext =>
      refine Stepped.to (clean_set s _ _ s.shared) ?_
      have hfd := assigned_nonneg hpc hcq h
      exact .assigned hpc (Worker.clean_cons hcq (Cqe.granted_of_nonneg hfd _)) hnext
  | woken hpc =>
      refine Stepped.to (clean_set s _ _ s.shared) ?_
      exact .woken hpc
  | submitted hpc =>
      refine Stepped.to (clean_set s _ _ s.shared) ?_
      exact .submitted hpc
  | answered hpc hcq =>
      refine Stepped.to (clean_set s _ _ s.shared) ?_
      exact .answered hpc (Worker.clean_cons hcq (Cqe.granted_of_ne (by simp) _))
  | freed hpc hcq =>
      refine Stepped.to (clean_set s _ _ s.shared) ?_
      exact .freed hpc (Worker.clean_cons hcq (Cqe.granted_of_ne (by simp) _))
  | resumed hpc hcq hinfo hfd hreq =>
      refine Stepped.to (clean_set s _ _ _) ?_
      exact .resumed hpc (Worker.clean_cons hcq (Cqe.granted_of_ne hinfo.ne_accept _)) hinfo hfd
        hreq
  | closed hpc hcq hinfo hp =>
      refine Stepped.to (clean_set s _ _ _) ?_
      exact .closed hpc (Worker.clean_cons hcq (Cqe.granted_of_ne hinfo.ne_accept _)) hinfo hp
  | installed hpc hnew hfd hnext =>
      refine Stepped.to (clean_set s _ _ _) ?_
      exact .installed hpc hnew hfd hnext
  | @pushed w fd owner hpc =>
      refine Stepped.to (clean_deliver _ owner [fd] 0) ?_
      rw [show Server.clean (s.set w { s.worker w with pc := .notify owner }) =
        s.clean.set w { s.clean.worker w with pc := .notify owner }
        from clean_set s w _ s.shared]
      exact .pushed hpc
  | notified hpc =>
      refine Stepped.to (clean_set s _ _ s.shared) ?_
      exact .notified hpc
  | drained hpc hnil =>
      refine Stepped.to (clean_set s _ _ s.shared) ?_
      exact .drained hpc hnil
  | popped hpc hcons =>
      refine Stepped.to (clean_set s _ _ s.shared) ?_
      exact .popped hpc hcons

/-- A failed request leaves every descriptor where it is. -/
theorem clean_fail {tr : List (Input n × Output n)} (hs : s.clean.Inv tr) {i : ℕ} {res : ℤ}
    (h : s.fail w i res = some (s', o)) : ∃ tr', s'.clean.Inv tr' := by
  rw [fail] at h
  obtain ⟨info, hinfo, h⟩ := Option.bind_eq_some_iff.mp h
  split at h
  · rename_i hneg
    cases Option.some.inj h
    have hset : Server.clean (s.set w (answer (s.worker w) i info res)) =
        (s.clean.set w (answer (s.worker w) i info res).clean).share s.shared :=
      clean_set s w _ s.shared
    refine ⟨tr ++ [(.run w, .silent)], ?_⟩
    refine Eq.mpr (congrArg (Inv _) hset) (hs.idle ?_ rfl rfl hs.filed _)
    by_cases haccept : info = .accept
    · rw [haccept, Worker.clean_refuse hneg]
      exact ⟨fun _ => rfl, rfl, fun _ _ => rfl, fun _ => rfl, fun _ => rfl, rfl⟩
    · rw [Worker.clean_answer _ _ (Cqe.granted_of_ne haccept res)]
      exact ⟨Worker.fresh_answer_ne i haccept res, rfl, fun _ _ => rfl, fun _ => rfl,
        fun _ => rfl, rfl⟩
  · cases h

theorem clean_attempt {tr : List (Input n × Output n)} (hs : s.clean.Inv tr) {a : Attempt n}
    (h : s.attempt msgSize a = some (s', o)) : ∃ tr', s'.clean.Inv tr' := by
  cases a with
  | act a => exact ⟨_, hs.stepped (clean_stepped h)⟩
  | fail w i res => exact clean_fail hs h

/-- A connection knows its descriptor, has a record of its own, and is installed where there
is none. -/
structure Placed (s : Server n) : Prop where
  live : ∀ {fd p}, s.shared.conns fd = some p → (s.shared.conn p).fd = fd
  single : ∀ {fd g p}, s.shared.conns fd = some p → s.shared.conns g = some p → fd = g
  vacant : ∀ {w fd}, (s.worker w).pc.holds fd = 1 → s.shared.conns fd = none

theorem Inv.placed {tr : List (Input n × Output n)} (h : s.clean.Inv tr) : s.Placed where
  live hp := h.filed.live hp
  single hp hq := h.filed.separated.single hp hq
  vacant := by
    intro w fd hholds
    have hheld := h.held fd
    have hle := le_tally (fun me : Worker n => me.custody fd) s.clean w
    have hone : 1 ≤ (s.clean.worker w).custody fd := by
      rw [Worker.custody]
      exact Nat.le_trans (Nat.le_of_eq hholds.symm) (Nat.le_add_left _ _)
    have hpresent : present s.shared fd = 0 := by
      rw [Server.held] at hheld
      have hshared : s.clean.shared = s.shared := rfl
      rw [hshared] at hheld
      split at hheld <;> omega
    rw [present] at hpresent
    split at hpresent
    · cases hpresent
    · rename_i hnone
      exact Option.not_isSome_iff_eq_none.mp hnone

theorem Start.clean (h : s.Start) : s.clean.Inv [] := by
  have heq : s.clean = s := by
    have hworker : (fun w => (s.worker w).clean) = s.worker := by
      funext w
      rw [Worker.clean, h.cq]
      have hcq := h.cq w
      exact congrArg (fun cq => { s.worker w with cq := cq }) hcq.symm
    rw [Server.clean, hworker]
  rw [heq]
  exact inv_start h

end Server

end Upcalls.IoUring
