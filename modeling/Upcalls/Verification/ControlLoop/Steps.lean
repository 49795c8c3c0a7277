import Upcalls.Model.ControlLoop

/-! # The steps of the control loop

What is at hand at each point of the loop and its handlers, and what each step keeps of it.
-/

namespace Upcalls.ControlLoop

open Library

variable {l : Listeners} {s t : Control} {a : Input} {o : Output} {refused : List ℕ}

/-! ## What a step does -/

/-- The steps one by one. -/
inductive Moves (l : Listeners) (s : Control) : Input → Control → Output → Prop
  | wait {fd err} : s.pc = .epollWait → fd ∈ s.registered →
      (err = false → fd = l.statsFd ∨ fd = l.errorFd) →
      Moves l s (.wait fd err) { s with pc := Control.dispatch l fd err } .silent
  | waitFails : s.pc = .epollWait → Moves l s .waitFails { s with pc := .exited } .silent
  | accept {h out} : s.pc = .accept h → s.table out = .closed →
      Moves l s (.accept (some out))
        { s with
          pc := if h = .onStats then .add h out else .print out
          table := Function.update s.table out (.accepted (h = .onError) false) }
        (.accepted out)
  | acceptFails {h} : s.pc = .accept h →
      Moves l s (.accept none)
        { s with pc := if h = .onStats then .exited else .epollWait } .silent
  | print {out dangling} : s.pc = .print out →
      Moves l s (.print dangling)
        { s with pc := if dangling then .add .onError out else .close out } .silent
  | add {h out ok} : s.pc = .add h out →
      Moves l s (.add ok)
        { pc := .write h out
          table := Function.update s.table out (.accepted true false)
          registered := if ok then out :: s.registered else s.registered }
        (if ok then .silent else .refused out)
  | write {h out} : s.pc = .write h out →
      Moves l s (.write true)
        { s with
          pc := .epollWait
          table := Function.update s.table out (.accepted true true) } .silent
  | statsFails {out} : s.pc = .write .onStats out →
      Moves l s (.write false)
        { pc := .exited
          table := Function.update s.table out .closed
          registered := s.registered.erase out }
        (.closed out (s.table out))
  | errorFails {out} : s.pc = .write .onError out →
      Moves l s (.write false) { s with pc := .exited } .silent
  | del {fd} : s.pc = .del fd →
      Moves l s .del { s with pc := .close fd, registered := s.registered.erase fd } .silent
  | close {fd} : s.pc = .close fd →
      Moves l s .close
        { s with pc := .epollWait, table := Function.update s.table fd .closed }
        (.closed fd (s.table fd))
  | workerOpens {fd} : s.pc ≠ .exited → s.table fd = .closed →
      Moves l s (.workerOpens fd) { s with table := Function.update s.table fd .worker } .silent
  | workerCloses {fd} : s.pc ≠ .exited → s.table fd = .worker →
      Moves l s (.workerCloses fd) { s with table := Function.update s.table fd .closed } .silent

theorem moves_of_step (h : s.step l a = some (t, o)) : Moves l s a t o := by
  cases a with
  | wait fd err =>
      rw [Control.step, Control.wait] at h
      split at h
      · rename_i hguard
        cases h
        exact .wait hguard.1 hguard.2.1 hguard.2.2
      · cases h
  | waitFails =>
      rw [Control.step, Control.waitFails] at h
      split at h
      · rename_i hpc
        cases h
        exact .waitFails hpc
      · cases h
  | accept ret =>
      rw [Control.step] at h
      unfold Control.accept at h
      split at h
      · rename_i hpc
        split at h
        · rename_i hclosed
          cases h
          exact .accept hpc hclosed
        · cases h
      · rename_i hpc
        cases h
        exact .acceptFails hpc
      · rename_i hpc
        cases h
        exact .acceptFails hpc
      · cases h
  | print dangling =>
      rw [Control.step, Control.print] at h
      split at h
      · rename_i hpc
        cases h
        exact .print hpc
      · cases h
  | add ok =>
      rw [Control.step, Control.add] at h
      split at h
      · rename_i hpc
        cases h
        exact .add hpc
      · cases h
  | write ok =>
      rw [Control.step] at h
      unfold Control.write at h
      split at h
      · rename_i hpc
        cases h
        exact .write hpc
      · rename_i hpc
        cases h
        exact .statsFails hpc
      · rename_i hpc
        cases h
        exact .errorFails hpc
      · cases h
  | del =>
      rw [Control.step, Control.del] at h
      split at h
      · rename_i hpc
        cases h
        exact .del hpc
      · cases h
  | close =>
      rw [Control.step, Control.close] at h
      split at h
      · rename_i hpc
        cases h
        exact .close hpc
      · cases h
  | workerOpens fd =>
      rw [Control.step, Control.workerOpens] at h
      split at h
      · rename_i hguard
        cases h
        exact .workerOpens hguard.1 hguard.2
      · cases h
  | workerCloses fd =>
      rw [Control.step, Control.workerCloses] at h
      split at h
      · rename_i hguard
        cases h
        exact .workerCloses hguard.1 hguard.2
      · cases h

/-! ## The invariant -/

/-- The connections of `main`. -/
def Slot.isAccepted : Slot → Bool
  | .accepted _ _ => true
  | _ => false

/-- The descriptor that `main` works on outside of the set behind `epoll_fd`. -/
def Pc.hand : Pc → Option ℕ
  | .print out | .add _ out | .write _ out | .close out => some out
  | _ => none

/-- A connection that can neither be reported nor was refused. -/
def Loose (s : Control) (refused : List ℕ) (fd : ℕ) : Prop :=
  fd ∉ s.registered ∧ fd ∉ refused

/-- What is known of the descriptor at hand. -/
def AtHand (l : Listeners) (s : Control) (refused : List ℕ) : Pc → Prop
  | .print out => s.table out = .accepted true false ∧ Loose s refused out
  | .add h out => s.table out = .accepted (h = .onError) false ∧ Loose s refused out
  | .write _ out => s.table out = .accepted true false ∧ (out ∈ s.registered ∨ out ∈ refused)
  | .del fd => fd ∈ s.registered ∧ fd ≠ l.statsFd ∧ fd ≠ l.errorFd
  | .close fd => (∃ wr, s.table fd = .accepted true wr) ∧ Loose s refused fd
  | _ => True

/-- `refused` are the connections that `EPOLL_CTL_ADD` has failed for. -/
structure Inv (l : Listeners) (s : Control) (refused : List ℕ) : Prop where
  stats : s.table l.statsFd = .fixed
  error : s.table l.errorFd = .fixed
  nodup : s.registered.Nodup
  listeners : l.statsFd ∈ s.registered ∧ l.errorFd ∈ s.registered
  registered : ∀ fd ∈ s.registered,
    fd = l.statsFd ∨ fd = l.errorFd ∨ (s.table fd).isAccepted = true
  failed : s.pc ≠ .exited →
    ∀ fd ∈ refused, (s.table fd).isAccepted = true ∧ fd ∉ s.registered
  hand : AtHand l s refused s.pc
  settled : s.pc ≠ .exited → ∀ fd, (s.table fd).isAccepted = true → s.pc.hand ≠ some fd →
    s.table fd = .accepted true true ∧ (fd ∈ s.registered ∨ fd ∈ refused)

section Inv

variable {fd out : ℕ} {slot : Slot}

theorem Inv.ne_listener (h : Inv l s refused) (hfd : s.table fd ≠ .fixed) :
    fd ≠ l.statsFd ∧ fd ≠ l.errorFd :=
  ⟨fun heq => hfd (heq ▸ h.stats), fun heq => hfd (heq ▸ h.error)⟩

/-- A descriptor that is no connection is loose. -/
theorem Inv.loose_of_not_accepted (h : Inv l s refused) (halive : s.pc ≠ .exited)
    (hfixed : s.table fd ≠ .fixed) (hfd : (s.table fd).isAccepted = false) :
    Loose s refused fd := by
  obtain ⟨hstats, herror⟩ := h.ne_listener hfixed
  refine ⟨?_, ?_⟩
  · intro hmem
    rcases h.registered fd hmem with heq | heq | haccepted
    · exact hstats heq
    · exact herror heq
    · rw [hfd] at haccepted
      cases haccepted
  · intro hmem
    have haccepted := (h.failed halive fd hmem).1
    rw [hfd] at haccepted
    cases haccepted

/-- A step that moves `main` only. -/
theorem Inv.goTo (h : Inv l s refused) {pc : Pc} (hhand : AtHand l s refused pc)
    (hpc : pc ≠ .exited → s.pc ≠ .exited ∧ ∀ fd, pc.hand ≠ some fd → s.pc.hand ≠ some fd) :
    Inv l { s with pc := pc } refused where
  stats := h.stats
  error := h.error
  nodup := h.nodup
  listeners := h.listeners
  registered := h.registered
  failed hne := h.failed (hpc hne).1
  hand := hhand
  settled hne fd hfd hnot := h.settled (hpc hne).1 fd hfd ((hpc hne).2 fd hnot)

/-- A step that changes what is known of one descriptor, which is no listening socket. -/
theorem Inv.change (h : Inv l s refused) {refused' : List ℕ} (hfixed : s.table fd ≠ .fixed)
    (hother : ∀ x, x ≠ fd → t.table x = s.table x ∧ (x ∈ t.registered ↔ x ∈ s.registered) ∧
      (x ∈ refused' ↔ x ∈ refused))
    (hnodup : t.registered.Nodup)
    (hself : fd ∈ t.registered ∨ fd ∈ refused' → (t.table fd).isAccepted = true)
    (hapart : fd ∈ refused' → fd ∉ t.registered)
    (hhand : AtHand l t refused' t.pc)
    (hpc : s.pc ≠ .exited ∧ ∀ x, x ≠ fd → t.pc.hand ≠ some x → s.pc.hand ≠ some x)
    (hsettled : (t.table fd).isAccepted = true → t.pc.hand ≠ some fd →
      t.table fd = .accepted true true ∧ (fd ∈ t.registered ∨ fd ∈ refused')) :
    Inv l t refused' := by
  obtain ⟨hstats, herror⟩ := h.ne_listener hfixed
  obtain ⟨hstats, hstats', -⟩ := hother _ hstats.symm
  obtain ⟨herror, herror', -⟩ := hother _ herror.symm
  refine ⟨hstats.trans h.stats, herror.trans h.error, hnodup,
    ⟨hstats'.mpr h.listeners.1, herror'.mpr h.listeners.2⟩, ?_, ?_, hhand, ?_⟩
  · intro x hx
    by_cases hxfd : x = fd
    · rw [hxfd] at hx ⊢
      exact .inr (.inr (hself (.inl hx)))
    · obtain ⟨htable, hregistered, -⟩ := hother x hxfd
      rw [htable]
      exact h.registered x (hregistered.mp hx)
  · intro _ x hx
    by_cases hxfd : x = fd
    · rw [hxfd] at hx ⊢
      exact ⟨hself (.inr hx), hapart hx⟩
    · obtain ⟨htable, hregistered, hrefused⟩ := hother x hxfd
      rw [htable, hregistered]
      exact h.failed hpc.1 x (hrefused.mp hx)
  · intro _ x hx hnot
    by_cases hxfd : x = fd
    · rw [hxfd] at hx hnot ⊢
      exact hsettled hx hnot
    · obtain ⟨htable, hregistered, hrefused⟩ := hother x hxfd
      rw [htable] at hx ⊢
      rw [hregistered, hrefused]
      exact h.settled hpc.1 x hx (hpc.2 x hxfd hnot)

/-! ## Each step keeps it -/

theorem Inv.wait (h : Inv l s refused) {err : Bool} (hpc : s.pc = .epollWait)
    (hmem : fd ∈ s.registered) : Inv l { s with pc := Control.dispatch l fd err } refused := by
  refine h.goTo ?_ fun _ => ?_
  · rw [Control.dispatch]
    split
    · split
      · trivial
      · rename_i hother
        exact ⟨hmem, not_or.mp hother⟩
    · split
      · trivial
      · split <;> trivial
  · rw [hpc]
    exact ⟨Pc.noConfusion, fun x _ => (Option.some_ne_none x).symm⟩

theorem Inv.accept (h : Inv l s refused) {g : Handler} (hpc : s.pc = .accept g)
    (hclosed : s.table out = .closed) :
    Inv l { s with
      pc := if g = .onStats then .add g out else .print out
      table := Function.update s.table out (.accepted (g = .onError) false) } refused := by
  have hfixed : s.table out ≠ .fixed := by
    rw [hclosed]
    exact Slot.noConfusion
  have hloose := h.loose_of_not_accepted (by rw [hpc]; exact Pc.noConfusion) hfixed
    (by rw [hclosed]; rfl)
  refine h.change hfixed ?_ h.nodup ?_ ?_ ?_ ?_ ?_
  · exact fun x hx => ⟨Function.update_of_ne hx _ _, Iff.rfl, Iff.rfl⟩
  · intro _
    dsimp only
    rw [Function.update_self]
    rfl
  · exact fun _ => hloose.1
  · cases g with
    | onStats => exact ⟨Function.update_self .., hloose⟩
    | onError => exact ⟨Function.update_self .., hloose⟩
  · rw [hpc]
    exact ⟨Pc.noConfusion, fun x _ _ => (Option.some_ne_none x).symm⟩
  · intro _ hnot
    cases g with
    | onStats => exact (hnot rfl).elim
    | onError => exact (hnot rfl).elim

theorem Inv.print (h : Inv l s refused) {dangling : Bool} (hpc : s.pc = .print out) :
    Inv l { s with pc := if dangling then .add .onError out else .close out } refused := by
  have hhand := h.hand
  rw [hpc] at hhand
  obtain ⟨hslot, hloose⟩ := hhand
  refine h.goTo ?_ fun _ => ?_
  · cases dangling with
    | true => exact ⟨hslot, hloose⟩
    | false => exact ⟨⟨false, hslot⟩, hloose⟩
  · rw [hpc]
    refine ⟨Pc.noConfusion, fun x hx => ?_⟩
    cases dangling with
    | true => exact hx
    | false => exact hx

theorem Inv.added (h : Inv l s refused) {g : Handler} (hpc : s.pc = .add g out) :
    Inv l { pc := .write g out
            table := Function.update s.table out (.accepted true false)
            registered := out :: s.registered } refused := by
  have hhand := h.hand
  rw [hpc] at hhand
  obtain ⟨hslot, hloose⟩ := hhand
  refine h.change (by rw [hslot]; exact Slot.noConfusion) ?_ ?_ ?_ ?_ ?_ ?_ ?_
  · intro x hx
    refine ⟨Function.update_of_ne hx _ _, ?_, Iff.rfl⟩
    rw [List.mem_cons, or_iff_right hx]
  · exact List.nodup_cons.mpr ⟨hloose.1, h.nodup⟩
  · intro _
    dsimp only
    rw [Function.update_self]
    rfl
  · exact fun hmem => (hloose.2 hmem).elim
  · exact ⟨Function.update_self .., .inl List.mem_cons_self⟩
  · rw [hpc]
    exact ⟨Pc.noConfusion, fun x _ hx => hx⟩
  · exact fun _ hnot => (hnot rfl).elim

theorem Inv.addFails (h : Inv l s refused) {g : Handler} (hpc : s.pc = .add g out) :
    Inv l { s with
      pc := .write g out
      table := Function.update s.table out (.accepted true false) } (refused ++ [out]) := by
  have hhand := h.hand
  rw [hpc] at hhand
  obtain ⟨hslot, hloose⟩ := hhand
  refine h.change (by rw [hslot]; exact Slot.noConfusion) ?_ h.nodup ?_ ?_ ?_ ?_ ?_
  · intro x hx
    refine ⟨Function.update_of_ne hx _ _, Iff.rfl, ?_⟩
    rw [List.mem_append, List.mem_singleton, or_iff_left hx]
  · intro _
    dsimp only
    rw [Function.update_self]
    rfl
  · exact fun _ => hloose.1
  · exact ⟨Function.update_self .., .inr (List.mem_append_right _ (List.mem_singleton_self out))⟩
  · rw [hpc]
    exact ⟨Pc.noConfusion, fun x _ hx => hx⟩
  · exact fun _ hnot => (hnot rfl).elim

theorem Inv.write (h : Inv l s refused) {g : Handler} (hpc : s.pc = .write g out) :
    Inv l { s with
      pc := .epollWait
      table := Function.update s.table out (.accepted true true) } refused := by
  have hhand := h.hand
  rw [hpc] at hhand
  obtain ⟨hslot, hknown⟩ := hhand
  refine h.change (by rw [hslot]; exact Slot.noConfusion) ?_ h.nodup ?_ ?_ trivial ?_ ?_
  · exact fun x hx => ⟨Function.update_of_ne hx _ _, Iff.rfl, Iff.rfl⟩
  · intro _
    dsimp only
    rw [Function.update_self]
    rfl
  · exact fun hmem => (h.failed (by rw [hpc]; exact Pc.noConfusion) out hmem).2
  · rw [hpc]
    exact ⟨Pc.noConfusion, fun x hx _ heq => hx (Option.some.inj heq).symm⟩
  · exact fun _ _ => ⟨Function.update_self .., hknown⟩

/-- The connection may be one that was refused, but nothing comes behind the exit. -/
theorem Inv.statsFails (h : Inv l s refused) (hpc : s.pc = .write .onStats out) :
    Inv l { pc := .exited
            table := Function.update s.table out .closed
            registered := s.registered.erase out } refused := by
  have hhand := h.hand
  rw [hpc] at hhand
  obtain ⟨hstats, herror⟩ := h.ne_listener (by rw [hhand.1]; exact Slot.noConfusion)
  refine ⟨?_, ?_, h.nodup.erase out, ⟨?_, ?_⟩, ?_, ?_, trivial, ?_⟩
  · exact (Function.update_of_ne hstats.symm _ _).trans h.stats
  · exact (Function.update_of_ne herror.symm _ _).trans h.error
  · exact (List.mem_erase_of_ne hstats.symm).mpr h.listeners.1
  · exact (List.mem_erase_of_ne herror.symm).mpr h.listeners.2
  · intro x hx
    obtain ⟨hne, hmem⟩ := h.nodup.mem_erase_iff.mp hx
    dsimp only
    rw [Function.update_of_ne hne]
    exact h.registered x hmem
  · exact fun hne => (hne rfl).elim
  · exact fun hne => (hne rfl).elim

theorem Inv.del (h : Inv l s refused) (hpc : s.pc = .del fd) :
    Inv l { s with pc := .close fd, registered := s.registered.erase fd } refused := by
  have hhand := h.hand
  rw [hpc] at hhand
  obtain ⟨hmem, hstats, herror⟩ := hhand
  have hidle : s.pc ≠ .exited ∧ ∀ x, s.pc.hand ≠ some x := by
    rw [hpc]
    exact ⟨Pc.noConfusion, fun x => (Option.some_ne_none x).symm⟩
  have haccepted : (s.table fd).isAccepted = true := by
    rcases h.registered fd hmem with heq | heq | haccepted
    · exact (hstats heq).elim
    · exact (herror heq).elim
    · exact haccepted
  have hslot := (h.settled hidle.1 fd haccepted (hidle.2 fd)).1
  refine h.change (by rw [hslot]; exact Slot.noConfusion) ?_ (h.nodup.erase fd)
    (fun _ => haccepted) (fun _ => h.nodup.not_mem_erase) ?_ ?_ ?_
  · exact fun x hx => ⟨rfl, List.mem_erase_of_ne hx, Iff.rfl⟩
  · exact ⟨⟨true, hslot⟩, h.nodup.not_mem_erase,
      fun hrefused => (h.failed hidle.1 fd hrefused).2 hmem⟩
  · exact ⟨hidle.1, fun x _ _ => hidle.2 x⟩
  · exact fun _ hnot => (hnot rfl).elim

theorem Inv.close (h : Inv l s refused) (hpc : s.pc = .close fd) :
    Inv l { s with pc := .epollWait, table := Function.update s.table fd .closed }
      refused := by
  have hhand := h.hand
  rw [hpc] at hhand
  obtain ⟨⟨wr, hslot⟩, hregistered, hrefused⟩ := hhand
  refine h.change (by rw [hslot]; exact Slot.noConfusion) ?_ h.nodup ?_ ?_ trivial ?_ ?_
  · exact fun x hx => ⟨Function.update_of_ne hx _ _, Iff.rfl, Iff.rfl⟩
  · rintro (hmem | hmem)
    · exact (hregistered hmem).elim
    · exact (hrefused hmem).elim
  · exact fun hmem => (hrefused hmem).elim
  · rw [hpc]
    exact ⟨Pc.noConfusion, fun x hx _ heq => hx (Option.some.inj heq).symm⟩
  · intro haccepted
    dsimp only at haccepted
    rw [Function.update_self] at haccepted
    cases haccepted

/-- A descriptor of a worker, or none, is not at hand. -/
theorem Inv.worker (h : Inv l s refused) (hpc : s.pc ≠ .exited)
    (hold : s.table fd = .closed ∨ s.table fd = .worker) (hnew : slot.isAccepted = false) :
    Inv l { s with table := Function.update s.table fd slot } refused := by
  have hfixed : s.table fd ≠ .fixed := by
    rcases hold with hold | hold <;> rw [hold] <;> exact Slot.noConfusion
  have hnot : (s.table fd).isAccepted = false := by
    rcases hold with hold | hold <;> rw [hold] <;> rfl
  have hloose := h.loose_of_not_accepted hpc hfixed hnot
  have hsame : ∀ {x : ℕ}, (s.table x).isAccepted = true →
      Function.update s.table fd slot x = s.table x := by
    intro x hx
    apply Function.update_of_ne
    rintro rfl
    rw [hnot] at hx
    cases hx
  refine h.change hfixed ?_ h.nodup ?_ ?_ ?_ ?_ ?_
  · exact fun x hx => ⟨Function.update_of_ne hx _ _, Iff.rfl, Iff.rfl⟩
  · rintro (hmem | hmem)
    · exact (hloose.1 hmem).elim
    · exact (hloose.2 hmem).elim
  · exact fun hmem => (hloose.2 hmem).elim
  · have hhand := h.hand
    dsimp only
    revert hhand
    cases s.pc with
    | print out | add _ out | write out =>
        rintro ⟨hslot, hrest⟩
        exact ⟨(hsame (by rw [hslot]; rfl)).trans hslot, hrest⟩
    | close out =>
        rintro ⟨⟨wr, hslot⟩, hrest⟩
        exact ⟨⟨wr, (hsame (by rw [hslot]; rfl)).trans hslot⟩, hrest⟩
    | _ => exact id
  · exact ⟨hpc, fun x _ hx => hx⟩
  · intro haccepted
    dsimp only at haccepted
    rw [Function.update_self, hnew] at haccepted
    cases haccepted

end Inv

/-- The connection that a step fails to register. -/
def refusedBy : Output → List ℕ
  | .refused fd => [fd]
  | _ => []

theorem Inv.step (h : Inv l s refused) (hmoves : Moves l s a t o) :
    Inv l t (refused ++ refusedBy o) := by
  have hsilent : ∀ {u : Control}, Inv l u refused → Inv l u (refused ++ []) := by
    intro u hu
    rwa [List.append_nil]
  cases hmoves with
  | wait hpc hmem => exact hsilent (h.wait hpc hmem)
  | waitFails => exact hsilent (h.goTo trivial fun hne => (hne rfl).elim)
  | accept hpc hclosed => exact hsilent (h.accept hpc hclosed)
  | @acceptFails g hpc =>
      refine hsilent (h.goTo ?_ ?_)
      · split <;> trivial
      · rw [hpc]
        exact fun _ => ⟨Pc.noConfusion, fun x _ => (Option.some_ne_none x).symm⟩
  | print hpc => exact hsilent (h.print hpc)
  | @add g out ok hpc =>
      cases ok with
      | true => exact hsilent (h.added hpc)
      | false => exact h.addFails hpc
  | write hpc => exact hsilent (h.write hpc)
  | statsFails hpc => exact hsilent (h.statsFails hpc)
  | errorFails => exact hsilent (h.goTo trivial fun hne => (hne rfl).elim)
  | del hpc => exact hsilent (h.del hpc)
  | close hpc => exact hsilent (h.close hpc)
  | workerOpens hpc hclosed => exact hsilent (h.worker hpc (.inl hclosed) rfl)
  | workerCloses hpc hworker => exact hsilent (h.worker hpc (.inr hworker) rfl)

theorem start_inv (h : Control.Start l s) : Inv l s [] where
  stats := h.stats
  error := h.error
  nodup := by
    rw [h.registered]
    simpa using h.apart.symm
  listeners := by
    rw [h.registered]
    exact ⟨List.mem_cons_of_mem _ List.mem_cons_self, List.mem_cons_self⟩
  registered fd hmem := by
    rw [h.registered, List.mem_pair] at hmem
    exact hmem.symm.imp_right .inl
  failed _ := List.forall_mem_nil _
  hand := by
    rw [h.pc]
    trivial
  settled _ fd haccepted := by
    cases hslot : s.table fd with
    | accepted rd wr => exact (h.none fd rd wr hslot).elim
    | _ =>
        rw [hslot] at haccepted
        cases haccepted

end Upcalls.ControlLoop
