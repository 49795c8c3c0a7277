import Upcalls.Verification.TcpClient.Equations

/-! # Each client is registered with epoll as its state asks for -/

namespace Upcalls.TcpClient

open Library

variable {n : ℕ} {o : Options}

/-- The client has a socket. -/
def State.live : State → Bool
  | .init | .done => false
  | _ => true

def Pc.client : Pc n → Option (Fin n)
  | .call j _ _ => some j
  | _ => none

namespace Worker

/-! ## The invariant -/

/-- The client is inside of `do_state_transition`, or the loop comes to it. -/
def Busy (s : Worker n) (j : Fin n) : Prop := j ∈ s.todo ∨ s.pc.client = some j

/-- What the state of client `j` says about its socket. A client that connected at once is
sent to without a registration, and no event ever makes it busy again. -/
def Placed (s : Worker n) (j : Fin n) : Prop :=
  let c := s.clients j
  match c.state with
  | .init => s.Busy j
  | .connecting => s.opened c.sock = true ∧
      ∃ armed, s.interest c.sock = some ⟨.epollOut, j, armed⟩ ∧ (armed = true ∨ s.Busy j)
  | .new => s.opened c.sock = true ∧ s.pc.client = some j
  | .ready => s.opened c.sock = true ∧ s.pc.client = some j
  | .sent => s.opened c.sock = true ∧
      (s.Busy j → s.interest c.sock = some ⟨.epollIn, j, true⟩)
  | .done => c.sock = -1 ∧ ¬ s.Busy j

/-- A registered descriptor is the socket of its client. -/
def Owned (s : Worker n) (fd : ℤ) (x : Interest n) : Prop :=
  (s.clients x.data).sock = fd ∧
    match (s.clients x.data).state with
    | .connecting => x.events = .epollOut
    | .ready | .sent => x.events = .epollIn ∧ x.armed = true
    | _ => False

structure Inv (s : Worker n) : Prop where
  nodup : s.todo.Nodup
  away : ∀ {j}, s.pc.client = some j → j ∉ s.todo
  apart : ∀ {i j}, (s.clients i).state.live → (s.clients j).state.live →
    (s.clients i).sock = (s.clients j).sock → i = j
  placed : ∀ j, s.Placed j
  owned : ∀ {fd x}, s.interest fd = some x → s.Owned fd x

theorem inv_start {s : Worker n} (h : Start o s) : s.Inv := by
  have hinit : ∀ j, (s.clients j).state = .init := by
    intro j
    obtain ⟨buf, -, hj⟩ := h.clients j
    rw [hj]
  refine ⟨?_, ?_, ?_, ?_, ?_⟩
  · rw [h.todo]
    exact List.nodup_finRange n
  · intro j hj
    rw [h.pc] at hj
    cases hj
  · intro i j hi
    rw [hinit i] at hi
    cases hi
  · intro j
    simp only [Placed, hinit j]
    left
    rw [h.todo]
    exact List.mem_finRange j
  · intro fd x hx
    rw [h.interest] at hx
    cases hx

theorem Inv.opened {s : Worker n} (hs : s.Inv) {j : Fin n} (h : (s.clients j).state.live) :
    s.opened (s.clients j).sock = true := by
  have hplaced := hs.placed j
  simp only [Placed] at hplaced
  cases hstate : (s.clients j).state with
  | init =>
      rw [hstate] at h
      cases h
  | done =>
      rw [hstate] at h
      cases h
  | _ =>
      rw [hstate] at hplaced
      exact hplaced.1

theorem Owned.live {s : Worker n} {fd : ℤ} {x : Interest n} (h : s.Owned fd x) :
    (s.clients x.data).state.live := by
  have hstate := h.2
  split at hstate
  · rename_i hconnecting
    rw [hconnecting]
    rfl
  · rename_i hready
    rw [hready]
    rfl
  · rename_i hsent
    rw [hsent]
    rfl
  · exact hstate.elim

theorem Inv.closed {s : Worker n} (hs : s.Inv) {fd : ℤ} (h : s.opened fd = false) :
    s.interest fd = none := by
  cases hfd : s.interest fd with
  | none => rfl
  | some x =>
      have howned := hs.owned hfd
      have hopened := hs.opened howned.live
      rw [howned.1, h] at hopened
      cases hopened

/-! ## What a step inside of a call leaves alone -/

/-- Client `j` takes a step that concerns no descriptor but `d`. -/
structure Frame (s s' : Worker n) (j : Fin n) (d : ℤ) : Prop where
  running : s.pc.client = some j
  pc : s'.pc.client = some j ∨ s'.pc.client = none
  todo : s'.todo = s.todo
  clients : ∀ {i}, i ≠ j → s'.clients i = s.clients i
  interest : ∀ {fd}, fd ≠ d → s'.interest fd = s.interest fd
  opened : ∀ {fd}, fd ≠ d → s'.opened fd = s.opened fd
  old : (s.clients j).state.live → (s.clients j).sock = d
  new : (s'.clients j).state.live → (s'.clients j).sock = d
  free : ∀ {i}, i ≠ j → (s.clients i).state.live → (s.clients i).sock ≠ d

section Frame

variable {s s' : Worker n} {j : Fin n} {d : ℤ}

theorem Frame.elsewhere (h : Frame s s' j d) {i : Fin n} (hi : i ≠ j) :
    s.pc.client ≠ some i ∧ s'.pc.client ≠ some i := by
  have hne : some j ≠ some i := by
    intro heq
    exact hi (Option.some.inj heq).symm
  refine ⟨h.running ▸ hne, ?_⟩
  rcases h.pc with hpc | hpc
  · rw [hpc]
    exact hne
  · rw [hpc]
    exact (Option.some_ne_none i).symm

theorem Frame.busy (h : Frame s s' j d) {i : Fin n} (hi : i ≠ j) :
    s'.Busy i ↔ s.Busy i := by
  obtain ⟨hrunning, hpc⟩ := h.elsewhere hi
  rw [Busy, Busy, h.todo]
  simp only [hrunning, hpc]

theorem Frame.placed (h : Frame s s' j d) {i : Fin n} (hi : i ≠ j) (hs : s.Placed i) :
    s'.Placed i := by
  have hfree := h.free hi
  obtain ⟨hrunning, hpc⟩ := h.elsewhere hi
  simp only [Placed, h.clients hi, h.busy hi] at hs ⊢
  cases hstate : (s.clients i).state with
  | init =>
      rw [hstate] at hs
      exact hs
  | connecting =>
      rw [hstate] at hs hfree
      have hsock := hfree rfl
      simp only [h.opened hsock, h.interest hsock]
      exact hs
  | new =>
      rw [hstate] at hs
      exact (hrunning hs.2).elim
  | ready =>
      rw [hstate] at hs
      exact (hrunning hs.2).elim
  | sent =>
      rw [hstate] at hs hfree
      have hsock := hfree rfl
      simp only [h.opened hsock, h.interest hsock]
      exact hs
  | done =>
      rw [hstate] at hs
      exact hs

theorem Frame.inv (h : Frame s s' j d) (hs : s.Inv) (hplaced : s'.Placed j)
    (howned : ∀ {x}, s'.interest d = some x → s'.Owned d x) : s'.Inv := by
  refine ⟨?_, ?_, ?_, ?_, ?_⟩
  · rw [h.todo]
    exact hs.nodup
  · intro i hi
    rw [h.todo]
    rcases h.pc with hpc | hpc
    · rw [hpc, ← h.running] at hi
      exact hs.away hi
    · rw [hpc] at hi
      cases hi
  · intro i k hi hk hsock
    by_cases hij : i = j
    · by_cases hkj : k = j
      · rw [hij, hkj]
      · subst hij
        rw [h.clients hkj] at hk hsock
        exact (h.free hkj hk (hsock.symm.trans (h.new hi))).elim
    · by_cases hkj : k = j
      · subst hkj
        rw [h.clients hij] at hi hsock
        exact (h.free hij hi (hsock.trans (h.new hk))).elim
      · rw [h.clients hij] at hi hsock
        rw [h.clients hkj] at hk hsock
        exact hs.apart hi hk hsock
  · intro i
    by_cases hi : i = j
    · rw [hi]
      exact hplaced
    · exact h.placed hi (hs.placed i)
  · intro fd x hx
    by_cases hfd : fd = d
    · subst hfd
      exact howned hx
    · rw [h.interest hfd] at hx
      have hold := hs.owned hx
      have hdata : x.data ≠ j := by
        intro hj
        have hlive := hold.live
        have hsock := hold.1
        rw [hj] at hlive hsock
        exact hfd (hsock.symm.trans (h.old hlive))
      simp only [Owned, h.clients hdata]
      exact hold

theorem Inv.frame_live (hs : s.Inv) (hrunning : s.pc.client = some j)
    (hlive : (s.clients j).state.live) (hpc : s'.pc.client = some j ∨ s'.pc.client = none)
    (htodo : s'.todo = s.todo) (hclients : ∀ {i}, i ≠ j → s'.clients i = s.clients i)
    (hinterest : ∀ {fd}, fd ≠ (s.clients j).sock → s'.interest fd = s.interest fd)
    (hopened : ∀ {fd}, fd ≠ (s.clients j).sock → s'.opened fd = s.opened fd)
    (hnew : (s'.clients j).state.live → (s'.clients j).sock = (s.clients j).sock) :
    Frame s s' j (s.clients j).sock :=
  ⟨hrunning, hpc, htodo, hclients, hinterest, hopened, fun _ => rfl, hnew,
    fun hi hlive' hsock => hi (hs.apart hlive' hlive hsock)⟩

theorem Inv.frame_socket (hs : s.Inv) (hrunning : s.pc.client = some j)
    (hstate : (s.clients j).state = .init) (hfd : s.opened d = false)
    (hpc : s'.pc.client = some j ∨ s'.pc.client = none)
    (htodo : s'.todo = s.todo) (hclients : ∀ {i}, i ≠ j → s'.clients i = s.clients i)
    (hinterest : ∀ {fd}, fd ≠ d → s'.interest fd = s.interest fd)
    (hopened : ∀ {fd}, fd ≠ d → s'.opened fd = s.opened fd)
    (hnew : (s'.clients j).sock = d) : Frame s s' j d := by
  refine ⟨hrunning, hpc, htodo, hclients, hinterest, hopened, ?_, fun _ => hnew, ?_⟩
  · intro hlive
    rw [hstate] at hlive
    cases hlive
  · intro i hi hlive hsock
    have hopen := hs.opened hlive
    rw [hsock, hfd] at hopen
    cases hopen

end Frame

/-! ## Clients that no event can wake -/

/-- The client sends or waits for a response, and its socket is not registered. -/
def Hung (s : Worker n) (j : Fin n) : Prop :=
  ((s.clients j).state = .ready ∨ (s.clients j).state = .sent) ∧
    s.interest (s.clients j).sock = none

theorem Frame.hung {s s' : Worker n} {j : Fin n} {d : ℤ} (h : Frame s s' j d) {P : Prop}
    (hj : s'.Hung j ↔ s.Hung j ∨ P) : (∃ i, s'.Hung i) ↔ (∃ i, s.Hung i) ∨ P := by
  have hother : ∀ i, i ≠ j → (s'.Hung i ↔ s.Hung i) := by
    intro i hi
    simp only [Hung, h.clients hi]
    refine and_congr_right ?_
    intro hstate
    have hlive : (s.clients i).state.live := by
      rcases hstate with hstate | hstate <;> rw [hstate] <;> rfl
    rw [h.interest (h.free hi hlive)]
  constructor
  · rintro ⟨i, hi⟩
    by_cases hij : i = j
    · subst hij
      rcases hj.mp hi with hi | hP
      · exact .inl ⟨i, hi⟩
      · exact .inr hP
    · exact .inl ⟨i, (hother i hij).mp hi⟩
  · rintro (⟨i, hi⟩ | hP)
    · by_cases hij : i = j
      · subst hij
        exact ⟨i, hj.mpr (.inl hi)⟩
      · exact ⟨i, (hother i hij).mpr hi⟩
    · exact ⟨j, hj.mpr (.inr hP)⟩

theorem Inv.placed_sent {s : Worker n} (hs : s.Inv) {j : Fin n}
    (hstate : (s.clients j).state = .sent) :
    s.opened (s.clients j).sock = true ∧
      (s.Busy j → s.interest (s.clients j).sock = some ⟨.epollIn, j, true⟩) := by
  have hplaced := hs.placed j
  simp only [Placed, hstate] at hplaced
  exact hplaced

/-! ## Steps of the loop -/

section Loop

variable {s : Worker n}

theorem Inv.entered (hs : s.Inv) (hpc : s.pc = .loop) {j : Fin n} {todo : List (Fin n)}
    (htodo : s.todo = j :: todo) {clients : Fin n → Client} {log : TscLog}
    (hsame : ∀ i, (clients i).state = (s.clients i).state ∧
      (clients i).sock = (s.clients i).sock) :
    Inv { s with clients := clients, log := log, todo := todo, pc := .call j 0 0 } := by
  have hnodup := hs.nodup
  rw [htodo, List.nodup_cons] at hnodup
  have hbusy : ∀ i, Busy { s with
      clients := clients, log := log, todo := todo, pc := .call j 0 0 } i ↔ s.Busy i := by
    intro i
    simp only [Busy, htodo, hpc, Pc.client, List.mem_cons, Option.some.injEq]
    constructor
    · rintro (hi | rfl)
      · exact .inl (.inr hi)
      · exact .inl (.inl rfl)
    · rintro ((rfl | hi) | hi)
      · exact .inr rfl
      · exact .inl hi
      · cases hi
  refine ⟨hnodup.2, ?_, ?_, ?_, ?_⟩
  · intro i hi
    cases hi
    exact hnodup.1
  · intro i k hi hk hsock
    simp only [(hsame i).1, (hsame k).1, (hsame i).2, (hsame k).2] at hi hk hsock
    exact hs.apart hi hk hsock
  · intro i
    have hplaced := hs.placed i
    simp only [Placed, hbusy, (hsame i).1, (hsame i).2] at hplaced ⊢
    cases hstate : (s.clients i).state with
    | new =>
        simp only [hstate, hpc, Pc.client] at hplaced
        cases hplaced.2
    | ready =>
        simp only [hstate, hpc, Pc.client] at hplaced
        cases hplaced.2
    | _ =>
        rw [hstate] at hplaced
        exact hplaced
  · intro fd x hx
    have howned := hs.owned hx
    simp only [Owned, (hsame x.data).1, (hsame x.data).2]
    exact howned

theorem ready?_eq {fd : ℤ} {j : Fin n} (h : s.ready? fd = some j) :
    ∃ events, s.interest fd = some ⟨events, j, true⟩ := by
  rw [ready?] at h
  split at h
  · rename_i events i hinterest
    cases h
    exact ⟨events, hinterest⟩
  · cases h

/-- What is reported are the sockets of the clients that the loop goes on to. -/
theorem map_sock (hsock : ∀ {fd x}, s.interest fd = some x → (s.clients x.data).sock = fd)
    {fds : List ℤ} {todo : List (Fin n)} (h : fds.mapM s.ready? = some todo) :
    todo.map (fun j => (s.clients j).sock) = fds := by
  induction fds generalizing todo with
  | nil =>
      cases h
      rfl
  | cons fd fds ih =>
      rw [List.mapM_cons] at h
      obtain ⟨j, hj, hrest⟩ := Option.bind_eq_some_iff.mp h
      obtain ⟨js, hjs, hpair⟩ := Option.bind_eq_some_iff.mp hrest
      cases hpair
      obtain ⟨events, hinterest⟩ := ready?_eq hj
      rw [List.map_cons, ih hjs, hsock hinterest]

theorem Inv.mem_reported (hs : s.Inv) {fds : List ℤ} {todo : List (Fin n)}
    (h : fds.mapM s.ready? = some todo) {j : Fin n} :
    j ∈ todo ↔ ∃ events, s.interest (s.clients j).sock = some ⟨events, j, true⟩ ∧
      (s.clients j).sock ∈ fds := by
  induction fds generalizing todo with
  | nil =>
      cases h
      simp
  | cons fd fds ih =>
      rw [List.mapM_cons] at h
      obtain ⟨i, hi, hrest⟩ := Option.bind_eq_some_iff.mp h
      obtain ⟨is, his, hpair⟩ := Option.bind_eq_some_iff.mp hrest
      cases hpair
      obtain ⟨events, hinterest⟩ := ready?_eq hi
      have howned := hs.owned hinterest
      rw [List.mem_cons, ih his]
      constructor
      · rintro (rfl | ⟨events', hevents, hmem⟩)
        · exact ⟨events, howned.1.symm ▸ hinterest, List.mem_cons.mpr (.inl howned.1)⟩
        · exact ⟨events', hevents, List.mem_cons_of_mem _ hmem⟩
      · rintro ⟨events', hevents, hmem⟩
        rcases List.mem_cons.mp hmem with hfd | hmem
        · rw [hfd, hinterest] at hevents
          cases hevents
          exact .inl rfl
        · exact .inr ⟨events', hevents, hmem⟩

theorem disarm_eq {fds : List ℤ} {fd : ℤ} {x : Interest n}
    (h : (s.disarm fds).interest fd = some x) :
    ∃ armed, s.interest fd = some { x with armed := armed } ∧
      (x.events = .epollIn → armed = x.armed) := by
  obtain ⟨y, hy, hx⟩ := Option.map_eq_some_iff.mp h
  split at hx
  · rename_i hout
    subst hx
    refine ⟨y.armed, hy, ?_⟩
    intro hin
    rw [hout.2] at hin
    cases hin
  · subst hx
    exact ⟨y.armed, hy, fun _ => rfl⟩

theorem Inv.waited (hs : s.Inv) (hpc : s.pc = .loop) (htodo : s.todo = []) {fds : List ℤ}
    {todo : List (Fin n)} (hnodup : fds.Nodup) (hready : fds.mapM s.ready? = some todo) :
    Inv { s.disarm fds with todo := todo } := by
  have hidle : ∀ j, ¬ s.Busy j := by
    intro j hbusy
    rw [Busy, htodo, hpc] at hbusy
    rcases hbusy with hj | hj <;> cases hj
  refine ⟨?_, ?_, hs.apart, ?_, ?_⟩
  · refine List.Nodup.of_map (fun j => (s.clients j).sock) ?_
    rw [map_sock (fun hx => (hs.owned hx).1) hready]
    exact hnodup
  · intro j hj
    simp only [disarm, hpc] at hj
    cases hj
  · intro j
    have hplaced := hs.placed j
    have hmem := hs.mem_reported hready (j := j)
    simp only [Placed, disarm] at hplaced ⊢
    cases hstate : (s.clients j).state with
    | init =>
        rw [hstate] at hplaced
        exact (hidle j hplaced).elim
    | connecting =>
        rw [hstate] at hplaced
        obtain ⟨hopened, armed, hinterest, harmed⟩ := hplaced
        have harmed : armed = true := harmed.resolve_right (hidle j)
        subst harmed
        refine ⟨hopened, ?_⟩
        rw [hinterest, Option.map_some]
        by_cases hfd : (s.clients j).sock ∈ fds
        · exact ⟨false, by rw [if_pos ⟨hfd, rfl⟩], .inr (.inl (hmem.mpr ⟨_, hinterest, hfd⟩))⟩
        · exact ⟨true, by rw [if_neg (fun h => hfd h.1)], .inl rfl⟩
    | new =>
        rw [hstate] at hplaced
        exact (hidle j (.inr hplaced.2)).elim
    | ready =>
        rw [hstate] at hplaced
        exact (hidle j (.inr hplaced.2)).elim
    | sent =>
        rw [hstate] at hplaced
        refine ⟨hplaced.1, ?_⟩
        rintro (hj | hj)
        · obtain ⟨events, hinterest, -⟩ := hmem.mp hj
          have howned := (hs.owned hinterest).2
          simp only [hstate] at howned
          rw [hinterest, Option.map_some, howned.1]
          refine congrArg some (if_neg ?_)
          rintro ⟨-, hout⟩
          cases hout
        · simp only [hpc] at hj
          cases hj
    | done =>
        rw [hstate] at hplaced
        refine ⟨hplaced.1, ?_⟩
        rintro (hj | hj)
        · obtain ⟨events, hinterest, -⟩ := hmem.mp hj
          have howned := (hs.owned hinterest).2
          simp only [hstate] at howned
        · simp only [hpc] at hj
          cases hj
  · intro fd x hx
    obtain ⟨armed, hinterest, harmed⟩ := disarm_eq hx
    have howned := hs.owned hinterest
    refine ⟨howned.1, ?_⟩
    have hstate := howned.2
    simp only [disarm] at hstate ⊢
    split at hstate
    · exact hstate
    · exact ⟨hstate.1, (harmed hstate.1).symm.trans hstate.2⟩
    · exact ⟨hstate.1, (harmed hstate.1).symm.trans hstate.2⟩
    · exact hstate.elim

end Loop

theorem Inv.ended {s : Worker n} (hs : s.Inv) (hpc : s.pc = .loop) : (s.goTo .exited).Inv := by
  have hsame : (Pc.exited : Pc n).client = s.pc.client := by
    rw [hpc]
    rfl
  refine ⟨hs.nodup, ?_, hs.apart, ?_, fun hx => hs.owned hx⟩
  · intro j hj
    cases hj
  · intro j
    have hplaced := hs.placed j
    simp only [Placed, Busy, goTo, hsame] at hplaced ⊢
    exact hplaced

/-- No event comes of a client that is in the middle of a call, or done. -/
theorem Inv.not_other {s : Worker n} (hs : s.Inv) (hpc : s.pc = .loop) {j : Fin n}
    (hj : j ∈ s.todo) : ¬ ((s.clients j).state = .new ∨ (s.clients j).state = .ready ∨
      (s.clients j).state = .done) := by
  have hplaced := hs.placed j
  simp only [Placed, hpc, Pc.client] at hplaced
  rintro (hstate | hstate | hstate) <;> rw [hstate] at hplaced
  · cases hplaced.2
  · cases hplaced.2
  · exact hplaced.2 (.inl hj)

end Worker

/-- A connection that is there as soon as it is asked for. -/
def Input.atOnce : Input → Bool
  | .connect (.ready _) => true
  | _ => false

namespace Worker

/-! ## Steps of a call -/

/-- What a step keeps: `P` is whether it makes a client that no event can wake. -/
def Keeps (s s' : Worker n) (P : Prop) : Prop :=
  s'.Inv ∧ ((∃ i, s'.Hung i) ↔ (∃ i, s.Hung i) ∨ P)

section Calls

variable {s s' : Worker n} {j : Fin n} {c : Client} {log : TscLog} {complete : ℕ} {pc : Pc n}
  {P : Prop}

/-- What a step that concerns client `j` alone has to show. -/
theorem Frame.keeps {d : ℤ} (h : Frame s s' j d) (hs : s.Inv) (hplaced : s'.Placed j)
    (howned : ∀ {x}, s'.interest d = some x → s'.Owned d x) (hhung : s'.Hung j ↔ s.Hung j ∨ P) :
    Keeps s s' P :=
  ⟨h.inv hs hplaced howned, h.hung hhung⟩

theorem not_hung {s : Worker n} (h : (s.clients j).state ≠ .ready ∧ (s.clients j).state ≠ .sent) :
    ¬ s.Hung j := by
  rintro ⟨hready | hsent, -⟩
  · exact h.1 hready
  · exact h.2 hsent

/-- The client connects at once. -/
theorem Inv.opens_ready (hs : s.Inv) (hrunning : s.pc.client = some j)
    (hstate : (s.clients j).state = .init) {fd : ℤ} (hfd : s.opened fd = false)
    (hc : c.state = .ready ∧ c.sock = fd) (hpc : pc.client = some j) (hP : P) :
    Keeps s { s with
      clients := Function.update s.clients j c
      opened := Function.update s.opened fd true
      log := log
      pc := pc } P := by
  obtain ⟨hready, rfl⟩ := hc
  refine Frame.keeps (hs.frame_socket (d := c.sock) hrunning hstate hfd (.inl hpc) rfl
    (fun hi => Function.update_of_ne hi _ _) (fun _ => rfl)
    (fun hne => Function.update_of_ne hne _ _) ?_) hs ?_ ?_ ?_
  · simp only [Function.update_self]
  · simp only [Placed, Function.update_self, hready]
    exact ⟨trivial, hpc⟩
  · intro x hx
    have hnone := hs.closed hfd
    simp only [hnone] at hx
    cases hx
  · simp only [Hung, Function.update_self, hs.closed hfd, hready]
    simp [hP]

/-- The client waits for its connection. -/
theorem Inv.opens_connecting (hs : s.Inv) (hrunning : s.pc.client = some j)
    (hstate : (s.clients j).state = .init) {fd : ℤ} (hfd : s.opened fd = false)
    (hc : c.state = .connecting ∧ c.sock = fd) (hpc : pc.client = none) (hP : ¬ P) :
    Keeps s { s with
      clients := Function.update s.clients j c
      interest := Function.update s.interest fd (some ⟨.epollOut, j, true⟩)
      opened := Function.update s.opened fd true
      log := log
      complete := complete
      pc := pc } P := by
  obtain ⟨hconnecting, rfl⟩ := hc
  refine Frame.keeps (hs.frame_socket (d := c.sock) hrunning hstate hfd (.inr hpc) rfl
    (fun hi => Function.update_of_ne hi _ _) (fun hne => Function.update_of_ne hne _ _)
    (fun hne => Function.update_of_ne hne _ _) ?_) hs ?_ ?_ ?_
  · simp only [Function.update_self]
  · simp only [Placed, Function.update_self, hconnecting]
    exact ⟨trivial, true, rfl, .inl rfl⟩
  · intro x hx
    simp only [Function.update_self, Option.some.injEq] at hx
    subst hx
    simp only [Owned, Function.update_self, hconnecting]
    exact ⟨trivial, trivial⟩
  · simp [Hung, hstate, hconnecting, hP]

/-- The client goes on with a connection, whose registration changes. -/
theorem Inv.connects (hs : s.Inv) (hrunning : s.pc.client = some j)
    (hstate : (s.clients j).state = .connecting ∨ (s.clients j).state = .new)
    {x : Option (Interest n)} (hsock : c.sock = (s.clients j).sock)
    (hc : c.state = .new ∧ x = none ∨ c.state = .ready ∧ x = some ⟨.epollIn, j, true⟩)
    (hpc : pc.client = some j) (hP : ¬ P) :
    Keeps s { s with
      clients := Function.update s.clients j c
      interest := Function.update s.interest (s.clients j).sock x
      log := log
      pc := pc } P := by
  have hplaced := hs.placed j
  have hopened : s.opened (s.clients j).sock = true := by
    rcases hstate with hstate | hstate
    all_goals
      simp only [Placed, hstate] at hplaced
      exact hplaced.1
  have hlive : (s.clients j).state.live := by
    rcases hstate with hstate | hstate <;> rw [hstate] <;> rfl
  have hnot : ¬ s.Hung j := by
    apply not_hung
    rcases hstate with hstate | hstate <;> rw [hstate] <;> exact ⟨nofun, nofun⟩
  refine Frame.keeps (hs.frame_live hrunning hlive (.inl hpc) rfl
    (fun hi => Function.update_of_ne hi _ _) (fun hne => Function.update_of_ne hne _ _)
    (fun _ => rfl) ?_) hs ?_ ?_ ?_
  · intro _
    simp only [Function.update_self, hsock]
  · rcases hc with ⟨hnew, rfl⟩ | ⟨hready, rfl⟩
    · simp only [Placed, Function.update_self, hnew, hsock]
      exact ⟨hopened, hpc⟩
    · simp only [Placed, Function.update_self, hready, hsock]
      exact ⟨hopened, hpc⟩
  · intro y hy
    simp only [Function.update_self] at hy
    rcases hc with ⟨hnew, rfl⟩ | ⟨hready, rfl⟩
    · cases hy
    · cases hy
      simp only [Owned, Function.update_self, hready]
      exact ⟨hsock, trivial, trivial⟩
  · refine iff_of_false ?_ (not_or.mpr ⟨hnot, hP⟩)
    rcases hc with ⟨hnew, rfl⟩ | ⟨hready, rfl⟩
    · simp [Hung, hnew]
    · simp [Hung, hsock]

/-- The client has sent its request. -/
theorem Inv.sends (hs : s.Inv) (hrunning : s.pc.client = some j)
    (hstate : (s.clients j).state = .ready) (hsock : c.sock = (s.clients j).sock)
    (hc : c.state = .sent) (hpc : pc.client = none) (hP : ¬ P) :
    Keeps s { s with
      clients := Function.update s.clients j c
      log := log
      complete := complete
      pc := pc } P := by
  have hplaced := hs.placed j
  simp only [Placed, hstate] at hplaced
  refine Frame.keeps (hs.frame_live hrunning (by rw [hstate]; rfl) (.inr hpc) rfl
    (fun hi => Function.update_of_ne hi _ _) (fun _ => rfl) (fun _ => rfl) ?_) hs ?_ ?_ ?_
  · intro _
    simp only [Function.update_self, hsock]
  · simp only [Placed, Function.update_self, hc, hsock]
    refine ⟨hplaced.1, ?_⟩
    rintro (hj | hj)
    · exact (hs.away hplaced.2 hj).elim
    · rw [hpc] at hj
      cases hj
  · intro x hx
    have howned := hs.owned (show s.interest _ = some x from hx)
    have hdata : x.data = j := hs.apart howned.live (by rw [hstate]; rfl) howned.1
    have hevents := howned.2
    subst hdata
    simp only [hstate] at hevents
    simp only [Owned, Function.update_self, hc]
    exact ⟨hsock, hevents⟩
  · simp [Hung, hstate, hc, hsock, hP]

/-- The client has got a part of its response, or all of it, and keeps its connection. -/
theorem Inv.receives (hs : s.Inv) (hrunning : s.pc.client = some j)
    (hstate : (s.clients j).state = .sent) (hsock : c.sock = (s.clients j).sock)
    (hc : c.state = .sent ∧ (pc.client = some j ∨ pc.client = none) ∨
      c.state = .ready ∧ pc.client = some j) (hP : ¬ P) :
    Keeps s { s with
      clients := Function.update s.clients j c
      log := log
      complete := complete
      pc := pc } P := by
  obtain ⟨hopened, hregistered⟩ := hs.placed_sent hstate
  have hinterest := hregistered (.inr hrunning)
  have hpc : pc.client = some j ∨ pc.client = none := hc.elim And.right fun h => .inl h.2
  refine Frame.keeps (hs.frame_live hrunning (by rw [hstate]; rfl) hpc rfl
    (fun hi => Function.update_of_ne hi _ _) (fun _ => rfl) (fun _ => rfl) ?_) hs ?_ ?_ ?_
  · intro _
    simp only [Function.update_self, hsock]
  · rcases hc with ⟨hsent, -⟩ | ⟨hready, hcall⟩
    · simp only [Placed, Function.update_self, hsent, hsock]
      exact ⟨hopened, fun _ => hinterest⟩
    · simp only [Placed, Function.update_self, hready, hsock]
      exact ⟨hopened, hcall⟩
  · intro x hx
    simp only [hinterest, Option.some.injEq] at hx
    subst hx
    rcases hc with ⟨hsent, -⟩ | ⟨hready, -⟩
    · simp only [Owned, Function.update_self, hsent]
      exact ⟨hsock, trivial, trivial⟩
    · simp only [Owned, Function.update_self, hready]
      exact ⟨hsock, trivial, trivial⟩
  · simp [Hung, hinterest, hsock, hP]

/-- The client closes its connection behind its response. -/
theorem Inv.closes (hs : s.Inv) (hrunning : s.pc.client = some j)
    (hstate : (s.clients j).state = .sent)
    (hc : c.state = .init ∧ pc.client = some j ∨
      c.state = .done ∧ c.sock = -1 ∧ pc.client = none) (hP : ¬ P) :
    Keeps s { s with
      clients := Function.update s.clients j c
      interest := Function.update s.interest (s.clients j).sock none
      opened := Function.update s.opened (s.clients j).sock false
      log := log
      complete := complete
      pc := pc } P := by
  have hinterest := (hs.placed_sent hstate).2 (.inr hrunning)
  have hpc : pc.client = some j ∨ pc.client = none := hc.imp And.right fun h => h.2.2
  refine Frame.keeps (hs.frame_live hrunning (by rw [hstate]; rfl) hpc rfl
    (fun hi => Function.update_of_ne hi _ _) (fun hne => Function.update_of_ne hne _ _)
    (fun hne => Function.update_of_ne hne _ _) ?_) hs ?_ ?_ ?_
  · intro hlive
    rcases hc with ⟨hinit, -⟩ | ⟨hdone, -⟩
    · simp only [Function.update_self, hinit] at hlive
      cases hlive
    · simp only [Function.update_self, hdone] at hlive
      cases hlive
  · rcases hc with ⟨hinit, hcall⟩ | ⟨hdone, hsock, hnone⟩
    · simp only [Placed, Function.update_self, hinit]
      exact .inr hcall
    · simp only [Placed, Function.update_self, hdone]
      refine ⟨hsock, ?_⟩
      rintro (hj | hj)
      · exact hs.away hrunning hj
      · rw [hnone] at hj
        cases hj
  · intro x hx
    simp only [Function.update_self] at hx
    cases hx
  · rcases hc with ⟨hinit, -⟩ | ⟨hdone, -⟩
    · simp [Hung, hinterest, hinit, hP]
    · simp [Hung, hinterest, hdone, hP]

end Calls

theorem Stepped.kept {s s' : Worker n} {a : Input} {out : Output n} (h : Stepped o s a s' out)
    (hs : s.Inv) :
    s'.Inv ∧ ((∃ i, s'.Hung i) ↔ (∃ i, s.Hung i) ∨ a.atOnce = true) := by
  have hrun : ∀ {j count cursor}, s.pc = .call j count cursor → s.pc.client = some j := by
    intro j count cursor hpc
    rw [hpc]
    rfl
  cases h with
  | waited hpc htodo hgoes hnodup hle hready =>
      refine ⟨hs.waited hpc htodo hnodup hready, ?_⟩
      simp only [Hung, disarm, Option.map_eq_none_iff, Input.atOnce, Bool.false_eq_true, or_false]
  | timedOut hpc htodo => exact ⟨hs.ended hpc, (or_iff_left Bool.false_ne_true).symm⟩
  | exited hpc htodo hgoes => exact ⟨hs.ended hpc, (or_iff_left Bool.false_ne_true).symm⟩
  | @enteredInit j todo hpc htodo hstate =>
      have hsame : ∀ i, (Function.update s.clients j
          { s.clients j with batchRemaining := o.batchSize } i).state = (s.clients i).state ∧
          (Function.update s.clients j
            { s.clients j with batchRemaining := o.batchSize } i).sock = (s.clients i).sock := by
        intro i
        by_cases hi : i = j
        · subst hi
          rw [Function.update_self]
          exact ⟨rfl, rfl⟩
        · rw [Function.update_of_ne hi]
          exact ⟨rfl, rfl⟩
      refine ⟨hs.entered hpc htodo hsame, ?_⟩
      simp only [Hung, hsame, Input.atOnce, Bool.false_eq_true, or_false]
  | enteredConnecting hpc htodo hstate =>
      exact ⟨hs.entered hpc htodo fun _ => ⟨rfl, rfl⟩, (or_iff_left Bool.false_ne_true).symm⟩
  | enteredSent hpc htodo hstate =>
      exact ⟨hs.entered hpc htodo fun _ => ⟨rfl, rfl⟩, (or_iff_left Bool.false_ne_true).symm⟩
  | enteredOther hpc htodo hstate =>
      exact (hs.not_other hpc (htodo ▸ List.mem_cons_self) hstate).elim
  | connectedAtOnce hpc hstate hpos hfd =>
      exact hs.opens_ready (hrun hpc) hstate hfd ⟨rfl, rfl⟩ rfl rfl
  | began hpc hstate hpos hfd =>
      exact hs.opens_connecting (hrun hpc) hstate hfd ⟨rfl, rfl⟩ rfl Bool.false_ne_true
  | connected hpc hstate =>
      exact hs.connects (hrun hpc) (.inl hstate) rfl (.inl ⟨rfl, rfl⟩) rfl Bool.false_ne_true
  | added hpc hstate =>
      exact hs.connects (hrun hpc) (.inr hstate) rfl (.inr ⟨rfl, rfl⟩) rfl Bool.false_ne_true
  | @sentPart j count cursor k hpc hstate hlt =>
      have hplaced := hs.placed j
      simp only [Placed, hstate] at hplaced
      refine Frame.keeps (hs.frame_live (hrun hpc) (by rw [hstate]; rfl) (.inl rfl) rfl
        (fun _ => rfl) (fun _ => rfl) (fun _ => rfl) (fun _ => rfl)) hs ?_ ?_ ?_
      · simp only [Placed, hstate]
        exact ⟨hplaced.1, rfl⟩
      · exact fun hx => hs.owned hx
      · simp [Hung, hstate, Input.atOnce]
  | sentAll hpc hstate hfull => exact hs.sends (hrun hpc) hstate rfl rfl rfl Bool.false_ne_true
  | receivedPart hpc hstate hlt =>
      exact hs.receives (hrun hpc) hstate rfl (.inl ⟨hstate, .inl rfl⟩) Bool.false_ne_true
  | again hpc hstate hlt =>
      exact hs.receives (hrun hpc) hstate rfl (.inl ⟨hstate, .inr rfl⟩) Bool.false_ne_true
  | finished hpc hstate hfull hzero =>
      exact hs.closes (hrun hpc) hstate (.inr ⟨rfl, rfl, rfl⟩) Bool.false_ne_true
  | batchEnded hpc hstate hfull hmore hzero =>
      exact hs.closes (hrun hpc) hstate (.inl ⟨rfl, rfl⟩) Bool.false_ne_true
  | next hpc hstate hfull hmore hbatch =>
      exact hs.receives (hrun hpc) hstate rfl (.inr ⟨rfl, rfl⟩) Bool.false_ne_true

/-! ## Runs -/

theorem reaches_inv {tr : List (Input × Output n)} {s : Worker n}
    (h : (worker n o).Reaches tr s) (hdying : s.dying = false) :
    s.Inv ∧ ((∃ j, s.Hung j) ↔ ∃ x ∈ tr, x.1.atOnce = true) := by
  refine reaches_induction (P := fun tr s => s.Inv ∧ ((∃ j, s.Hung j) ↔
    ∃ x ∈ tr, x.1.atOnce = true)) ?_ ?_ h hdying
  · intro s hs
    refine ⟨inv_start hs, ?_⟩
    constructor
    · rintro ⟨j, hstate, -⟩
      obtain ⟨buf, -, hj⟩ := hs.clients j
      rw [hj] at hstate
      rcases hstate with hstate | hstate <;> cases hstate
    · rintro ⟨x, hx, -⟩
      cases hx
  · intro tr s a out s' _ ⟨hs, hhung⟩ hstep
    obtain ⟨hs', hhung'⟩ := hstep.kept hs
    refine ⟨hs', ?_⟩
    rw [hhung', hhung]
    constructor
    · rintro (⟨x, hx, hatOnce⟩ | hatOnce)
      · exact ⟨x, List.mem_append_left _ hx, hatOnce⟩
      · exact ⟨(a, out), List.mem_append_right _ List.mem_cons_self, hatOnce⟩
    · rintro ⟨x, hx, hatOnce⟩
      rcases List.mem_append.mp hx with hx | hx
      · exact .inl ⟨x, hx, hatOnce⟩
      · rw [List.mem_singleton.mp hx] at hatOnce
        exact .inr hatOnce

/-- The registrations that the states of the clients ask for. An event that is reported and
not handled yet disarms the registration of a client that connects. -/
structure Registered (s : Worker n) : Prop where
  connecting : ∀ {j}, (s.clients j).state = .connecting →
    ∃ armed, s.interest (s.clients j).sock = some ⟨.epollOut, j, armed⟩ ∧
      (armed = true ∨ j ∈ s.todo)
  sent : ∀ {j}, (s.clients j).state = .sent →
    s.interest (s.clients j).sock = some ⟨.epollIn, j, true⟩
  done : ∀ {j}, (s.clients j).state = .done → ∀ {fd x}, s.interest fd = some x → x.data ≠ j
  closed : ∀ {fd}, s.opened fd = false → s.interest fd = none
  wakes : ∀ j, (s.clients j).state = .done ∨ j ∈ s.todo ∨
    s.ready? (s.clients j).sock = some j

theorem Inv.registered {s : Worker n} (hs : s.Inv) (hpc : s.pc = .loop)
    (hnone : ¬ ∃ j, s.Hung j) : s.Registered := by
  have hidle : ∀ j, s.Busy j ↔ j ∈ s.todo := by
    intro j
    rw [Busy, hpc]
    exact or_iff_left (Option.some_ne_none j).symm
  have hsent : ∀ {j}, (s.clients j).state = .sent →
      s.interest (s.clients j).sock = some ⟨.epollIn, j, true⟩ := by
    intro j hstate
    cases hinterest : s.interest (s.clients j).sock with
    | none => exact (hnone ⟨j, .inr hstate, hinterest⟩).elim
    | some x =>
        obtain ⟨events, data, armed⟩ := x
        have howned := hs.owned hinterest
        have hdata : data = j := hs.apart howned.live (by rw [hstate]; rfl) howned.1
        have hevents := howned.2
        subst hdata
        simp only [hstate] at hevents
        rw [hevents.1, hevents.2]
  refine ⟨?_, hsent, ?_, hs.closed, ?_⟩
  · intro j hstate
    have hplaced := hs.placed j
    simp only [Placed, hstate, hidle] at hplaced
    exact hplaced.2
  · intro j hstate fd x hx hdata
    have hlive := (hs.owned hx).live
    rw [hdata, hstate] at hlive
    cases hlive
  · intro j
    have hplaced := hs.placed j
    simp only [Placed, hidle, hpc, Pc.client] at hplaced
    cases hstate : (s.clients j).state with
    | init =>
        rw [hstate] at hplaced
        exact .inr (.inl hplaced)
    | connecting =>
        rw [hstate] at hplaced
        obtain ⟨-, armed, hinterest, harmed | htodo⟩ := hplaced
        · subst harmed
          exact .inr (.inr (by rw [ready?, hinterest]))
        · exact .inr (.inl htodo)
    | new =>
        rw [hstate] at hplaced
        cases hplaced.2
    | ready =>
        rw [hstate] at hplaced
        cases hplaced.2
    | sent => exact .inr (.inr (by rw [ready?, hsent hstate]))
    | done => exact .inl rfl

/-- Between calls of `do_state_transition` the registrations are right if and only if no
connection was there at once: such a client goes from `INIT` to `READY` past `NEW`, where
its socket would be registered. -/
theorem registered_iff {tr : List (Input × Output n)} {s : Worker n}
    (h : (worker n o).Reaches tr s) (hdying : s.dying = false) (hpc : s.pc = .loop) :
    s.Registered ↔ ∀ x ∈ tr, x.1.atOnce = false := by
  obtain ⟨hs, hhung⟩ := reaches_inv h hdying
  have hnot : (∀ x ∈ tr, x.1.atOnce = false) ↔ ¬ ∃ j, s.Hung j := by
    rw [hhung]
    simp only [not_exists, not_and, Bool.not_eq_true]
  rw [hnot]
  constructor
  · rintro hregistered ⟨j, hstate | hstate, hnone⟩
    · have hplaced := hs.placed j
      simp only [Placed, hstate, hpc, Pc.client] at hplaced
      cases hplaced.2
    · rw [hregistered.sent hstate] at hnone
      cases hnone
  · exact hs.registered hpc

end Worker

/-! ## A run of two clients -/

/-- Three transactions of two bytes, two on a connection. -/
def threeTxns : Options := ⟨2, 2, 3, two_lt_size, three_lt_size⟩

def twoClients : Worker 2 where
  index := 0
  clients _ := ⟨0, [7, 8], 0, .init, 2, 3, 2⟩
  interest _ := none
  opened _ := false
  log := ⟨[], 100, false⟩
  dying := false
  complete := 0
  todo := List.finRange 2
  pc := .loop

theorem twoClients_start : (worker 2 threeTxns).Init twoClients :=
  ⟨fun _ => ⟨[7, 8], rfl, rfl⟩, fun _ => rfl, ⟨rfl, rfl⟩, rfl, rfl, rfl, rfl⟩

/-- One client connects, and the other one finishes a connection and begins the next. -/
def twoConnections : List Input :=
  [.run, .connect (.inProgress 5 true), .run, .connect (.inProgress 6 true), .wait [6, 5],
    .run, .connected .ok, .add true, .send (some 1), .send (some 1),
    .run, .connected .ok, .add true, .send (some 2),
    .wait [6], .run, .recv (.data [7]), .recv .again, .wait [6], .run, .recv (.data [8]),
    .send (some 2), .wait [6], .run, .recv (.data [7, 8]), .connect (.inProgress 7 true)]

theorem twoConnections_runs :
    ((worker 2 threeTxns).exec twoClients twoConnections).isSome := by decide

theorem registered_iff_twoConnections :
    ∃ tr s, (worker 2 threeTxns).Reaches tr s ∧ (s.clients 0).state = .sent ∧
      (s.clients 1).state = .connecting ∧ s.Registered ∧
      (s.Registered ↔ ∀ x ∈ tr, x.1.atOnce = false) := by
  have hreach := Machine.reaches_exec_get twoClients_start twoConnections_runs
  have hiff := Worker.registered_iff hreach rfl rfl
  exact ⟨_, _, hreach, rfl, rfl, hiff.mpr (by decide), hiff⟩

/-- Both clients get to the end of their second connection. -/
def sixTransactions : List Input :=
  twoConnections ++
    [.wait [5], .run, .recv (.data [7, 8]), .send (some 2),
      .wait [5], .run, .recv (.data [7, 8]), .connect (.inProgress 5 true),
      .wait [7, 5], .run, .connected .ok, .add true, .send (some 2),
      .run, .connected .ok, .add true, .send (some 2),
      .wait [5, 7], .run, .recv (.data [7, 8]), .run, .recv (.data [7, 8])]

/-! ## Runs of one client -/

/-- One transaction of one byte. -/
def oneByte : Options := ⟨1, 1, 1, one_lt_size, one_lt_size⟩

def oneClient : Worker 1 where
  index := 0
  clients _ := ⟨0, [7], 0, .init, 1, 1, 1⟩
  interest _ := none
  opened _ := false
  log := ⟨[], 100, false⟩
  dying := false
  complete := 0
  todo := List.finRange 1
  pc := .loop

theorem oneClient_start : (worker 1 oneByte).Init oneClient :=
  ⟨fun _ => ⟨[7], rfl, rfl⟩, fun _ => rfl, ⟨rfl, rfl⟩, rfl, rfl, rfl, rfl⟩

def connectAtOnce : List Input := [.run, .connect (.ready 5), .send (some 1)]

theorem connectAtOnce_runs :
    ((worker 1 oneByte).exec oneClient connectAtOnce).isSome := by decide

/-- The client waits for a response on a socket that epoll does not know. -/
theorem not_registered :
    ¬ ∀ (n : ℕ) (o : Options) (tr : List (Input × Output n)) (s : Worker n),
      1 ≤ n → 1 ≤ o.msgSize → 1 ≤ o.batchSize → 1 ≤ o.transactionCount →
      (worker n o).Reaches tr s → s.dying = false → s.pc = .loop → s.Registered := by
  intro h
  have hreach := Machine.reaches_exec_get oneClient_start connectAtOnce_runs
  have hregistered := h 1 oneByte _ _ (by decide) (by decide) (by decide) (by decide)
    hreach rfl rfl
  have hsent := hregistered.sent (j := 0) rfl
  cases hsent

end Upcalls.TcpClient
