import Upcalls.Library.Mailbox
import Upcalls.Verification.Epoll.Equations

/-! # Handing connections to their owners

A worker accepts connections for any CPU and pushes them onto the `incoming` list of the
owner, which installs them. The list with the eventfd of the owner is a mailbox with a
bell.
-/

namespace Upcalls.Epoll

open Library TcpEcho

variable {n msgSize : ℕ}

/-! ## What a worker has in its hands -/

namespace Pc

/-- A descriptor accepted for `owner` and not pushed. -/
def carries (fd : ℤ) (owner : Fin n) : Pc n → ℕ
  | .push g o => if g = fd ∧ o = owner then 1 else 0
  | _ => 0

/-- A descriptor taken off the worker's own list and not installed. -/
def installs (fd : ℤ) : Pc n → ℕ
  | .install g => if g = fd then 1 else 0
  | _ => 0

def holds (fd : ℤ) : Pc n → ℕ
  | .push g _ | .install g => if g = fd then 1 else 0
  | _ => 0

/-- The worker is between its push and its write to the eventfd of `owner`. -/
def rings (owner : Fin n) : Pc n → ℕ
  | .notify o => if o = owner then 1 else 0
  | _ => 0

theorem eq_notify {owner : Fin n} {pc : Pc n} (h : 0 < pc.rings owner) :
    pc = .notify owner := by
  cases pc with
  | notify o =>
      by_cases ho : o = owner
      · rw [ho]
      · rw [rings, if_neg ho] at h
        exact absurd h (Nat.lt_irrefl 0)
  | _ => exact absurd h (Nat.lt_irrefl 0)

/-- The worker is inside `handle_new_conns`. -/
def drains : Pc n → Bool
  | .drain | .install _ => true
  | _ => false

/-- The worker has no part in a hand-off. -/
def Idle : Pc n → Prop
  | .push _ _ | .notify _ | .drain | .install _ => False
  | _ => True

theorem Idle.zero {pc : Pc n} (h : pc.Idle) :
    (∀ fd owner, pc.carries fd owner = 0) ∧ (∀ fd, pc.installs fd = 0) ∧
      (∀ fd, pc.holds fd = 0) ∧ (∀ owner, pc.rings owner = 0) ∧ pc.drains = false := by
  cases pc with
  | push fd owner => exact h.elim
  | notify owner => exact h.elim
  | drain => exact h.elim
  | install fd => exact h.elim
  | _ => exact ⟨fun _ _ => rfl, fun _ => rfl, fun _ => rfl, fun _ => rfl, rfl⟩

theorem InRead.idle {p : ℕ} {pc : Pc n} (h : pc.InRead p) : pc.Idle := by
  cases pc with
  | push fd owner => exact h.elim
  | notify owner => exact h.elim
  | drain => exact h.elim
  | install fd => exact h.elim
  | _ => exact trivial

end Pc

theorem Next.pc_idle (p : ℕ) (next : Next) : (next.pc p : Pc n).Idle := by
  cases next <;> exact trivial

namespace Worker

/-- The places of a worker where `fd` can be. -/
def custody (fd : ℤ) (me : Worker n) : ℕ :=
  me.interest.count fd + me.incoming.count fd + me.pc.holds fd

/-- On its way to this worker, and no longer in the hands of another. -/
def received (fd : ℤ) (me : Worker n) : ℕ := me.incoming.count fd + me.pc.installs fd

end Worker

/-! ## What has become of the accepted descriptors -/

def accepted (tr : List (Input n × Output n)) (owner : Fin n) (fd : ℤ) : ℕ :=
  tr.countP fun x => x.2 = .accepted fd owner

def installed (tr : List (Input n × Output n)) (owner : Fin n) (fd : ℤ) : ℕ :=
  tr.countP fun x => x.2 = .installed fd owner

theorem accepted_snoc (tr : List (Input n × Output n)) (x : Input n × Output n)
    (owner : Fin n) (fd : ℤ) :
    accepted (tr ++ [x]) owner fd =
      accepted tr owner fd + if x.2 = .accepted fd owner then 1 else 0 := by
  simp [accepted, List.countP_append, List.countP_singleton]

theorem installed_snoc (tr : List (Input n × Output n)) (x : Input n × Output n)
    (owner : Fin n) (fd : ℤ) :
    installed (tr ++ [x]) owner fd =
      installed tr owner fd + if x.2 = .installed fd owner then 1 else 0 := by
  simp [installed, List.countP_append, List.countP_singleton]

namespace Server

open Team

/-- How often `fd` is on its way to `owner`. -/
def pending (s : Server n) (owner : Fin n) (fd : ℤ) : ℕ :=
  s.tally (·.pc.carries fd owner) + (s.worker owner).received fd

/-- The `incoming` list of `owner`, with its eventfd. -/
def mailbox (s : Server n) (owner : Fin n) : Mailbox ℤ where
  list := (s.worker owner).incoming
  ringing := s.tally (·.pc.rings owner)
  counter := (s.worker owner).counter
  taken := 0
  draining := (s.worker owner).pc.drains

/-- How often `fd` is in the hands of some worker. -/
def held (s : Server n) (fd : ℤ) : ℕ := s.tally (·.custody fd)

structure Inv (tr : List (Input n × Output n)) (s : Server n) : Prop where
  held : ∀ fd, s.held fd ≤ if s.shared.opened fd then 1 else 0
  once : ∀ owner fd, accepted tr owner fd = installed tr owner fd + s.pending owner fd
  awake : ∀ owner, (s.mailbox owner).Awake

/-! ### Changes of one worker -/

theorem held_set {s : Server n} {w : Fin n} {me : Worker n} (t : Table) {fd : ℤ} {k l : ℕ}
    (h : me.custody fd + k = (s.worker w).custody fd + l) :
    Server.held ((s.set w me).share t) fd + k = s.held fd + l := by
  have htally := tally_set (·.custody fd) s w me
  rw [Server.held, Server.held, tally_share]
  omega

theorem pending_set (s : Server n) (w : Fin n) (me : Worker n) (t : Table) (owner : Fin n)
    (fd : ℤ) :
    Server.pending ((s.set w me).share t) owner fd + (s.worker w).pc.carries fd owner +
        (if owner = w then (s.worker w).received fd else 0) =
      s.pending owner fd + me.pc.carries fd owner +
        if owner = w then me.received fd else 0 := by
  have htally := tally_set (·.pc.carries fd owner) s w me
  rw [pending, pending, share_worker, tally_share]
  by_cases how : owner = w
  · subst how
    simp only [set_worker_self, if_pos]
    omega
  · simp only [set_worker_ne s me how, if_neg how]
    omega

theorem rings_set {s : Server n} {w : Fin n} {me : Worker n} (owner : Fin n)
    (h : me.pc.rings owner = (s.worker w).pc.rings owner) :
    (s.set w me).tally (·.pc.rings owner) = s.tally (·.pc.rings owner) := by
  have htally := tally_set (·.pc.rings owner) s w me
  simp only [h] at htally
  omega

/-- The mailboxes after a change of `w` that neither starts nor ends a ring. -/
theorem mailbox_set {s : Server n} {w : Fin n} {me : Worker n} (t : Table) (owner : Fin n)
    (h : me.pc.rings owner = (s.worker w).pc.rings owner) :
    Server.mailbox ((s.set w me).share t) owner =
      if owner = w then { s.mailbox w with
        list := me.incoming
        counter := me.counter
        draining := me.pc.drains }
      else s.mailbox owner := by
  rw [mailbox, tally_share, rings_set owner h, share_worker, set_worker]
  by_cases how : owner = w
  · subst how
    simp only [if_pos, mailbox]
  · simp only [if_neg how, mailbox]

/-- A change that leaves list, counter, ring and drain of the worker alone. -/
theorem awake_set {s : Server n} {w : Fin n} {me : Worker n} {t : Table} {owner : Fin n}
    (ha : (s.mailbox owner).Awake) (h : me.pc.rings owner = (s.worker w).pc.rings owner)
    (hlist : me.incoming = (s.worker w).incoming) (hcounter : me.counter = (s.worker w).counter)
    (hdrains : me.pc.drains = (s.worker w).pc.drains) :
    (Server.mailbox ((s.set w me).share t) owner).Awake := by
  rw [mailbox_set t owner h]
  split
  · rename_i how
    subst how
    rw [hlist, hcounter, hdrains]
    exact ha
  · exact ha

/-- A step outside of any hand-off. -/
theorem Inv.idle {tr : List (Input n × Output n)} {s : Server n} (hs : s.Inv tr) {w : Fin n}
    {me : Worker n} (hpc : (s.worker w).pc.Idle) (hpc' : me.pc.Idle)
    (hinterest : me.interest = (s.worker w).interest)
    (hincoming : me.incoming = (s.worker w).incoming)
    (hcounter : me.counter = (s.worker w).counter) (t : Table)
    (hopened : t.opened = s.shared.opened) (a : Input n) :
    Inv (tr ++ [(a, .silent)]) ((s.set w me).share t) := by
  obtain ⟨hcarries, hinstalls, hholds, hrings, hdrains⟩ := hpc.zero
  obtain ⟨hcarries', hinstalls', hholds', hrings', hdrains'⟩ := hpc'.zero
  refine ⟨?_, ?_, ?_⟩
  · intro fd
    have hcustody : me.custody fd = (s.worker w).custody fd := by
      simp only [Worker.custody, hinterest, hincoming, hholds, hholds']
    have hheld := held_set (k := 0) (l := 0) t hcustody
    rw [share_shared, hopened]
    exact Nat.le_trans (Nat.le_of_eq hheld) (hs.held fd)
  · intro owner fd
    have hset := pending_set s w me t owner fd
    have honce := hs.once owner fd
    rw [hcarries, hcarries', Worker.received, Worker.received, hincoming, hinstalls,
      hinstalls'] at hset
    simp only [accepted_snoc, installed_snoc, reduceCtorEq, if_false]
    omega
  · intro owner
    exact awake_set (hs.awake owner) (by rw [hrings, hrings']) hincoming hcounter
      (by rw [hdrains, hdrains'])

theorem Inv.moved {tr : List (Input n × Output n)} {s : Server n} (hs : s.Inv tr) {w : Fin n}
    {pc pc' : Pc n} (hold : (s.worker w).pc = pc) (hpc : pc.Idle) (hpc' : pc'.Idle)
    (events : List Event) (a : Input n) :
    Inv (tr ++ [(a, .silent)]) (s.set w { s.worker w with pc := pc', events := events }) :=
  hs.idle (hold ▸ hpc) (by exact hpc') (by rfl) (by rfl) (by rfl) s.shared rfl a

/-! ### The steps of a hand-off -/

theorem Inv.accepted {tr : List (Input n × Output n)} {s : Server n} (hs : s.Inv tr)
    {w : Fin n} (hpc : (s.worker w).pc = .accept) {fd : ℤ} (hfd : s.shared.opened fd = false)
    (owner : Fin n) (a : Input n) :
    Inv (tr ++ [(a, .accepted fd owner)]) ((s.set w { s.worker w with
        acceptCount := (s.worker w).acceptCount + 1
        pc := .push fd owner }).share
      { s.shared with opened := Function.update s.shared.opened fd true }) := by
  refine ⟨?_, ?_, ?_⟩
  · intro g
    have hheld := hs.held g
    refine Nat.le_trans (Nat.le_of_eq (held_set (k := 0) (l := if fd = g then 1 else 0) _ ?_)) ?_
    · simp only [Worker.custody, hpc, Pc.holds, Nat.add_zero]
    · by_cases hg : fd = g
      · subst hg
        rw [hfd] at hheld
        simp only [share_shared, Function.update_self, if_true]
        simpa using hheld
      · simpa only [share_shared, Function.update_of_ne (Ne.symm hg), if_neg hg,
          Nat.add_zero] using hheld
  · intro o g
    have honce := hs.once o g
    have hset := pending_set s w { s.worker w with
      acceptCount := (s.worker w).acceptCount + 1
      pc := .push fd owner } { s.shared with opened := Function.update s.shared.opened fd true } o g
    simp only [hpc, Pc.carries, Worker.received, Pc.installs] at hset
    simp only [accepted_snoc, installed_snoc, reduceCtorEq, if_false, Output.accepted.injEq]
    omega
  · intro o
    refine awake_set (hs.awake o) ?_ rfl rfl ?_
    · simp only [hpc, Pc.rings]
    · simp only [hpc, Pc.drains]

/-! Both what a worker pushes and what it writes to an eventfd goes to another worker, or
to itself. -/

def deliver (items : List ℤ) (k : ℕ) (me : Worker n) : Worker n :=
  { me with incoming := items ++ me.incoming, counter := me.counter + k }

/-- `w` becomes `me`, which has delivered `items` and `k` rings to `owner`; `hbox` is the
step of the owner's mailbox. -/
theorem Inv.delivered {tr : List (Input n × Output n)} {s : Server n} (hs : s.Inv tr)
    {w owner : Fin n} {me : Worker n} (items : List ℤ) (k : ℕ)
    (hinterest : me.interest = (s.worker w).interest)
    (hincoming : me.incoming = (s.worker w).incoming)
    (hcounter : me.counter = (s.worker w).counter)
    (hholds : ∀ fd, (s.worker w).pc.holds fd = me.pc.holds fd + items.count fd)
    (hcarries : ∀ fd o, (s.worker w).pc.carries fd o =
      me.pc.carries fd o + if o = owner then items.count fd else 0)
    (hinstalls : ∀ fd, me.pc.installs fd = (s.worker w).pc.installs fd)
    (hdrains : me.pc.drains = (s.worker w).pc.drains)
    (hother : ∀ o, o ≠ owner → me.pc.rings o = (s.worker w).pc.rings o)
    (hbox : ∀ ringing, ringing + (s.worker w).pc.rings owner =
        (s.mailbox owner).ringing + me.pc.rings owner →
      Mailbox.Step (s.mailbox owner) { s.mailbox owner with
        list := items ++ (s.mailbox owner).list
        ringing := ringing
        counter := (s.mailbox owner).counter + k }) (a : Input n) :
    Inv (tr ++ [(a, .silent)]) ((s.set w me).modify owner (deliver items k)) := by
  have hw : ∀ o, ((s.set w me).worker o).incoming = (s.worker o).incoming ∧
      ((s.set w me).worker o).counter = (s.worker o).counter ∧
      ((s.set w me).worker o).pc.drains = (s.worker o).pc.drains ∧
      ∀ fd, ((s.set w me).worker o).pc.installs fd = (s.worker o).pc.installs fd := by
    intro o
    by_cases how : o = w
    · subst how
      rw [set_worker_self]
      exact ⟨hincoming, hcounter, hdrains, hinstalls⟩
    · rw [set_worker_ne s me how]
      exact ⟨rfl, rfl, rfl, fun _ => rfl⟩
  refine ⟨?_, ?_, ?_⟩
  · intro fd
    have hset := tally_set (·.custody fd) s w me
    have hmodify := tally_modify (·.custody fd) (s.set w me) owner (deliver items k)
    have hcustody : ∀ me : Worker n,
        (deliver items k me).custody fd = me.custody fd + items.count fd := by
      intro me
      simp only [Worker.custody, deliver, List.count_append]
      omega
    have hme : me.custody fd + items.count fd = (s.worker w).custody fd := by
      simp only [Worker.custody, hinterest, hincoming, hholds]
      omega
    rw [hcustody] at hmodify
    have hheld := hs.held fd
    rw [Server.held] at hheld ⊢
    rw [modify_shared, set_shared]
    omega
  · intro o fd
    have honce := hs.once o fd
    have hset := tally_set (·.pc.carries fd o) s w me
    have hmodify := tally_modify_eq (g := fun me : Worker n => me.pc.carries fd o)
      (f := deliver items k) (fun me => rfl) (s.set w me) owner
    have hreceived : (((s.set w me).modify owner (deliver items k)).worker o).received fd =
        (s.worker o).received fd + if o = owner then items.count fd else 0 := by
      obtain ⟨hlist, -, -, hinst⟩ := hw o
      rw [Team.modify, Worker.received, Worker.received, ← hlist, ← hinst]
      by_cases how : o = owner
      · subst how
        rw [set_worker_self, if_pos rfl]
        simp only [deliver, List.count_append]
        omega
      · rw [set_worker_ne _ _ how, if_neg how, Nat.add_zero]
    rw [pending] at honce
    rw [pending, hmodify, hreceived]
    simp only [hcarries] at hset
    simp only [accepted_snoc, installed_snoc, reduceCtorEq, if_false]
    omega
  · intro o
    obtain ⟨hlist, hcount, hdrain, -⟩ := hw o
    have hset := tally_set (·.pc.rings o) s w me
    have hmodify := tally_modify_eq (g := fun me : Worker n => me.pc.rings o)
      (f := deliver items k) (fun me => rfl) (s.set w me) owner
    rw [mailbox, hmodify, Team.modify]
    by_cases how : o = owner
    · subst how
      rw [set_worker_self, deliver]
      simp only [hlist, hcount, hdrain]
      exact (hbox _ hset).awake (hs.awake o)
    · rw [set_worker_ne _ _ how, rings_set o (hother o how), hlist, hcount, hdrain]
      exact hs.awake o

theorem Inv.pushed {tr : List (Input n × Output n)} {s : Server n} (hs : s.Inv tr)
    {w : Fin n} {fd : ℤ} {owner : Fin n} (hpc : (s.worker w).pc = .push fd owner)
    (a : Input n) : Inv (tr ++ [(a, .silent)]) (s.push w fd owner) := by
  have hcount : ∀ g, List.count g [fd] = if fd = g then 1 else 0 := by
    intro g
    simp only [List.count_singleton, beq_iff_eq]
  refine hs.delivered [fd] 0 (by rfl) (by rfl) (by rfl) ?_ ?_ ?_ ?_ ?_ ?_ a
  · intro g
    rw [hpc, hcount]
    exact (Nat.zero_add _).symm
  · intro g o
    rw [hpc, hcount]
    simp only [Pc.carries, Nat.zero_add]
    by_cases ho : o = owner
    · rw [if_pos ho]
      simp only [ho, and_true]
    · rw [if_neg ho, if_neg (fun h => ho h.2.symm)]
  · intro g
    rw [hpc]
    rfl
  · rw [hpc]
    rfl
  · intro o how
    rw [hpc]
    exact if_neg (Ne.symm how)
  · intro ringing hring
    have heq : ringing = (s.mailbox owner).ringing + 1 := by
      rw [hpc] at hring
      simpa only [Pc.rings, if_true, Nat.add_zero] using hring
    rw [heq]
    exact .push fd

theorem Inv.notified {tr : List (Input n × Output n)} {s : Server n} (hs : s.Inv tr)
    {w owner : Fin n} (hpc : (s.worker w).pc = .notify owner) (a : Input n) :
    Inv (tr ++ [(a, .silent)])
      ((s.set w { s.worker w with pc := .accept }).modify owner fun me =>
        { me with counter := me.counter + 1 }) := by
  refine hs.delivered [] 1 (by rfl) (by rfl) (by rfl) ?_ ?_ ?_ ?_ ?_ ?_ a
  · intro g
    rw [hpc]
    rfl
  · intro g o
    rw [hpc]
    simp [Pc.carries]
  · intro g
    rw [hpc]
    rfl
  · rw [hpc]
    rfl
  · intro o how
    rw [hpc]
    exact (if_neg (Ne.symm how)).symm
  · intro ringing hring
    rw [hpc] at hring
    simp only [Pc.rings, if_true, Nat.add_zero] at hring
    have hpos : 0 < (s.mailbox owner).ringing := by omega
    have heq : ringing = (s.mailbox owner).ringing - 1 := by omega
    rw [heq]
    exact .ring hpos

/-! ### The owner's side -/

theorem Inv.awaken {tr : List (Input n × Output n)} {s : Server n} (hs : s.Inv tr)
    {w : Fin n} (hpc : (s.worker w).pc = .onEvent) (hpos : 0 < (s.worker w).counter)
    (a : Input n) :
    Inv (tr ++ [(a, .silent)])
      ((s.set w { s.worker w with counter := 0, pc := .drain }).share s.shared) := by
  refine ⟨?_, ?_, ?_⟩
  · intro g
    refine Nat.le_trans (Nat.le_of_eq (held_set (k := 0) (l := 0) _ ?_)) (hs.held g)
    simp only [Worker.custody, hpc, Pc.holds]
  · intro o g
    have hset := pending_set s w { s.worker w with counter := 0, pc := .drain } s.shared o g
    have honce := hs.once o g
    simp only [hpc, Pc.carries, Worker.received, Pc.installs] at hset
    simp only [accepted_snoc, installed_snoc, reduceCtorEq, if_false]
    omega
  · intro o
    rw [mailbox_set _ _ (by rw [hpc]; rfl)]
    split
    · refine Mailbox.Step.awake (.answer (m := { s.mailbox w with counter := 0, taken := 1 }) ?_)
        (Mailbox.Step.awake (.take hpos) (hs.awake w))
      exact Nat.one_pos
    · exact hs.awake o

theorem Inv.drained {tr : List (Input n × Output n)} {s : Server n} (hs : s.Inv tr)
    {w : Fin n} (hpc : (s.worker w).pc = .drain) (hnil : (s.worker w).incoming = [])
    (a : Input n) :
    Inv (tr ++ [(a, .silent)]) ((s.set w { s.worker w with pc := .loop }).share s.shared) := by
  refine ⟨?_, ?_, ?_⟩
  · intro g
    refine Nat.le_trans (Nat.le_of_eq (held_set (k := 0) (l := 0) _ ?_)) (hs.held g)
    simp only [Worker.custody, hpc, Pc.holds]
  · intro o g
    have hset := pending_set s w { s.worker w with pc := .loop } s.shared o g
    have honce := hs.once o g
    simp only [hpc, Pc.carries, Worker.received, Pc.installs] at hset
    simp only [accepted_snoc, installed_snoc, reduceCtorEq, if_false]
    omega
  · intro o
    rw [mailbox_set _ _ (by rw [hpc]; rfl)]
    split
    · exact (Mailbox.Step.finish (m := s.mailbox w) hnil).awake (hs.awake w)
    · exact hs.awake o

theorem Inv.popped {tr : List (Input n × Output n)} {s : Server n} (hs : s.Inv tr)
    {w : Fin n} (hpc : (s.worker w).pc = .drain) {fd : ℤ} {rest : List ℤ}
    (hcons : (s.worker w).incoming = fd :: rest) (a : Input n) :
    Inv (tr ++ [(a, .silent)])
      ((s.set w { s.worker w with incoming := rest, pc := .install fd }).share s.shared) := by
  have hcount : ∀ g, (s.worker w).incoming.count g = rest.count g + if fd = g then 1 else 0 := by
    intro g
    rw [hcons]
    simp only [List.count_cons, beq_iff_eq]
  refine ⟨?_, ?_, ?_⟩
  · intro g
    refine Nat.le_trans (Nat.le_of_eq (held_set (k := 0) (l := 0) _ ?_)) (hs.held g)
    simp only [Worker.custody, hpc, hcount, Pc.holds]
    omega
  · intro o g
    have hset := pending_set s w { s.worker w with incoming := rest, pc := .install fd }
      s.shared o g
    have honce := hs.once o g
    simp only [hpc, Pc.carries, Worker.received, Pc.installs, hcount] at hset
    simp only [accepted_snoc, installed_snoc, reduceCtorEq, if_false]
    split at hset <;> omega
  · intro o
    rw [mailbox_set _ _ (by rw [hpc]; rfl)]
    split
    · have hdrain : (s.mailbox w).draining = true := by
        rw [mailbox, hpc]
        rfl
      have hawake := (Mailbox.Step.pop hdrain hcons).awake (hs.awake w)
      rw [hdrain] at hawake
      exact hawake
    · exact hs.awake o

theorem Inv.installed {tr : List (Input n × Output n)} {s : Server n} (hs : s.Inv tr)
    {w : Fin n} {fd : ℤ} (hpc : (s.worker w).pc = .install fd) (new : Alloc) (c : Connection)
    (a : Input n) :
    Inv (tr ++ [(a, .installed fd w)]) ((s.set w { s.worker w with
        connCache := new.cache
        interest := fd :: (s.worker w).interest
        pc := .drain }).share (s.shared.install fd new.entry c new.next)) := by
  refine ⟨?_, ?_, ?_⟩
  · intro g
    refine Nat.le_trans (Nat.le_of_eq (held_set (k := 0) (l := 0) _ ?_)) (hs.held g)
    simp only [Worker.custody, hpc, Pc.holds, List.count_cons, beq_iff_eq]
    omega
  · intro o g
    have hset := pending_set s w { s.worker w with
      connCache := new.cache
      interest := fd :: (s.worker w).interest
      pc := .drain } (s.shared.install fd new.entry c new.next) o g
    have honce := hs.once o g
    simp only [hpc, Pc.carries, Worker.received, Pc.installs] at hset
    simp only [accepted_snoc, installed_snoc, reduceCtorEq, if_false, Output.installed.injEq]
    by_cases how : o = w
    · subst how
      simp only [if_true, and_true] at hset ⊢
      omega
    · simp only [if_neg how, Ne.symm how, and_false, if_false] at hset ⊢
      omega
  · intro o
    refine awake_set (hs.awake o) ?_ rfl rfl ?_
    · rw [hpc]
      rfl
    · rw [hpc]
      rfl

/-- A closed descriptor was registered, so it was nowhere else. -/
theorem Inv.closed {tr : List (Input n × Output n)} {s : Server n} (hs : s.Inv tr)
    {w : Fin n} {me : Worker n} {fd : ℤ} (hfd : fd ∈ (s.worker w).interest)
    (hpc : (s.worker w).pc.Idle) (hpc' : me.pc.Idle)
    (hinterest : me.interest = (s.worker w).interest.erase fd)
    (hincoming : me.incoming = (s.worker w).incoming)
    (hcounter : me.counter = (s.worker w).counter) (a : Input n) :
    Inv (tr ++ [(a, .silent)]) ((s.set w me).share (s.shared.close fd)) := by
  obtain ⟨hcarries, hinstalls, hholds, hrings, hdrains⟩ := hpc.zero
  obtain ⟨hcarries', hinstalls', hholds', hrings', hdrains'⟩ := hpc'.zero
  refine ⟨?_, ?_, ?_⟩
  · intro g
    have hheld := hs.held g
    by_cases hg : g = fd
    · subst hg
      have hpos := List.count_pos_iff.mpr hfd
      have hcustody : me.custody g + 1 = (s.worker w).custody g + 0 := by
        simp only [Worker.custody, hinterest, hincoming, hholds, hholds', List.count_erase_self]
        omega
      have hset := held_set (s.shared.close g) hcustody
      have hone : s.held g ≤ 1 := by
        split at hheld <;> omega
      omega
    · have hcustody : me.custody g = (s.worker w).custody g := by
        simp only [Worker.custody, hinterest, hincoming, hholds, hholds',
          List.count_erase_of_ne hg]
      have hset := held_set (k := 0) (l := 0) (s.shared.close fd) hcustody
      simp only [share_shared, Table.close, Function.update_of_ne hg]
      exact Nat.le_trans (Nat.le_of_eq hset) hheld
  · intro owner g
    have hset := pending_set s w me (s.shared.close fd) owner g
    have honce := hs.once owner g
    rw [hcarries, hcarries', Worker.received, Worker.received, hincoming, hinstalls,
      hinstalls'] at hset
    simp only [accepted_snoc, installed_snoc, reduceCtorEq, if_false]
    omega
  · intro owner
    exact awake_set (hs.awake owner) (by rw [hrings, hrings']) hincoming hcounter
      (by rw [hdrains, hdrains'])

/-! ### Runs -/

theorem Inv.step {tr : List (Input n × Output n)} {s s' : Server n} (hs : s.Inv tr)
    {a : Input n} {o : Output n} (h : s.step msgSize a = some (s', o)) :
    s'.Inv (tr ++ [(a, o)]) := by
  cases step_spec h with
  | batch hpc hnodup hmem =>
      exact hs.moved hpc trivial (by trivial) _ _
  | batchEnd hpc hnil => exact hs.moved hpc trivial (by trivial) _ _
  | failed hpc hevents herr hlisten hevent =>
      exact hs.moved hpc trivial (by trivial) _ _
  | took hpc hevents => exact hs.moved hpc trivial (by trivial) _ _
  | listen hpc hfd => exact hs.moved hpc trivial (by trivial) _ _
  | wake hpc hfd => exact hs.moved hpc trivial (by trivial) _ _
  | ready hpc hlisten hevent =>
      exact hs.moved hpc trivial (by trivial) _ _
  | accepted hpc hpos hfd => exact hs.accepted hpc hfd _ _
  | acceptEnd hpc => exact hs.moved hpc trivial (by trivial) _ _
  | pushed hpc => exact hs.pushed hpc _
  | notified hpc => exact hs.notified hpc _
  | asleep hpc hzero => exact hs.moved hpc trivial (by trivial) _ _
  | awake hpc hpos => exact hs.awaken hpc hpos _
  | drained hpc hnil => exact hs.drained hpc hnil _
  | popped hpc hcons => exact hs.popped hpc hcons _
  | installed hpc hnew => exact hs.installed hpc _ _ _
  | ignored hpc hneg => exact hs.moved hpc trivial (by trivial) _ _
  | entered hpc hfd hnext =>
      refine hs.idle ?_ ?_ (by rfl) (by rfl) (by rfl) _ (by rfl) _
      · rw [hpc]
        exact trivial
      · exact trivial
  | @answered w ret p c next hpc hfd =>
      exact hs.idle hpc.idle (by exact next.pc_idle p) (by rfl) (by rfl) (by rfl) _ (by rfl) _
  | @closed w p rest msgCache hpc hfd =>
      refine hs.closed hfd ?_ ?_ (by rfl) (by rfl) (by rfl) _
      · rw [hpc]
        exact trivial
      · cases rest <;> exact trivial

theorem inv_start {s : Server n} (h : s.Start) : s.Inv [] := by
  have hpc : ∀ w, (s.worker w).pc.Idle := by
    intro w
    rw [h.pc]
    trivial
  refine ⟨?_, ?_, ?_⟩
  · intro fd
    have hcustody : ∀ w, (s.worker w).custody fd = (s.worker w).interest.count fd := by
      intro w
      rw [Worker.custody, h.incoming, (hpc w).zero.2.2.1]
      rfl
    have hopened := h.opened fd
    simp only [Server.held, tally, hcustody] at hopened ⊢
    exact hopened
  · intro owner fd
    have hcarries : s.tally (·.pc.carries fd owner) = 0 :=
      tally_eq_zero fun w => (hpc w).zero.1 fd owner
    rw [pending, hcarries, Worker.received, h.incoming, (hpc owner).zero.2.1]
    rfl
  · intro owner
    right
    right
    rw [mailbox, h.incoming]
    exact Nat.zero_le _

theorem reaches_inv {tr : List (Input n × Output n)} {s : Server n}
    (h : (echoServer n msgSize).Reaches tr s) : s.Inv tr :=
  h.invariant (fun _ hs => inv_start hs) fun _ _ _ _ _ _ hs hstep => hs.step hstep

/-! ## The hand-off -/

/-- `once` and `single` say that a descriptor that `owner` should get is on its way to it
or has been installed by it, and is in one place. -/
structure HandOff (msgSize : ℕ) (tr : List (Input n × Output n)) (s : Server n) : Prop where
  once : ∀ owner fd, accepted tr owner fd = installed tr owner fd + s.pending owner fd
  single : ∀ fd, s.held fd ≤ 1
  installs : ∀ {a s' fd owner}, s.step msgSize a = some (s', .installed fd owner) →
    a.worker = owner ∧ (s'.shared.conns fd).isSome ∧ fd ∈ (s'.worker owner).interest
  settled : (∀ w, (s.worker w).pc = .epollWait) → (∀ w, (s.worker w).counter = 0) →
    ∀ owner fd, accepted tr owner fd = installed tr owner fd
  woken : ∀ owner, (s.worker owner).incoming ≠ [] →
    0 < (s.worker owner).counter ∨ (∃ v, (s.worker v).pc = .notify owner) ∨
      (s.worker owner).pc.drains = true

/-- An entry on a list will be found: by a ring that was made, by one that will be made, or
by the owner itself. -/
theorem Inv.woken {tr : List (Input n × Output n)} {s : Server n} (hs : s.Inv tr)
    {owner : Fin n} (h : (s.worker owner).incoming ≠ []) :
    0 < (s.worker owner).counter ∨ (∃ v, (s.worker v).pc = .notify owner) ∨
      (s.worker owner).pc.drains = true := by
  rcases (hs.awake owner).of_ne_nil h with hcounter | hringing | htaken | hdraining
  · exact .inl hcounter
  · have hpos : 0 < s.tally (·.pc.rings owner) := hringing
    obtain ⟨v, hv⟩ := exists_of_tally_pos hpos
    exact .inr (.inl ⟨v, Pc.eq_notify hv⟩)
  · exact absurd htaken (Nat.lt_irrefl 0)
  · exact .inr (.inr hdraining)

/-- Where every worker waits and no eventfd is readable, nothing is on its way. -/
theorem Inv.settled {tr : List (Input n × Output n)} {s : Server n} (hs : s.Inv tr)
    (hpc : ∀ w, (s.worker w).pc = .epollWait) (hcounter : ∀ w, (s.worker w).counter = 0)
    (owner : Fin n) (fd : ℤ) : s.pending owner fd = 0 := by
  have hidle : ∀ w, (s.worker w).pc.Idle := by
    intro w
    rw [hpc]
    exact trivial
  have hnil : (s.worker owner).incoming = [] := by
    by_contra hne
    rcases hs.woken hne with hpos | ⟨v, hv⟩ | hdrains
    · rw [hcounter] at hpos
      exact Nat.lt_irrefl 0 hpos
    · rw [hpc] at hv
      cases hv
    · rw [hpc] at hdrains
      cases hdrains
  have hcarries : s.tally (·.pc.carries fd owner) = 0 :=
    tally_eq_zero fun w => (hidle w).zero.1 fd owner
  rw [pending, hcarries, Worker.received, hnil, (hidle owner).zero.2.1]
  rfl

theorem installed_step {s s' : Server n} {a : Input n} {fd : ℤ} {owner : Fin n}
    (h : s.step msgSize a = some (s', .installed fd owner)) :
    a.worker = owner ∧ (s'.shared.conns fd).isSome ∧ fd ∈ (s'.worker owner).interest := by
  cases step_spec h with
  | installed hpc hnew =>
      refine ⟨rfl, ?_, ?_⟩
      · rw [share_shared, Table.install]
        simp only [Function.update_self, Option.isSome_some]
      · rw [share_worker, set_worker_self]
        exact List.mem_cons_self

/-- Every accepted descriptor is handed to its owner exactly once, and no wake-up is lost. -/
theorem echoServer_handOff {tr : List (Input n × Output n)} {s : Server n}
    (h : (echoServer n msgSize).Reaches tr s) : s.HandOff msgSize tr := by
  have hs := reaches_inv h
  refine ⟨hs.once, ?_, installed_step, ?_, fun owner hne => hs.woken hne⟩
  · intro fd
    have hheld := hs.held fd
    split at hheld <;> omega
  · intro hpc hcounter owner fd
    rw [hs.once, hs.settled hpc hcounter, Nat.add_zero]

end Server

/-- Two workers with one block in each cache. -/
def smallServer : Server 2 where
  worker w := {
    listenSock := if w.val = 0 then 10 else 20
    eventFd := if w.val = 0 then 11 else 21
    interest := if w.val = 0 then [10, 11] else [20, 21]
    incoming := []
    counter := 0
    pc := .epollWait
    events := []
    msgCache := if w.val = 0 then [1] else [3]
    connCache := if w.val = 0 then [2] else [4]
    acceptCount := 0
    connCount := 0 }
  shared := {
    conns := fun _ => none
    conn := fun _ => Connection.zero
    opened := fun fd => fd ∈ [(10 : ℤ), 11, 20, 21]
    next := 5 }

theorem smallServer_start : smallServer.Start where
  pc _ := rfl
  events _ := rfl
  interest w := by revert w; decide
  incoming _ := rfl
  counter _ := rfl
  opened fd := by
    have hcount : (smallServer.tally fun me => me.interest.count fd) =
        List.count fd [10, 11, 20, 21] := by
      rw [Team.tally, Fin.sum_univ_two, ← List.count_append]
      rfl
    rw [hcount]
    by_cases hfd : fd ∈ [(10 : ℤ), 11, 20, 21]
    · have hone : List.count fd [10, 11, 20, 21] ≤ 1 :=
        List.nodup_iff_count_le_one.mp (by decide) fd
      have hopen : smallServer.shared.opened fd = true := decide_eq_true hfd
      rw [hopen, if_pos rfl]
      exact hone
    · rw [List.count_eq_zero.mpr hfd]
      exact Nat.zero_le _
  conns _ := rfl
  cached b := by
    have hcount : smallServer.free b = List.count b [2, 4] := by
      rw [Server.free, Team.tally, Fin.sum_univ_two, ← List.count_append]
      rfl
    rw [hcount]
    exact List.nodup_iff_count_le_one.mp (by decide) b
  fresh b hb := by
    have hcount : smallServer.free b = List.count b [2, 4] := by
      rw [Server.free, Team.tally, Fin.sum_univ_two, ← List.count_append]
      rfl
    have hlt : 5 ≤ b := hb
    rw [hcount, List.count_eq_zero]
    simp
    omega
  next := by decide

/-- The event that `fd` is ready to be read. -/
def readable (fd : ℤ) : Event := ⟨fd, true, false, false⟩

/-- Worker `v` accepts descriptor 7 for worker `w`, which installs it. -/
def handOver (v w : Fin n) : List (Input n) :=
  [.epollWait v [readable 10], .run v, .run v, .accept v 7 w, .run v, .run v, .acceptAgain v,
    .run v, .epollWait w [readable 21], .run w, .run w, .run w, .run w, .run w, .run w, .run w]

theorem echoServer_handOff_handOver :
    ∃ tr s, (echoServer 2 1).Reaches tr s ∧ accepted tr 1 7 = 1 ∧ s.HandOff 1 tr := by
  have hrun : ((echoServer 2 1).exec smallServer (handOver 0 1)).isSome := by decide
  have hreach := Machine.reaches_exec_get smallServer_start hrun
  exact ⟨_, _, hreach, rfl, Server.echoServer_handOff hreach⟩

end Upcalls.Epoll
