import Upcalls.Verification.UpcallEcho.Safety

/-! # Copying the stream into the message buffer

`add_read` does not tell the kernel how much room is left behind the cursor. The copy
stays inside the buffer exactly as long as no read completion crosses the end of a
message of the client's stream.
-/

namespace Upcalls.UpcallEcho

open Library LibUpcall TcpEcho

variable {n msgSize : ℕ}

/-! ## Positions in the stream -/

/-- The position behind a step, in the stream of the connection on `fd`. -/
def Output.advance (fd : ℤ) (pos : ℕ) : Output → ℕ
  | .silent => pos
  | .dispatched e _ =>
      if e.workFn = some .myAccept ∧ e.result = fd then 0
      else if e.workFn = some .myRead ∧ e.fd = fd then pos + e.result.toNat
      else pos

/-- How many bytes were read from the connection on `fd` since it was accepted. -/
def streamPos (tr : List (Input n × Output)) (fd : ℤ) : ℕ :=
  tr.foldl (fun pos x => x.2.advance fd pos) 0

theorem streamPos_snoc (tr : List (Input n × Output)) (x : Input n × Output) (fd : ℤ) :
    streamPos (tr ++ [x]) fd = x.2.advance fd (streamPos tr fd) := by
  simp [streamPos, List.foldl_append]

/-- A read completion at these positions stays within one message. -/
def Output.Within (msgSize : ℕ) (pos : ℤ → ℕ) : Output → Prop
  | .silent => True
  | .dispatched e _ =>
      e.workFn = some .myRead → pos e.fd % msgSize + e.result.toNat ≤ msgSize

/-- No read completion crosses the end of a message. -/
def NoSpan (msgSize : ℕ) (tr : List (Input n × Output)) : Prop :=
  ∀ before x after, tr = before ++ x :: after → x.2.Within msgSize (streamPos before)

/-- Every copy of a step ends inside the message buffer. -/
def Output.Fits (msgSize : ℕ) (o : Output) : Prop :=
  ∀ dst src len, Effect.memcpy dst src len ∈ o.effects → dst.off + len ≤ msgSize

def InBounds (msgSize : ℕ) (tr : List (Input n × Output)) : Prop :=
  ∀ x ∈ tr, x.2.Fits msgSize

theorem noSpan_snoc (tr : List (Input n × Output)) (x : Input n × Output) :
    NoSpan msgSize (tr ++ [x]) ↔ NoSpan msgSize tr ∧ x.2.Within msgSize (streamPos tr) := by
  constructor
  · intro h
    refine ⟨?_, h tr x [] rfl⟩
    intro before y after htr
    exact h before y (after ++ [x]) (by simp [htr])
  · rintro ⟨h, hx⟩ before y after htr
    rcases List.eq_nil_or_concat after with rfl | ⟨after, z, rfl⟩
    · obtain ⟨rfl, hxy⟩ := List.append_inj' htr rfl
      cases List.singleton_inj.mp hxy
      exact hx
    · have hsplit : tr ++ [x] = (before ++ y :: after) ++ [z] := by simpa using htr
      obtain ⟨htr, -⟩ := List.append_inj' hsplit rfl
      exact h before y after htr

theorem inBounds_snoc (tr : List (Input n × Output)) (x : Input n × Output) :
    InBounds msgSize (tr ++ [x]) ↔ InBounds msgSize tr ∧ x.2.Fits msgSize := by
  simp [InBounds, or_imp, forall_and]

/-- Inside a message the position moves with the bytes, and at its end it starts over. -/
theorem mod_within {pos k : ℕ} (h : pos % msgSize + k ≤ msgSize) :
    (pos + k) % msgSize =
      if pos % msgSize + k < msgSize then pos % msgSize + k else 0 := by
  rw [← Nat.mod_add_mod]
  split
  · rename_i hlt
    exact Nat.mod_eq_of_lt hlt
  · rename_i hge
    have hend : pos % msgSize + k = msgSize := by omega
    rw [hend, Nat.mod_self]

/-! ## The cursor follows the stream -/

namespace Server

open Team

def reads (s : Server n) (fd : ℤ) : ℕ := s.tally (·.jobs .myRead fd)

/-- A connection that waits for a read has its cursor at the position in the message, and
one that waits for a write has read whole messages. -/
def Tracks (msgSize : ℕ) (pos : ℤ → ℕ) (s : Server n) : Prop :=
  ∀ fd p, s.shared.conns fd = some p →
    (0 < s.reads fd → (s.shared.conn p).cursor = pos fd % msgSize) ∧
      (0 < s.writes fd → pos fd % msgSize = 0)

/-- Where neither the cursor nor the position moves and no request is made. -/
theorem Tracks.keep {pos pos' : ℤ → ℕ} {s s' : Server n} (ht : s.Tracks msgSize pos) {fd : ℤ}
    {p : ℕ} (hp : s.shared.conns fd = some p) (hpos : pos' fd = pos fd)
    (hcursor : (s'.shared.conn p).cursor = (s.shared.conn p).cursor)
    (hreads : s'.reads fd ≤ s.reads fd) (hwrites : s'.writes fd ≤ s.writes fd) :
    (0 < s'.reads fd → (s'.shared.conn p).cursor = pos' fd % msgSize) ∧
      (0 < s'.writes fd → pos' fd % msgSize = 0) := by
  obtain ⟨hr, hw⟩ := ht fd p hp
  rw [hpos, hcursor]
  exact ⟨fun h => hr (by omega), fun h => hw (by omega)⟩

/-- A dispatch takes one request and the handler makes `k` new ones. -/
theorem jobs_dispatched {s : Server n} {w : Fin n} {e : UpEvent Handler}
    {rest : List (UpEvent Handler)} (he : (s.worker w).queue.undispatched = e :: rest)
    {me : Worker} (sh : Shared) {h : Handler} {fd : ℤ} {k : ℕ}
    (hme : me.jobs h fd = (s.worker w).pop.jobs h fd + k) :
    ((s.set w me).share sh).tally (·.jobs h fd) + (if eventFor h fd e then 1 else 0) =
      s.tally (·.jobs h fd) + k := by
  have htotal := tally_set (·.jobs h fd) s w me
  have hpop := Worker.jobs_pop he h fd
  simp only [tally_share] at htotal ⊢
  omega

theorem jobs_le {s : Server n} {w : Fin n} {e : UpEvent Handler}
    {rest : List (UpEvent Handler)} (he : (s.worker w).queue.undispatched = e :: rest)
    {me : Worker} (sh : Shared) {h : Handler} {fd : ℤ}
    (hme : me.jobs h fd = (s.worker w).pop.jobs h fd) :
    ((s.set w me).share sh).tally (·.jobs h fd) ≤ s.tally (·.jobs h fd) := by
  have hjobs := jobs_dispatched he sh (k := 0) hme
  omega

theorem tracks_silent {tr : List (Input n × Output)} {s : Server n} {w : Fin n} {me : Worker}
    (ht : s.Tracks msgSize (streamPos tr))
    (hjobs : ∀ h fd, me.jobs h fd = (s.worker w).jobs h fd) (sh : Shared)
    (hconns : sh.conns = s.shared.conns) (hconn : sh.conn = s.shared.conn) (a : Input n) :
    Tracks msgSize (streamPos (tr ++ [(a, .silent)])) ((s.set w me).share sh) := by
  have hsame : ∀ h fd, ((s.set w me).share sh).tally (·.jobs h fd) =
      s.tally (·.jobs h fd) := by
    intro h fd
    have htotal := tally_set (·.jobs h fd) s w me
    have hw := hjobs h fd
    simp only [tally_share] at htotal ⊢
    omega
  intro fd p hp
  rw [share_shared, hconns] at hp
  exact ht.keep hp (streamPos_snoc _ _ _) (by rw [share_shared, hconn])
    (Nat.le_of_eq (hsame _ _)) (Nat.le_of_eq (hsame _ _))

theorem advance_of_ne {e : UpEvent Handler} {fd : ℤ} (hacc : e.workFn ≠ some .myAccept)
    (hfd : fd ≠ e.fd) (effects : List Effect) (pos : ℕ) :
    Output.advance fd pos (.dispatched e effects) = pos := by
  simp [Output.advance, hacc, Ne.symm hfd]

/-- A waiting read is the only operation of its connection. -/
theorem Inv.alone {tr : List (Input n × Output)} {s : Server n} (hs : s.Inv tr) (fd : ℤ) :
    s.reads fd + s.writes fd ≤ 1 := by
  have harmed := hs.armed fd
  have hone := present_le_one s.shared fd
  rw [ops_eq] at harmed
  simp only [reads]
  omega

theorem Inv.tracks_accepted {tr : List (Input n × Output)} {s : Server n} (hs : s.Inv tr)
    (ht : s.Tracks msgSize (streamPos tr)) {w : Fin n} {e : UpEvent Handler}
    {rest : List (UpEvent Handler)} (he : (s.worker w).queue.undispatched = e :: rest)
    (hfn : e.workFn = some .myAccept) (hres : 0 ≤ e.result) (a : Input n)
    (effects : List Effect) :
    Tracks msgSize (streamPos (tr ++ [(a, .dispatched e effects)]))
      ((s.set w (myAccept e (s.worker w).pop s.shared).1).share
        (myAccept e (s.worker w).pop s.shared).2) := by
  have hneg : ¬ e.result < 0 := by omega
  rw [myAccept, if_neg hneg]
  intro fd p hp
  by_cases hfd : fd = e.result
  · subst hfd
    have hpos : streamPos (tr ++ [(a, .dispatched e effects)]) e.result = 0 := by
      rw [streamPos_snoc]
      simp [Output.advance, hfn]
    simp only [share_shared, Function.update_self, Option.some.injEq] at hp
    subst hp
    rw [hpos]
    refine ⟨?_, fun _ => Nat.zero_mod _⟩
    intro _
    simp only [share_shared, Function.update_self, newConn, Connection.zero, Nat.zero_mod]
  · simp only [share_shared, Function.update_of_ne hfd] at hp
    have hnew : p ≠ (cacheAlloc (s.worker w).connCache s.shared.next).entry := by
      rintro rfl
      exact hs.new_unowned w (fd, .record) hp
    refine ht.keep hp ?_ ?_ ?_ ?_
    · rw [streamPos_snoc]
      simp [Output.advance, hfn, Ne.symm hfd]
    · simp only [share_shared, Worker.pop, Function.update_of_ne hnew]
    · refine jobs_le he _ ?_
      rw [Worker.jobs_request, Worker.jobs_request]
      simp [requestFor, requestFn, requestFd, Ne.symm hfd]
      rfl
    · refine jobs_le he _ ?_
      rw [Worker.jobs_request, Worker.jobs_request]
      simp [requestFor, requestFn]
      rfl

theorem Inv.tracks_closed {tr : List (Input n × Output)} {s : Server n} (hs : s.Inv tr)
    (ht : s.Tracks msgSize (streamPos tr)) {w : Fin n} {e : UpEvent Handler}
    {rest : List (UpEvent Handler)} (he : (s.worker w).queue.undispatched = e :: rest)
    {h : Handler} (hfn : e.workFn = some h) (hh : h ≠ .myAccept) {p : ℕ}
    (hp : s.shared.conns e.fd = some p) (a : Input n) (effects : List Effect) :
    Tracks msgSize (streamPos (tr ++ [(a, .dispatched e effects)]))
      ((s.set w (onClose p (s.worker w).pop s.shared).1).share
        (onClose p (s.worker w).pop s.shared).2) := by
  obtain ⟨hpfd, hpos⟩ := hs.live _ _ hp
  rw [onClose_eq (by rw [hpfd]; exact hpos), hpfd]
  intro fd q hq
  by_cases hfd : fd = e.fd
  · rw [share_shared, hfd] at hq
    simp only [Function.update_self] at hq
    cases hq
  · simp only [share_shared, Function.update_of_ne hfd] at hq
    refine ht.keep hq ?_ ?_ (jobs_le he _ rfl) (jobs_le he _ rfl)
    · rw [streamPos_snoc]
      exact advance_of_ne (ne_accept_of_isOp hfn hh) hfd _ _
    · simp only [share_shared, Function.update_of_ne (hs.record_ne hp hq hfd)]

theorem tracks_failed {tr : List (Input n × Output)} {s : Server n}
    (ht : s.Tracks msgSize (streamPos tr)) {w : Fin n} {e : UpEvent Handler}
    {rest : List (UpEvent Handler)} (he : (s.worker w).queue.undispatched = e :: rest)
    {h : Handler} (hfn : e.workFn = some h) (hh : h ≠ .myAccept) (hres : e.result < 0)
    {p : ℕ} {c : Connection}
    (hcursor : c.cursor = (s.shared.conn p).cursor) (a : Input n) (effects : List Effect) :
    Tracks msgSize (streamPos (tr ++ [(a, .dispatched e effects)]))
      ((s.set w (s.worker w).pop).share
        { s.shared with conn := Function.update s.shared.conn p c }) := by
  intro fd q hq
  refine ht.keep hq ?_ ?_ (jobs_le he _ rfl) (jobs_le he _ rfl)
  · rw [streamPos_snoc]
    have hzero : e.result.toNat = 0 := by omega
    simp [Output.advance, ne_accept_of_isOp hfn hh, hzero]
  · by_cases hqp : q = p
    · simp only [share_shared, hqp, Function.update_self, hcursor]
    · simp only [share_shared, Function.update_of_ne hqp]

/-- The requests of the connection after progress, by what the handler asked for. -/
theorem Inv.tracks_rearmed {tr : List (Input n × Output)} {s : Server n} (hs : s.Inv tr)
    (ht : s.Tracks msgSize (streamPos tr)) {w : Fin n} {e : UpEvent Handler}
    {rest : List (UpEvent Handler)} (he : (s.worker w).queue.undispatched = e :: rest)
    {h : Handler} (hfn : e.workFn = some h) (hh : h ≠ .myAccept)
    {p : ℕ} (hp : s.shared.conns e.fd = some p) {c : Connection} {r : Request Handler}
    (hr : Proceeds msgSize (s.shared.conn p) e h c r) (a : Input n) {effects : List Effect}
    (hwithin : Output.Within msgSize (streamPos tr) (.dispatched e effects)) (k : ℕ) :
    Tracks msgSize (streamPos (tr ++ [(a, .dispatched e effects)]))
      ((s.set w (Worker.request r { (s.worker w).pop with
          queue := { (s.worker w).pop.queue with
            returned := (s.worker w).pop.queue.returned + k } })).share
        { s.shared with conn := Function.update s.shared.conn p c }) := by
  obtain ⟨me, hme⟩ : ∃ me : Worker, me = Worker.request r { (s.worker w).pop with
    queue := { (s.worker w).pop.queue with
      returned := (s.worker w).pop.queue.returned + k } } := ⟨_, rfl⟩
  rw [← hme]
  have hjobs : ∀ g fd, me.jobs g fd =
      (s.worker w).pop.jobs g fd + if requestFor g fd r then 1 else 0 := by
    intro g fd
    rw [hme, Worker.jobs_request]
    rfl
  have hpfd := (hs.live _ _ hp).1
  intro fd q hq
  by_cases hfd : fd = e.fd
  · subst hfd
    cases hp.symm.trans hq
    have hreads := jobs_dispatched he { s.shared with
      conn := Function.update s.shared.conn p c } (hjobs .myRead e.fd)
    have hwrites := jobs_dispatched he { s.shared with
      conn := Function.update s.shared.conn p c } (hjobs .myWrite e.fd)
    have halone := hs.alone e.fd
    have hpos : streamPos (tr ++ [(a, Output.dispatched e effects)]) e.fd =
        if h = .myRead then streamPos tr e.fd + e.result.toNat else streamPos tr e.fd := by
      rw [streamPos_snoc]
      simp [Output.advance, hfn, hh]
    obtain ⟨hread, hwrite⟩ := ht e.fd p hp
    have hmem : e ∈ (s.worker w).queue.undispatched := by rw [he]; exact List.mem_cons_self
    have hevent : eventFor h e.fd e = true := by simp [eventFor, hfn]
    have hpending := Nat.lt_of_lt_of_le (Worker.jobs_pos_of_event hmem hevent)
      (le_tally (·.jobs h e.fd) s w)
    simp only [share_shared, Function.update_self]
    simp only [eventFor, hfn, requestFor] at hreads hwrites
    simp only [reads, Server.writes, tally_share] at halone hread hwrite hreads hwrites ⊢
    cases hr with
    | readMore hlt hcur =>
        have hcursor := hread hpending
        rw [hpos, if_pos rfl, mod_within (hwithin hfn), if_pos (by omega)]
        simp [requestFn, requestFd, hpfd] at hreads hwrites
        exact ⟨fun _ => by omega, fun hwriting => by omega⟩
    | readAll hge hcur =>
        have hcursor := hread hpending
        rw [hpos, if_pos rfl, mod_within (hwithin hfn), if_neg (by omega)]
        exact ⟨fun _ => hcur, fun _ => rfl⟩
    | wroteMore hlt hcur =>
        rw [hpos, if_neg (by simp)]
        simp [requestFn, requestFd, hpfd] at hreads hwrites
        exact ⟨fun hreading => by omega, fun _ => hwrite hpending⟩
    | wroteAll hge hcur =>
        rw [hpos, if_neg (by simp), hwrite hpending]
        exact ⟨fun _ => hcur, fun _ => rfl⟩
  · have hother : ∀ g, requestFor g fd r = false := by
      intro g
      rcases hr.continues with rfl | ⟨buf, len, rfl, -⟩
      · simp [requestFor, requestFd, hpfd, Ne.symm hfd]
      · simp [requestFor, requestFd, hpfd, Ne.symm hfd]
    refine ht.keep hq ?_ ?_ (jobs_le he _ ?_) (jobs_le he _ ?_)
    · rw [streamPos_snoc]
      exact advance_of_ne (ne_accept_of_isOp hfn hh) hfd _ _
    · simp only [share_shared, Function.update_of_ne (hs.record_ne hp hq hfd)]
    · rw [hjobs, hother]
      rfl
    · rw [hjobs, hother]
      rfl

theorem Inv.tracks {tr : List (Input n × Output)} {s s' : Server n} (hs : s.Inv tr)
    (ht : s.Tracks msgSize (streamPos tr)) {a : Input n} {o : Output}
    (h : s.step msgSize a = some (s', o)) (hwithin : o.Within msgSize (streamPos tr)) :
    s'.Tracks msgSize (streamPos (tr ++ [(a, o)])) := by
  cases a with
  | submit w =>
      obtain ⟨hnil, rfl, rfl⟩ := submit_spec h
      exact tracks_silent ht (Worker.jobs_enter hnil) s.shared (by rfl) (by rfl) _
  | complete w i result buf len =>
      obtain ⟨r, sh, hr, hopen, rfl, rfl⟩ := complete_spec h
      have hjobs := fun g fd => Worker.jobs_arrive hr g fd result buf len
      rcases openFor_spec hopen with ⟨-, -, -, rfl⟩ | ⟨-, rfl⟩
      · exact tracks_silent ht hjobs _ (by rfl) (by rfl) _
      · exact tracks_silent ht hjobs _ (by rfl) (by rfl) _
  | receive w =>
      obtain ⟨rfl, rfl⟩ := receive_spec h
      exact tracks_silent ht (by intro g fd; rfl) s.shared (by rfl) (by rfl) _
  | dispatch w =>
      obtain ⟨e, rest, effects, he, rfl, hhandled⟩ := dispatch_spec hs.live h
      cases hhandled with
      | refused hfn hres =>
          intro fd p hp
          refine ht.keep hp ?_ rfl (jobs_le he s.shared ?_) (jobs_le he s.shared ?_)
          · have hfd : e.result ≠ fd := by
              have := (hs.live fd p hp).2
              omega
            rw [streamPos_snoc]
            simp [Output.advance, hfn, hfd]
          · rw [Worker.jobs_request]
            simp [requestFor, requestFn]
          · rw [Worker.jobs_request]
            simp [requestFor, requestFn]
      | accepted hfn hres => exact hs.tracks_accepted ht he hfn hres _ _
      | closed hfn hh hres hp => exact hs.tracks_closed ht he hfn hh hp _ _
      | failed hfn hh hres hp hfd hbuf hcur =>
          exact tracks_failed ht he hfn hh hres hcur _ _
      | rearmed hfn hh hres hp hfd hbuf hr hcopy =>
          exact hs.tracks_rearmed ht he hfn hh hp hr _ hwithin _

/-! ## The copies -/

/-- As long as the cursor follows the stream, a step copies inside the buffer if and only
if its completion stays within one message. -/
theorem Inv.fits_iff {tr : List (Input n × Output)} {s s' : Server n} (hm : 1 ≤ msgSize)
    (hs : s.Inv tr) (ht : s.Tracks msgSize (streamPos tr)) {a : Input n} {o : Output}
    (h : s.step msgSize a = some (s', o)) :
    o.Fits msgSize ↔ o.Within msgSize (streamPos tr) := by
  have hmod : ∀ fd, streamPos tr fd % msgSize ≤ msgSize := fun fd =>
    Nat.le_of_lt (Nat.mod_lt _ hm)
  cases o with
  | silent => simp [Output.Fits, Output.effects, Output.Within]
  | dispatched e effects =>
      cases a with
      | submit w => cases (submit_spec h).2.2
      | complete w i result buf len =>
          obtain ⟨r, sh, -, -, -, ho⟩ := complete_spec h
          cases ho
      | receive w => cases (receive_spec h).2
      | dispatch w =>
          obtain ⟨e', rest, effects', he, ho, hhandled⟩ := dispatch_spec hs.live h
          cases ho
          cases hhandled with
          | refused hfn hres => simp [Output.Fits, Output.effects, Output.Within, hfn]
          | accepted hfn hres => simp [Output.Fits, Output.effects, Output.Within, hfn]
          | closed hfn hh hres hp =>
              simp [Output.Fits, Output.effects, Output.Within, hres, hmod]
          | failed hfn hh hres hp hfd hbuf hcur =>
              have hzero : e.result.toNat = 0 := by omega
              simp [Output.Fits, Output.effects, Output.Within, hzero, hmod]
          | @rearmed g p c _ k r hfn hh hres hp hfd hbuf hr hcopy =>
              by_cases hg : g = .myRead
              · subst hg
                have hmem : e ∈ (s.worker w).queue.undispatched := by
                  rw [he]
                  exact List.mem_cons_self
                have hevent : eventFor .myRead e.fd e = true := by simp [eventFor, hfn]
                have hpending := Nat.lt_of_lt_of_le (Worker.jobs_pos_of_event hmem hevent)
                  (le_tally (·.jobs .myRead e.fd) s w)
                have hcursor := (ht e.fd p hp).1 hpending
                constructor
                · intro hfits _
                  have := hfits _ _ _ ((hcopy _ _ _).mpr ⟨rfl, rfl, rfl, rfl⟩)
                  rw [← hcursor]
                  exact this
                · intro hwithin dst src len hmem
                  obtain ⟨-, rfl, -, rfl⟩ := (hcopy dst src len).mp hmem
                  have := hwithin hfn
                  rw [← hcursor] at this
                  exact this
              · constructor
                · intro _ hread
                  rw [hfn] at hread
                  exact absurd (Option.some.inj hread) hg
                · intro _ dst src len hmem
                  exact absurd ((hcopy dst src len).mp hmem).1 hg

theorem reaches_tracks {tr : List (Input n × Output)} {s : Server n} (hm : 1 ≤ msgSize)
    (h : (echoServer n msgSize).Reaches tr s) :
    (InBounds msgSize tr ↔ NoSpan msgSize tr) ∧
      (NoSpan msgSize tr → s.Tracks msgSize (streamPos tr)) := by
  induction h with
  | init hs =>
      refine ⟨⟨?_, ?_⟩, ?_⟩
      · intro _ before x after htr
        simp at htr
      · intro _ x hx
        cases hx
      · intro _ fd p hp
        rw [Start.conns hs] at hp
        cases hp
  | @step tr s t a o hr hstep ih =>
      obtain ⟨hiff, htracks⟩ := ih
      have hs := reaches_inv hr
      rw [inBounds_snoc, noSpan_snoc]
      constructor
      · constructor
        · rintro ⟨hin, hfits⟩
          have hno := hiff.mp hin
          exact ⟨hno, (hs.fits_iff hm (htracks hno) hstep).mp hfits⟩
        · rintro ⟨hno, hwithin⟩
          exact ⟨hiff.mpr hno, (hs.fits_iff hm (htracks hno) hstep).mpr hwithin⟩
      · rintro ⟨hno, hwithin⟩
        exact hs.tracks (htracks hno) hstep hwithin

end Server

/-- Every copy of a run stays inside the message buffer if and only if no read completion
crosses the end of a message. -/
theorem echoServer_inBounds_iff (hm : 1 ≤ msgSize) {tr : List (Input n × Output)}
    {s : Server n} (h : (echoServer n msgSize).Reaches tr s) :
    InBounds msgSize tr ↔ NoSpan msgSize tr :=
  (Server.reaches_tracks hm h).1

theorem echoServer_inBounds_iff_shortEcho :
    ∃ tr s, (echoServer 1 2).Reaches tr s ∧ streamPos tr 5 = 2 ∧
      (InBounds 2 tr ↔ NoSpan 2 tr) := by
  have hrun : ((echoServer 1 2).exec smallServer (shortEcho 0)).isSome := by decide
  have hreach := Machine.reaches_exec_get smallServer_start hrun
  exact ⟨_, _, hreach, rfl, echoServer_inBounds_iff (by decide) hreach⟩

/-- The result of a read completion is between 1 and the size of a pool buffer. -/
def Output.ReadFits (msgSize : ℕ) : Output → Prop
  | .silent => True
  | .dispatched e _ => e.workFn = some .myRead → 1 ≤ e.result ∧ e.result ≤ (msgSize : ℤ)

instance (msgSize : ℕ) (o : Output) : Decidable (o.ReadFits msgSize) :=
  match o with
  | .silent => inferInstanceAs (Decidable True)
  | .dispatched e _ => inferInstanceAs (Decidable
      (e.workFn = some .myRead → 1 ≤ e.result ∧ e.result ≤ (msgSize : ℤ)))

/-- Three bytes of two messages, read as one byte and then two. -/
def splitEcho (w : Fin n) : List (Input n) := turn w 1 5 ++ turn w 1 1 ++ turn w 2 2

/-- The second copy starts at 1 and is 2 long. -/
theorem echoServer_not_inBounds :
    ¬ ∀ (n msgSize : ℕ) (tr : List (Input n × Output)) (s : Server n), 1 ≤ msgSize →
      (echoServer n msgSize).Reaches tr s → (∀ x ∈ tr, x.2.ReadFits msgSize) →
        InBounds msgSize tr := by
  intro h
  have hrun : ((echoServer 1 2).exec smallServer (splitEcho 0)).isSome := by decide
  have hreach := Machine.reaches_exec_get smallServer_start hrun
  have hread : ∀ x ∈ (((echoServer 1 2).exec smallServer (splitEcho 0)).get (by decide)).2,
      x.2.ReadFits 2 := by decide
  have hin := h 1 2 _ _ (by decide) hreach hread
  have hcopy := hin _ (List.mem_of_getElem? (i := 11) rfl) _ _ _ List.mem_cons_self
  exact absurd hcopy (by decide)

end Upcalls.UpcallEcho
