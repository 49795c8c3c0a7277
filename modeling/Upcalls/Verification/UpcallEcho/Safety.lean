import Upcalls.Library.Regions
import Upcalls.Verification.UpcallEcho.Ownership

/-! # What the handlers rely on

The handlers follow `conns[]` without a test, and they write into connections and
buffers next to those that the kernel is sending from. Both are safe in every run in which
no read crosses the end of a message.
-/

namespace Upcalls.UpcallEcho

open Library LibUpcall TcpEcho

/-- A write on `fd` is handed to its handler. -/
def Output.finishes (fd : ℤ) : Output → Prop
  | .silent => False
  | .dispatched e _ => e.workFn = some .myWrite ∧ e.fd = fd

/-- The calls of a handler. -/
def Output.effects : Output → List Effect
  | .silent => []
  | .dispatched _ effects => effects

/-! ## Addresses -/

/-- `sizeof(struct connection)` for the records, and `msg_size` for the buffers. -/
def Part.size (msgSize : ℕ) : Part → ℕ
  | .record => 96
  | .buffer => msgSize

/-- The addresses that `calloc` gave to the blocks. -/
abbrev Heap (msgSize : ℕ) := Placement fun k : Part × ℕ => k.1.size msgSize

namespace Server

open Team

variable {n msgSize : ℕ}

/-- The regions that a step writes to: where `memcpy` copies to, the records that change,
and the blocks taken out of a cache, which `cache_alloc` clears. -/
inductive Writes (heap : Heap msgSize) (s s' : Server n) (effects : List Effect) :
    Region → Prop
  | copied {dst src len} : Effect.memcpy dst src len ∈ effects →
      Writes heap s s' effects (heap.slice (.buffer, dst.block) dst.off len)
  | changed {q} : s'.shared.conn q ≠ s.shared.conn q →
      Writes heap s s' effects (heap.extent (.record, q))
  | taken {fd part b} : Owns s'.shared (fd, part) b → ¬ Owns s.shared (fd, part) b →
      Writes heap s s' effects (heap.extent (part, b))

/-- Writes on `fd` that are queued, outstanding or not yet dispatched. -/
def writes (s : Server n) (fd : ℤ) : ℕ := s.tally (·.jobs .myWrite fd)

/-- The step leaves the connection on `fd` in place and writes to no byte of its record
and of its buffer. -/
def Untouched (heap : Heap msgSize) (fd : ℤ) (s s' : Server n) (effects : List Effect) :
    Prop :=
  ∃ p, s.shared.conns fd = some p ∧ s'.shared.conns fd = some p ∧
    s'.shared.conn p = s.shared.conn p ∧
    ∀ r, Writes heap s s' effects r → r.Disjoint (heap.extent (.record, p)) ∧
      r.Disjoint (heap.extent (.buffer, (s.shared.conn p).buffer))

/-- The blocks of the connection on `fd` are on no free list and nobody else's. -/
def Held (fd : ℤ) (s : Server n) : Prop :=
  ∃ p, s.shared.conns fd = some p ∧ s.free p = 0 ∧ s.free (s.shared.conn p).buffer = 0 ∧
    (∀ k, Owns s.shared k p → k = (fd, .record)) ∧
    ∀ k, Owns s.shared k (s.shared.conn p).buffer → k = (fd, .buffer)

/-- What the handlers rely on in `s`, when the steps of `M` come next. -/
structure Safe (M : Machine (Server n) (Input n) Output) (heap : Heap msgSize)
    (s : Server n) : Prop where
  single : ∀ fd, s.ops fd ≤ if (s.shared.conns fd).isSome then 1 else 0
  found : ∀ w, ∀ e ∈ (s.worker w).queue.undispatched, isOp e = true →
    ∃ p, s.shared.conns e.fd = some p ∧ (s.shared.conn p).fd = e.fd
  vacant : ∀ w, ∀ e ∈ (s.worker w).queue.undispatched, e.workFn = some .myAccept →
    0 ≤ e.result → s.shared.conns e.result = none
  runs : ∀ w, (s.worker w).inKernel = false → (s.worker w).queue.undispatched ≠ [] →
    (s.step msgSize (.dispatch w)).isSome
  source : ∀ w fd buf len workFn, .write fd buf len workFn ∈ (s.worker w).requests →
    ∃ p, s.shared.conns fd = some p ∧ buf.block = (s.shared.conn p).buffer
  held : ∀ fd, 0 < s.writes fd → s.Held fd
  untouched : ∀ a s' o fd, M.step s a = some (s', o) → 0 < s.writes fd →
    ¬ o.finishes fd → Untouched heap fd s s' o.effects

/-- The read that a dispatch hands to `my_read` ends within the message. -/
def fits (msgSize : ℕ) (s : Server n) : Input n → Bool
  | .dispatch w =>
      match (s.worker w).queue.undispatched with
      | [] => true
      | e :: _ =>
          match s.shared.conns e.fd with
          | none => true
          | some p => e.workFn = some .myRead → 0 < e.result →
              (s.shared.conn p).cursor + e.result.toNat ≤ msgSize
  | _ => true

/-! ## The parts -/

theorem ops_eq (s : Server n) (fd : ℤ) :
    s.ops fd = s.tally (·.jobs .myRead fd) + s.writes fd :=
  tally_add ..

theorem op_pos {s : Server n} {w : Fin n}
    {e : UpEvent Handler} (he : e ∈ (s.worker w).queue.undispatched) (hop : isOp e = true) :
    0 < s.ops e.fd := by
  have hpart := le_tally (·.ops e.fd) s w
  have hw : 0 < (s.worker w).ops e.fd := by
    simp only [isOp, decide_eq_true_eq] at hop
    rw [Worker.ops]
    rcases hop with hop | hop
    · have hfor : eventFor .myRead e.fd e = true := by simp [eventFor, hop]
      have := Worker.jobs_pos_of_event he hfor
      omega
    · have hfor : eventFor .myWrite e.fd e = true := by simp [eventFor, hop]
      have := Worker.jobs_pos_of_event he hfor
      omega
  exact Nat.lt_of_lt_of_le hw hpart

theorem Inv.found {tr : List (Input n × Output)} {s : Server n} (hs : s.Inv tr) {w : Fin n}
    {e : UpEvent Handler} (he : e ∈ (s.worker w).queue.undispatched) (hop : isOp e = true) :
    ∃ p, s.shared.conns e.fd = some p ∧ (s.shared.conn p).fd = e.fd := by
  obtain ⟨p, hp⟩ := hs.conn_of_ops (op_pos he hop)
  exact ⟨p, hp, (hs.live _ _ hp).1⟩

theorem Inv.held {tr : List (Input n × Output)} {s : Server n} (hs : s.Inv tr) {fd : ℤ}
    {p : ℕ} (hp : s.shared.conns fd = some p) : s.Held fd := by
  have hrecord : Owns s.shared (fd, .record) p := hp
  have hbuffer : Owns s.shared (fd, .buffer) (s.shared.conn p).buffer := ⟨p, hp, rfl⟩
  exact ⟨p, hp, hs.separated.unowned hrecord, hs.separated.unowned hbuffer,
    fun k hk => hs.separated.single hk hrecord, fun k hk => hs.separated.single hk hbuffer⟩

/-- While a write is in flight, another read or write completion is for another
descriptor. -/
theorem Inv.other_fd {tr : List (Input n × Output)} {s : Server n} (hs : s.Inv tr)
    {w : Fin n} {e : UpEvent Handler} {fd : ℤ} (hwrite : 0 < s.writes fd)
    (he : e ∈ (s.worker w).queue.undispatched) (hop : isOp e = true)
    (hne : ¬ (e.workFn = some .myWrite ∧ e.fd = fd)) : fd ≠ e.fd := by
  rintro rfl
  have hread : 0 < s.tally (·.jobs .myRead e.fd) := by
    have hpart := le_tally (·.jobs .myRead e.fd) s w
    have hfor : eventFor .myRead e.fd e = true := by
      simp only [isOp, decide_eq_true_eq] at hop
      rcases hop with hop | hop
      · simp [eventFor, hop]
      · exact absurd ⟨hop, rfl⟩ hne
    have := Worker.jobs_pos_of_event he hfor
    omega
  have harmed := hs.armed e.fd
  have hone := present_le_one s.shared e.fd
  rw [ops_eq] at harmed
  omega

/-- A block that a step takes is not one that the connection on `fd` has had. -/
theorem Inv.taken_ne {tr : List (Input n × Output)} {s s' : Server n} (hs' : s'.Inv tr)
    {fd fd' : ℤ} {part part' : Part} {b : ℕ} (hold : Owns s.shared (fd, part) b)
    (hnew : Owns s'.shared (fd, part) b) {b' : ℕ} (htaken : Owns s'.shared (fd', part') b')
    (hnot : ¬ Owns s.shared (fd', part') b') : ((part', b') : Part × ℕ) ≠ (part, b) := by
  intro heq
  cases heq
  cases hs'.separated.single htaken hnew
  exact hnot hold

/-- A step that leaves the connection on `fd` in place and copies into other buffers only. -/
theorem Inv.untouched_of_copies {tr : List (Input n × Output)} {s s' : Server n}
    (hs' : s'.Inv tr) (heap : Heap msgSize) {fd : ℤ} {p : ℕ} (hp : s.shared.conns fd = some p)
    (hp' : s'.shared.conns fd = some p) (hconn : s'.shared.conn p = s.shared.conn p)
    {effects : List Effect}
    (hcopy : ∀ dst src len, Effect.memcpy dst src len ∈ effects →
      dst.block ≠ (s.shared.conn p).buffer ∧ dst.off + len ≤ msgSize) :
    Untouched heap fd s s' effects := by
  have hrecord : Owns s.shared (fd, .record) p := hp
  have hrecord' : Owns s'.shared (fd, .record) p := hp'
  have hbuffer : Owns s.shared (fd, .buffer) (s.shared.conn p).buffer := ⟨p, hp, rfl⟩
  have hbuffer' : Owns s'.shared (fd, .buffer) (s.shared.conn p).buffer :=
    ⟨p, hp', by rw [hconn]⟩
  refine ⟨p, hp, hp', hconn, ?_⟩
  intro r hr
  cases hr with
  | @copied dst src len hmem =>
      obtain ⟨hblock, hend⟩ := hcopy dst src len hmem
      constructor
      · exact heap.slice_disjoint (by simp) hend
      · refine heap.slice_disjoint ?_ hend
        simpa using hblock
  | @changed q hq =>
      have hqp : q ≠ p := by
        rintro rfl
        exact hq hconn
      exact ⟨heap.apart (by simpa using hqp), heap.apart (by simp)⟩
  | taken howns hnot =>
      exact ⟨heap.apart (hs'.taken_ne hrecord hrecord' howns hnot),
        heap.apart (hs'.taken_ne hbuffer hbuffer' howns hnot)⟩

/-- While a write is in flight its connection stays as it is. -/
theorem Inv.stays {tr : List (Input n × Output)} {s s' : Server n} (hs : s.Inv tr)
    {a : Input n} {o : Output} (h : s.step msgSize a = some (s', o)) {fd : ℤ} {p : ℕ}
    (hp : s.shared.conns fd = some p) (hwrite : 0 < s.writes fd) (hne : ¬ o.finishes fd) :
    s'.shared.conns fd = some p ∧ s'.shared.conn p = s.shared.conn p := by
  cases a with
  | submit w =>
      obtain ⟨-, rfl, -⟩ := submit_spec h
      exact ⟨hp, rfl⟩
  | complete w i result buf len =>
      obtain ⟨r, sh, -, hopen, rfl, -⟩ := complete_spec h
      rcases openFor_spec hopen with ⟨-, -, -, rfl⟩ | ⟨-, rfl⟩
      · exact ⟨hp, rfl⟩
      · exact ⟨hp, rfl⟩
  | receive w =>
      obtain ⟨rfl, -⟩ := receive_spec h
      exact ⟨hp, rfl⟩
  | dispatch w =>
      obtain ⟨e, rest, effects, he, rfl, hhandled⟩ := dispatch_spec hs.live h
      have hmem : e ∈ (s.worker w).queue.undispatched := by rw [he]; exact List.mem_cons_self
      cases hhandled with
      | refused hfn hres => exact ⟨hp, rfl⟩
      | accepted hfn hres =>
          have hneg : ¬ e.result < 0 := by omega
          have hfd : fd ≠ e.result := by
            rintro rfl
            rw [hs.vacant hmem hfn hres] at hp
            cases hp
          have hnew : p ≠ (cacheAlloc (s.worker w).connCache s.shared.next).entry := by
            rintro rfl
            exact hs.new_unowned w (fd, .record) hp
          rw [myAccept, if_neg hneg]
          constructor
          · simp only [share_shared, Function.update_of_ne hfd]
            exact hp
          · simp only [share_shared, Worker.pop, Function.update_of_ne hnew]
      | @closed g p' hfn hh hres hp' =>
          have hfd := hs.other_fd hwrite hmem (isOp_of_ne hfn hh) hne
          obtain ⟨hpfd, hpos⟩ := hs.live _ _ hp'
          rw [onClose_eq (by rw [hpfd]; exact hpos), hpfd]
          constructor
          · simp only [share_shared, Function.update_of_ne hfd]
            exact hp
          · simp only [share_shared, Function.update_of_ne (hs.record_ne hp' hp hfd)]
      | failed hfn hh hres hp' hcfd hcbuf hcur =>
          have hfd := hs.other_fd hwrite hmem (isOp_of_ne hfn hh) hne
          refine ⟨hp, ?_⟩
          simp only [share_shared, Function.update_of_ne (hs.record_ne hp' hp hfd)]
      | rearmed hfn hh hres hp' hcfd hcbuf hr hcopy =>
          have hfd := hs.other_fd hwrite hmem (isOp_of_ne hfn hh) hne
          refine ⟨hp, ?_⟩
          simp only [share_shared, Function.update_of_ne (hs.record_ne hp' hp hfd)]

/-- A read that fits is copied into the buffer of its own connection. -/
theorem Inv.copies {tr : List (Input n × Output)} {s s' : Server n} (hs : s.Inv tr)
    {a : Input n} {o : Output} (h : s.step msgSize a = some (s', o))
    (hfits : fits msgSize s a = true) {fd : ℤ} {p : ℕ} (hp : s.shared.conns fd = some p)
    (hwrite : 0 < s.writes fd) (hne : ¬ o.finishes fd) {dst src : Ptr} {len : ℕ}
    (hmem : Effect.memcpy dst src len ∈ o.effects) :
    dst.block ≠ (s.shared.conn p).buffer ∧ dst.off + len ≤ msgSize := by
  cases a with
  | submit w =>
      rw [(submit_spec h).2.2] at hmem
      cases hmem
  | complete w i result buf len =>
      obtain ⟨r, sh, -, -, -, rfl⟩ := complete_spec h
      cases hmem
  | receive w =>
      rw [(receive_spec h).2] at hmem
      cases hmem
  | dispatch w =>
      obtain ⟨e, rest, effects, he, rfl, hhandled⟩ := dispatch_spec hs.live h
      have hin : e ∈ (s.worker w).queue.undispatched := by rw [he]; exact List.mem_cons_self
      cases hhandled with
      | refused hfn hres => cases hmem
      | accepted hfn hres => cases hmem
      | closed hfn hh hres hp' => simp [Output.effects] at hmem
      | failed hfn hh hres hp' hcfd hcbuf hcur => cases hmem
      | @rearmed g p' c _ k r hfn hh hres hp' hcfd hcbuf hr hcopy =>
          have hfd := hs.other_fd hwrite hin (isOp_of_ne hfn hh) hne
          obtain ⟨rfl, rfl, -, rfl⟩ := (hcopy dst src len).mp hmem
          constructor
          · intro hblock
            have howns : Owns s.shared (e.fd, .buffer) (s.shared.conn p').buffer :=
              ⟨p', hp', rfl⟩
            cases hs.separated.single howns
              (show Owns s.shared (fd, .buffer) _ from ⟨p, hp, hblock.symm⟩)
            exact hfd rfl
          · simp only [fits, he, hp', hfn, hres, true_imp_iff, decide_eq_true_eq] at hfits
            exact hfits

/-- No handler follows a `NULL` entry. -/
theorem Inv.runs {tr : List (Input n × Output)} {s : Server n} (hs : s.Inv tr) {w : Fin n}
    (hker : (s.worker w).inKernel = false) (hne : (s.worker w).queue.undispatched ≠ []) :
    (s.step msgSize (.dispatch w)).isSome := by
  obtain ⟨e, rest, he⟩ := List.exists_cons_of_ne_nil hne
  have hmem : e ∈ (s.worker w).queue.undispatched := by rw [he]; exact List.mem_cons_self
  obtain ⟨h, hfn⟩ := Option.isSome_iff_exists.mp (hs.called w e hmem)
  have hhandle : ∀ me, ∃ res, handle msgSize e me s.shared = some res := by
    intro me
    by_cases hh : h = .myAccept
    · subst hh
      exact ⟨_, by rw [handle, hfn]⟩
    · obtain ⟨p, hp, -⟩ := hs.found hmem (isOp_of_ne hfn hh)
      exact ⟨_, by rw [handle_onConn hh hfn, hp]; rfl⟩
  obtain ⟨res, hres⟩ := hhandle { s.worker w with
    queue := { (s.worker w).queue with undispatched := rest } }
  simp only [Server.step, Server.dispatch]
  split
  · rename_i e' rest' _ he'
    cases he.symm.trans he'
    rw [hres]
    rfl
  · rename_i hno
    exact (hno e rest hker he).elim

/-- Every run of the echo server is safe, whatever the completions, as long as each read
ends within the message. -/
theorem echoServer_safe (heap : Heap msgSize) {tr : List (Input n × Output)} {s : Server n}
    (h : ((echoServer n msgSize).guard (fits msgSize)).Reaches tr s) :
    s.Safe ((echoServer n msgSize).guard (fits msgSize)) heap := by
  have hs := reaches_inv h.of_guard
  refine ⟨?_, fun w e => hs.found, fun w e => hs.vacant, fun w => hs.runs, hs.writes, ?_, ?_⟩
  · intro fd
    have harmed := hs.armed fd
    rw [present] at harmed
    omega
  · intro fd hwrite
    obtain ⟨p, hp⟩ := hs.conn_of_ops (show 0 < s.ops fd by rw [ops_eq]; omega)
    exact hs.held hp
  · intro a s' o fd hstep hwrite hne
    have hs' := reaches_inv (h.step hstep).of_guard
    obtain ⟨hfits, hstep⟩ := Machine.guard_step.mp hstep
    obtain ⟨p, hp⟩ := hs.conn_of_ops (show 0 < s.ops fd by rw [ops_eq]; omega)
    obtain ⟨hp', hconn⟩ := hs.stays hstep hp hwrite hne
    exact hs'.untouched_of_copies heap hp hp' hconn fun _ _ _ =>
      hs.copies hstep hfits hp hwrite hne

end Server

/-! ## A small server -/

/-- One worker with an entry in each cache, listening on descriptor 3. -/
def smallServer : Server 1 where
  worker _ :=
    { listenSock := 3, queue := setupQueue 3, inKernel := false, outstanding := []
      msgCache := [2], connCache := [1], acceptCount := 0, connCount := 0 }
  shared :=
    { conns := fun _ => none, conn := fun _ => Connection.zero
      opened := fun fd => fd ≤ 3, next := 3 }

theorem smallServer_start : smallServer.Start := by
  have hfree : ∀ b, smallServer.free b = if b = 1 ∨ b = 2 then 1 else 0 := by
    intro b
    simp only [Server.free, Team.tally, smallServer, Fin.sum_univ_one, List.count_cons,
      List.count_nil, beq_iff_eq]
    split <;> split <;> split <;> omega
  refine ⟨fun _ => rfl, fun _ => rfl, fun _ => rfl, fun _ => rfl, fun _ => rfl, fun _ => rfl,
    ?_, ?_⟩
  · intro b
    rw [hfree]
    split <;> omega
  · intro b hb
    have hb : 3 ≤ b := hb
    rw [hfree, if_neg (by omega)]

/-- One turn of the worker: submit, one completion, and its handler. -/
def turn (w : Fin n) (i : ℕ) (result : ℤ) : List (Input n) :=
  [.submit w, .complete w i result ⟨9, 0⟩ 8, .receive w, .dispatch w]

/-- A client connects, sends one message of two bytes and has half of it echoed. -/
def shortEcho (w : Fin n) : List (Input n) := turn w 1 5 ++ turn w 1 2 ++ turn w 2 1

/-- Blocks for messages of 64 bytes, the first eight buffers 96 bytes apart. -/
def closeHeap : Heap 64 where
  place
    | (.record, b) => 864 + 192 * b
    | (.buffer, b) => if b < 8 then 96 * b else 768 + 192 * (b - 8)
  apart {k k'} hne := by
    obtain ⟨part, b⟩ := k
    obtain ⟨part', b'⟩ := k'
    have hblock : part = part' → b ≠ b' := by
      rintro rfl rfl
      exact hne rfl
    cases part <;> cases part' <;>
      simp only [Region.Disjoint, Region.stop, Part.size, reduceCtorEq, false_imp_iff,
        true_imp_iff] at hblock ⊢ <;> grind

theorem echoServer_safe_shortEcho :
    ∃ tr s, ((echoServer 1 64).guard (Server.fits 64)).Reaches tr s ∧ s.writes 5 = 1 ∧
      s.Safe ((echoServer 1 64).guard (Server.fits 64)) closeHeap := by
  have hrun : (((echoServer 1 64).guard (Server.fits 64)).exec smallServer
    (turn 0 1 5 ++ turn 0 1 64 ++ turn 0 2 20)).isSome := by decide
  have hreach := Machine.reaches_exec_get smallServer_start hrun
  exact ⟨_, _, hreach, rfl, Server.echoServer_safe closeHeap hreach⟩

/-- Two entries in each cache, so that the buffers of two connections are neighbours. -/
def pairServer : Server 1 where
  worker _ :=
    { listenSock := 3, queue := setupQueue 3, inKernel := false, outstanding := []
      msgCache := [3, 4], connCache := [1, 2], acceptCount := 0, connCount := 0 }
  shared :=
    { conns := fun _ => none, conn := fun _ => Connection.zero
      opened := fun fd => fd ≤ 3, next := 5 }

theorem pairServer_start : pairServer.Start := by
  have hfree : ∀ b, pairServer.free b = if 1 ≤ b ∧ b ≤ 4 then 1 else 0 := by
    intro b
    simp only [Server.free, Team.tally, pairServer, Fin.sum_univ_one, List.count_cons,
      List.count_nil, beq_iff_eq]
    split <;> grind
  refine ⟨fun _ => rfl, fun _ => rfl, fun _ => rfl, fun _ => rfl, fun _ => rfl, fun _ => rfl,
    ?_, ?_⟩
  · intro b
    rw [hfree]
    split <;> omega
  · intro b hb
    have hb : 5 ≤ b := hb
    rw [hfree, if_neg (by omega)]

/-- A whole message is read from 6 and its echo is on the way when 5 has read 63 bytes and
then 64. -/
def overlap (w : Fin n) : List (Input n) :=
  turn w 1 5 ++ turn w 2 6 ++ turn w 2 64 ++ turn w 1 63 ++ (turn w 4 64).dropLast

/-- The next handler copies to the offset 63 of its buffer of 64 bytes. -/
theorem overlap_reaches :
    ∃ tr s s' e src effects, (echoServer 1 64).Reaches tr s ∧
      (echoServer 1 64).step s (.dispatch 0) =
        some (s', .dispatched e (.memcpy ⟨3, 63⟩ src 64 :: effects)) ∧
      e.fd = 5 ∧ s.writes 6 = 1 ∧ s.shared.conns 6 = some 2 ∧
      (s.shared.conn 2).buffer = 4 := by
  have hrun : ((echoServer 1 64).exec pairServer (overlap 0)).isSome := by decide
  exact ⟨_, _, _, _, _, _, Machine.reaches_exec_get pairServer_start hrun,
    rfl, rfl, rfl, rfl, rfl⟩

/-- The last 31 bytes of the copy from 5 land in the message that is being sent to 6. -/
theorem echoServer_not_safe :
    ¬ ∀ (n msgSize : ℕ) (heap : Heap msgSize) (tr : List (Input n × Output)) (s : Server n),
      (echoServer n msgSize).Reaches tr s → s.Safe (echoServer n msgSize) heap := by
  intro h
  obtain ⟨tr, s, s', e, src, effects, hreach, hstep, hfd, hwrites, hconn, hbuffer⟩ :=
    overlap_reaches
  have hother : ¬ (Output.dispatched e (.memcpy ⟨3, 63⟩ src 64 :: effects)).finishes 6 := by
    rintro ⟨-, hsame⟩
    rw [hfd] at hsame
    exact absurd hsame (by decide)
  obtain ⟨p, hp, -, -, hapart⟩ := (h 1 64 closeHeap tr s hreach).untouched _ _ _ 6 hstep
    (by omega) hother
  cases hconn.symm.trans hp
  have hmeets := (hapart _ (.copied List.mem_cons_self)).2
  rw [hbuffer] at hmeets
  exact absurd hmeets (by decide)

end Upcalls.UpcallEcho
