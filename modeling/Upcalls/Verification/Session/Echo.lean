import Upcalls.Model.Session

/-! # The backends implement one echo function

Each backend refines the echo in blocks of `msg_size` bytes.
-/

namespace Upcalls.Session

open Library TcpEcho BlockEcho

variable {ν : Type} {msgSize : ℕ}

/-! ## The buffer of a connection -/

namespace Store

/-- `bytes` as a buffer, with all that came in and went out. -/
def wire (bytes : List UInt8) (x : Store) : Wire UInt8 := ⟨bytes, x.rx, x.tx⟩

/-- A read into a block goes through the bytes of that block. -/
theorem wire_receive (buf : Ptr) (data : List UInt8) (x : Store) :
    (x.receive buf data).wire ((x.receive buf data).memory buf.block) =
      (x.wire (x.memory buf.block)).receive buf.off data := by
  simp [wire, receive, Memory.store, Wire.receive]

theorem wire_send (buf : Ptr) (k : ℕ) (x : Store) :
    (x.send buf k).wire ((x.send buf k).memory buf.block) =
      (x.wire (x.memory buf.block)).send buf.off k :=
  rfl

end Store

/-- Either there is a buffer, or the block is the connection's from now on and cleared. -/
theorem openBuffer_spec {block : ℕ} {conn conn' : Connection} {mem mem' : Memory}
    (h : openBuffer msgSize block conn mem = some (conn', mem')) :
    (conn.buffer ≠ 0 ∧ conn' = conn ∧ mem' = mem) ∨
      (conn.buffer = 0 ∧ block ≠ 0 ∧ conn' = { conn with buffer := block } ∧
        mem' = mem.alloc block msgSize) := by
  simp only [openBuffer] at h
  split at h
  · rename_i hbuffer
    cases h
    exact .inl ⟨hbuffer, rfl, rfl⟩
  · rename_i hbuffer
    split at h
    · cases h
    · rename_i hblock
      cases h
      exact .inr ⟨not_not.mp hbuffer, hblock, rfl, rfl⟩

/-- The echo is in phase `p`, with the bytes that `conn->buffer` points at. Before there is
a buffer any bytes will do. -/
def Buffered (msgSize : ℕ) (s : (Connection × ν) × Store) (p : Phase) : Prop :=
  ∃ bytes, Holds msgSize (p, s.2.wire bytes) ∧
    (s.1.1.buffer ≠ 0 → bytes = s.2.memory s.1.1.buffer)

namespace Buffered

variable {s s' : (Connection × ν) × Store} {p : Phase}

theorem isPrefix (h : Buffered msgSize s p) : s.2.tx <+: s.2.rx := by
  obtain ⟨bytes, hholds, -⟩ := h
  exact hholds.isPrefix

theorem holds (h : Buffered msgSize s p) (hbuffer : s.1.1.buffer ≠ 0) :
    Holds msgSize (p, s.2.wire (s.2.memory s.1.1.buffer)) := by
  obtain ⟨bytes, hholds, hbytes⟩ := h
  rw [← hbytes hbuffer]
  exact hholds

/-- A connection that is given up. -/
theorem stop (h : Buffered msgSize s p) : Buffered msgSize s .stop := by
  obtain ⟨bytes, hholds, hbytes⟩ := h
  exact ⟨bytes, hholds.isPrefix, hbytes⟩

/-- A step that leaves the bytes of the connection alone. -/
theorem congr (h : Buffered msgSize s p) (hbuffer : s'.1.1.buffer = s.1.1.buffer)
    (hmemory : s.1.1.buffer ≠ 0 → s'.2.memory s.1.1.buffer = s.2.memory s.1.1.buffer)
    (hrx : s'.2.rx = s.2.rx) (htx : s'.2.tx = s.2.tx) : Buffered msgSize s' p := by
  obtain ⟨bytes, hholds, hbytes⟩ := h
  refine ⟨bytes, ?_, ?_⟩
  · simpa only [Store.wire, hrx, htx] using hholds
  · rw [hbuffer]
    intro hne
    rw [hmemory hne]
    exact hbytes hne

end Buffered

/-! ## Refinement of the block echo -/

/-- `At s p`: a connection in state `s` is in phase `p` of the echo. Whatever happens, it
makes that step of the echo or is closed. Its calls work on its own buffer, which is there
by then, and a buffer is only given to it before the first one. -/
structure Implements (B : Backend ν) (msgSize : ℕ) (At : Connection × ν → Phase → Prop) :
    Prop where
  init : ∀ {s mem}, B.Init s mem →
    At s (.fill 0) ∧ (s.1.buffer ≠ 0 → (mem s.1.buffer).length = msgSize)
  read : ∀ {s p buf len}, At s p → B.call s = .read buf len →
    p = .fill buf.off ∧ buf.off + len = msgSize ∧ buf.block = s.1.buffer ∧ s.1.buffer ≠ 0
  write : ∀ {s p buf len}, At s p → B.call s = .write buf len →
    p = .drain buf.off ∧ buf.off + len = msgSize ∧ buf.block = s.1.buffer ∧ s.1.buffer ≠ 0
  waiting : ∀ {s p c}, At s p → B.waiting s = some c → p = .fill c
  buffer : ∀ s ret, (B.answer s ret).1.buffer = s.1.buffer
  wake : ∀ {s s' p e mem mem'}, At s p → B.wake s e mem = some (s', mem') →
    (At s' p ∨ At s' .stop) ∧ ((s'.1.buffer = s.1.buffer ∧ mem' = mem) ∨
      (p = .fill 0 ∧ mem' = mem.alloc s'.1.buffer msgSize))
  fail : ∀ {s p} (errno : ℕ), At s p → B.call s ≠ .none →
    At (B.answer s (.error errno)) p ∨ At (B.answer s (.error errno)) .stop
  receive : ∀ {s buf len k}, At s (.fill buf.off) → B.call s = .read buf len → k ≤ len →
    k ≤ MAX_RW_COUNT → At (B.answer s (.count k)) .stop ∨ At (B.answer s (.count k))
      (if buf.off + k < msgSize then .fill (buf.off + k) else .drain 0)
  send : ∀ {s buf len k}, At s (.drain buf.off) → B.call s = .write buf len → k ≤ len →
    k ≤ MAX_RW_COUNT → At (B.answer s (.count k)) .stop ∨ At (B.answer s (.count k))
      (if buf.off + k < msgSize then .drain (buf.off + k) else .fill 0)

namespace Implements

variable {B : Backend ν} {At : Connection × ν → Phase → Prop}
  {s s' : (Connection × ν) × Store} {p : Phase}

theorem step_wake (h : Implements B msgSize At) {e : Wake} (hat : At s.1 p)
    (hp : Buffered msgSize s p) (hstep : Session.step B s (.wake e) = some s') :
    ∃ p', At s'.1 p' ∧ Buffered msgSize s' p' := by
  obtain ⟨⟨c, mem⟩, hwake, rfl⟩ := Option.map_eq_some_iff.mp hstep
  obtain ⟨hat', hmem⟩ := h.wake hat hwake
  have hp' : Buffered msgSize (c, { s.2 with memory := mem }) p := by
    rcases hmem with ⟨hbuffer, rfl⟩ | ⟨rfl, rfl⟩
    · exact hp.congr hbuffer (fun _ => rfl) rfl rfl
    · obtain ⟨bytes, hholds, -⟩ := hp
      refine ⟨List.replicate msgSize 0,
        Wire.Filling.replace hholds (List.length_replicate ..), ?_⟩
      intro _
      simp [Memory.alloc]
  rcases hat' with hat' | hat'
  · exact ⟨p, hat', hp'⟩
  · exact ⟨.stop, hat', hp'.stop⟩

theorem step_receive (h : Implements B msgSize At) {data : List UInt8} (hat : At s.1 p)
    (hp : Buffered msgSize s p) (hstep : Session.step B s (.receive data) = some s') :
    ∃ p', At s'.1 p' ∧ Buffered msgSize s' p' := by
  simp only [Session.step] at hstep
  split at hstep
  · rename_i buf len hcall
    split at hstep
    · rename_i hfit
      cases hstep
      obtain ⟨rfl, hlen, hblock, hbuffer⟩ := h.read hat hcall
      have hfill : Holds msgSize (.fill buf.off, s.2.wire (s.2.memory buf.block)) := by
        rw [hblock]
        exact hp.holds hbuffer
      have hnext : Holds msgSize
          (if buf.off + data.length < msgSize then .fill (buf.off + data.length) else .drain 0,
            (s.2.wire (s.2.memory buf.block)).receive buf.off data) := by
        split
        · rename_i hlt
          exact (Step.receive hlt).holds hfill
        · exact (Step.fill (by omega)).holds hfill
      rw [← Store.wire_receive] at hnext
      have hsame : buf.block = (B.answer s.1 (.count data.length)).1.buffer :=
        hblock.trans (h.buffer s.1 _).symm
      have hp' : Buffered msgSize
          (B.answer s.1 (.count data.length), s.2.receive buf data) _ :=
        ⟨_, hnext, fun _ => by rw [hsame]⟩
      rcases h.receive hat hcall hfit.1 hfit.2 with hat' | hat'
      · exact ⟨.stop, hat', hp'.stop⟩
      · exact ⟨_, hat', hp'⟩
    · cases hstep
  · cases hstep

theorem step_send (h : Implements B msgSize At) {k : ℕ} (hat : At s.1 p)
    (hp : Buffered msgSize s p) (hstep : Session.step B s (.send k) = some s') :
    ∃ p', At s'.1 p' ∧ Buffered msgSize s' p' := by
  simp only [Session.step] at hstep
  split at hstep
  · rename_i buf len hcall
    split at hstep
    · rename_i hfit
      cases hstep
      obtain ⟨rfl, hlen, hblock, hbuffer⟩ := h.write hat hcall
      have hdrain : Holds msgSize (.drain buf.off, s.2.wire (s.2.memory buf.block)) := by
        rw [hblock]
        exact hp.holds hbuffer
      have hnext : Holds msgSize
          (if buf.off + k < msgSize then .drain (buf.off + k) else .fill 0,
            (s.2.wire (s.2.memory buf.block)).send buf.off k) := by
        split
        · rename_i hlt
          exact (Step.send hlt).holds hdrain
        · exact (Step.drain (by omega)).holds hdrain
      rw [← Store.wire_send] at hnext
      have hsame : buf.block = (B.answer s.1 (.count k)).1.buffer :=
        hblock.trans (h.buffer s.1 _).symm
      have hp' : Buffered msgSize (B.answer s.1 (.count k), s.2.send buf k) _ :=
        ⟨_, hnext, fun _ => by rw [hsame]⟩
      rcases h.send hat hcall hfit.1 hfit.2 with hat' | hat'
      · exact ⟨.stop, hat', hp'.stop⟩
      · exact ⟨_, hat', hp'⟩
    · cases hstep
  · cases hstep

theorem step_fail (h : Implements B msgSize At) {errno : ℕ} (hat : At s.1 p)
    (hp : Buffered msgSize s p) (hstep : Session.step B s (.fail errno) = some s') :
    ∃ p', At s'.1 p' ∧ Buffered msgSize s' p' := by
  simp only [Session.step] at hstep
  split at hstep
  · cases hstep
  · rename_i hcall
    cases hstep
    have hp' : Buffered msgSize (B.answer s.1 (.error errno), s.2) p :=
      hp.congr (h.buffer s.1 _) (fun _ => rfl) rfl rfl
    rcases h.fail errno hat hcall with hat' | hat'
    · exact ⟨p, hat', hp'⟩
    · exact ⟨.stop, hat', hp'.stop⟩

/-- What the rest of the program writes is not in the buffer. -/
theorem step_other {block : ℕ} {bytes : List UInt8} (hat : At s.1 p)
    (hp : Buffered msgSize s p) (hstep : Session.step B s (.other block bytes) = some s') :
    ∃ p', At s'.1 p' ∧ Buffered msgSize s' p' := by
  simp only [Session.step] at hstep
  split at hstep
  · cases hstep
  · rename_i hblock
    cases hstep
    refine ⟨p, hat, hp.congr rfl ?_ rfl rfl⟩
    intro _
    simp only [Function.update_of_ne (Ne.symm hblock)]

theorem reaches_buffered (h : Implements B msgSize At) (hm : 1 ≤ msgSize)
    {tr : List (Input × Unit)} {s : (Connection × ν) × Store}
    (hr : (session B).Reaches tr s) : ∃ p, At s.1 p ∧ Buffered msgSize s p := by
  refine hr.invariant (P := fun _ s => ∃ p, At s.1 p ∧ Buffered msgSize s p) ?_ ?_
  · rintro s ⟨hinit, hrx, htx⟩
    obtain ⟨hat, hsize⟩ := h.init hinit
    refine ⟨.fill 0, hat, ?_⟩
    by_cases hbuffer : s.1.1.buffer = 0
    · exact ⟨List.replicate msgSize 0, holds_start hm (List.length_replicate ..) hrx htx,
        fun hne => (hne hbuffer).elim⟩
    · exact ⟨_, holds_start hm (hsize hbuffer) hrx htx, fun _ => rfl⟩
  · intro tr s a o s' _ hs hstep
    obtain ⟨p, hat, hp⟩ := hs
    obtain ⟨_, hnext, hpair⟩ := Option.map_eq_some_iff.mp hstep
    obtain ⟨rfl, -⟩ := Prod.mk.inj hpair
    cases a with
    | wake e => exact h.step_wake hat hp hnext
    | receive data => exact h.step_receive hat hp hnext
    | send k => exact h.step_send hat hp hnext
    | fail errno => exact h.step_fail hat hp hnext
    | other block bytes => exact step_other hat hp hnext

end Implements

/-! ## The backends -/

/-- `on_read` counts with its own cursor, and saves it where it returns. The buffer comes
with the first event. -/
def epollAt (msgSize : ℕ) (s : Connection × Epoll.Next) (p : Phase) : Prop :=
  match s.2 with
  | .done => p = .fill s.1.cursor ∧ s.1.cursor < msgSize ∧ (s.1.buffer = 0 → s.1.cursor = 0)
  | .read cursor =>
      p = .fill cursor ∧ s.1.cursor ≤ cursor ∧ cursor < msgSize ∧ s.1.buffer ≠ 0
  | .write cursor => p = .drain cursor ∧ s.1.cursor = 0 ∧ cursor < msgSize ∧ s.1.buffer ≠ 0
  | .close => p = .stop

theorem epollAt_afterRead {conn : Connection} {cursor : ℕ} (hcursor : conn.cursor ≤ cursor)
    (hlt : cursor < msgSize) (hbuffer : conn.buffer ≠ 0) (hm : 1 ≤ msgSize) :
    (∀ again, epollAt msgSize (Epoll.afterRead msgSize conn cursor (.error again))
      (.fill cursor)) ∧
    epollAt msgSize (Epoll.afterRead msgSize conn cursor (.count 0)) .stop ∧
    ∀ k, k ≠ 0 → epollAt msgSize (Epoll.afterRead msgSize conn cursor (.count k))
      (if cursor + k < msgSize then .fill (cursor + k) else .drain 0) := by
  refine ⟨?_, rfl, ?_⟩
  · intro again
    rw [Epoll.afterRead]
    split
    · exact ⟨rfl, hlt, fun hzero => (hbuffer hzero).elim⟩
    · have heq : conn.cursor = cursor := by omega
      exact ⟨by rw [heq], by rw [heq]; exact hlt, fun hzero => (hbuffer hzero).elim⟩
  · intro k hk
    rw [Epoll.afterRead, if_neg hk]
    split
    · rename_i hfit
      exact ⟨rfl, Nat.le_trans hcursor (Nat.le_add_right _ _), hfit, hbuffer⟩
    · exact ⟨rfl, rfl, hm, hbuffer⟩

theorem epollAt_afterWrite {conn : Connection} {cursor : ℕ} (hcursor : conn.cursor = 0)
    (hlt : cursor < msgSize) (hbuffer : conn.buffer ≠ 0) (hm : 1 ≤ msgSize) :
    (∀ again, epollAt msgSize (Epoll.afterWrite msgSize conn cursor (.error again))
      (.drain cursor)) ∧
    epollAt msgSize (Epoll.afterWrite msgSize conn cursor (.count 0)) .stop ∧
    ∀ k, k ≠ 0 → epollAt msgSize (Epoll.afterWrite msgSize conn cursor (.count k))
      (if cursor + k < msgSize then .drain (cursor + k) else .fill 0) := by
  refine ⟨?_, rfl, ?_⟩
  · intro again
    simp only [Epoll.afterWrite, if_pos hlt]
    exact ⟨rfl, hcursor, hlt, hbuffer⟩
  · intro k hk
    simp only [Epoll.afterWrite, if_neg hk]
    split
    · rename_i hfit
      exact ⟨rfl, hcursor, hfit, hbuffer⟩
    · refine ⟨?_, ?_, fun hzero => (hbuffer hzero).elim⟩
      · rw [hcursor]
      · rw [hcursor]
        exact hm

theorem afterRead_buffer (conn : Connection) (cursor : ℕ) (ret : Epoll.Ret) :
    (Epoll.afterRead msgSize conn cursor ret).1.buffer = conn.buffer := by
  cases ret with
  | error again =>
      rw [Epoll.afterRead]
      split <;> rfl
  | count k =>
      rw [Epoll.afterRead]
      split
      · rfl
      · split <;> rfl

theorem afterWrite_buffer (conn : Connection) (cursor : ℕ) (ret : Epoll.Ret) :
    (Epoll.afterWrite msgSize conn cursor ret).1.buffer = conn.buffer := by
  cases ret with
  | error again =>
      simp only [Epoll.afterWrite]
      split <;> rfl
  | count k =>
      simp only [Epoll.afterWrite]
      split
      · rfl
      · split <;> rfl

theorem epoll_implements (hm : 1 ≤ msgSize) :
    Implements (epoll msgSize) msgSize (epollAt msgSize) where
  init := by
    rintro s mem ⟨fd, -, rfl⟩
    exact ⟨⟨rfl, hm, fun _ => rfl⟩, fun hne => (hne rfl).elim⟩
  read := by
    rintro ⟨conn, next⟩ p buf len hat hcall
    cases next with
    | read cursor =>
        cases hcall
        obtain ⟨rfl, -, hlt, hbuffer⟩ := hat
        exact ⟨rfl, Nat.add_sub_of_le (Nat.le_of_lt hlt), rfl, hbuffer⟩
    | _ => cases hcall
  write := by
    rintro ⟨conn, next⟩ p buf len hat hcall
    cases next with
    | write cursor =>
        cases hcall
        obtain ⟨rfl, -, hlt, hbuffer⟩ := hat
        exact ⟨rfl, Nat.add_sub_of_le (Nat.le_of_lt hlt), rfl, hbuffer⟩
    | _ => cases hcall
  waiting := by
    rintro ⟨conn, next⟩ p c hat hwaiting
    cases next with
    | done =>
        cases hwaiting
        exact hat.1
    | _ => cases hwaiting
  buffer := by
    rintro ⟨conn, next⟩ ret
    cases next with
    | read cursor => exact afterRead_buffer conn cursor _
    | write cursor => exact afterWrite_buffer conn cursor _
    | _ => rfl
  wake := by
    rintro ⟨conn, next⟩ s' p e mem mem' hat hwake
    cases next with
    | done =>
        cases e with
        | event block =>
            simp only [epoll] at hwake
            split at hwake
            · cases hwake
              exact ⟨.inl hat, .inl ⟨rfl, rfl⟩⟩
            · obtain ⟨⟨conn', mem₁⟩, hopen, hrest⟩ := Option.bind_eq_some_iff.mp hwake
              cases hrest
              obtain ⟨rfl, hlt, hzero⟩ := hat
              rcases openBuffer_spec hopen with ⟨hbuffer, rfl, rfl⟩ | ⟨hbuffer, hblock, rfl, rfl⟩
              · exact ⟨.inl ⟨rfl, Nat.le_refl _, hlt, hbuffer⟩, .inl ⟨rfl, rfl⟩⟩
              · exact ⟨.inl ⟨rfl, Nat.le_refl _, hlt, hblock⟩,
                  .inr ⟨congrArg Phase.fill (hzero hbuffer), rfl⟩⟩
        | hangUp =>
            cases hwake
            exact ⟨.inr rfl, .inl ⟨rfl, rfl⟩⟩
    | _ => cases e <;> cases hwake
  fail := by
    rintro ⟨conn, next⟩ p errno hat hcall
    cases next with
    | read cursor =>
        obtain ⟨rfl, hcursor, hlt, hbuffer⟩ := hat
        exact .inl ((epollAt_afterRead hcursor hlt hbuffer hm).1 (errno = EAGAIN))
    | write cursor =>
        obtain ⟨rfl, hcursor, hlt, hbuffer⟩ := hat
        exact .inl ((epollAt_afterWrite hcursor hlt hbuffer hm).1 (errno = EAGAIN))
    | _ => exact (hcall rfl).elim
  receive := by
    rintro ⟨conn, next⟩ buf len k hat hcall hk -
    cases next with
    | read cursor =>
        cases hcall
        obtain ⟨-, hcursor, hlt, hbuffer⟩ := hat
        obtain ⟨-, hclose, hcount⟩ := epollAt_afterRead hcursor hlt hbuffer hm
        by_cases hzero : k = 0
        · subst hzero
          exact .inl hclose
        · exact .inr (hcount k hzero)
    | _ => cases hcall
  send := by
    rintro ⟨conn, next⟩ buf len k hat hcall hk -
    cases next with
    | write cursor =>
        cases hcall
        obtain ⟨-, hcursor, hlt, hbuffer⟩ := hat
        obtain ⟨-, hclose, hcount⟩ := epollAt_afterWrite hcursor hlt hbuffer hm
        by_cases hzero : k = 0
        · subst hzero
          exact .inl hclose
        · exact .inr (hcount k hzero)
    | _ => cases hcall

def threadsAt (msgSize : ℕ) (s : Connection × Threads.Next) (p : Phase) : Prop :=
  s.1.buffer ≠ 0 ∧
    match s.2 with
    | .read cursor => p = .fill cursor ∧ cursor < msgSize
    | .write cursor => p = .drain cursor ∧ cursor < msgSize
    | _ => p = .stop

/-- One transfer is too small to change in the conversion to `int`. -/
theorem toInt_count {k : ℕ} (hk : k ≤ MAX_RW_COUNT) : Threads.toInt k = k := by
  rw [MAX_RW_COUNT] at hk
  rw [Threads.toInt, Int.bmod_def]
  omega

theorem threadsAt_afterRead {conn : Connection} {cursor k : ℕ} (hbuffer : conn.buffer ≠ 0)
    (hk : k ≤ MAX_RW_COUNT) (hm : 1 ≤ msgSize) :
    threadsAt msgSize (conn, Threads.afterRead msgSize cursor k) .stop ∨
      threadsAt msgSize (conn, Threads.afterRead msgSize cursor k)
        (if cursor + k < msgSize then .fill (cursor + k) else .drain 0) := by
  simp only [Threads.afterRead, toInt_count hk]
  split
  · exact .inl ⟨hbuffer, rfl⟩
  · right
    have hpos : ¬ (k : ℤ) < 0 := by omega
    rw [if_neg hpos, Int.toNat_natCast]
    split
    · rename_i hfit
      exact ⟨hbuffer, rfl, hfit⟩
    · exact ⟨hbuffer, rfl, hm⟩

theorem threadsAt_afterWrite {conn : Connection} {cursor k : ℕ} (hbuffer : conn.buffer ≠ 0)
    (hk : k ≤ MAX_RW_COUNT) (hm : 1 ≤ msgSize) :
    threadsAt msgSize (conn, Threads.afterWrite msgSize cursor k) .stop ∨
      threadsAt msgSize (conn, Threads.afterWrite msgSize cursor k)
        (if cursor + k < msgSize then .drain (cursor + k) else .fill 0) := by
  simp only [Threads.afterWrite, toInt_count hk]
  split
  · exact .inl ⟨hbuffer, rfl⟩
  · right
    have hpos : ¬ (k : ℤ) < 0 := by omega
    rw [if_neg hpos, Int.toNat_natCast]
    split
    · rename_i hfit
      exact ⟨hbuffer, rfl, hfit⟩
    · exact ⟨hbuffer, rfl, hm⟩

theorem threads_implements (hm : 1 ≤ msgSize) :
    Implements (threads msgSize) msgSize (threadsAt msgSize) where
  init := by
    rintro s mem ⟨fd, block, before, hblock, rfl, rfl⟩
    refine ⟨⟨hblock, rfl, hm⟩, fun _ => ?_⟩
    simp [Memory.alloc]
  read := by
    rintro ⟨conn, next⟩ p buf len hat hcall
    cases next with
    | read cursor =>
        cases hcall
        obtain ⟨hbuffer, rfl, hlt⟩ := hat
        exact ⟨rfl, Nat.add_sub_of_le (Nat.le_of_lt hlt), rfl, hbuffer⟩
    | _ => cases hcall
  write := by
    rintro ⟨conn, next⟩ p buf len hat hcall
    cases next with
    | write cursor =>
        cases hcall
        obtain ⟨hbuffer, rfl, hlt⟩ := hat
        exact ⟨rfl, Nat.add_sub_of_le (Nat.le_of_lt hlt), rfl, hbuffer⟩
    | _ => cases hcall
  waiting := by
    rintro ⟨conn, next⟩ p c hat hwaiting
    cases next with
    | read cursor =>
        cases hwaiting
        exact hat.2.1
    | _ => cases hwaiting
  buffer := by
    rintro ⟨conn, next⟩ ret
    cases next <;> rfl
  wake := by
    intro s s' p e mem mem' hat hwake
    cases hwake
  fail := by
    rintro ⟨conn, next⟩ p errno hat hcall
    cases next with
    | read cursor => exact .inr ⟨hat.1, rfl⟩
    | write cursor => exact .inr ⟨hat.1, rfl⟩
    | _ => exact (hcall rfl).elim
  receive := by
    rintro ⟨conn, next⟩ buf len k hat hcall hk hmax
    cases next with
    | read cursor =>
        cases hcall
        exact threadsAt_afterRead hat.1 hmax hm
    | _ => cases hcall
  send := by
    rintro ⟨conn, next⟩ buf len k hat hcall hk hmax
    cases next with
    | write cursor =>
        cases hcall
        exact threadsAt_afterWrite hat.1 hmax hm
    | _ => cases hcall

/-- One cursor counts what is read and then what is written. -/
def ioUringAt (msgSize : ℕ) (s : Connection × IoUring.Next) (p : Phase) : Prop :=
  s.1.buffer ≠ 0 ∧
    match s.2 with
    | .read off len => p = .fill off ∧ s.1.cursor = off ∧ off + len = msgSize ∧ off < msgSize
    | .write off len =>
        p = .drain off ∧ s.1.cursor = off ∧ off + len = msgSize ∧ off < msgSize
    | .close => p = .stop

theorem ioUringAt_sockRead {conn : Connection} {k : ℕ} (hbuffer : conn.buffer ≠ 0)
    (hm : 1 ≤ msgSize) (hfit : conn.cursor + k ≤ msgSize) :
    ioUringAt msgSize (IoUring.sockRead msgSize conn k) .stop ∨
      ioUringAt msgSize (IoUring.sockRead msgSize conn k)
        (if conn.cursor + k < msgSize then .fill (conn.cursor + k) else .drain 0) := by
  rw [IoUring.sockRead]
  split
  · exact .inl ⟨hbuffer, rfl⟩
  · right
    rw [Int.toNat_natCast]
    split
    · rename_i hfull
      rw [if_neg (by omega)]
      exact ⟨hbuffer, rfl, rfl, by omega, hm⟩
    · rw [if_pos (by omega)]
      exact ⟨hbuffer, rfl, rfl, by simp only; omega, by simp only; omega⟩

theorem ioUringAt_sockWrite {conn : Connection} {k : ℕ} (hbuffer : conn.buffer ≠ 0)
    (hm : 1 ≤ msgSize) (hfit : conn.cursor + k ≤ msgSize) :
    ioUringAt msgSize (IoUring.sockWrite msgSize conn k) .stop ∨
      ioUringAt msgSize (IoUring.sockWrite msgSize conn k)
        (if conn.cursor + k < msgSize then .drain (conn.cursor + k) else .fill 0) := by
  rw [IoUring.sockWrite]
  split
  · exact .inl ⟨hbuffer, rfl⟩
  · right
    rw [Int.toNat_natCast]
    split
    · rename_i hfull
      rw [if_neg (by omega)]
      exact ⟨hbuffer, rfl, rfl, by omega, hm⟩
    · rw [if_pos (by omega)]
      exact ⟨hbuffer, rfl, rfl, by simp only; omega, by simp only; omega⟩

theorem sockRead_buffer (conn : Connection) (ret : ℤ) :
    (IoUring.sockRead msgSize conn ret).1.buffer = conn.buffer := by
  rw [IoUring.sockRead]
  split
  · rfl
  · split <;> rfl

theorem sockWrite_buffer (conn : Connection) (ret : ℤ) :
    (IoUring.sockWrite msgSize conn ret).1.buffer = conn.buffer := by
  rw [IoUring.sockWrite]
  split
  · rfl
  · split <;> rfl

theorem ioUring_implements (hm : 1 ≤ msgSize) :
    Implements (ioUring msgSize) msgSize (ioUringAt msgSize) where
  init := by
    rintro ⟨conn, next⟩ mem ⟨fd, block, before, hopen, rfl⟩
    rcases openBuffer_spec hopen with ⟨hbuffer, -⟩ | ⟨-, hblock, rfl, rfl⟩
    · exact (hbuffer rfl).elim
    · refine ⟨⟨hblock, rfl, rfl, Nat.zero_add _, hm⟩, fun _ => ?_⟩
      simp [Memory.alloc]
  read := by
    rintro ⟨conn, next⟩ p buf len hat hcall
    cases next with
    | read off' len' =>
        cases hcall
        obtain ⟨hbuffer, rfl, -, hlen, -⟩ := hat
        exact ⟨rfl, hlen, rfl, hbuffer⟩
    | _ => cases hcall
  write := by
    rintro ⟨conn, next⟩ p buf len hat hcall
    cases next with
    | write off' len' =>
        cases hcall
        obtain ⟨hbuffer, rfl, -, hlen, -⟩ := hat
        exact ⟨rfl, hlen, rfl, hbuffer⟩
    | _ => cases hcall
  waiting := by
    rintro ⟨conn, next⟩ p c hat hwaiting
    cases next with
    | read off len =>
        cases hwaiting
        obtain ⟨-, rfl, hoff, -⟩ := hat
        exact congrArg Phase.fill hoff.symm
    | _ => cases hwaiting
  buffer := by
    rintro ⟨conn, next⟩ ret
    cases next with
    | read off len => exact sockRead_buffer conn _
    | write off len => exact sockWrite_buffer conn _
    | close => rfl
  wake := by
    intro s s' p e mem mem' hat hwake
    cases hwake
  fail := by
    rintro ⟨conn, next⟩ p errno hat hcall
    have hneg : -(errno : ℤ) ≤ 0 := by omega
    cases next with
    | read off len =>
        right
        simp only [ioUring, IoUring.sockRead, if_pos hneg]
        exact ⟨hat.1, rfl⟩
    | write off len =>
        right
        simp only [ioUring, IoUring.sockWrite, if_pos hneg]
        exact ⟨hat.1, rfl⟩
    | close => exact (hcall rfl).elim
  receive := by
    rintro ⟨conn, next⟩ buf len k hat hcall hk -
    cases next with
    | read off' len' =>
        cases hcall
        obtain ⟨hbuffer, -, hoff, hlen, -⟩ := hat
        have hoff' : conn.cursor = off' := hoff
        subst hoff'
        exact ioUringAt_sockRead hbuffer hm (by omega)
    | _ => cases hcall
  send := by
    rintro ⟨conn, next⟩ buf len k hat hcall hk -
    cases next with
    | write off' len' =>
        cases hcall
        obtain ⟨hbuffer, -, hoff, hlen, -⟩ := hat
        have hoff' : conn.cursor = off' := hoff
        subst hoff'
        exact ioUringAt_sockWrite hbuffer hm (by omega)
    | _ => cases hcall

/-! ## The echo function -/

/-- The `len` bytes from `buf` on lie in the message buffer of the connection, an allocated
block of `msgSize` bytes. -/
structure InBuffer (msgSize : ℕ) (s : (Connection × ν) × Store) (buf : Ptr) (len : ℕ) :
    Prop where
  block : buf.block = s.1.1.buffer
  ne_null : buf.block ≠ 0
  size : (s.2.memory buf.block).length = msgSize
  le : buf.off + len ≤ msgSize

/-- What is written is a prefix of what was read, calls stay inside the message buffer,
and a connection that waits for input has echoed every whole message. -/
structure Echoes (B : Backend ν) (msgSize : ℕ) (s : (Connection × ν) × Store) : Prop where
  isPrefix : s.2.tx <+: s.2.rx
  read : ∀ {buf len}, B.call s.1 = .read buf len → InBuffer msgSize s buf len
  write : ∀ {buf len}, B.call s.1 = .write buf len → InBuffer msgSize s buf len
  waiting : ∀ {cursor}, B.waiting s.1 = some cursor →
    s.2.tx = s.2.rx.take (msgSize * (s.2.rx.length / msgSize)) ∧
      cursor = s.2.rx.length % msgSize

theorem Implements.echoes {B : Backend ν} {At : Connection × ν → Phase → Prop}
    (h : Implements B msgSize At) (hm : 1 ≤ msgSize) {tr : List (Input × Unit)}
    {s : (Connection × ν) × Store} (hr : (session B).Reaches tr s) : Echoes B msgSize s := by
  obtain ⟨p, hat, hp⟩ := h.reaches_buffered hm hr
  refine ⟨hp.isPrefix, ?_, ?_, ?_⟩
  · intro buf len hcall
    obtain ⟨rfl, hlen, hblock, hbuffer⟩ := h.read hat hcall
    have hfill := hp.holds hbuffer
    rw [← hblock] at hfill
    exact ⟨hblock, by rw [hblock]; exact hbuffer, Wire.Filling.size hfill, Nat.le_of_eq hlen⟩
  · intro buf len hcall
    obtain ⟨rfl, hlen, hblock, hbuffer⟩ := h.write hat hcall
    have hdrain := hp.holds hbuffer
    rw [← hblock] at hdrain
    exact ⟨hblock, by rw [hblock]; exact hbuffer, Wire.Draining.size hdrain, Nat.le_of_eq hlen⟩
  · intro cursor hwaiting
    obtain ⟨bytes, hholds, -⟩ := hp
    rw [h.waiting hat hwaiting] at hholds
    exact Wire.Filling.count hholds

/-- The epoll, threads and io_uring backends implement the same echo function. -/
theorem backends_echo (hm : 1 ≤ msgSize) :
    (∀ tr s, (session (epoll msgSize)).Reaches tr s → Echoes (epoll msgSize) msgSize s) ∧
    (∀ tr s, (session (threads msgSize)).Reaches tr s → Echoes (threads msgSize) msgSize s) ∧
    ∀ tr s, (session (ioUring msgSize)).Reaches tr s → Echoes (ioUring msgSize) msgSize s :=
  ⟨fun _ _ => (epoll_implements hm).echoes hm, fun _ _ => (threads_implements hm).echoes hm,
    fun _ _ => (ioUring_implements hm).echoes hm⟩

/-- Nothing is allocated. -/
def freshStore : Store := ⟨fun _ => [], [], []⟩

/-- A connection with the buffer at block 1. -/
def openedStore : Store := { freshStore with memory := freshStore.memory.alloc 1 2 }

/-- Three bytes in messages of two, with short reads and writes, calls that fail, and other
parts of the program at work on other blocks. -/
def epollPieces : List Input :=
  [.other 1 [8], .wake (.event 1), .receive [5], .fail EAGAIN, .other 2 [9, 9],
    .wake (.event 2), .receive [6], .send 1, .fail EAGAIN, .send 1, .wake (.event 2),
    .receive [7], .fail EAGAIN]

def pieces : List Input :=
  [.receive [5], .other 2 [9, 9], .receive [6], .send 1, .send 1, .receive [7]]

theorem backends_echo_pieces :
    (∃ tr s, (session (epoll 2)).Reaches tr s ∧ s.2.tx = [5, 6] ∧
      (epoll 2).waiting s.1 = some 1 ∧ Echoes (epoll 2) 2 s) ∧
    (∃ tr s, (session (threads 2)).Reaches tr s ∧ s.2.tx = [5, 6] ∧
      (threads 2).waiting s.1 = some 1 ∧ Echoes (threads 2) 2 s) ∧
    ∃ tr s, (session (ioUring 2)).Reaches tr s ∧ s.2.tx = [5, 6] ∧
      (ioUring 2).waiting s.1 = some 1 ∧ Echoes (ioUring 2) 2 s := by
  obtain ⟨hepoll, hthreads, hring⟩ := backends_echo (show 1 ≤ 2 by decide)
  refine ⟨?_, ?_, ?_⟩
  · have hrun : ((session (epoll 2)).exec (({ newConn 7 with state := .reading }, .done),
        freshStore) epollPieces).isSome := rfl
    have hreach := Machine.reaches_exec_get (by exact ⟨⟨7, by decide, rfl⟩, rfl, rfl⟩) hrun
    exact ⟨_, _, hreach, rfl, rfl, hepoll _ _ hreach⟩
  · have hrun : ((session (threads 2)).exec (({ newConn 7 with buffer := 1 }, .read 0),
        openedStore) pieces).isSome := rfl
    have hreach := Machine.reaches_exec_get
      (by exact ⟨⟨7, 1, freshStore.memory, by decide, rfl, rfl⟩, rfl, rfl⟩) hrun
    exact ⟨_, _, hreach, rfl, rfl, hthreads _ _ hreach⟩
  · have hrun : ((session (ioUring 2)).exec (({ newConn 7 with buffer := 1 }, .read 0 2),
        openedStore) pieces).isSome := rfl
    have hreach := Machine.reaches_exec_get
      (by exact ⟨⟨7, 1, freshStore.memory, rfl, rfl⟩, rfl, rfl⟩) hrun
    exact ⟨_, _, hreach, rfl, rfl, hring _ _ hreach⟩

end Upcalls.Session
