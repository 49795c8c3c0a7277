import Upcalls.Model.ErrorLink
import Upcalls.Verification.PerfStats.Frames

/-! # The connection of the error report

The bytes on the connection are the report behind its length, or behind a part of it.
`do_error_report` prints the report, or nothing when the length is not whole.
-/

namespace Upcalls.ErrorLink

open Library ErrorReport

variable {r : Report} {s s' : Link} {a : Input} {tr : List (Input × Unit)}

/-- The report with its NUL. -/
def body (r : Report) : List UInt8 := r.output.take (r.cursor + 1)

/-- The report is inside its buffer, and begins with text if there is one. -/
structure Inside (r : Report) : Prop where
  room : r.cursor + 1 ≤ r.output.length
  short : r.output.length + 8 < 256 ^ 7
  text : r.dangling = true → ∃ front rest, body r = front ++ rest ∧ front.length = 8 ∧
    0 ∉ front

theorem Inside.length_body (h : Inside r) : (body r).length = r.cursor + 1 := by
  rw [body, List.length_take]
  exact Nat.min_eq_left h.room

/-! ## The calls for the length -/

/-- How much each write of the length has written. -/
def sizeWrites (tr : List (Input × Unit)) : List ℕ :=
  tr.filterMap fun x =>
    match x.1 with
    | .sendSize k => some k
    | _ => none

/-- How much each read of the length has read, and whether there was memory for it. -/
def sizeReads (tr : List (Input × Unit)) : List (ℕ × Bool) :=
  tr.filterMap fun x =>
    match x.1 with
    | .readSize k found => some (k, found)
    | _ => none

theorem sizeWrites_snoc (tr : List (Input × Unit)) (x : Input × Unit) :
    sizeWrites (tr ++ [x]) = sizeWrites tr ++ sizeWrites [x] := List.filterMap_append

theorem sizeReads_snoc (tr : List (Input × Unit)) (x : Input × Unit) :
    sizeReads (tr ++ [x]) = sizeReads tr ++ sizeReads [x] := List.filterMap_append

/-- The length has not come over as a whole, or there was no memory for it. -/
def Lost (writes : List ℕ) (reads : List (ℕ × Bool)) : Prop :=
  (∃ k ∈ writes, k < 8) ∨ ∃ x ∈ reads, x.1 < 8 ∨ x.2 = false

theorem Lost.append {writes : List ℕ} {reads : List (ℕ × Bool)} (h : Lost writes reads)
    (added : List ℕ) (added' : List (ℕ × Bool)) : Lost (writes ++ added) (reads ++ added') := by
  rcases h with ⟨k, hk, hshort⟩ | ⟨x, hx, hshort⟩
  · exact .inl ⟨k, List.mem_append_left _ hk, hshort⟩
  · exact .inr ⟨x, List.mem_append_left _ hx, hshort⟩

/-! ## `on_error` sends the report -/

/-- All that is sent once the length is. -/
def sent (r : Report) : List ℕ → List UInt8
  | [k] => (littleEndian 8 (body r).length).take k ++ body r
  | _ => []

/-- What is still to be sent behind the length. -/
def unsent (r : Report) : OnError → List UInt8
  | .text cursor => (body r).drop cursor
  | .size | .closed => []

/-- Where `on_error` is, with its writes of the length and the bytes that it has sent. -/
inductive Sends (r : Report) (s : Link) : List ℕ → Prop
  | none : s.onError = .closed → s.stream = [] → r.dangling = false → Sends r s []
  | size : s.onError = .size → s.stream = [] → r.dangling = true → Sends r s []
  | text {k : ℕ} (cursor : ℕ) : s.onError = .text cursor → cursor < r.cursor + 1 → k ≤ 8 →
      r.dangling = true → Sends r s [k]
  | closed {k : ℕ} : s.onError = .closed → k ≤ 8 → r.dangling = true → Sends r s [k]

theorem Sends.dangling {k : ℕ} {writes : List ℕ} (h : Sends r s (k :: writes)) :
    r.dangling = true := by
  cases h with
  | text _ _ _ _ hopen | closed _ _ hopen => exact hopen

/-- The reader takes bytes off the stream. -/
theorem Sends.of_read {writes : List ℕ} (h : Sends r s writes) (hserver : s'.onError = s.onError)
    (hstream : s.stream = [] → s'.stream = []) : Sends r s' writes := by
  cases h with
  | none hs hnil hopen => exact .none (hserver.trans hs) (hstream hnil) hopen
  | size hs hnil hopen => exact .size (hserver.trans hs) (hstream hnil) hopen
  | text cursor hs hcursor hk hopen => exact .text cursor (hserver.trans hs) hcursor hk hopen
  | closed hs hk hopen => exact .closed (hserver.trans hs) hk hopen

/-- A step of `on_error` behind the length moves bytes from what is unsent to the stream. -/
structure Sent (r : Report) (s s' : Link) : Prop where
  reader : s'.reader = s.reader
  printed : s'.printed = s.printed
  stream : s'.stream ++ unsent r s'.onError = s.stream ++ unsent r s.onError

theorem sendSize_spec {k : ℕ} {writes : List ℕ} (hr : Inside r) (h : Sends r s writes)
    (hstep : s.sendSize r k = some s') :
    writes = [] ∧ s.stream = [] ∧ s.onError = .size ∧ s'.reader = s.reader ∧
      s'.printed = s.printed ∧ s'.onError = .text 0 ∧ s'.stream.length ≤ 8 ∧ Sends r s' [k] ∧
      s'.stream ++ unsent r s'.onError = sent r [k] := by
  rw [Link.sendSize] at hstep
  split at hstep
  · rename_i hsize
    split at hstep
    · rename_i hk
      cases hstep
      cases h with
      | none hs | text _ hs | closed hs =>
          rw [hsize] at hs
          cases hs
      | size _ hnil hopen =>
          refine ⟨rfl, hnil, hsize, rfl, rfl, rfl, ?_, .text 0 rfl (Nat.succ_pos _) hk hopen, ?_⟩
          · simp only [hnil, List.nil_append, List.length_take, length_littleEndian]
            exact Nat.min_le_right _ _
          · simp only [unsent, hnil, sent, hr.length_body, List.nil_append, List.drop_zero]
    · cases hstep
  · cases hstep

theorem send_spec {k : ℕ} {writes : List ℕ} (hr : Inside r) (h : Sends r s writes)
    (hstep : s.send r k = some s') :
    Sent r s s' ∧ Sends r s' writes ∧ ∃ cursor, s.onError = .text cursor ∧ 1 ≤ k ∧
      s'.stream.length = s.stream.length + k := by
  rw [Link.send] at hstep
  split at hstep
  · rename_i cursor htext
    split at hstep
    · rename_i hk
      obtain ⟨hpos, hend, hbuffer⟩ := hk
      cases hstep
      have hlength := hr.length_body
      have hpiece : (r.output.drop cursor).take k = ((body r).drop cursor).take k := by
        rw [body, List.drop_take, List.take_take]
        congr 1
        omega
      have hstream : ((body r).drop cursor).take k ++ (body r).drop (cursor + k) =
          (body r).drop cursor := by
        rw [← List.drop_drop, List.take_append_drop]
      refine ⟨⟨rfl, rfl, ?_⟩, ?_, cursor, htext, hpos, ?_⟩
      · dsimp only
        rw [htext, hpiece, List.append_assoc]
        split
        · rw [unsent, unsent, hstream]
        · have hnone : (body r).drop (cursor + k) = [] := List.drop_of_length_le (by omega)
          rw [hnone] at hstream
          rw [unsent, unsent, hstream]
      · cases h with
        | none hs | size hs | closed hs =>
            rw [htext] at hs
            cases hs
        | text cursor' hs hcursor hk' hopen =>
            by_cases hlt : cursor + k < r.cursor + 1
            · exact .text (cursor + k) (if_pos hlt) hlt hk' hopen
            · exact .closed (if_neg hlt) hk' hopen
      · simp only [List.length_append, List.length_take, List.length_drop]
        omega
    · cases hstep
  · cases hstep

/-- `on_error` can go on until everything is sent. -/
theorem send_possible {writes : List ℕ} (hr : Inside r) (h : Sends r s writes)
    (hopen : s.onError ≠ .closed) : ∃ a, (s.step r a).isSome := by
  cases h with
  | none hs | closed hs => exact (hopen hs).elim
  | size hs => exact ⟨.sendSize 8, by simp [Link.step, Link.sendSize, hs]⟩
  | text cursor hs hcursor =>
      have hone : cursor + 1 ≤ r.cursor + 1 := hcursor
      have hbuffer : cursor + 1 ≤ r.output.length := hone.trans hr.room
      exact ⟨.send 1, by simp [Link.step, Link.send, hs, hone, hbuffer]⟩

/-! ## `do_error_report` takes it -/

/-- Where `do_error_report` is, with the calls for the length and the bytes ahead of it. In
`starved` it asks for more than will ever come. -/
inductive Receives (r : Report) (s : Link) (writes : List ℕ) (reads : List (ℕ × Bool)) : Prop
  | size : s.reader = .size → reads = [] → s.printed = [] →
      s.stream ++ unsent r s.onError = sent r writes → Receives r s writes reads
  | text (cursor : ℕ) :
      s.reader = .text (body r).length ((body r).take cursor ++
        List.replicate ((body r).length - cursor) 0) cursor →
      writes = [8] → reads = [(8, true)] → s.printed = [] → cursor < (body r).length →
      s.stream ++ unsent r s.onError = (body r).drop cursor → Receives r s writes reads
  | starved {k size : ℕ} {buf : List UInt8} (cursor : ℕ) : s.reader = .text size buf cursor →
      writes = [k] → k < 8 → s.printed = [] →
      cursor + (s.stream ++ unsent r s.onError).length < size → Receives r s writes reads
  | nothing : s.reader = .ended → s.printed = [] → Lost writes reads → Receives r s writes reads
  | printed : s.reader = .ended → writes = [8] → reads = [(8, true)] →
      s.printed = cString (body r) ++ ascii "\n\n" → Receives r s writes reads

theorem Receives.of_sent {writes : List ℕ} {reads : List (ℕ × Bool)}
    (h : Receives r s writes reads) (hsent : Sent r s s') : Receives r s' writes reads := by
  obtain ⟨hreader, hprinted, hstream⟩ := hsent
  cases h with
  | size hs hreads hnone hahead =>
      exact .size (hreader.trans hs) hreads (hprinted.trans hnone) (hstream.trans hahead)
  | text cursor hs hwrites hreads hnone hcursor hahead =>
      exact .text cursor (hreader.trans hs) hwrites hreads (hprinted.trans hnone) hcursor
        (hstream.trans hahead)
  | starved cursor hs hwrites hk hnone hmore =>
      refine .starved cursor (hreader.trans hs) hwrites hk (hprinted.trans hnone) ?_
      rw [hstream]
      exact hmore
  | nothing hs hnone hlost =>
      exact .nothing (hreader.trans hs) (hprinted.trans hnone) hlost
  | printed hs hwrites hreads hall =>
      exact .printed (hreader.trans hs) hwrites hreads (hprinted.trans hall)

/-- The length is written ahead of everything the reader gets. -/
theorem Receives.of_sendSize {k : ℕ} {writes : List ℕ} {reads : List (ℕ × Bool)}
    (hr : Inside r) (hsends : Sends r s writes) (h : Receives r s writes reads)
    (hstep : s.sendSize r k = some s') : Sends r s' [k] ∧ Receives r s' (writes ++ [k]) reads := by
  obtain ⟨rfl, -, -, hreader, hprinted, -, -, hsends', hstream⟩ := sendSize_spec hr hsends hstep
  refine ⟨hsends', ?_⟩
  cases h with
  | size hs hreads hnone _ =>
      exact .size (hreader.trans hs) hreads (hprinted.trans hnone) hstream
  | text _ _ hwrites | starved _ _ hwrites | printed _ hwrites => cases hwrites
  | nothing hs hnone hlost =>
      refine .nothing (hreader.trans hs) (hprinted.trans hnone) ?_
      simpa using hlost.append [k] []

theorem unsent_of_ended (h : s.ended = true) : s.stream ++ unsent r s.onError = [] := by
  rw [Link.ended] at h
  split at h
  · rename_i hserver
    rw [hserver, List.isEmpty_iff.mp h]
    rfl
  · cases h

/-- Nothing comes before the length is written. -/
theorem Sends.writes_of_stream {writes : List ℕ} (h : Sends r s writes)
    (hmore : 0 < s.stream.length) : r.dangling = true ∧ ∃ k ≤ 8, writes = [k] := by
  cases h with
  | none _ hnil | size _ hnil =>
      rw [hnil] at hmore
      exact (Nat.lt_irrefl 0 hmore).elim
  | text _ _ _ hk hopen => exact ⟨hopen, _, hk, rfl⟩
  | closed _ hk hopen => exact ⟨hopen, _, hk, rfl⟩

theorem sent_eight (r : Report) : sent r [8] = frame 8 (body r) := by
  rw [sent, frame, List.take_of_length_le (by simp)]

theorem ofLittleEndian_sent (hr : Inside r) :
    ofLittleEndian ((frame 8 (body r)).take 8) = (body r).length := by
  have hlength := hr.length_body
  have hroom := hr.room
  have hshort := hr.short
  rw [ofLittleEndian_take_frame (Nat.le_refl 8), hlength, Nat.mod_eq_of_lt (by omega)]

/-- With a part of the length in front of it, the last of the first eight bytes is text, and
the reader takes them for more than there is. -/
theorem sent_starves {k : ℕ} (hr : Inside r) (hopen : r.dangling = true) (hk : k < 8) :
    (sent r [k]).length < ofLittleEndian ((sent r [k]).take 8) := by
  obtain ⟨front, rest, hbody, hfront, hzero⟩ := hr.text hopen
  have hdigits : ((littleEndian 8 (body r).length).take k).length = k := by
    rw [List.length_take, length_littleEndian, Nat.min_eq_left (Nat.le_of_lt hk)]
  have hindex : 7 - k < front.length := by omega
  have hsplit : (sent r [k]).take 8 =
      ((littleEndian 8 (body r).length).take k ++ front.take (7 - k)) ++ [front[7 - k]] := by
    have hnext : front.take (7 - k) ++ [front[7 - k]] = front.take (8 - k) := by
      rw [show 8 - k = 7 - k + 1 by omega, List.take_concat_get' _ _ hindex]
    rw [List.append_assoc, hnext, sent, List.take_append, hdigits,
      List.take_of_length_le (by rw [hdigits]; omega), hbody,
      List.take_append_of_le_length (by omega)]
  have hnonzero : front[7 - k] ≠ 0 := fun h => hzero (h ▸ List.getElem_mem hindex)
  have hlarge := le_ofLittleEndian
    ((littleEndian 8 (body r).length).take k ++ front.take (7 - k)) hnonzero
  rw [List.length_append, hdigits, List.length_take, Nat.min_eq_left (Nat.le_of_lt hindex),
    show k + (7 - k) = 7 by omega] at hlarge
  rw [hsplit]
  refine Nat.lt_of_lt_of_le ?_ hlarge
  have hroom := hr.room
  have hshort := hr.short
  rw [sent, List.length_append, hdigits, hr.length_body]
  omega

theorem readSize_spec {k : ℕ} {found : Bool} {writes : List ℕ} {reads : List (ℕ × Bool)}
    (hr : Inside r) (hsends : Sends r s writes) (h : Receives r s writes reads)
    (hstep : s.readSize k found = some s') :
    s'.onError = s.onError ∧ s'.stream = s.stream.drop k ∧
      Receives r s' writes (reads ++ [(k, found)]) := by
  rw [Link.readSize] at hstep
  split at hstep
  · rename_i hsize
    split at hstep
    · rename_i hguard
      obtain ⟨hk, hstream, -⟩ := hguard
      cases hstep
      cases h with
      | size _ hreads hnone hahead =>
          refine ⟨rfl, rfl, ?_⟩
          rw [hreads, List.nil_append]
          by_cases hlost : k < 8 ∨ found = false
          · exact .nothing (if_pos hlost) hnone
              (.inr ⟨_, List.mem_singleton_self _, hlost⟩)
          · obtain ⟨hshort, hfound⟩ := not_or.mp hlost
            have hwhole : k = 8 := by omega
            have hmemory : found = true := by simpa using hfound
            subst hwhole
            obtain ⟨hopen, j, hj, rfl⟩ := hsends.writes_of_stream (by omega)
            have htake : s.stream.take 8 = (sent r [j]).take 8 := by
              rw [← hahead, List.take_append_of_le_length hstream]
            have hrest : s.stream.drop 8 ++ unsent r s.onError = (sent r [j]).drop 8 := by
              rw [← hahead, List.drop_append_of_le_length hstream]
            by_cases hpart : j < 8
            · refine .starved 0 (if_neg hlost) rfl hpart hnone ?_
              rw [hrest, List.length_drop, htake]
              have hstarves := sent_starves hr hopen hpart
              omega
            · have hall : j = 8 := by omega
              subst hall
              rw [sent_eight] at htake hrest
              have hvalue := (congrArg ofLittleEndian htake).trans (ofLittleEndian_sent hr)
              have hlength := hr.length_body
              refine .text 0 ?_ rfl (by rw [hmemory]) hnone (by omega) ?_
              · rw [if_neg hlost]
                simp only [hvalue, List.take_zero, List.nil_append, Nat.sub_zero]
              · rw [List.drop_zero, hrest, drop_frame (Nat.le_refl 8), Nat.sub_self,
                  littleEndian, List.nil_append]
      | text _ hs | starved _ hs | nothing hs | printed hs =>
          rw [hsize] at hs
          cases hs
    · cases hstep
  · cases hstep

theorem read_spec {k : ℕ} {writes : List ℕ} {reads : List (ℕ × Bool)}
    (h : Receives r s writes reads) (hstep : s.read k = some s') :
    s'.onError = s.onError ∧ s'.stream = s.stream.drop k ∧ Receives r s' writes reads := by
  unfold Link.read at hstep
  dsimp only at hstep
  split at hstep
  · rename_i size buf cursor htext
    split at hstep
    · rename_i hguard
      obtain ⟨hk, hstream, hzero⟩ := hguard
      cases hstep
      cases h with
      | text cursor' hs hwrites hreads hnone hcursor hahead =>
          cases htext.symm.trans hs
          have hpos : k ≠ 0 := by
            intro hk0
            rcases hzero hk0 with hall | hended
            · omega
            · rw [unsent_of_ended hended] at hahead
              have hlength := congrArg List.length hahead
              rw [List.length_nil, List.length_drop] at hlength
              omega
          rw [if_neg hpos, PerfStats.fill_buffer (body r).length hahead hstream (by omega)]
          have hnext : s.stream.drop k ++ unsent r s.onError = (body r).drop (cursor + k) := by
            rw [← List.drop_drop, ← hahead, List.drop_append_of_le_length hstream]
          split
          · rename_i hlt
            exact ⟨rfl, rfl, .text _ rfl hwrites hreads hnone hlt hnext⟩
          · have hend : cursor + k = (body r).length := by omega
            refine ⟨rfl, rfl, .printed rfl hwrites hreads ?_⟩
            rw [hend, Nat.sub_self, List.replicate_zero, List.append_nil, List.take_length]
      | starved cursor' hs hwrites hpart hnone hmore =>
          cases htext.symm.trans hs
          rw [List.length_append] at hmore
          by_cases hk0 : k = 0
          · rw [if_pos hk0]
            refine ⟨rfl, rfl, .nothing rfl hnone (.inl ⟨_, ?_, hpart⟩)⟩
            rw [hwrites]
            exact List.mem_singleton_self _
          · rw [if_neg hk0, if_pos (by omega)]
            refine ⟨rfl, rfl, .starved (cursor + k) rfl hwrites hpart hnone ?_⟩
            simp only [List.length_append, List.length_drop]
            omega
      | size hs | nothing hs | printed hs =>
          rw [htext] at hs
          cases hs
    · cases hstep
  · cases hstep

/-! ## Every run ends -/

def readerRank : Reader → ℕ
  | .size => 2
  | .text _ _ _ => 1
  | .ended => 0

/-- The bytes that are left to send, with those of the length. -/
def left (r : Report) : OnError → ℕ
  | .size => (body r).length + 8
  | .text cursor => (body r).length - cursor
  | .closed => 0

/-- The steps that are left, at most. -/
def rank (r : Report) (s : Link) : ℕ :=
  2 * left r s.onError + s.stream.length + readerRank s.reader

theorem rank_sendSize {k : ℕ} {writes : List ℕ} (hr : Inside r) (h : Sends r s writes)
    (hstep : s.sendSize r k = some s') : rank r s' < rank r s := by
  obtain ⟨-, hnil, hserver, hreader, -, hserver', hlength, -⟩ := sendSize_spec hr h hstep
  rw [rank, rank, hreader, hserver, hserver', hnil, left, left, List.length_nil]
  omega

theorem rank_send {k : ℕ} {writes : List ℕ} (hr : Inside r) (h : Sends r s writes)
    (hstep : s.send r k = some s') : rank r s' < rank r s := by
  obtain ⟨hsent, -, cursor, hserver, hpos, hlength⟩ := send_spec hr h hstep
  have hbytes := congrArg List.length hsent.stream
  rw [List.length_append, List.length_append, hserver, unsent, List.length_drop] at hbytes
  have hleft : left r s'.onError = (unsent r s'.onError).length := by
    rw [Link.send, hserver] at hstep
    dsimp only at hstep
    split at hstep
    · cases hstep
      dsimp only
      split
      · rw [left, unsent, List.length_drop]
      · rfl
    · cases hstep
  rw [rank, rank, hsent.reader, hserver, hleft, left]
  omega

theorem rank_readSize {k : ℕ} {found : Bool} (hstep : s.readSize k found = some s') :
    rank r s' < rank r s := by
  rw [Link.readSize] at hstep
  split at hstep
  · rename_i hsize
    split at hstep
    · cases hstep
      simp only [rank, hsize, List.length_drop]
      split <;> simp only [readerRank] <;> omega
    · cases hstep
  · cases hstep

theorem rank_read {k : ℕ} (hstep : s.read k = some s') : rank r s' < rank r s := by
  unfold Link.read at hstep
  dsimp only at hstep
  split at hstep
  · rename_i size buf cursor htext
    split at hstep
    · rename_i hguard
      cases hstep
      split
      · simp only [rank, htext, readerRank, List.length_drop]
        omega
      · split <;> simp only [rank, htext, readerRank, List.length_drop] <;> omega
    · cases hstep
  · cases hstep

/-- Either a byte is there, or one can be sent, or the stream is at its end. -/
theorem step_possible {writes : List ℕ} {reads : List (ℕ × Bool)} (hr : Inside r)
    (hsends : Sends r s writes) (h : Receives r s writes reads) :
    s.reader = .ended ∨ ∃ a, (s.step r a).isSome := by
  by_cases hserver : s.onError = .closed
  · by_cases hstream : s.stream = []
    · have hended : s.ended = true := by simp [Link.ended, hserver, hstream]
      cases h with
      | nothing hs | printed hs => exact .inl hs
      | size hs => exact .inr ⟨.readSize 0 true, by simp [Link.step, Link.readSize, hs, hended]⟩
      | text _ hs | starved _ hs =>
          exact .inr ⟨.read 0, by simp [Link.step, Link.read, hs, hended]⟩
    · have hone : 1 ≤ s.stream.length := List.length_pos_of_ne_nil hstream
      cases h with
      | nothing hs | printed hs => exact .inl hs
      | size hs => exact .inr ⟨.readSize 1 true, by simp [Link.step, Link.readSize, hs, hone]⟩
      | text cursor hs _ _ _ hcursor =>
          have hmore : 1 ≤ (body r).length - cursor := by omega
          exact .inr ⟨.read 1, by simp [Link.step, Link.read, hs, hone, hmore]⟩
      | @starved _ size _ cursor hs _ _ _ hsize =>
          have hmore : 1 ≤ size - cursor := by omega
          exact .inr ⟨.read 1, by simp [Link.step, Link.read, hs, hone, hmore]⟩
  · exact .inr (send_possible hr hsends hserver)

/-! ## Runs -/

structure Inv (r : Report) (s : Link) (tr : List (Input × Unit)) : Prop where
  sends : Sends r s (sizeWrites tr)
  receives : Receives r s (sizeWrites tr) (sizeReads tr)

/-- A step keeps the invariant and brings the end nearer. -/
theorem step_inv (hr : Inside r) (h : Inv r s tr) (hstep : s.step r a = some s') :
    Inv r s' (tr ++ [(a, ())]) ∧ rank r s' < rank r s := by
  have hempty : ∀ k, s.stream = [] → s.stream.drop k = [] := by
    intro k hnil
    rw [hnil, List.drop_nil]
  cases a with
  | sendSize k =>
      obtain ⟨hnil, -⟩ := sendSize_spec hr h.sends hstep
      obtain ⟨hsends, hreceives⟩ := h.receives.of_sendSize hr h.sends hstep
      refine ⟨⟨?_, ?_⟩, rank_sendSize hr h.sends hstep⟩
      · rw [sizeWrites_snoc, hnil]
        exact hsends
      · rw [sizeWrites_snoc, sizeReads_snoc]
        exact (List.append_nil (sizeReads tr)).symm ▸ hreceives
  | send k =>
      obtain ⟨hsent, hsends, -⟩ := send_spec hr h.sends hstep
      refine ⟨⟨?_, ?_⟩, rank_send hr h.sends hstep⟩
      · rw [sizeWrites_snoc]
        exact (List.append_nil (sizeWrites tr)).symm ▸ hsends
      · rw [sizeWrites_snoc, sizeReads_snoc]
        exact (List.append_nil (sizeWrites tr)).symm ▸
          (List.append_nil (sizeReads tr)).symm ▸ h.receives.of_sent hsent
  | readSize k found =>
      obtain ⟨hserver, hstream, hreceives⟩ := readSize_spec hr h.sends h.receives hstep
      have hsends := h.sends.of_read hserver fun hnil => hstream.trans (hempty k hnil)
      refine ⟨⟨?_, ?_⟩, rank_readSize hstep⟩
      · rw [sizeWrites_snoc]
        exact (List.append_nil (sizeWrites tr)).symm ▸ hsends
      · rw [sizeWrites_snoc, sizeReads_snoc]
        exact (List.append_nil (sizeWrites tr)).symm ▸ hreceives
  | read k =>
      obtain ⟨hserver, hstream, hreceives⟩ := read_spec h.receives hstep
      have hsends := h.sends.of_read hserver fun hnil => hstream.trans (hempty k hnil)
      refine ⟨⟨?_, ?_⟩, rank_read hstep⟩
      · rw [sizeWrites_snoc]
        exact (List.append_nil (sizeWrites tr)).symm ▸ hsends
      · rw [sizeWrites_snoc, sizeReads_snoc]
        exact (List.append_nil (sizeWrites tr)).symm ▸
          (List.append_nil (sizeReads tr)).symm ▸ hreceives

def start (r : Report) : Link := ⟨if r.dangling then .size else .closed, [], .size, []⟩

theorem start_inv : Inv r (start r) [] := by
  cases hopen : r.dangling with
  | true =>
      have hserver : (start r).onError = .size := by simp [start, hopen]
      refine ⟨.size hserver rfl hopen, .size rfl rfl rfl ?_⟩
      rw [hserver]
      rfl
  | false =>
      have hserver : (start r).onError = .closed := by simp [start, hopen]
      refine ⟨.none hserver rfl hopen, .size rfl rfl rfl ?_⟩
      rw [hserver]
      rfl

theorem reaches_inv (hr : Inside r) (h : (link r).Reaches tr s) :
    Inv r s tr ∧ tr.length + rank r s ≤ rank r (start r) := by
  induction h with
  | init hs =>
      cases hs
      exact ⟨start_inv, Nat.le_of_eq (Nat.zero_add _)⟩
  | step _ hlast ih =>
      obtain ⟨hinv, hrank⟩ := ih
      obtain ⟨t, ht, hpair⟩ := Option.map_eq_some_iff.mp hlast
      cases hpair
      obtain ⟨hnext, hless⟩ := step_inv hr hinv ht
      refine ⟨hnext, ?_⟩
      rw [List.length_append, List.length_singleton]
      omega

end Upcalls.ErrorLink
