import Upcalls.Verification.PerfStats.Lines

/-! # What reaches the stats file

The bytes on the connection are a frame, and the file gets what comes out of it behind the
bytes that the read of the length has returned.
-/

namespace Upcalls.PerfStats

open Library

variable {threads : List Thread} {s s' : Stats} {a : Input} {tr : List (Input × Unit)}

/-- The header followed by the lines. -/
def statsText (threads : List Thread) : List UInt8 := (texts threads).flatten

/-- The counts of the reads of the length. -/
def sizeReads (tr : List (Input × Unit)) : List ℕ :=
  tr.filterMap fun x =>
    match x.1 with
    | .readSize k => some k
    | _ => none

/-! ## `on_stats` sends a frame -/

def sent (threads : List Thread) : List UInt8 := frame 8 (statsText threads)

/-- What is still to be sent. -/
def unsent (threads : List Thread) : OnStats → List UInt8
  | .size => sent threads
  | .text text cursor rest => text.drop cursor ++ rest.flatten
  | .shutdown => []

/-- No text is left out or empty. -/
def Sends : OnStats → Prop
  | .text text cursor rest => cursor < text.length ∧ ∀ t ∈ rest, t ≠ []
  | _ => True

theorem header_eq_cons : header = 67 :: header.tail := by rfl

theorem statsText_eq_cons (threads : List Thread) :
    statsText threads = 67 :: (header.tail ++ (writePerfStats threads).flatten) := by
  rw [statsText, texts, List.flatten_cons, header_eq_cons]
  rfl

/-- A step of `on_stats` moves bytes from what is unsent to the stream. -/
structure Sent (threads : List Thread) (s s' : Stats) : Prop where
  main : s'.main = s.main
  file : s'.file = s.file
  sends : Sends s'.onStats
  stream : s'.stream ++ unsent threads s'.onStats = s.stream ++ unsent threads s.onStats
  more : s.stream.length < s'.stream.length

theorem sendSize_spec (h : s.sendSize threads = some s') : Sent threads s s' := by
  rw [Stats.sendSize] at h
  split at h
  · rename_i hsize
    cases h
    have hheader : 0 < header.length := by
      rw [header_eq_cons]
      exact Nat.succ_pos _
    refine ⟨rfl, rfl, ⟨hheader, perfLines_ne_nil _ threads⟩, ?_, ?_⟩
    · have htext : header ++ (writePerfStats threads).flatten = statsText threads := rfl
      have hlength : (statsText threads).length = ((texts threads).map List.length).sum :=
        List.length_flatten
      simp only [unsent, hsize, sent, frame, List.drop_zero, List.append_assoc, htext, hlength]
    · simp
  · cases h

theorem send_spec {k : ℕ} (hsends : Sends s.onStats) (h : s.send k = some s') :
    Sent threads s s' := by
  rw [Stats.send] at h
  split at h
  · rename_i text cursor rest htext
    rw [htext] at hsends
    split at h
    · rename_i hk
      cases h
      have hmore : 0 < ((text.drop cursor).take k).length := by
        rw [List.length_take, List.length_drop]
        omega
      have hstream : (text.drop cursor).take k ++ text.drop (cursor + k) = text.drop cursor := by
        rw [← List.drop_drop, List.take_append_drop]
      split
      · rename_i hlt
        refine ⟨rfl, rfl, ⟨hlt, hsends.2⟩, ?_, by simpa using hmore⟩
        rw [htext]
        simp only [unsent]
        rw [List.append_assoc, ← List.append_assoc _ _ rest.flatten, hstream]
      · have hend : text.drop (cursor + k) = [] := List.drop_of_length_le (by omega)
        rw [hend, List.append_nil] at hstream
        rw [hstream] at hmore ⊢
        cases rest with
        | nil =>
            refine ⟨rfl, rfl, trivial, ?_, by simpa using hmore⟩
            simp only [unsent, htext, List.flatten_nil, List.append_nil]
        | cons next rest =>
            have hnext : 0 < next.length :=
              List.length_pos_of_ne_nil (hsends.2 next List.mem_cons_self)
            refine ⟨rfl, rfl, ⟨hnext, ?_⟩, ?_, by simpa using hmore⟩
            · intro t ht
              exact hsends.2 t (List.mem_cons_of_mem _ ht)
            · simp only [unsent, htext, List.flatten_cons, List.drop_zero, List.append_assoc]
    · cases h
  · cases h

/-- `on_stats` can go on until everything is sent. -/
theorem send_possible (hsends : Sends s.onStats) (hmore : unsent threads s.onStats ≠ []) :
    ∃ a, (s.step threads a).isSome := by
  cases hserver : s.onStats with
  | size => exact ⟨.sendSize, by simp [Stats.step, Stats.sendSize, hserver]⟩
  | text text cursor rest =>
      rw [hserver] at hsends
      have hcursor : cursor + 1 ≤ text.length := hsends.1
      exact ⟨.send 1, by simp [Stats.step, Stats.send, hserver, hcursor]⟩
  | shutdown =>
      rw [hserver] at hmore
      exact (hmore rfl).elim

/-! ## `main` unframes it -/

/-- `perf_sz` behind a read of `k` bytes. -/
def perfSz (threads : List Thread) (k : ℕ) : ℕ := ofLittleEndian ((sent threads).take k)

theorem perfSz_le {k : ℕ} (hk : k ≤ 8) : perfSz threads k ≤ ((sent threads).drop k).length :=
  ofLittleEndian_take_frame_le hk

theorem length_unframe_sent {k : ℕ} (hk : k ≤ 8) :
    (unframe k (sent threads)).length = perfSz threads k := by
  rw [unframe, List.length_take]
  exact Nat.min_eq_left (perfSz_le hk)

/-- Where `main` is, with the read of the length and the bytes that are ahead of it. -/
inductive Receives (threads : List Thread) (s : Stats) (reads : List ℕ) : Prop
  | size : s.main = .size → reads = [] → s.file = [] →
      s.stream ++ unsent threads s.onStats = sent threads → Receives threads s reads
  | read {k index : ℕ} :
      s.main = .read (perfSz threads k) (((sent threads).drop k).take index ++
        List.replicate (perfSz threads k - index) 0) index →
      reads = [k] → k ≤ 8 → s.file = [] → index ≤ perfSz threads k →
      s.stream ++ unsent threads s.onStats = ((sent threads).drop k).drop index →
      Receives threads s reads
  | write {k index : ℕ} : s.main = .write (perfSz threads k) (unframe k (sent threads)) index →
      reads = [k] → k ≤ 8 → s.file = (unframe k (sent threads)).take index →
      index ≤ perfSz threads k → perfSz threads k < 2 ^ 31 → Receives threads s reads
  | closed {k : ℕ} : s.main = .closed → reads = [k] → k ≤ 8 →
      s.file = unframe k (sent threads) → perfSz threads k < 2 ^ 31 → Receives threads s reads
  | overflow {k : ℕ} : s.main = .overflow → reads = [k] → k ≤ 8 →
      2 ^ 31 ≤ perfSz threads k → Receives threads s reads

theorem Receives.of_sent {reads : List ℕ} (h : Receives threads s reads)
    (hsent : Sent threads s s') : Receives threads s' reads := by
  obtain ⟨hmain, hfile, -, hstream, -⟩ := hsent
  cases h with
  | size hs hreads hnone hahead =>
      exact .size (hmain.trans hs) hreads (hfile.trans hnone) (hstream.trans hahead)
  | read hs hreads hk hnone hindex hahead =>
      exact .read (hmain.trans hs) hreads hk (hfile.trans hnone) hindex (hstream.trans hahead)
  | write hs hreads hk hsome hindex hlt =>
      exact .write (hmain.trans hs) hreads hk (hfile.trans hsome) hindex hlt
  | closed hs hreads hk hall hlt =>
      exact .closed (hmain.trans hs) hreads hk (hfile.trans hall) hlt
  | overflow hs hreads hk hle => exact .overflow (hmain.trans hs) hreads hk hle

theorem readSize_spec {k : ℕ} {reads : List ℕ} (h : Receives threads s reads)
    (hstep : s.readSize k = some s') :
    s'.onStats = s.onStats ∧ Receives threads s' (reads ++ [k]) := by
  rw [Stats.readSize] at hstep
  split at hstep
  · rename_i hmain
    split at hstep
    · rename_i hk
      cases hstep
      cases h with
      | size _ hreads hnone hahead =>
          have htake : s.stream.take k = (sent threads).take k := by
            rw [← hahead, List.take_append_of_le_length hk.2.2]
          refine ⟨rfl, .read ?_ ?_ hk.2.1 hnone (Nat.zero_le _) ?_⟩
          · simp only [htake, perfSz, List.take_zero, List.nil_append, Nat.sub_zero]
          · rw [hreads, List.nil_append]
          · rw [List.drop_zero, ← hahead, List.drop_append_of_le_length hk.2.2]
      | read hs | write hs | closed hs | overflow hs =>
          rw [hmain] at hs
          cases hs
    · cases hstep
  · cases hstep

/-- The buffer behind a read of `k` bytes. -/
theorem fill_buffer (size : ℕ) {got stream rest : List UInt8} {index k : ℕ}
    (hahead : stream ++ rest = got.drop index) (hk : k ≤ stream.length)
    (hindex : index ≤ got.length) :
    (got.take index ++ List.replicate (size - index) 0).take index ++ stream.take k ++
      (got.take index ++ List.replicate (size - index) 0).drop (index + k) =
      got.take (index + k) ++ List.replicate (size - (index + k)) 0 := by
  have hlength : (got.take index).length = index := by
    rw [List.length_take, Nat.min_eq_left hindex]
  have hfront : (got.take index ++ List.replicate (size - index) (0 : UInt8)).take index =
      got.take index := List.take_left' hlength
  have hpiece : stream.take k = (got.drop index).take k := by
    rw [← hahead, List.take_append_of_le_length hk]
  have hback : (got.take index ++ List.replicate (size - index) (0 : UInt8)).drop (index + k) =
      List.replicate (size - (index + k)) 0 := by
    rw [← List.drop_drop, List.drop_left' hlength, List.drop_replicate, Nat.sub_sub]
  rw [hfront, hpiece, hback, List.take_add]

theorem unsent_of_ended (h : s.ended = true) : s.stream ++ unsent threads s.onStats = [] := by
  rw [Stats.ended] at h
  split at h
  · rename_i hserver
    rw [hserver, List.isEmpty_iff.mp h]
    rfl
  · cases h

/-- `main` stops reading when it has all that it wants. -/
theorem read_ends {first index k : ℕ} (hfirst : first ≤ 8)
    (hahead : s.stream ++ unsent threads s.onStats = ((sent threads).drop first).drop index)
    (hindex : index ≤ perfSz threads first) (hk : k ≤ perfSz threads first - index)
    (hzero : k = 0 → perfSz threads first - index = 0 ∨ s.ended = true)
    (hstop : ¬ (0 < k ∧ index + k < perfSz threads first)) :
    index + k = perfSz threads first := by
  by_cases hpos : 0 < k
  · have hge : ¬ index + k < perfSz threads first := fun hlt => hstop ⟨hpos, hlt⟩
    omega
  · rcases hzero (by omega) with hnone | hended
    · omega
    · rw [unsent_of_ended hended] at hahead
      have hlength := congrArg List.length hahead
      have hle : perfSz threads first ≤ ((sent threads).drop first).length := perfSz_le hfirst
      simp only [List.length_nil, List.length_drop] at hlength hle
      omega

theorem read_spec {k : ℕ} {reads : List ℕ} (h : Receives threads s reads)
    (hstep : s.read k = some s') : s'.onStats = s.onStats ∧ Receives threads s' reads := by
  rw [Stats.read] at hstep
  split at hstep
  · rename_i size buf index hmain
    split at hstep
    · rename_i hguard
      obtain ⟨hk, hstream, hmax, hzero⟩ := hguard
      cases hstep
      cases h with
      | @read first index' hs hreads hfirst hnone hindex hahead =>
          cases hmain.symm.trans hs
          refine ⟨rfl, ?_⟩
          have hroom := hindex.trans (perfSz_le hfirst)
          rw [fill_buffer (perfSz threads first) hahead hstream hroom]
          have hnext : s.stream.drop k ++ unsent threads s.onStats =
              ((sent threads).drop first).drop (index + k) := by
            rw [← List.drop_drop, ← hahead, List.drop_append_of_le_length hstream]
          by_cases hover : 2 ^ 31 ≤ index + k
          · exact .overflow (if_pos hover) hreads hfirst (by omega)
          · by_cases hmore : 0 < k ∧ index + k < perfSz threads first
            · refine .read ?_ hreads hfirst hnone (Nat.le_of_lt hmore.2) hnext
              simp only [if_neg hover, if_pos hmore]
            · have hend := read_ends hfirst hahead hindex hk hzero hmore
              refine .write ?_ hreads hfirst (hnone.trans List.take_zero.symm) (Nat.zero_le _) (by omega)
              simp only [if_neg hover, if_neg hmore]
              rw [hend, Nat.sub_self, List.replicate_zero, List.append_nil]
              rfl
      | size hs | write hs | closed hs | overflow hs =>
          rw [hmain] at hs
          cases hs
    · cases hstep
  · cases hstep

theorem write_spec {k : ℕ} {reads : List ℕ} (h : Receives threads s reads)
    (hstep : s.write k = some s') : s'.onStats = s.onStats ∧ Receives threads s' reads := by
  rw [Stats.write] at hstep
  split at hstep
  · rename_i size buf index hmain
    split at hstep
    · rename_i hguard
      obtain ⟨hk, hmax, hzero⟩ := hguard
      cases hstep
      cases h with
      | @write first index' hs hreads hfirst hfile hindex hlt =>
          cases hmain.symm.trans hs
          refine ⟨rfl, ?_⟩
          have hover : ¬ 2 ^ 31 ≤ index + k := by omega
          have hnext : s.file ++ ((unframe first (sent threads)).drop index).take k =
              (unframe first (sent threads)).take (index + k) := by
            rw [hfile, List.take_add]
          by_cases hmore : 0 < k ∧ index + k < perfSz threads first
          · refine .write ?_ hreads hfirst hnext (Nat.le_of_lt hmore.2) hlt
            simp only [if_neg hover, if_pos hmore]
          · refine .closed ?_ hreads hfirst (hnext.trans ?_) hlt
            · simp only [if_neg hover, if_neg hmore]
            · apply List.take_of_length_le
              rw [length_unframe_sent hfirst]
              omega
      | size hs | read hs | closed hs | overflow hs =>
          rw [hmain] at hs
          cases hs
    · cases hstep
  · cases hstep

/-! ## Every run ends -/

def Ended (s : Stats) : Prop := s.main = .closed ∨ s.main = .overflow

def mainRank (threads : List Thread) : Main → ℕ
  | .size => (sent threads).length + 3
  | .read _ _ _ => (sent threads).length + 2
  | .write perfSz _ index => perfSz - index + 1
  | _ => 0

/-- The steps that are left, at most. -/
def rank (threads : List Thread) (s : Stats) : ℕ :=
  2 * (unsent threads s.onStats).length + s.stream.length + mainRank threads s.main

theorem rank_sent (h : Sent threads s s') : rank threads s' < rank threads s := by
  have hstream := congrArg List.length h.stream
  have hmore := h.more
  rw [List.length_append, List.length_append] at hstream
  rw [rank, rank, h.main]
  omega

theorem rank_readSize {k : ℕ} (hstep : s.readSize k = some s') :
    rank threads s' < rank threads s := by
  rw [Stats.readSize] at hstep
  split at hstep
  · rename_i hmain
    split at hstep
    · rename_i hk
      cases hstep
      simp only [rank, hmain, mainRank, List.length_drop]
      omega
    · cases hstep
  · cases hstep

theorem perfSz_le_length {k : ℕ} (hk : k ≤ 8) : perfSz threads k ≤ (sent threads).length := by
  have hle : perfSz threads k ≤ ((sent threads).drop k).length := perfSz_le hk
  rw [List.length_drop] at hle
  omega

theorem rank_read {k : ℕ} {reads : List ℕ} (h : Receives threads s reads)
    (hstep : s.read k = some s') : rank threads s' < rank threads s := by
  rw [Stats.read] at hstep
  split at hstep
  · rename_i size buf index hmain
    split at hstep
    · rename_i hguard
      obtain ⟨hk, hstream, hmax, hzero⟩ := hguard
      cases hstep
      cases h with
      | @read first _ hs _ hfirst =>
          cases hmain.symm.trans hs
          have hle : perfSz threads first ≤ (sent threads).length := perfSz_le_length hfirst
          simp only [rank, hmain, List.length_drop]
          split
          · simp only [mainRank]
            omega
          · split
            · rename_i hmore
              simp only [mainRank]
              omega
            · simp only [mainRank]
              omega
      | size hs | write hs | closed hs | overflow hs =>
          rw [hmain] at hs
          cases hs
    · cases hstep
  · cases hstep

theorem rank_write {k : ℕ} (hstep : s.write k = some s') :
    rank threads s' < rank threads s := by
  rw [Stats.write] at hstep
  split at hstep
  · rename_i size buf index hmain
    split at hstep
    · rename_i hguard
      cases hstep
      simp only [rank, hmain]
      split
      · simp only [mainRank]
        omega
      · split
        · rename_i hmore
          simp only [mainRank]
          omega
        · simp only [mainRank]
          omega
    · cases hstep
  · cases hstep

theorem step_possible {reads : List ℕ} (hsends : Sends s.onStats)
    (h : Receives threads s reads) : Ended s ∨ ∃ a, (s.step threads a).isSome := by
  have hone : 1 ≤ Session.MAX_RW_COUNT := by decide
  cases h with
  | closed hs => exact .inl (.inl hs)
  | overflow hs => exact .inl (.inr hs)
  | size hs _ _ hahead =>
      right
      by_cases hstream : s.stream = []
      · apply send_possible hsends
        rw [hstream, List.nil_append] at hahead
        rw [hahead]
        exact List.append_ne_nil_of_left_ne_nil (by simp [littleEndian]) _
      · have hlength : 1 ≤ s.stream.length := List.length_pos_of_ne_nil hstream
        exact ⟨.readSize 1, by simp [Stats.step, Stats.readSize, hs, hlength]⟩
  | @read first index hs _ hfirst _ _ hahead =>
      right
      by_cases hall : perfSz threads first - index = 0
      · exact ⟨.read 0, by simp [Stats.step, Stats.read, hs, hall]⟩
      · have hmore : 1 ≤ perfSz threads first - index := by omega
        by_cases hstream : s.stream = []
        · apply send_possible hsends
          rw [hstream, List.nil_append] at hahead
          rw [hahead]
          apply List.ne_nil_of_length_pos
          have hle : perfSz threads first ≤ ((sent threads).drop first).length := perfSz_le hfirst
          rw [List.length_drop]
          omega
        · have hlength : 1 ≤ s.stream.length := List.length_pos_of_ne_nil hstream
          exact ⟨.read 1, by simp [Stats.step, Stats.read, hs, hmore, hlength, hone]⟩
  | @write first index hs =>
      right
      by_cases hall : perfSz threads first - index = 0
      · exact ⟨.write 0, by simp [Stats.step, Stats.write, hs, hall]⟩
      · have hmore : 1 ≤ perfSz threads first - index := by omega
        exact ⟨.write 1, by simp [Stats.step, Stats.write, hs, hmore, hone]⟩

/-! ## Runs -/

structure Inv (threads : List Thread) (s : Stats) (tr : List (Input × Unit)) : Prop where
  sends : Sends s.onStats
  receives : Receives threads s (sizeReads tr)

theorem sizeReads_snoc (tr : List (Input × Unit)) (x : Input × Unit) :
    sizeReads (tr ++ [x]) = sizeReads tr ++ sizeReads [x] := List.filterMap_append

/-- A step keeps the invariant and brings the end nearer. -/
theorem step_inv (h : Inv threads s tr) (hstep : s.step threads a = some s') :
    Inv threads s' (tr ++ [(a, ())]) ∧ rank threads s' < rank threads s := by
  cases a with
  | sendSize =>
      have hsent := sendSize_spec hstep
      refine ⟨⟨hsent.sends, ?_⟩, rank_sent hsent⟩
      rw [sizeReads_snoc]
      exact (List.append_nil (sizeReads tr)).symm ▸ h.receives.of_sent hsent
  | send k =>
      have hsent : Sent threads s s' := send_spec h.sends hstep
      refine ⟨⟨hsent.sends, ?_⟩, rank_sent hsent⟩
      rw [sizeReads_snoc]
      exact (List.append_nil (sizeReads tr)).symm ▸ h.receives.of_sent hsent
  | readSize k =>
      obtain ⟨hserver, hreceives⟩ := readSize_spec h.receives hstep
      refine ⟨⟨hserver.symm ▸ h.sends, ?_⟩, rank_readSize hstep⟩
      rw [sizeReads_snoc]
      exact hreceives
  | read k =>
      obtain ⟨hserver, hreceives⟩ := read_spec h.receives hstep
      refine ⟨⟨hserver.symm ▸ h.sends, ?_⟩, rank_read h.receives hstep⟩
      rw [sizeReads_snoc]
      exact (List.append_nil (sizeReads tr)).symm ▸ hreceives
  | write k =>
      obtain ⟨hserver, hreceives⟩ := write_spec h.receives hstep
      refine ⟨⟨hserver.symm ▸ h.sends, ?_⟩, rank_write hstep⟩
      rw [sizeReads_snoc]
      exact (List.append_nil (sizeReads tr)).symm ▸ hreceives

def start : Stats := ⟨.size, [], .size, []⟩

theorem start_inv : Inv threads start [] := ⟨trivial, .size rfl rfl rfl rfl⟩

theorem reaches_inv (h : (statsConnection threads).Reaches tr s) :
    Inv threads s tr ∧ tr.length + rank threads s ≤ rank threads start := by
  induction h with
  | init hs =>
      cases hs
      exact ⟨start_inv, Nat.le_of_eq (Nat.zero_add _)⟩
  | step _ hlast ih =>
      obtain ⟨hinv, hrank⟩ := ih
      obtain ⟨t, ht, hpair⟩ := Option.map_eq_some_iff.mp hlast
      cases hpair
      obtain ⟨hnext, hless⟩ := step_inv hinv ht
      refine ⟨hnext, ?_⟩
      rw [List.length_append, List.length_singleton]
      omega

/-! ## The stats file -/

/-- The file is right in the end, if the length came in one piece and the text is not too
long for an `int`. -/
theorem Receives.file_iff {reads : List ℕ} (h : Receives threads s reads) (hend : Ended s) :
    (s.main = .closed ∧ s.file = statsText threads) ↔
      reads = [8] ∧ (statsText threads).length < 2 ^ 31 := by
  cases h with
  | size hs | read hs | write hs =>
      rcases hend with hmain | hmain <;> cases hs.symm.trans hmain
  | @closed k hs hreads hk hfile hlt =>
      constructor
      · rintro ⟨-, hright⟩
        rw [hfile] at hright
        have hlength : (unframe k (sent threads)).length = perfSz threads k :=
          length_unframe_sent hk
        rw [hright] at hlength
        refine ⟨?_, by omega⟩
        by_cases hlast : k = 8
        · rw [hreads, hlast]
        · have hshort : k < 8 := by omega
          exact (unframe_frame_ne hshort (statsText_eq_cons threads) (by decide) hright).elim
      · rintro ⟨height, hshort⟩
        cases hreads.symm.trans height
        exact ⟨hs, hfile.trans (unframe_frame (by omega))⟩
  | @overflow k hs hreads hk hle =>
      constructor
      · rintro ⟨hmain, -⟩
        cases hs.symm.trans hmain
      · rintro ⟨height, hshort⟩
        cases hreads.symm.trans height
        have hmod : perfSz threads 8 = (statsText threads).length % 256 ^ 8 :=
          ofLittleEndian_take_frame (Nat.le_refl 8)
        have hless := Nat.mod_le (statsText threads).length (256 ^ 8)
        omega

/-- The connection never hangs and every run is finite, and the client writes the header and
the lines in exactly those that read the length in one piece. -/
theorem statsFile_iff (threads : List Thread) :
    (∃ most, ∀ tr s, (statsConnection threads).Reaches tr s → tr.length ≤ most) ∧
    ∀ tr s, (statsConnection threads).Reaches tr s →
      (Ended s ∨ ∃ a, ((statsConnection threads).step s a).isSome) ∧
      (Ended s → ((s.main = .closed ∧ s.file = statsText threads) ↔
        sizeReads tr = [8] ∧ (statsText threads).length < 2 ^ 31)) := by
  refine ⟨⟨rank threads start, ?_⟩, ?_⟩
  · intro tr s hreach
    have hbound := (reaches_inv hreach).2
    omega
  · intro tr s hreach
    obtain ⟨hinv, -⟩ := reaches_inv hreach
    refine ⟨?_, hinv.receives.file_iff⟩
    rcases step_possible hinv.sends hinv.receives with hend | ⟨a, ha⟩
    · exact .inl hend
    · exact .inr ⟨a, by simpa [statsConnection] using ha⟩

/-- One worker that has not counted anything. -/
def idleThread : Thread := ⟨0, fun _ => 0, [], 0, 0⟩

/-- Short writes of the header and of the line, short reads and a short write of the file. -/
def pieces : List Input :=
  [.sendSize, .readSize 8, .send 90, .read 40, .send 3, .send 6, .read 50, .send 10, .read 19,
    .write 100, .write 9]

theorem pieces_runs : (statsConnection [idleThread]).exec start pieces =
    some (⟨.shutdown, [], .closed, statsText [idleThread]⟩, pieces.map (·, ())) := by rfl

theorem statsFile_iff_pieces :
    ∃ tr s, (statsConnection [idleThread]).Reaches tr s ∧ s.main = .closed ∧
      s.file = statsText [idleThread] := by
  have hreach := Machine.reaches_of_exec (by exact rfl) pieces_runs
  have hiff := ((statsFile_iff [idleThread]).2 _ _ hreach).2 (.inl rfl)
  obtain ⟨hclosed, hfile⟩ := hiff.mpr ⟨rfl, by decide⟩
  exact ⟨_, _, hreach, hclosed, hfile⟩

/-- The first read returns one byte of the length. -/
def shortRead : List Input :=
  [.sendSize, .readSize 1, .send 93, .send 16, .read 100, .read 9, .write 100, .write 9]

set_option maxRecDepth 2000 in
theorem shortRead_runs : (statsConnection [idleThread]).exec start shortRead =
    some (⟨.shutdown, (sent [idleThread]).drop 110, .closed, unframe 1 (sent [idleThread])⟩,
      shortRead.map (·, ())) := by rfl

/-- The rest of the length comes first in the file. -/
theorem not_statsFile :
    ¬ ∀ (threads : List Thread) (tr : List (Input × Unit)) (s : Stats),
      (statsConnection threads).Reaches tr s → Ended s →
        s.main = .closed ∧ s.file = statsText threads := by
  intro h
  have hreach := Machine.reaches_of_exec (by exact rfl) shortRead_runs
  obtain ⟨-, hfile⟩ := h [idleThread] _ _ hreach (.inl rfl)
  exact unframe_frame_ne (by decide) (statsText_eq_cons [idleThread]) (by decide) hfile

end Upcalls.PerfStats
