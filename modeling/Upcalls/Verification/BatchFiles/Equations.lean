import Upcalls.Model.BatchFiles
import Upcalls.Verification.BatchStats.Equations

/-! # What one step does to the files -/

namespace Upcalls.BatchFiles

open Library BatchStats

theorem filterMap_snoc {α β : Type*} (f : α → Option β) (xs : List α) (x : α) :
    (xs ++ [x]).filterMap f = xs.filterMap f ++ (f x).toList := by
  rw [List.filterMap_append, List.filterMap_cons]
  cases f x <;> rfl

/-! ## The text of a poll -/

/-- The string that a poll reads. -/
def pollText (bytes : List UInt8) : List UInt8 := cString (bytes.take (cmdSize - 1))

/-- `cmd` holds the text and its end, whatever stands behind them. -/
theorem cString_cmd (bytes junk : List UInt8) :
    cString (bytes.take (cmdSize - 1) ++ 0 :: junk) = pollText bytes := cString_append_zero _ _

theorem cString_last (bytes junk : List UInt8) :
    cString ((bytes.take (cmdSize - 1) ++ 0 :: junk).take cmdSize) = pollText bytes := by
  have hlen : (bytes.take (cmdSize - 1)).length < cmdSize := by
    rw [List.length_take, cmdSize]
    omega
  obtain ⟨k, hk⟩ : ∃ k, cmdSize - (bytes.take (cmdSize - 1)).length = k + 1 :=
    ⟨_, (Nat.succ_pred_eq_of_pos (Nat.sub_pos_of_lt hlen)).symm⟩
  rw [List.take_append, List.take_of_length_le (Nat.le_of_lt hlen), hk, List.take_succ_cons,
    cString_append_zero, pollText]

theorem strncmp_iff {s word : List UInt8} (hword : 0 ∉ word) :
    strncmp s word = true ↔ word <+: cString s := by
  rw [strncmp, List.isPrefixOf_iff_prefix, prefix_cString_iff hword]

/-! ## Steps -/

namespace Files

variable {n : ℕ} {L : Layout}

/-- The steps that each input allows. A poll is told by the text that it reads, not by what the
arrays hold behind it. -/
inductive Stepped (L : Layout) (s : Files n) : Input n → Files n → Output → Prop
  | worked {a process out} : ofWorker a = true → s.process.step L a = some (process, out) →
      Stepped L s (.worker a) { s with process := process } (.stats out)
  | woken {tms} : s.process.shared.monitor = .sleep →
      Stepped L s (.monitor tms) { s.goTo (Process.row n L 0) with tms := tms } (.woken tms)
  | monitored {tms process out} : s.process.shared.monitor ≠ .sleep →
      s.process.monitor L = some (process, out) →
      Stepped L s (.monitor tms) { s with
        process := process
        csv := s.csv ++ printed L s.tms s.process.shared } (.stats out)
  | unchanged {file junk opened} : s.process.shared.monitor = .poll →
      (∀ bytes, file = some bytes → pollText bytes = cString s.last) →
      Stepped L s (.poll file junk opened) (s.goTo .sleep) .unchanged
  | reset {bytes junk opened last} : s.process.shared.monitor = .poll →
      pollText bytes ≠ cString s.last → cString last = pollText bytes →
      ascii "reset" <+: pollText bytes →
      Stepped L s (.poll (some bytes) junk opened) ({ s with last := last }.goTo (.zero 0))
        (.reset (pollText bytes))
  | dumped {bytes junk last path} : s.process.shared.monitor = .poll →
      pollText bytes ≠ cString s.last → cString last = pollText bytes →
      ascii "dump " <+: pollText bytes → scanPath ((pollText bytes).drop 5) = some path →
      Stepped L s (.poll (some bytes) junk true) ({ s with
          last := last
          dumps := s.dumps ++ [(path, dumpFile n s.process.shared.stats L)] }.goTo .sleep)
        (.dumped (pollText bytes) path (dump n s.process.shared.stats L))
  | other {bytes junk opened last} : s.process.shared.monitor = .poll →
      pollText bytes ≠ cString s.last → cString last = pollText bytes →
      ¬ ascii "reset" <+: pollText bytes →
      Stepped L s (.poll (some bytes) junk opened) ({ s with last := last }.goTo .sleep)
        (.other (pollText bytes))

theorem worker_spec {s s' : Files n} {a : BatchStats.Input n} {o : Output}
    (h : s.worker L a = some (s', o)) : Stepped L s (.worker a) s' o := by
  rw [worker] at h
  split at h
  · rename_i hworker
    obtain ⟨⟨process, out⟩, hstep, hpair⟩ := Option.map_eq_some_iff.mp h
    cases hpair
    exact .worked hworker hstep
  · cases h

theorem batchMonitor_spec {s s' : Files n} {tms : ℤ} {o : Output}
    (h : s.batchMonitor L tms = some (s', o)) : Stepped L s (.monitor tms) s' o := by
  obtain ⟨⟨process, out⟩, hstep, hpair⟩ := Option.map_eq_some_iff.mp h
  dsimp only at hpair
  split at hpair
  · rename_i hsleep
    cases hpair
    rw [Process.monitor, hsleep] at hstep
    cases hstep
    exact .woken hsleep
  · rename_i hsleep
    cases hpair
    exact .monitored (fun heq => hsleep heq) hstep

theorem not_mem_reset : (0 : UInt8) ∉ ascii "reset" := by decide

theorem not_mem_dump : (0 : UInt8) ∉ ascii "dump " := by decide

theorem batchCtlPoll_spec {s s' : Files n} {file : Option (List UInt8)} {junk : List UInt8}
    {opened : Bool} {o : Output} (h : s.batchCtlPoll L file junk opened = some (s', o)) :
    Stepped L s (.poll file junk opened) s' o := by
  unfold batchCtlPoll at h
  dsimp only at h
  split at h
  · rename_i hpc
    cases h
    refine .unchanged hpc ?_
    intro bytes hfile
    cases hfile
  · rename_i bytes hpc
    simp only [cString_cmd] at h
    have hreset := strncmp_iff (s := bytes.take (cmdSize - 1) ++ 0 :: junk) not_mem_reset
    have hdump := strncmp_iff (s := bytes.take (cmdSize - 1) ++ 0 :: junk) not_mem_dump
    rw [cString_cmd] at hreset hdump
    have hlast := cString_last bytes junk
    split at h
    · rename_i hsame
      cases h
      refine .unchanged hpc ?_
      intro bytes hfile
      cases hfile
      exact hsame
    · rename_i hnew
      split at h
      · rename_i hword
        cases h
        exact .reset hpc hnew hlast (hreset.mp hword)
      · rename_i hword
        have hother := mt hreset.mpr hword
        split at h
        · rename_i hword
          have hprefix := hdump.mp hword
          have hlen : (ascii "dump ").length = 5 := rfl
          have hpath := cString_drop (s := bytes.take (cmdSize - 1) ++ 0 :: junk)
            (by rwa [cString_cmd] : ascii "dump " <+: _)
          rw [cString_cmd, hlen] at hpath
          split at h
          · cases h
            exact .other hpc hnew hlast hother
          · rename_i path hscan
            split at h
            · rename_i hopened
              cases h
              subst hopened
              exact .dumped hpc hnew hlast hprefix (hpath ▸ hscan)
            · cases h
              exact .other hpc hnew hlast hother
        · cases h
          exact .other hpc hnew hlast hother
  · cases h

theorem step_spec {s s' : Files n} {a : Input n} {o : Output}
    (h : s.step L a = some (s', o)) : Stepped L s a s' o := by
  cases a with
  | worker a => exact worker_spec h
  | monitor tms => exact batchMonitor_spec h
  | poll file junk opened => exact batchCtlPoll_spec h

end Files

end Upcalls.BatchFiles
