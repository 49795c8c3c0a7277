import Upcalls.Library.Polling
import Upcalls.Library.Tables
import Upcalls.Verification.BatchFiles.Csv

/-! # The commands in the control file

A text is acted on when it is not the one of the last poll, the dumps that are written can be
read back, and the counters do not see more of it all than the commands.
-/

namespace Upcalls.BatchFiles

open Library BatchStats

variable {n batchSz : ℕ} {L : Layout}

/-! ## Reading a dump -/

/-- The title of a section, and the label and count of each line. -/
abbrev Part := List UInt8 × List (ℕ × ℕ)

def isTitle : List (List UInt8) → Bool
  | (61 :: _) :: _ => true
  | _ => false

def readLine : List (List UInt8) → Option (ℕ × ℕ)
  | [label, count] =>
      match ofDecimal label, ofDecimal count with
      | some label, some count => some (label, count)
      | _, _ => none
  | _ => none

def readPart (part : List (List UInt8) × List (List (List UInt8))) : Option Part :=
  (part.2.mapM readLine).map fun lines => ([space].intercalate part.1, lines)

def readDump (text : List UInt8) : Option (List Part) :=
  (sections isTitle (readTable space newline text)).mapM readPart

/-! ## Writing a dump -/

def partOf (sec : Section) : Part := (ascii sec.header, sec.lines)

def titleFields (title : String) : List (List UInt8) := (ascii title).splitOn space

def lineFields (line : ℕ × ℕ) : List (List UInt8) := [decimal line.1, decimal line.2]

/-- The rows of a section, its title first. -/
def rowsOf (sec : Section) : List (List UInt8) × List (List (List UInt8)) :=
  (titleFields sec.header, sec.lines.map lineFields)

/-- A title that can be told from the lines. -/
structure Title (title : String) : Prop where
  readable : Readable space newline (titleFields title)
  isTitle : isTitle (titleFields title) = true

theorem newline_ne_space : newline ≠ space := by decide

theorem title_dump {stats : ℕ → ℕ} : ∀ sec ∈ dump n stats L, Title sec.header := by
  have hutime : Title "=utime upper_ns count" := ⟨⟨by decide, by decide⟩, by decide⟩
  have hktime : Title "=ktime upper_ns count" := ⟨⟨by decide, by decide⟩, by decide⟩
  have hbatch : Title "=batch size count" := ⟨⟨by decide, by decide⟩, by decide⟩
  intro sec hsec
  simp only [dump, List.mem_cons, List.not_mem_nil, or_false] at hsec
  rcases hsec with rfl | rfl | rfl
  · exact hutime
  · exact hktime
  · exact hbatch

theorem writeRow_titleFields (title : String) :
    writeRow space newline (titleFields title) = ascii title ++ ascii "\n" := by
  rw [writeRow, titleFields, List.intercalate_splitOn]
  rfl

theorem lineFields_readable (line : ℕ × ℕ) : Readable space newline (lineFields line) := by
  have hfield : ∀ k, space ∉ decimal k ∧ newline ∉ decimal k :=
    fun k => ⟨not_mem_decimal rfl, not_mem_decimal rfl⟩
  refine ⟨List.cons_ne_nil _ _, ?_⟩
  intro field hmem
  simp only [lineFields, List.mem_cons, List.not_mem_nil, or_false] at hmem
  rcases hmem with rfl | rfl <;> exact hfield _

theorem isTitle_lineFields (line : ℕ × ℕ) : isTitle (lineFields line) = false := by
  have hminus : (61 : UInt8) ∉ decimal line.1 := not_mem_decimal rfl
  rw [lineFields]
  cases hdigits : decimal line.1 with
  | nil => rfl
  | cons b digits =>
      have hne : b ≠ 61 := fun heq => hminus (hdigits ▸ heq ▸ List.mem_cons_self)
      unfold isTitle
      split
      · rename_i heq
        cases heq
        exact (hne rfl).elim
      · rfl

theorem readLine_lineFields (line : ℕ × ℕ) : readLine (lineFields line) = some line := by
  simp only [lineFields, readLine, ofDecimal_decimal]

theorem readPart_rowsOf (sec : Section) : readPart (rowsOf sec) = some (partOf sec) := by
  have hlines : (sec.lines.map lineFields).mapM readLine = some sec.lines := by
    induction sec.lines with
    | nil => rfl
    | cons line lines ih => simp [readLine_lineFields, ih]
  rw [readPart, rowsOf, hlines, titleFields, List.intercalate_splitOn]
  rfl

theorem printSection_eq (title : String) (stats : ℕ → ℕ) (len : ℕ) (slot label : ℕ → ℕ) :
    printSection title n stats L len slot label =
      writeTable space newline
        (titleFields title :: (linesOf n stats L len slot label).map lineFields) := by
  have hline : ∀ b c, decimal b ++ ascii " " ++ decimal c ++ ascii "\n" =
      writeRow space newline (lineFields (b, c)) := by
    intro b c
    have hspace : ascii " " = [space] := rfl
    have hnewline : ascii "\n" = [newline] := rfl
    rw [lineFields, writeRow_cons, hspace, hnewline]
    simp
  rw [writeTable, List.flatMap_cons, writeRow_titleFields, printSection, List.flatMap_map]
  congr 1
  rw [linesOf, List.filterMap_eq_flatMap_toList, List.flatMap_assoc]
  apply List.flatMap_congr
  intro b _
  dsimp only
  split
  · rw [hline, Option.toList_some, List.flatMap_singleton]
  · rfl

theorem dumpFile_eq (stats : ℕ → ℕ) :
    dumpFile n stats L = writeTable space newline
      (((dump n stats L).map rowsOf).flatMap fun part => part.1 :: part.2) := by
  simp only [dumpFile, printSection_eq, ← writeTable_append, dump, rowsOf, List.map_cons,
    List.map_nil, List.flatMap_cons, List.flatMap_nil, List.append_nil, List.append_assoc]

/-- The dump is read back, whatever the counters hold. -/
theorem readDump_dumpFile (stats : ℕ → ℕ) :
    readDump (dumpFile n stats L) = some ((dump n stats L).map partOf) := by
  have hrows : ∀ row ∈ ((dump n stats L).map rowsOf).flatMap fun part => part.1 :: part.2,
      Readable space newline row := by
    intro row hrow
    obtain ⟨part, hpart, hrow⟩ := List.mem_flatMap.mp hrow
    obtain ⟨sec, hsec, rfl⟩ := List.mem_map.mp hpart
    rcases List.mem_cons.mp hrow with rfl | hrow
    · exact (title_dump sec hsec).readable
    · obtain ⟨line, -, rfl⟩ := List.mem_map.mp hrow
      exact lineFields_readable line
  have hparts : ∀ part ∈ (dump n stats L).map rowsOf,
      isTitle part.1 = true ∧ ∀ row ∈ part.2, isTitle row = false := by
    intro part hpart
    obtain ⟨sec, hsec, rfl⟩ := List.mem_map.mp hpart
    refine ⟨(title_dump sec hsec).isTitle, ?_⟩
    intro row hrow
    obtain ⟨line, -, rfl⟩ := List.mem_map.mp hrow
    exact isTitle_lineFields line
  rw [readDump, dumpFile_eq, readTable_writeTable newline_ne_space hrows,
    sections_flatMap hparts]
  induction dump n stats L with
  | nil => rfl
  | cons sec secs ih => simp [readPart_rowsOf, ih]

/-! ## What a run does -/

def Input.text : Input n → Option (List UInt8)
  | .poll (some bytes) _ _ => some (pollText bytes)
  | _ => none

def Output.acted : Output → Option (List UInt8)
  | .reset text | .dumped text _ _ | .other text => some text
  | _ => none

def Output.written : Output → Option (List UInt8 × List Part)
  | .dumped _ path sections => some (path, sections.map partOf)
  | _ => none

/-- What is done follows from the text. -/
def Output.Obeys : Output → Prop
  | .reset text => ascii "reset" <+: text
  | .dumped text path _ => ascii "dump " <+: text ∧ scanPath (text.drop 5) = some path
  | .other text => ¬ ascii "reset" <+: text
  | _ => True

/-- The texts that the polls read. -/
def polled (tr : List (Input n × Output)) : List (List UInt8) := tr.filterMap fun x => x.1.text

/-- The texts that were taken for commands. -/
def acted (tr : List (Input n × Output)) : List (List UInt8) := tr.filterMap fun x => x.2.acted

/-- The dumps with their paths. -/
def written (tr : List (Input n × Output)) : List (List UInt8 × List Part) :=
  tr.filterMap fun x => x.2.written

theorem polled_snoc (tr : List (Input n × Output)) (x : Input n × Output) :
    polled (tr ++ [x]) = polled tr ++ x.1.text.toList := filterMap_snoc _ tr x

theorem acted_snoc (tr : List (Input n × Output)) (x : Input n × Output) :
    acted (tr ++ [x]) = acted tr ++ x.2.acted.toList := filterMap_snoc _ tr x

theorem written_snoc (tr : List (Input n × Output)) (x : Input n × Output) :
    written (tr ++ [x]) = written tr ++ x.2.written.toList := filterMap_snoc _ tr x

/-! ## Steps -/

structure Controlled (tr : List (Input n × Output)) (s : Files n) : Prop where
  polling : Polling [] (polled tr) (acted tr) (cString s.last)
  dumps : s.dumps.map (fun d => (d.1, readDump d.2)) =
    (written tr).map fun d => (d.1, some d.2)
  obeys : ∀ x ∈ tr, x.2.Obeys

section Steps

variable {tr : List (Input n × Output)} {s s' : Files n} {a : Input n} {o : Output}

/-- A step that has nothing to do with the commands. -/
theorem Controlled.quiet (h : Controlled tr s) (hlast : s'.last = s.last)
    (hdumps : s'.dumps = s.dumps) (htext : a.text = none) (hacted : o.acted = none)
    (hwritten : o.written = none) (hobeys : o.Obeys) : Controlled (tr ++ [(a, o)]) s' := by
  refine ⟨?_, ?_, List.forall_mem_append.mpr ⟨h.obeys, List.forall_mem_singleton.mpr hobeys⟩⟩
  · rw [polled_snoc, acted_snoc, htext, hacted, hlast, Option.toList_none, List.append_nil,
      List.append_nil]
    exact h.polling
  · rw [written_snoc, hwritten, hdumps, Option.toList_none, List.append_nil]
    exact h.dumps

/-- A poll that reads a new text. -/
theorem Controlled.changed (h : Controlled tr s) {text : List UInt8}
    (hnew : text ≠ cString s.last) (hlast : cString s'.last = text) (htext : a.text = some text)
    (hacted : o.acted = some text) (hobeys : o.Obeys)
    (hdumps : s'.dumps.map (fun d => (d.1, readDump d.2)) =
      (written tr ++ o.written.toList).map fun d => (d.1, some d.2)) :
    Controlled (tr ++ [(a, o)]) s' := by
  refine ⟨?_, ?_, List.forall_mem_append.mpr ⟨h.obeys, List.forall_mem_singleton.mpr hobeys⟩⟩
  · rw [polled_snoc, acted_snoc, htext, hacted, hlast]
    exact h.polling.changed hnew
  · rw [written_snoc]
    exact hdumps

theorem Controlled.step (h : Controlled tr s) (hstep : s.step L a = some (s', o)) :
    Controlled (tr ++ [(a, o)]) s' := by
  have hdumps : s.dumps.map (fun d => (d.1, readDump d.2)) =
      (written tr ++ []).map fun d : List UInt8 × List Part => (d.1, some d.2) := by
    rw [List.append_nil]
    exact h.dumps
  cases Files.step_spec hstep with
  | worked | woken | monitored => exact h.quiet rfl rfl rfl rfl rfl trivial
  | @unchanged file junk opened hpc hfile =>
      cases file with
      | none => exact h.quiet rfl rfl rfl rfl rfl trivial
      | some bytes =>
          have hpolling : Polling [] (polled tr ++ [pollText bytes]) (acted tr ++ [])
              (cString s.last) := by
            rw [hfile bytes rfl, List.append_nil]
            exact h.polling.same
          refine ⟨?_, ?_,
            List.forall_mem_append.mpr ⟨h.obeys, List.forall_mem_singleton.mpr trivial⟩⟩
          · rw [polled_snoc, acted_snoc]
            exact hpolling
          · rw [written_snoc]
            exact hdumps
  | reset hpc hnew hlast hword => exact h.changed hnew hlast rfl rfl hword hdumps
  | dumped hpc hnew hlast hword hpath =>
      refine h.changed hnew hlast rfl rfl ⟨hword, hpath⟩ ?_
      simp only [Files.goTo, List.map_append, h.dumps, List.map_cons, List.map_nil,
        readDump_dumpFile, Output.written, Option.toList_some]
  | other hpc hnew hlast hword => exact h.changed hnew hlast rfl rfl hword hdumps

end Steps

/-! ## The statistics -/

/-- A text among the commands of the statistics. -/
def asString (text : List UInt8) : String := String.ofList (text.map Char.ofUInt8)

theorem asString_injective {text text' : List UInt8} (h : asString text = asString text') :
    text = text' := by
  have hchar : Function.Injective Char.ofUInt8 := by
    intro b b' heq
    exact UInt8.toUInt32_inj.mp (congrArg Char.val heq)
  exact hchar.list_map (String.ofList_injective h)

/-- What the statistics see of a step: a poll that reads nothing new reads nothing at all. -/
def observe : Input n × Output → Option (BatchStats.Input n × BatchStats.Output)
  | (.worker a, .stats out) => some (a, out)
  | (.monitor _, .stats out) => some (.monitor, out)
  | (.monitor _, .woken _) => some (.monitor, .silent)
  | (.poll _ _ _, .unchanged) => some (.poll none, .silent)
  | (.poll _ _ _, .reset text) => some (.poll (some (.reset (asString text))), .silent)
  | (.poll _ _ _, .dumped text _ sections) =>
      some (.poll (some (.dump (asString text))), .dumped (asString text) sections)
  | (.poll _ _ _, .other text) => some (.poll (some (.other (asString text))), .silent)
  | _ => none

def textOf : Command → String
  | .reset text | .dump text | .other text => text

def withLast (c : Command) (p : Process n) : Process n := p.share { p.shared with last := c }

/-- The same counters and the same place of the monitor, with the text of `last` in a
command. -/
structure Same (s : Files n) (p : Process n) : Prop where
  counters : ∃ c, p = withLast c s.process
  last : textOf p.shared.last = asString (cString s.last)

section Refinement

variable {s s' : Files n} {p p' : Process n}

/-- Only a poll looks at the last command. -/
theorem step_withLast (c : Command) {a : BatchStats.Input n} {out : BatchStats.Output}
    (hpoll : ∀ cmd, a ≠ .poll cmd) (h : p.step L a = some (p', out)) :
    (withLast c p).step L a = some (withLast c p', out) := by
  have hworker : (withLast c p).worker = p.worker := rfl
  have hmonitor : (withLast c p).shared.monitor = p.shared.monitor := rfl
  cases Process.step_spec h with
  | @entered w t0 hin hnil hle hpos hlt =>
      rw [Process.step, Process.enter]
      dsimp only
      rw [if_pos (by exact ⟨hin, hnil, hle, hpos, hlt⟩)]
      rfl
  | @left w ret t1 hin hnil hle hlt hret =>
      rw [Process.step, Process.leave]
      dsimp only
      rw [if_pos (by exact ⟨hin, hnil, hle, hlt, hret⟩)]
      rfl
  | loaded htodo hnone =>
      simp only [Process.step, Process.load, hworker, htodo, hnone]
      rfl
  | stored htodo hloaded =>
      simp only [Process.step, Process.store, hworker, htodo, hloaded]
      rfl
  | woken hpc | printed hpc | rowPrinted hpc =>
      simp only [Process.step, Process.monitor, hmonitor, hpc]
      rfl
  | copied hpc hlt | zeroed hpc hlt | zeroedPrev hpc hlt =>
      simp only [Process.step, Process.monitor, hmonitor, hpc, if_pos hlt]
      rfl
  | rowCopied hpc hle | allZeroed hpc hle | reset hpc hle =>
      simp only [Process.step, Process.monitor, hmonitor, hpc, if_neg (Nat.not_lt.mpr hle)]
      rfl
  | polled | resetting | dumped => exact (hpoll _ rfl).elim

/-- A poll that finds a new command. -/
theorem poll_withLast (c cmd : Command) (hpc : p.shared.monitor = .poll)
    (hne : textOf cmd ≠ textOf c) :
    (withLast c p).step L (.poll (some cmd)) = match cmd with
      | .reset _ => some (withLast cmd (p.goTo (.zero 0)), .silent)
      | .dump path => some (withLast cmd (p.goTo .sleep), .dumped path (dump n p.shared.stats L))
      | .other _ => some (withLast cmd (p.goTo .sleep), .silent) := by
  have hmonitor : (withLast c p).shared.monitor = .poll := hpc
  have hlast : (withLast c p).shared.last = c := rfl
  have hnew : cmd ≠ c := fun heq => hne (congrArg textOf heq)
  simp only [Process.step, Process.poll, hmonitor, hlast, if_neg hnew]
  cases cmd <;> rfl

end Refinement

/-- The counters with the control file do what the counters with the commands do. -/
theorem files_simulates :
    Machine.Simulates (files n batchSz) (process n batchSz) observe Same where
  init s h := by
    obtain ⟨hprocess, hlast, -, -⟩ := h
    refine ⟨s.process, hprocess, ⟨s.process.shared.last, rfl⟩, ?_⟩
    rw [hprocess.2, hlast, cString_replicate]
    rfl
  hidden {s s' p a o} hsame hstep hobs := by
    cases Files.step_spec hstep <;> cases hobs
  visible {s s' p a o b q} hsame hstep hobs := by
    obtain ⟨⟨c, rfl⟩, hlast⟩ := hsame
    have hnew : ∀ {text}, text ≠ cString s.last → asString text ≠ textOf c := by
      intro text hne heq
      exact hne (asString_injective (heq.trans hlast))
    cases Files.step_spec hstep with
    | worked hworker hprocess =>
        cases hobs
        refine ⟨_, step_withLast c ?_ hprocess, ⟨c, rfl⟩, hlast⟩
        rintro cmd rfl
        cases hworker
    | woken hsleep =>
        cases hobs
        have hprocess : s.process.step (upcallInit batchSz) .monitor =
            some (s.process.goTo (Process.row n (upcallInit batchSz) 0), .silent) := by
          rw [Process.step, Process.monitor, hsleep]
        exact ⟨_, step_withLast c (fun _ h => by cases h) hprocess, ⟨c, rfl⟩, hlast⟩
    | monitored hsleep hprocess =>
        cases hobs
        exact ⟨_, step_withLast (a := .monitor) c (fun _ h => by cases h) hprocess, ⟨c, rfl⟩, hlast⟩
    | unchanged hpc hfile =>
        cases hobs
        refine ⟨withLast c (s.process.goTo .sleep), ?_, ⟨c, rfl⟩, hlast⟩
        have hmonitor : (withLast c s.process).shared.monitor = .poll := hpc
        change Process.poll _ none _ = _
        simp only [Process.poll, hmonitor]
        rfl
    | reset hpc hne hnext hword =>
        cases hobs
        exact ⟨_, poll_withLast c (.reset _) hpc (hnew hne), ⟨_, rfl⟩, congrArg asString hnext.symm⟩
    | dumped hpc hne hnext hword hpath =>
        cases hobs
        exact ⟨_, poll_withLast c (.dump _) hpc (hnew hne), ⟨_, rfl⟩, congrArg asString hnext.symm⟩
    | other hpc hne hnext hword =>
        cases hobs
        exact ⟨_, poll_withLast c (.other _) hpc (hnew hne), ⟨_, rfl⟩, congrArg asString hnext.symm⟩

/-! ## Runs -/

theorem reaches_controlled {tr : List (Input n × Output)} {s : Files n}
    (h : (files n batchSz).Reaches tr s) : Controlled tr s := by
  induction h with
  | @init s hs =>
      obtain ⟨-, hlast, -, hdumps⟩ := hs
      refine ⟨?_, by rw [hdumps]; rfl, fun x hx => by cases hx⟩
      rw [hlast, cString_replicate]
      exact Polling.start
  | step _ hstep ih => exact ih.step hstep

/-- Whatever the control file holds and whenever it is polled: a text is acted on when it is
not the one before, what is done is what it says, each dump is read back, and the counters are
those of a run with the commands. -/
theorem control_tells {tr : List (Input n × Output)} {s : Files n}
    (h : (files n batchSz).Reaches tr s) :
    [] :: acted tr = (polled tr).destutter' (· ≠ ·) [] ∧
      (∀ x ∈ tr, x.2.Obeys) ∧
      s.dumps.map (fun d => (d.1, readDump d.2)) = (written tr).map (fun d => (d.1, some d.2)) ∧
      ∃ p, (process n batchSz).Reaches (tr.filterMap observe) p ∧ Same s p := by
  have hcontrolled := reaches_controlled h
  exact ⟨hcontrolled.polling.acted, hcontrolled.obeys, hcontrolled.dumps,
    files_simulates.reaches h⟩

/-- One iteration, a row, and a dump. -/
def firstDump (w : Fin n) : List (Input n) :=
  (firstIteration w).map .worker ++ List.replicate 174 (.monitor 100) ++
    [.poll (some (ascii "dump a")) [] true]

set_option maxRecDepth 8000 in
theorem firstDump_runs : ((files 1 1).exec (emptyFiles 1 1) (firstDump 0)).isSome := by decide

set_option maxRecDepth 8000 in
theorem control_tells_firstDump :
    ∃ tr s, (files 1 1).Reaches tr s ∧ acted tr = [ascii "dump a"] ∧ s.dumps.length = 1 ∧
      [] :: acted tr = (polled tr).destutter' (· ≠ ·) [] ∧
      (∀ x ∈ tr, x.2.Obeys) ∧
      s.dumps.map (fun d => (d.1, readDump d.2)) = (written tr).map (fun d => (d.1, some d.2)) ∧
      ∃ p, (process 1 1).Reaches (tr.filterMap observe) p ∧ Same s p := by
  have hreach := Machine.reaches_exec_get emptyFiles_init firstDump_runs
  exact ⟨_, _, hreach, rfl, rfl, control_tells hreach⟩

end Upcalls.BatchFiles
