import DeviceTwin.Proofs.CommandLine.Agreement
import DeviceTwin.Proofs.Workspace

/-!
Output files. A conversion with an output file either leaves all files as they are, or the file
holds everything that would have been printed and the other files are as they were; strict or not,
the run ends as it does when it prints.
-/
namespace DeviceTwin.CommandLine

variable {w : Workspace} {source path : String} {compact strict : Bool} {options : Options}
  {c : Conversion} {args saveArgs printArgs : List String} {place : Place} {plan : Plan}

/-- The layout of interfaces. -/
def layoutOf (compact : Bool) : Json.Layout := if compact then .compact else .indented 4

/-- The plan for a conversion is carried out. -/
theorem execute_convert {output : Option String}
    (hread : Command.read args = .ok (.convert source output compact options strict))
    (h : conversionOf w source options = .ok c) :
    execute w args = (convertPlan output (layoutOf compact) strict c).execute w := by
  unfold conversionOf at h
  simp only [execute, hread, Command.plan, Command.source, Command.options, h]
  rfl

theorem execute_of_obstacle {text : String} {obstacle : Workspace.Obstacle}
    (hsave : plan.save = some (path, text)) (h : w.target path = .error obstacle) :
    plan.execute w = (w, plan.unsaved path obstacle.reason) := by
  have hwrite : w.write path text.toUTF8 = .error obstacle := by
    rw [Workspace.write, h]
    rfl
  simp only [Plan.execute, hsave, hwrite]

theorem execute_of_target {text : String} (hsave : plan.save = some (path, text))
    (h : w.target path = .ok place) :
    plan.execute w = (w.save place text.toUTF8, plan.finished) := by
  have hwrite : w.write path text.toUTF8 = .ok (w.save place text.toUTF8) := by
    rw [Workspace.write, h]
    rfl
  simp only [Plan.execute, hsave, hwrite]

theorem lines_singleton (line : String) : lines [line] = line ++ "\n" := by simp [lines]

/-- A conversion with an output file writes all or nothing. If there is no conversion, no file is
changed and nothing is printed. Otherwise let `text` be what the conversion prints without an output
file, up to the end of its line. Where a file can be kept it holds the whole text afterwards, and
nothing else is changed; the run ends as it does without an output file, in strict mode too. That
file may be the source. Where none can be kept nothing is changed. -/
theorem execute_output (w : Workspace)
    (hsave : Command.read saveArgs = .ok (.convert source (some path) compact options strict))
    (hprint : Command.read printArgs = .ok (.convert source none compact options strict)) :
    (∃ failure, conversionOf w source options = .error failure ∧
      (failure.exitCode = 2 ∨ failure.exitCode = 3) ∧
      execute w saveArgs = (w, ⟨failure.exitCode, "", lines ["Error: " ++ failure.message]⟩)) ∨
    ∃ c text printed, conversionOf w source options = .ok c ∧
      text = c.render (if compact then .compact else .indented 4) ∧
      execute w printArgs = (w, printed) ∧ printed.stdout = text ++ "\n" ∧
      printed.status = (if strict && !c.isClean then 1 else 0) ∧
      (∀ place, w.Writable path place → ∃ saved,
        execute w saveArgs = (saved, { printed with stdout := "" }) ∧
        saved.read path = .ok text.toUTF8 ∧ w.Saves saved place text.toUTF8) ∧
      ((∀ place, ¬ w.Writable path place) → ∃ report,
        execute w saveArgs = (w, report) ∧ report.stdout = "" ∧
        (report.status = 3 ∨ report = { printed with stdout := "" })) := by
  cases hc : conversionOf w source options with
  | error failure =>
    exact .inl ⟨failure, rfl, failure.exitCode_cases, execute_of_error hsave hc⟩
  | ok c =>
    let text := c.render (layoutOf compact)
    have hprinted : execute w printArgs =
        (w, (convertPlan none (layoutOf compact) strict c).finished) := execute_convert hprint hc
    have hplan := execute_convert hsave hc
    refine .inr ⟨c, text, _, rfl, rfl, hprinted, lines_singleton text, rfl,
      fun place hwritable => ?_, fun hunwritable => ?_⟩
    · have hsaves := Workspace.saves_save hwritable text.toUTF8
      exact ⟨_, hplan.trans (execute_of_target rfl (Workspace.writable_iff.mp hwritable).1),
        hsaves.read_self path hwritable.leads, hsaves⟩
    · cases htarget : w.target path with
      | error obstacle => exact ⟨_, hplan.trans (execute_of_obstacle rfl htarget), rfl, .inl rfl⟩
      | ok place =>
        -- Only the null device can be written to without being a file.
        obtain rfl : place = Workspace.nullDevice := by
          by_contra hne
          exact hunwritable place (Workspace.writable_iff.mpr ⟨htarget, hne⟩)
        have hsame : w.save Workspace.nullDevice text.toUTF8 = w := if_pos rfl
        have hexecute := hplan.trans (execute_of_target rfl htarget)
        rw [hsame] at hexecute
        exact ⟨_, hexecute, rfl, .inr rfl⟩

/-- A strict conversion of the lamp, which is not clean, in place of its own source. -/
theorem execute_output_lamp :
    Command.read ["convert", "lamp.json", "--strict", "--compact", "-olamp.json"] =
      .ok (.convert "lamp.json" (some "lamp.json") true {} true) ∧
    Command.read ["convert", "lamp.json", "--strict", "--compact"] =
      .ok (.convert "lamp.json" none true {} true) ∧
    lampWorkspace.Writable "lamp.json" ["lamp.json"] ∧
    ∃ text printed saved, execute lampWorkspace ["convert", "lamp.json", "--strict", "--compact"] =
        (lampWorkspace, printed) ∧
      printed.stdout = text ++ "\n" ∧ printed.status = 1 ∧
      execute lampWorkspace ["convert", "lamp.json", "--strict", "--compact", "-olamp.json"] =
        (saved, { printed with stdout := "" }) ∧
      saved.read "lamp.json" = .ok text.toUTF8 ∧
      lampWorkspace.Saves saved ["lamp.json"] text.toUTF8 := by
  have hsave : Command.read ["convert", "lamp.json", "--strict", "--compact", "-olamp.json"] =
      .ok (.convert "lamp.json" (some "lamp.json") true {} true) := by decide +kernel
  have hprint : Command.read ["convert", "lamp.json", "--strict", "--compact"] =
      .ok (.convert "lamp.json" none true {} true) := by decide +kernel
  have hwritable : lampWorkspace.Writable "lamp.json" ["lamp.json"] :=
    Workspace.writable_iff.mpr ⟨rfl, by decide⟩
  have hlamp := conversionOf_lamp {}
  refine ⟨hsave, hprint, hwritable, ?_⟩
  rcases execute_output lampWorkspace hsave hprint with
    ⟨failure, hfailure, -⟩ | ⟨c, text, printed, hc, -, hprinted, hstdout, hstatus, hwritten, -⟩
  · cases hfailure.symm.trans hlamp
  · obtain ⟨saved, hexecute, hread, hsaves⟩ := hwritten ["lamp.json"] hwritable
    refine ⟨text, printed, saved, hprinted, hstdout, ?_, hexecute, hread, hsaves⟩
    cases hc.symm.trans hlamp
    rw [hstatus]
    decide +kernel

end DeviceTwin.CommandLine
