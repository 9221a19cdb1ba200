import DeviceTwin.CommandLine.Execution
import DeviceTwin.Proofs.Conversion.Counts
import DeviceTwin.Proofs.Conversion.Relabelling
import DeviceTwin.Proofs.Conversion.Rendering

/-!
A check and a strict conversion of the same source agree. Each begins with a conversion under its
own options; apart from labels the conversions are the same, and so are the findings and counts that
go into what is reported.
-/
namespace DeviceTwin

theorem Failure.exitCode_cases (failure : Failure) :
    failure.exitCode = 2 ∨ failure.exitCode = 3 := by
  cases failure <;> simp [exitCode]

theorem Conversion.isClean_eq (c : Conversion) : c.isClean = c.diagnostics.isEmpty :=
  List.isEmpty_map.symm

/-- A file with a text is loaded as the text. -/
theorem Source.load_toUTF8 {w : Workspace} {source text : String} (hurl : isUrl source = false)
    (hread : w.read source = .ok text.toUTF8) : load w source = .ok text := by
  have htext : String.fromUTF8? text.toUTF8 = some text := dif_pos text.isValidUTF8
  simp only [load, hurl, hread, decode, htext, Bool.false_eq_true, if_false]

namespace CommandLine

variable {w : Workspace} {source : String} {format : ReportFormat} {quiet compact : Bool}
  {options : Options} {document : Json} {c c' : Conversion}
  {args checkArgs convertArgs : List String}

theorem lines_append (ls ls' : List String) : lines (ls ++ ls') = lines ls ++ lines ls' := by
  rw [lines, List.map_append, String.join_append]
  rfl

/-- What a source is converted to. -/
def conversionOf (w : Workspace) (source : String) (options : Options) :
    Except Failure Conversion :=
  ((Source.load w source).bind parseDocument).bind (Conversion.ofDocument options)

theorem agree_conversionOf (w : Workspace) (source : String)
    (hdepth : options.maxDepth = ({} : Options).maxDepth) :
    Agree (Conversion.Relabelled {} options) (conversionOf w source {})
      (conversionOf w source options) :=
  .after _ (Conversion.agree_ofDocument hdepth.symm)

theorem exists_document (h : conversionOf w source options = .ok c) :
    ∃ document, Conversion.ofDocument options document = .ok c := by
  unfold conversionOf at h
  generalize (Source.load w source).bind parseDocument = document at h
  cases document with
  | error failure => cases h
  | ok document => exact ⟨document, h⟩

/-- What is printed of a conversion is read as its array of interfaces. -/
theorem parseDocument_lines (h : Conversion.ofDocument options document = .ok c)
    (hdepth : options.maxDepth = ({} : Options).maxDepth) (layout : Json.Layout) :
    parseDocument (lines [c.render layout]) = .ok c.toJson := by
  have hreadable : Json.Readable Json.nestingLimit c.toJson := by
    have hbound := Conversion.readable_toJson h
    rw [hdepth] at hbound
    exact hbound.mono (by decide)
  have hline : lines [c.render layout] = c.toJson.render layout ++ "\n" := by
    simp [lines, Conversion.render]
  rw [hline, parseDocument, Json.read?_render_line hreadable]

theorem execute_of_error {failure : Failure} {command : Command}
    (hread : Command.read args = .ok command)
    (h : conversionOf w command.source command.options = .error failure) :
    execute w args = (w, .ofFailure failure) := by
  unfold conversionOf at h
  simp only [execute, hread, Command.plan, h, Plan.execute, Plan.finished, String.empty_append]

/-- Without an output file a command writes nothing. -/
theorem execute_of_ok {command : Command} (hread : Command.read args = .ok command)
    (h : conversionOf w command.source command.options = .ok c)
    (hsave : (command.planFor c).save = none) :
    execute w args = (w, (command.planFor c).finished) := by
  unfold conversionOf at h
  simp only [execute, hread, Command.plan, h, Plan.execute, hsave]

theorem warning_eq (d : Diagnostic) : "warning" ++ diagnosticLine d =
    "warning[" ++ d.violation.code ++ "]: " ++ d.path ++ " - " ++ d.violation.message := by
  have hmark : "warning[" = "warning" ++ "[" := rfl
  rw [hmark]
  simp only [diagnosticLine, String.append_assoc]

/-- A report of a check on these diagnostics and on the interfaces of this array. -/
structure IsReportOn (diagnostics : List Diagnostic) (printed : List Json) (report : Json) :
    Prop where
  diagnostics : report.get? "diagnostics" = some (.arr (diagnostics.map fun d =>
    .obj [("category", .str d.violation.category.name), ("code", .str d.violation.code),
      ("path", .str d.path), ("message", .str d.violation.message)]))
  emitted : (report.get? "stats").bind (·.get? "devices_emitted") = some (.int printed.length)
  /-- Every interface has its contents, and all of them are counted. -/
  contents : ∃ entries : List (List Json),
    printed.map (·.get? "contents") = entries.map (fun items => some (.arr items)) ∧
      (report.get? "stats").bind (·.get? "interfaces") = some (.int entries.flatten.length)

/-- The report on a conversion describes what is printed of it under other labels. -/
theorem isReportOn_checkJson (source : String) (h : c.Relabelled {} options c')
    (hcounted : c'.IsCounted) :
    IsReportOn c.diagnostics (c'.interfaces.map Interface.toJson) (checkJson source c) := by
  obtain ⟨hemitted, hinterfaces⟩ := hcounted
  rw [h.stats_eq] at hemitted hinterfaces
  refine ⟨rfl, ?_, c'.interfaces.map fun interface => interface.contents.map Content.toJson, ?_, ?_⟩
  · rw [List.length_map, ← hemitted]
    rfl
  · rw [List.map_map, List.map_map]
    rfl
  · have hlength : (c'.interfaces.map fun interface =>
        interface.contents.map Content.toJson).flatten.length = c.stats.interfaces := by
      rw [hinterfaces, ← List.flatMap_def, ← List.map_flatMap, List.length_map]
    rw [hlength]
    rfl

/-- A line of warning, and the reported diagnostic that it spells out. -/
def WarnsOf (line : String) (entry : Json) : Prop :=
  ∃ code path message, entry.get? "code" = some (.str code) ∧
    entry.get? "path" = some (.str path) ∧ entry.get? "message" = some (.str message) ∧
    line = "warning[" ++ code ++ "]: " ++ path ++ " - " ++ message

/-- The error that ends a strict conversion with this many diagnostics. -/
def strictErrors (count : Nat) : List String :=
  if count = 0 then [] else ["Error: " ++ toString count ++ " diagnostic(s) in strict mode"]

/-- What a check and a strict conversion report alike, and the report of the check in JSON. -/
structure Correspond (diagnostics : List Diagnostic) (format : ReportFormat) (layout : Json.Layout)
    (checked converted : Report) : Prop where
  checked_status : checked.status = if diagnostics.isEmpty then 0 else 1
  converted_status : converted.status = if diagnostics.isEmpty then 0 else 1
  /-- One warning for each diagnostic, in order, and the error of the strict mode. -/
  warnings : converted.stderr = lines (diagnostics.map (fun d =>
    "warning[" ++ d.violation.code ++ "]: " ++ d.path ++ " - " ++ d.violation.message) ++
      strictErrors diagnostics.length)
  report : format = .json → ∃ report printed, IsReportOn diagnostics printed report ∧
    checked.stdout = lines [report.render (.indented 2)] ∧
    converted.stdout = lines [(Json.arr printed).render layout] ∧
    parseDocument converted.stdout = .ok (.arr printed) ∧
    -- The lines of warning and the entries of the report stand for each other, one by one.
    ∃ warnings entries, converted.stderr = lines (warnings ++ strictErrors entries.length) ∧
      report.get? "diagnostics" = some (.arr entries) ∧ List.Forall₂ WarnsOf warnings entries

theorem forall₂_warnsOf (diagnostics : List Diagnostic) :
    List.Forall₂ WarnsOf (diagnostics.map fun d => "warning" ++ diagnosticLine d)
      (diagnostics.map Diagnostic.toJson) := by
  induction diagnostics with
  | nil => exact .nil
  | cons d rest ih => exact .cons ⟨_, _, _, rfl, rfl, rfl, warning_eq d⟩ ih

theorem stderr_convertPlan (output : Option String) (layout : Json.Layout) (c : Conversion) :
    (convertPlan output layout true c).finished.stderr =
      lines (c.diagnostics.map (fun d => "warning" ++ diagnosticLine d) ++
        strictErrors c.diagnostics.length) := by
  have hlength : c.diagnostics.length = c.findings.length := List.length_map _
  have hclean : c.isClean = (c.findings.length = 0) := by
    rw [Conversion.isClean, List.isEmpty_iff, List.length_eq_zero_iff]
  rw [lines_append, hlength, strictErrors]
  by_cases hempty : c.findings.length = 0 <;>
    simp [convertPlan, Plan.finished, hclean, hempty, lines]

theorem correspond_finished (source : String) (format : ReportFormat) (quiet : Bool)
    (layout : Json.Layout) (h : c.Relabelled {} options c')
    (hc' : Conversion.ofDocument options document = .ok c')
    (hdepth : options.maxDepth = ({} : Options).maxDepth) :
    Correspond c.diagnostics format layout (checkPlan source format quiet c).finished
      (convertPlan none layout true c').finished where
  checked_status := by
    rw [← Conversion.isClean_eq]
    rfl
  converted_status := by
    rw [← h.diagnostics_eq, ← Conversion.isClean_eq]
    cases hclean : c'.isClean <;> simp [convertPlan, Plan.finished, hclean]
  warnings := by
    rw [stderr_convertPlan, h.diagnostics_eq, funext warning_eq]
  report := by
    rintro rfl
    refine ⟨_, _, isReportOn_checkJson source h (Conversion.isCounted_ofDocument hc'), rfl, rfl,
      parseDocument_lines hc' hdepth layout, _, _, ?_, rfl, forall₂_warnsOf c.diagnostics⟩
    rw [stderr_convertPlan, h.diagnostics_eq, List.length_map]

/-- A check and a strict conversion that prints its output end alike, whatever stands at their
source. On a failure both print its error line only. Otherwise they end with the same status, and a
check in JSON reports the diagnostics of which the conversion warns and counts what it prints. -/
theorem check_corresponds (w : Workspace)
    (hcheck : Command.read checkArgs = .ok (.check source format quiet))
    (hconvert : Command.read convertArgs = .ok (.convert source none compact options true))
    (hdepth : options.maxDepth = ({} : Options).maxDepth) :
    (∃ (failure : Failure) (failed : Report), conversionOf w source {} = .error failure ∧
      (failed.status = 2 ∨ failed.status = 3) ∧ failed.status = failure.exitCode ∧
      failed.stdout = "" ∧ failed.stderr = lines ["Error: " ++ failure.message] ∧
      execute w checkArgs = (w, failed) ∧ execute w convertArgs = (w, failed)) ∨
    ∃ c checked converted, conversionOf w source {} = .ok c ∧
      execute w checkArgs = (w, checked) ∧ execute w convertArgs = (w, converted) ∧
      Correspond c.diagnostics format (if compact then .compact else .indented 4) checked
        converted := by
  rcases (agree_conversionOf w source hdepth).error_or_ok with
    ⟨failure, hc, hc'⟩ | ⟨c, c', hc, hc', h⟩
  · exact .inl ⟨failure, .ofFailure failure, hc, failure.exitCode_cases, rfl, rfl, rfl,
      execute_of_error hcheck hc, execute_of_error hconvert hc'⟩
  · refine .inr ⟨c, _, _, hc, execute_of_ok hcheck hc rfl, execute_of_ok hconvert hc' rfl, ?_⟩
    obtain ⟨document, hdocument⟩ := exists_document hc'
    exact correspond_finished source format quiet _ h hdocument hdepth

/-- A lamp with a member that devices do not have, and an entry that is no device. -/
def lampDocument : Json :=
  .obj [("definitions", .obj []), ("devices", .obj [("0x0291", .null),
    ("0x0290", .obj [("maker", .str "A"), ("className", .obj [("en", .str "Lamp")])])])]

def lampWorkspace : Workspace :=
  { files := [(["lamp.json"], (lampDocument.render .compact).toUTF8)] }

/-- The source is read and parsed. -/
theorem conversionOf_lamp (options : Options) :
    conversionOf lampWorkspace "lamp.json" options =
      Conversion.ofDocument options lampDocument := by
  have hload : Source.load lampWorkspace "lamp.json" = .ok (lampDocument.render .compact) :=
    Source.load_toUTF8 rfl rfl
  have hparse : parseDocument (lampDocument.render .compact) = .ok lampDocument := rfl
  rw [conversionOf, hload, Except.bind, hparse, Except.bind]

theorem check_corresponds_lamp :
    Command.read ["check", "lamp.json", "--format", "json"] = .ok (.check "lamp.json" .json false) ∧
    Command.read ["convert", "--compact", "--namespace=a:b", "lamp.json", "--strict"] =
      .ok (.convert "lamp.json" none true { urnNamespace := "a:b" } true) ∧
    ∃ c checked converted, conversionOf lampWorkspace "lamp.json" {} = .ok c ∧
      c.diagnostics.map (·.path) = ["/devices/0x0291", "/devices/0x0290/maker"] ∧
      execute lampWorkspace ["check", "lamp.json", "--format", "json"] = (lampWorkspace, checked) ∧
      execute lampWorkspace ["convert", "--compact", "--namespace=a:b", "lamp.json", "--strict"] =
        (lampWorkspace, converted) ∧
      Correspond c.diagnostics .json .compact checked converted := by
  have hcheck : Command.read ["check", "lamp.json", "--format", "json"] =
      .ok (.check "lamp.json" .json false) := by decide +kernel
  have hconvert : Command.read ["convert", "--compact", "--namespace=a:b", "lamp.json",
      "--strict"] = .ok (.convert "lamp.json" none true { urnNamespace := "a:b" } true) := by
    decide +kernel
  obtain ⟨c, hc⟩ : ∃ c, conversionOf lampWorkspace "lamp.json" {} = .ok c :=
    ⟨_, conversionOf_lamp {}⟩
  refine ⟨hcheck, hconvert, ?_⟩
  rcases check_corresponds lampWorkspace hcheck hconvert rfl with
    ⟨failure, -, hfailure, -⟩ | ⟨d, checked, converted, hd, hchecked, hconverted, hagree⟩
  · cases hc.symm.trans hfailure
  · refine ⟨d, checked, converted, hd, ?_, hchecked, hconverted, hagree⟩
    cases hd.symm.trans (conversionOf_lamp {})
    decide +kernel

end CommandLine
end DeviceTwin
