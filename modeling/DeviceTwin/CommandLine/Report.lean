import DeviceTwin.CommandLine.Arguments
import DeviceTwin.Conversion

/-! What a command writes and prints, and the status it ends with, given the text of its source. -/
namespace DeviceTwin.CommandLine

structure Report where
  status : Nat := 0
  stdout : String := ""
  stderr : String := ""
  deriving DecidableEq, Repr

def lines (ls : List String) : String := String.join (ls.map (· ++ "\n"))

def Report.ofFailure (failure : Failure) : Report :=
  { status := failure.exitCode, stderr := lines ["Error: " ++ failure.message] }

def usageLines : List String :=
  ["Convert ECHONET Lite device descriptions into Digital Twin interfaces", "",
    "Usage: echonet-dtdl [-v]... convert <SOURCE> [-o <OUTPUT>] [--compact] [--strict]",
    "           [--namespace <NAMESPACE>] [--context <CONTEXT>] [--max-depth <MAX_DEPTH>]",
    "       echonet-dtdl [-v]... check <SOURCE> [--format text|json] [-q]",
    "       echonet-dtdl [--help] [--version]"]

def Stop.report : Stop → Report
  | .help => { stdout := lines usageLines }
  | .version => { stdout := lines ["echonet-dtdl 0.3.0"] }
  | .usage error => { status := 2, stderr := lines ["error: " ++ error.message] }

/-- What is to be done once the source has been read: print warnings, write a file, if there is one
to write, and report. -/
structure Plan where
  warnings : String := ""
  save : Option (String × String) := none
  report : Report

/-- The report when nothing stood in the way of writing. -/
def Plan.finished (plan : Plan) : Report :=
  { plan.report with stderr := plan.warnings ++ plan.report.stderr }

/-- The report when the file could not be written. -/
def Plan.unsaved (plan : Plan) (path reason : String) : Report :=
  let failure := Report.ofFailure (.unwritable path reason)
  { failure with stderr := plan.warnings ++ failure.stderr }

/-- A diagnostic on a line of a report. -/
def diagnosticLine (d : Diagnostic) : String :=
  "[" ++ d.violation.code ++ "]: " ++ d.path ++ " - " ++ d.violation.message

/-- The interfaces go to the output file, or are printed. In strict mode any diagnostic fails the
run, after its output. -/
def convertPlan (output : Option String) (layout : Json.Layout) (strict : Bool)
    (conversion : Conversion) : Plan :=
  let text := conversion.render layout
  let failed := strict && !conversion.isClean
  { warnings := lines (conversion.diagnostics.map fun d => "warning" ++ diagnosticLine d)
    save := output.map (·, text)
    report :=
      { status := if failed then 1 else 0
        stdout := if output.isSome then "" else lines [text]
        stderr :=
          if failed then
            lines ["Error: " ++ toString conversion.findings.length ++
              " diagnostic(s) in strict mode"]
          else "" } }

/-- The last line of a check, green or red. -/
def summaryLine (conversion : Conversion) : String :=
  let stats := conversion.stats
  let counts := toString stats.devicesEmitted ++ " devices emitted, " ++
    toString stats.devicesDropped ++ " dropped, " ++ toString stats.interfaces ++ " interfaces"
  if conversion.isClean then "\x1b[32m✓ " ++ counts ++ "\x1b[0m"
  else
    "\x1b[31m✗ " ++ counts ++ " (" ++ toString conversion.findings.length ++ " diagnostics)\x1b[0m"

/-- A check in words. Quiet, it is its last line alone. -/
def checkLines (source : String) (quiet : Bool) (conversion : Conversion) : List String :=
  if quiet then [summaryLine conversion]
  else
    ["Checking " ++ source ++ " ...", ""] ++
      conversion.diagnostics.map (fun d => "  " ++ diagnosticLine d) ++
      (if conversion.isClean then [] else [""]) ++ [summaryLine conversion]

def checkJson (source : String) (conversion : Conversion) : Json :=
  .obj [("source", .str source), ("stats", conversion.stats.toJson),
    ("diagnostics", .arr (conversion.diagnostics.map Diagnostic.toJson))]

/-- A check fails on any diagnostic. -/
def checkPlan (source : String) (format : ReportFormat) (quiet : Bool) (conversion : Conversion) :
    Plan :=
  { report :=
      { status := if conversion.isClean then 0 else 1
        stdout :=
          match format with
          | .text => lines (checkLines source quiet conversion)
          | .json => lines [(checkJson source conversion).render (.indented 2)] } }

namespace Command

def source : Command → String
  | convert source .. => source
  | check source .. => source

/-- Checks use the default options. -/
def options : Command → Options
  | convert _ _ _ options _ => options
  | check .. => {}

/-- What a command does with a conversion. -/
def planFor (conversion : Conversion) : Command → Plan
  | convert _ output compact _ strict =>
    convertPlan output (if compact then .compact else .indented 4) strict conversion
  | check source format quiet => checkPlan source format quiet conversion

/-- What a command does with the text of its source. -/
def plan (command : Command) (text : Except Failure String) : Plan :=
  match text.bind parseDocument |>.bind (Conversion.ofDocument command.options) with
  | .ok conversion => command.planFor conversion
  | .error failure => { report := .ofFailure failure }

end Command
end DeviceTwin.CommandLine
