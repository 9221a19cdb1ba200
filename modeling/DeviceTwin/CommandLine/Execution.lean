import DeviceTwin.CommandLine.Report
import DeviceTwin.Source

/-! Carrying out a command line on the files of a workspace. -/
namespace DeviceTwin.CommandLine

/-- Carries out a plan. -/
def Plan.execute (plan : Plan) (w : Workspace) : Workspace × Report :=
  match plan.save with
  | none => (w, plan.finished)
  | some (path, text) =>
    match w.write path text.toUTF8 with
    | .ok saved => (saved, plan.finished)
    | .error obstacle => (w, plan.unsaved path obstacle.reason)

/-- The files after a run, and what it reports. -/
def execute (w : Workspace) (args : List String) : Workspace × Report :=
  match Command.read args with
  | .error stop => (w, stop.report)
  | .ok command => (command.plan (Source.load w command.source)).execute w

end DeviceTwin.CommandLine
