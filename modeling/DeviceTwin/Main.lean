import DeviceTwin.CommandLine.Execution

/-! The command line on the files of the system. -/
namespace DeviceTwin.CommandLine

/-- The words of the system for an error. -/
def reason (error : IO.Error) : String :=
  match error with
  | .noFileOrDirectory _ code details | .inappropriateType _ code details
  | .permissionDenied _ code details | .resourceExhausted _ code details
  | .invalidArgument _ code details =>
    details ++ " (os error " ++ toString code ++ ")"
  | other => toString other

/-- The text of an open file. -/
def readHandle (source : String) (handle : IO.FS.Handle) : IO (Except Failure String) := do
  try
    return Source.decode source (← handle.readBinToEnd)
  catch error => return .error (.unreadable source (reason error))

/-- The text of a source. A file whose path cannot be followed counts as missing. -/
def loadSource (source : String) : IO (Except Failure String) := do
  if Source.isUrl source then return .error (.fileNotFound source)
  try
    readHandle source (← IO.FS.Handle.mk source .read)
  catch
    | .noFileOrDirectory .. | .inappropriateType .. | .invalidArgument .. =>
      return .error (.fileNotFound source)
    | error => return .error (.unreadable source (reason error))

def carryOut (plan : Plan) : IO Report := do
  match plan.save with
  | none => return plan.finished
  | some (path, text) =>
    try
      IO.FS.writeFile path text
      return plan.finished
    catch error => return plan.unsaved path (reason error)

def run (args : List String) : IO Report := do
  match Command.read args with
  | .error stop => return stop.report
  | .ok command => carryOut (command.plan (← loadSource command.source))

end DeviceTwin.CommandLine

def main (args : List String) : IO UInt32 := do
  let report ← DeviceTwin.CommandLine.run args
  (← IO.getStderr).putStr report.stderr
  (← IO.getStdout).putStr report.stdout
  return report.status.toUInt32
