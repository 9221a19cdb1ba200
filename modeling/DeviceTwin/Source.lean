import DeviceTwin.Workspace

/-! Sources of device descriptions. -/
namespace DeviceTwin.Source

/-- Whether a source names a page of the web instead of a file. -/
def isUrl (source : String) : Bool :=
  "http://".toList.isPrefixOf source.toList || "https://".toList.isPrefixOf source.toList

/-- The text of a file that has been read. -/
def decode (path : String) (contents : ByteArray) : Except Failure String :=
  match String.fromUTF8? contents with
  | some text => .ok text
  | none => .error (.unreadable path "stream did not contain valid UTF-8")

/-- The text of a source. Pages of the web cannot be fetched, so they count as missing. -/
def load (w : Workspace) (source : String) : Except Failure String :=
  if isUrl source then .error (.fileNotFound source)
  else
    match w.read source with
    | .ok contents => decode source contents
    | .error .isDirectory => .error (.unreadable source Workspace.Obstacle.isDirectory.reason)
    | .error _ => .error (.fileNotFound source)

end DeviceTwin.Source
