import DeviceTwin.Device
import DeviceTwin.Failure
import DeviceTwin.Json.Reader
import DeviceTwin.Json.Writer

/-! Converting a device description into interfaces, one for each class with an English name. -/
namespace DeviceTwin

/-- Counts of a conversion. -/
structure Stats where
  /-- Entries that were objects. -/
  devices : Nat := 0
  /-- Interfaces, which can be more than one for an entry. -/
  devicesEmitted : Nat := 0
  /-- Entries without any interface. -/
  devicesDropped : Nat := 0
  /-- Content entries of all interfaces. -/
  interfaces : Nat := 0
  deriving DecidableEq, Repr

namespace Stats

def add (a b : Stats) : Stats where
  devices := a.devices + b.devices
  devicesEmitted := a.devicesEmitted + b.devicesEmitted
  devicesDropped := a.devicesDropped + b.devicesDropped
  interfaces := a.interfaces + b.interfaces

instance : Add Stats := ⟨add⟩

/-- Counts of one device with these interfaces. -/
def ofDevice (interfaces : List Interface) : Stats where
  devices := 1
  devicesEmitted := interfaces.length
  devicesDropped := if interfaces.isEmpty then 1 else 0
  interfaces := (interfaces.flatMap (·.contents)).length

def toJson (stats : Stats) : Json :=
  .obj [("devices", .int stats.devices), ("devices_emitted", .int stats.devicesEmitted),
    ("devices_dropped", .int stats.devicesDropped), ("interfaces", .int stats.interfaces)]

end Stats

/-- The result of converting a description or a part of it. -/
structure Conversion where
  interfaces : List Interface := []
  /-- What was found, in the order of the document. -/
  findings : List Finding := []
  stats : Stats := {}

namespace Conversion

def append (a b : Conversion) : Conversion where
  interfaces := a.interfaces ++ b.interfaces
  findings := a.findings ++ b.findings
  stats := a.stats + b.stats

instance : Append Conversion := ⟨append⟩

/-- Converts one device. -/
def ofDevice (scope : Scope) (options : Options) (code : String) (device : Json) : Conversion :=
  let trace := ((Device.read scope options device).within code).within "devices"
  let interfaces := Device.assemble options trace.value
  { interfaces
    findings := trace.findings
    stats := if device.members?.isSome then .ofDevice interfaces else {} }

def ofDevices (scope : Scope) (options : Options) : List (String × Json) → Conversion
  | [] => {}
  | (code, device) :: rest => ofDevice scope options code device ++ ofDevices scope options rest

/-- An object member of the document. -/
def rootMember (document : Json) (member : String) : Except Failure (List (String × Json)) :=
  match (document.get? member).bind Json.members? with
  | some members => .ok members
  | none => .error (.missingMember member)

def isClean (conversion : Conversion) : Bool := conversion.findings.isEmpty

def diagnostics (conversion : Conversion) : List Diagnostic :=
  conversion.findings.map (·.diagnostic "")

/-- The interfaces as one array. -/
def toJson (conversion : Conversion) : Json :=
  .arr (conversion.interfaces.map Interface.toJson)

def render (layout : Json.Layout) (conversion : Conversion) : String :=
  conversion.toJson.render layout

end Conversion

/-- Reads the text of a document. -/
def parseDocument (text : String) : Except Failure Json :=
  match Json.read? text with
  | some document => .ok document
  | none => .error .invalidJson

/-- Converts a document, which needs definitions and devices. -/
def Conversion.ofDocument (options : Options) (document : Json) : Except Failure Conversion := do
  let definitions ← Conversion.rootMember document "definitions"
  let devices ← Conversion.rootMember document "devices"
  return .ofDevices { definitions, maxDepth := options.maxDepth } options devices

end DeviceTwin
