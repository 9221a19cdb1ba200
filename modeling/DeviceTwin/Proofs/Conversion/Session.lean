import DeviceTwin.Proofs.Conversion.Devices
import DeviceTwin.Proofs.Device.Session

/-!
A conversion in one session. All entries of a document are read with the same stack and record into
the same diagnostics, and counters are raised along the way. The outcome is the conversion of the
document, which puts together what its entries give on their own.
-/
namespace DeviceTwin.Conversion.Session

open Descriptor.Session

/-- What has been given out so far. -/
structure Output where
  interfaces : List Interface := []
  stats : Stats := {}

namespace Output

/-- An interface is given out and counted. -/
def emit (out : Output) (interface : Interface) : Output where
  interfaces := out.interfaces ++ [interface]
  stats :=
    { out.stats with
      devicesEmitted := out.stats.devicesEmitted + 1
      interfaces := out.stats.interfaces + interface.contents.length }

/-- The device is counted, and once more if nothing has come of it. -/
def count (out : Output) (interfaces : List Interface) : Output where
  interfaces := out.interfaces
  stats :=
    { out.stats with
      devices := out.stats.devices + 1
      devicesDropped := out.stats.devicesDropped + if interfaces.isEmpty then 1 else 0 }

def followedBy (out : Output) (c : Conversion) : Output :=
  ⟨out.interfaces ++ c.interfaces, out.stats + c.stats⟩

end Output

variable (scope : Scope) (options : Options)

/-- Reads an entry and gives out the interfaces that are assembled. -/
def takeDevice (out : Output) (code : String) (device : Json) : Run Output :=
  let path := Pointer.join (Pointer.join "" "devices") code
  match device.expectObject with
  | .error violation => do
    report path violation
    return out
  | .ok _ => do
    let assembly ← Device.Session.read scope options path {} device
    return assembly.interfaces.foldl Output.emit (out.count assembly.interfaces)

def takeDevices (out : Output) : List (String × Json) → Run Output
  | [] => return out
  | (code, device) :: rest => do
    let out ← takeDevice scope options out code device
    takeDevices out rest

/-- Converts a document in a new session. -/
def convert (options : Options) (document : Json) :
    Except Failure (Output × Descriptor.Session) := do
  let definitions ← rootMember document "definitions"
  let devices ← rootMember document "devices"
  return (takeDevices { definitions, maxDepth := options.maxDepth } options {} devices).run {}

variable {out : Output}

theorem foldl_emit (interfaces : List Interface) : interfaces.foldl Output.emit out =
    ⟨out.interfaces ++ interfaces,
      { out.stats with
        devicesEmitted := out.stats.devicesEmitted + interfaces.length
        interfaces := out.stats.interfaces + (interfaces.flatMap (·.contents)).length }⟩ := by
  induction interfaces generalizing out with
  | nil => simp
  | cons interface rest ih =>
    rw [List.foldl_cons, ih]
    simp [Output.emit]
    omega

/-- The counters that are raised along the way come to the counts of the device. -/
theorem foldl_emit_count (interfaces : List Interface) :
    interfaces.foldl Output.emit (out.count interfaces) =
      ⟨out.interfaces ++ interfaces, out.stats + .ofDevice interfaces⟩ := by
  rw [foldl_emit]
  rfl

theorem followedBy_empty : out.followedBy {} = out := by
  have hinterfaces : out.interfaces ++ [] = out.interfaces := List.append_nil _
  exact congrArg (Output.mk · out.stats) hinterfaces

theorem followedBy_append (c d : Conversion) :
    out.followedBy (c ++ d) = (out.followedBy c).followedBy d := by
  have hinterfaces := List.append_assoc out.interfaces c.interfaces d.interfaces
  have hstats := Stats.add_assoc out.stats c.stats d.stats
  simp only [Output.followedBy, hinterfaces, hstats]
  rfl

theorem realizes_takeDevice (out : Output) (code : String) (device : Json) :
    Realizes [] "" (takeDevice scope options out code device)
      ⟨out.followedBy (ofDevice scope options code device),
        (ofDevice scope options code device).findings⟩ := by
  cases device with
  | obj members =>
    have hread : Realizes [] "" (Device.Session.read scope options
          (Pointer.join (Pointer.join "" "devices") code) {} (.obj members))
        ((((Device.read scope options (.obj members)).map
          (Device.Assembly.replay options {})).within code).within "devices") :=
      (Device.Session.realizes_read _ {} (.obj members)).within.within
    have hassemble : (Device.Assembly.replay options {}
        (Device.read scope options (.obj members)).value).interfaces =
          (ofDevice scope options code (.obj members)).interfaces :=
      Device.Assembly.interfaces_replay
    have hall := hread.map fun assembly =>
      assembly.interfaces.foldl Output.emit (out.count assembly.interfaces)
    refine hall.congr ?_
    simp only [Noted.map, Noted.within, hassemble, foldl_emit_count]
    rfl
  | _ =>
    exact ((realizes_report _).within.within.map fun _ => out).congr
      (Noted.ext followedBy_empty rfl)

theorem realizes_takeDevices (out : Output) (devices : List (String × Json)) :
    Realizes [] "" (takeDevices scope options out devices)
      ⟨out.followedBy (ofDevices scope options devices),
        (ofDevices scope options devices).findings⟩ := by
  induction devices generalizing out with
  | nil => exact (realizes_pure out).congr (by rw [ofDevices, followedBy_empty])
  | cons entry rest ih =>
    obtain ⟨code, device⟩ := entry
    have hall := (realizes_takeDevice scope options out code device).bind
      (f := fun out => takeDevices scope options out rest) (ih _)
    refine hall.congr ?_
    rw [ofDevices, followedBy_append, findings_append]

/-- A conversion in one session gives out what the conversion of the document is put together
from, and records its diagnostics; the stack is empty in the end. -/
theorem convert_eq (options : Options) (document : Json) : convert options document =
    (ofDocument options document).map fun c =>
      (⟨c.interfaces, c.stats⟩, { active := [], diagnostics := c.diagnostics }) := by
  unfold convert ofDocument
  cases rootMember document "definitions" with
  | error failure => rfl
  | ok definitions =>
    cases rootMember document "devices" with
    | error failure => rfl
    | ok devices =>
      have hrun := realizes_takeDevices { definitions, maxDepth := options.maxDepth } options {}
        devices {} rfl
      change Except.ok ((takeDevices _ options {} devices).run {}) = _
      rw [hrun]
      simp only [Output.followedBy, Stats.zero_add, List.nil_append]
      rfl

end DeviceTwin.Conversion.Session
