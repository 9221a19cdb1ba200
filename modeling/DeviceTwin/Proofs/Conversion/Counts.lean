import DeviceTwin.Proofs.Conversion.Devices

/-! The counts of a conversion, taken device by device, are those of its input and its output. -/
namespace DeviceTwin.Conversion

variable (scope : Scope) (options : Options)

/-- A device without any interface. Entries that are no objects are no devices. -/
def isDropped (entry : String × Json) : Bool :=
  entry.2.members?.isSome && (ofDevice scope options entry.1 entry.2).interfaces.isEmpty

/-- What is to be counted of these entries and their interfaces. -/
def countsOf (devices : List (String × Json)) (interfaces : List Interface) : Stats where
  devices := devices.countP fun entry => entry.2.members?.isSome
  devicesEmitted := interfaces.length
  devicesDropped := devices.countP (isDropped scope options)
  interfaces := (interfaces.flatMap (·.contents)).length

theorem countsOf_append (devices later : List (String × Json))
    (interfaces others : List Interface) :
    countsOf scope options (devices ++ later) (interfaces ++ others) =
      countsOf scope options devices interfaces + countsOf scope options later others := by
  ext
  · exact List.countP_append
  · exact List.length_append
  · exact List.countP_append
  · exact (congrArg List.length List.flatMap_append).trans List.length_append

/-- One entry is counted right. What is no object has no interfaces. -/
theorem stats_ofDevice (code : String) (device : Json) :
    (ofDevice scope options code device).stats =
      countsOf scope options [(code, device)] (ofDevice scope options code device).interfaces := by
  cases device with
  | obj members =>
    have hstats : (ofDevice scope options code (.obj members)).stats =
        .ofDevice (ofDevice scope options code (.obj members)).interfaces := rfl
    simp [hstats, Stats.ofDevice, countsOf, isDropped, Json.members?]
  | _ => rfl

/-- All entries are counted right. -/
theorem stats_ofDevices (devices : List (String × Json)) :
    (ofDevices scope options devices).stats =
      countsOf scope options devices (ofDevices scope options devices).interfaces := by
  induction devices with
  | nil => rfl
  | cons entry rest ih =>
    have hstats : (ofDevices scope options (entry :: rest)).stats =
        (ofDevice scope options entry.1 entry.2).stats + (ofDevices scope options rest).stats := rfl
    rw [hstats, stats_ofDevice, ih, ← countsOf_append]
    rfl

/-- What is counted of the interfaces is right. -/
structure IsCounted (c : Conversion) : Prop where
  emitted : c.stats.devicesEmitted = c.interfaces.length
  contents : c.stats.interfaces = (c.interfaces.flatMap (·.contents)).length

theorem isCounted_ofDocument {options : Options} {document : Json} {c : Conversion}
    (h : ofDocument options document = .ok c) : c.IsCounted := by
  obtain ⟨definitions, devices, -, -, rfl⟩ := rootMembers_of_ofDocument h
  have hstats := stats_ofDevices { definitions, maxDepth := options.maxDepth } options devices
  exact ⟨congrArg Stats.devicesEmitted hstats, congrArg Stats.interfaces hstats⟩

end DeviceTwin.Conversion
