import DeviceTwin.Proofs.Conversion.Devices

/-!
The interfaces of a document: those of its devices, each of which emits what its closings take.
-/
namespace DeviceTwin.Conversion

/-- The interfaces of a document are those of its entries in order, and every entry emits one
interface for each closing with an English name, with exactly the contents of that closing. -/
theorem ofDocument_emits (options : Options) (document : Json)
    (definitions devices : List (String × Json))
    (hdefs : rootMember document "definitions" = .ok definitions)
    (hdevices : rootMember document "devices" = .ok devices) :
    ∃ c, ofDocument options document = .ok c ∧
      c.interfaces = devices.flatMap (fun entry =>
        (ofDevice { definitions, maxDepth := options.maxDepth } options entry.1
          entry.2).interfaces) ∧
      ∀ entry ∈ devices,
        Device.Emits { definitions, maxDepth := options.maxDepth } options entry.2
          (ofDevice { definitions, maxDepth := options.maxDepth } options entry.1
            entry.2).interfaces :=
  ⟨_, ofDocument_eq hdefs hdevices options, interfaces_ofDevices _ options devices,
    fun entry _ => Device.emits_assemble _ options entry.2⟩

/-- A property that can be read and is announced. -/
def levelProperty (name : String) : Json :=
  .obj [("propertyName", .obj [("en", .str name)]),
    ("accessRule", .obj [("get", .str "required"), ("inf", .str "required")]),
    ("data", .obj [("type", .str "level")])]

/-- A device with variants before its property. The first variant has no English name, the second
is no object, and the third has a property before a variant of its own. -/
def variedDevice : Json :=
  .obj [("className", .obj [("en", .str "Whole")]),
    ("oneOf", .arr [
      .obj [("className", .obj [("ja", .str "無名")]),
        ("elProperties", .obj [("0x80", levelProperty "Lost")])],
      .null,
      .obj [("elProperties", .obj [("0x81", levelProperty "Kept")]),
        ("className", .obj [("en", .str "Outer")]),
        ("oneOf", .arr [.obj [("className", .obj [("en", .str "Inner")])]])]]),
    ("elProperties", .obj [("0x82", levelProperty "Last")])]

def variedDocument : Json :=
  .obj [("definitions", .obj []), ("devices", .obj [("0x0130", variedDevice)])]

theorem ofDocument_emits_varied :
    rootMember variedDocument "definitions" = .ok [] ∧
      rootMember variedDocument "devices" = .ok [("0x0130", variedDevice)] ∧
      ∃ c, ofDocument {} variedDocument = .ok c ∧
        c.interfaces = [("0x0130", variedDevice)].flatMap (fun entry =>
          (ofDevice { maxDepth := 32 } {} entry.1 entry.2).interfaces) ∧
        ∀ entry ∈ [("0x0130", variedDevice)],
          Device.Emits { maxDepth := 32 } {} entry.2
            (ofDevice { maxDepth := 32 } {} entry.1 entry.2).interfaces := by
  have hdefs : rootMember variedDocument "definitions" = .ok [] := rfl
  have hdevices : rootMember variedDocument "devices" = .ok [("0x0130", variedDevice)] := rfl
  exact ⟨hdefs, hdevices, ofDocument_emits {} variedDocument _ _ hdefs hdevices⟩

/-- The inner variant ends first and takes what the outer one has produced so far. -/
example : (ofDevice { maxDepth := 32 } {} "0x0130" variedDevice).interfaces.map
    (fun interface => (interface.id, interface.contents.map (·.name))) =
      [("urn:EchonetLite:Inner:1", ["Kept"]), ("urn:EchonetLite:Outer:1", []),
        ("urn:EchonetLite:Whole:1", ["Last"])] := by
  decide

end DeviceTwin.Conversion
