import DeviceTwin.Proofs.Conversion.Location
import DeviceTwin.Proofs.Conversion.Records

/-!
Members that a record cannot have. All records report them but texts and bit positions, which are
read for certain members only.
-/
namespace DeviceTwin

namespace Record

/-- The record is read member by member, and not for certain members only. -/
def isStrict : Record → Bool
  | labels _ | position _ => false
  | _ => true

/-- How a member that a record cannot have is reported. Access rules look at the value first. -/
def unknown : Record → String → Json → Violation
  | rules _, key, value =>
    match value.expectString with
    | .ok _ => .unknownMember key
    | .error v => v
  | _, key, _ => .unknownMember key

variable {ρ : Type} {scope : Scope} {options : Options} {record : Record} {key : String}
  {value : Json} {members : List (String × Json)} {take : ρ → String → Json → Taken ρ} {o : ρ}
  {v : Violation}

section Refusals

/-! How the members that a record cannot have are refused. -/

variable {below : Option Descriptor.Application} {active : List String} {o : Outline}

theorem refusal_takeDevice {draft : Device.Draft} (h : key ∉ (device members).dialect) :
    (takeOrExtend (Device.read scope options) (Device.Draft.takeMember scope options)
      Device.Draft.extend draft key value).refusal = some (.unknownMember key) := by
  simp only [dialect, List.mem_cons, List.not_mem_nil, or_false, not_or] at h
  simp only [takeOrExtend, if_neg h.2.2.1]
  unfold Device.Draft.takeMember
  split <;> simp_all [Taken.refused]

theorem refusal_takeProperty {draft : Property.Draft} (h : key ∉ (property members).dialect) :
    (takeOrExtend (Property.read scope options) (Property.Draft.takeMember scope)
      Property.Draft.takeVariants draft key value).refusal = some (.unknownMember key) := by
  simp only [dialect, List.mem_cons, List.not_mem_nil, or_false, not_or] at h
  simp only [takeOrExtend, if_neg h.2.2.2.1]
  unfold Property.Draft.takeMember
  split <;> simp_all [Taken.refused]

theorem refusal_takeRule {access : Access} (h : key ∉ (rules members).dialect) :
    (Property.takeRule access key value).refusal = some ((rules members).unknown key value) := by
  simp only [dialect, List.mem_cons, List.not_mem_nil, or_false, not_or] at h
  simp only [Property.takeRule, unknown]
  cases value.expectString with
  | error v => rfl
  | ok name =>
    simp only [bind, Except.bind]
    split <;> simp_all [Taken.ofExcept]

theorem refusal_takeMember (h : key ∉ Descriptor.Keyword.all.map (·.name)) :
    (Descriptor.takeMember scope below active o key value).refusal =
      some (.unknownMember key) := by
  have hnone : Descriptor.Keyword.ofName? key = none := by
    refine List.find?_eq_none.mpr fun keyword hkeyword hname => h ?_
    exact List.mem_map.mpr ⟨keyword, hkeyword, of_decide_eq_true hname⟩
  simp only [Descriptor.takeMember, hnone, Taken.refused]

theorem refusal_takeEntry {entry : StateEntry} (h : key ∉ (Record.entry members).dialect) :
    (Descriptor.takeEntry entry key value).refusal = some (.unknownMember key) := by
  simp only [dialect, List.mem_cons, List.not_mem_nil, or_false, not_or] at h
  unfold Descriptor.takeEntry
  split <;> simp_all [Taken.ofExcept]

theorem refusal_takePart {part : Member Shape} {level : Nat}
    (h : key ∉ (Record.part level active members).dialect) :
    (Descriptor.takePart scope below active part key value).refusal =
      some (.unknownMember key) := by
  simp only [dialect, List.mem_cons, List.not_mem_nil, or_false, not_or] at h
  unfold Descriptor.takePart
  split <;> simp_all [Taken.refused]

theorem refusal_takeField {field : BitField Shape} {level : Nat}
    (h : key ∉ (Record.field level active members).dialect) :
    (Descriptor.takeField scope below active field key value).refusal =
      some (.unknownMember key) := by
  simp only [dialect, List.mem_cons, List.not_mem_nil, or_false, not_or] at h
  unfold Descriptor.takeField
  split <;> simp_all [Taken.refused]

end Refusals

/-- What is refused at every record is found. -/
theorem mem_findings_of_refused (hm : (key, value) ∈ members)
    (h : ∀ r, (take r key value).refusal = some v) :
    ⟨[key], v⟩ ∈ (readMembers take o members).findings := by
  obtain ⟨r, hv⟩ := exists_visits_of_mem hm
  exact refusal_mem_readMembers hv (h r)

/-- A member that a record cannot have is found in it, at its key. -/
theorem unknown_mem_findings (scope : Scope) (options : Options) (hstrict : record.isStrict)
    (hm : (key, value) ∈ record.members) (hkey : key ∉ record.dialect) :
    ⟨[key], record.unknown key value⟩ ∈ record.findings scope options := by
  cases record with
  | device members =>
    have hfound : ⟨[key], .unknownMember key⟩ ∈ (readMembers (takeOrExtend
        (Device.read scope options) (Device.Draft.takeMember scope options) Device.Draft.extend) {}
        members).findings := mem_findings_of_refused hm fun _ => refusal_takeDevice hkey
    rwa [← Device.readDraft_eq_readMembers] at hfound
  | property members =>
    have hfound : ⟨[key], .unknownMember key⟩ ∈ (readMembers (takeOrExtend
        (Property.read scope options) (Property.Draft.takeMember scope)
        Property.Draft.takeVariants) {} members).findings :=
      mem_findings_of_refused hm fun _ => refusal_takeProperty hkey
    rw [← Property.readDraft_eq_readMembers] at hfound
    rw [findings, Property.read]
    exact Property.findings_subset_finish _ hfound
  | rules members => exact mem_findings_of_refused hm fun _ => refusal_takeRule hkey
  | descriptor level active o members =>
    rw [findings, Descriptor.apply_eq_applyOver]
    exact mem_findings_of_refused hm fun _ => refusal_takeMember hkey
  | entry members => exact mem_findings_of_refused hm fun _ => refusal_takeEntry hkey
  | part level active members => exact mem_findings_of_refused hm fun _ => refusal_takePart hkey
  | field level active members => exact mem_findings_of_refused hm fun _ => refusal_takeField hkey
  | labels members => cases hstrict
  | position members => cases hstrict

end Record

namespace Conversion

/-- `ReadsRecord document options place record`: converting the document reads this record, which
stands at this place unless the place goes on behind a reference. -/
def ReadsRecord (options : Options) (document : Json) (place : Pointer) (record : Record) : Prop :=
  ∃ definitions devices code device rest, rootMember document "definitions" = .ok definitions ∧
    rootMember document "devices" = .ok devices ∧ (code, .obj device) ∈ devices ∧
    Record.Reads { definitions, maxDepth := options.maxDepth } (.device device) rest record ∧
    place = "devices" :: code :: rest

/-- Every member that a record of a converted document cannot have is reported at its place, texts
and bit positions apart. If nothing is reported, the other records have members of their dialect
only. -/
theorem ofDocument_strict (options : Options) (document : Json) (c : Conversion) (place : Pointer)
    (record : Record) (hc : ofDocument options document = .ok c)
    (hread : ReadsRecord options document place record) (hstrict : record.isStrict) :
    (∀ key value, (key, value) ∈ record.members → key ∉ record.dialect →
      ⟨(place ++ [key]).renderFrom "", record.unknown key value⟩ ∈ c.diagnostics) ∧
    (c.diagnostics = [] → ∀ key ∈ Json.keys record.members, key ∈ record.dialect) := by
  obtain ⟨definitions, devices, code, device, rest, hdefs, hdevices, hm, hreads, rfl⟩ := hread
  rw [ofDocument_eq hdefs hdevices, Except.ok.injEq] at hc
  subst hc
  have hreported : ∀ key value, (key, value) ∈ record.members → key ∉ record.dialect →
      ⟨Pointer.renderFrom "" (("devices" :: code :: rest) ++ [key]), record.unknown key value⟩ ∈
        (ofDevices { definitions, maxDepth := options.maxDepth } options devices).diagnostics := by
    intro key value hmember hkey
    have hfound := (hreads.keeps.trans (keeps_device hm)) _
      (Record.unknown_mem_findings _ options hstrict hmember hkey)
    exact List.mem_map.mpr ⟨_, hfound, rfl⟩
  refine ⟨hreported, fun hclean key hkey => ?_⟩
  obtain ⟨⟨_, value⟩, hmember, rfl⟩ := List.mem_map.mp hkey
  by_contra hunknown
  have hmem := hreported _ value hmember hunknown
  rw [hclean] at hmem
  cases hmem

/-- The definition that the first property of `linkedDocument` refers to. -/
def shade : List (String × Json) := [("type", .str "level"), ("colour", .str "red")]

/-- The definition as a record, in the place of the reference. -/
def linkedShade : Record :=
  .descriptor 31 ["shade"] { reference := some "#/definitions/shade" } shade

def linkedPlace : Pointer := ["devices", "0x0130", "elProperties", "0x80", "data", "$ref"]

theorem readsRecord_linkedShade : ReadsRecord {} linkedDocument linkedPlace linkedShade :=
  ⟨_, _, "0x0130", _, ["elProperties", "0x80", "data", "$ref"], rfl, rfl, .head _,
    .step (.elProperty (.head _) (.head _)) (.step (.data (.tail _ (.tail _ (.head _))))
      (.step (.definition .here ⟨rfl, rfl, rfl, rfl, List.not_mem_nil, rfl⟩) .self)), rfl⟩

theorem ofDocument_strict_linked : ∃ c, ofDocument {} linkedDocument = .ok c ∧
    ReadsRecord {} linkedDocument linkedPlace linkedShade ∧ linkedShade.isStrict ∧
    ⟨"/devices/0x0130/elProperties/0x80/data/$ref/colour", .unknownMember "colour"⟩ ∈
      c.diagnostics := by
  obtain ⟨c, hc⟩ : ∃ c, ofDocument {} linkedDocument = .ok c := ⟨_, rfl⟩
  have hreported := (ofDocument_strict {} linkedDocument c linkedPlace linkedShade hc
    readsRecord_linkedShade rfl).1 "colour" (.str "red") (.tail _ (.head _)) (by decide)
  exact ⟨c, hc, readsRecord_linkedShade, rfl, hreported⟩

def frenchName : List (String × Json) := [("en", .str "Lamp"), ("fr", .str "Lampe")]

def widePosition : List (String × Json) :=
  [("index", .int 0), ("bitMask", .str "0b1"), ("width", .int 1)]

/-- A device with a text in a third language, and a bit field with the width of its position. -/
def lenientDocument : Json :=
  .obj [("definitions", .obj []),
    ("devices", .obj [("0x0290", .obj [("className", .obj frenchName),
      ("elProperties", .obj [("0x80", .obj [("propertyName", .obj [("en", .str "Power")]),
        ("accessRule", .obj [("get", .str "required"), ("inf", .str "required")]),
        ("data", .obj [("type", .str "bitmap"), ("bitmaps", .arr [.obj [
          ("position", .obj widePosition), ("value", .obj [("type", .str "level")])]])])])])])])]

/-- Texts and bit positions do not report members that they cannot have. -/
theorem lenient_records_clean : ∃ c, ofDocument {} lenientDocument = .ok c ∧ c.isClean ∧
    ReadsRecord {} lenientDocument ["devices", "0x0290", "className"] (.labels frenchName) ∧
    "fr" ∈ Json.keys frenchName ∧ "fr" ∉ (Record.labels frenchName).dialect ∧
    ReadsRecord {} lenientDocument
      ["devices", "0x0290", "elProperties", "0x80", "data", "bitmaps", toString 0, "position"]
      (.position widePosition) ∧
    "width" ∈ Json.keys widePosition ∧ "width" ∉ (Record.position widePosition).dialect := by
  refine ⟨_, rfl, by decide, ?_, by decide, by decide, ?_, by decide, by decide⟩
  · exact ⟨_, _, "0x0290", _, ["className"], rfl, rfl, .head _,
      .step (.className (.head _)) .self, rfl⟩
  · exact ⟨_, _, "0x0290", _,
      ["elProperties", "0x80", "data", "bitmaps", toString 0, "position"], rfl, rfl, .head _,
      .step (.elProperty (.tail _ (.head _)) (.head _))
        (.step (.data (.tail _ (.tail _ (.head _))))
          (.step (.field (.later .here) rfl) (.step (.position (.head _)) .self))), rfl⟩

end Conversion
end DeviceTwin
