import DeviceTwin.Proofs.Conversion.Reports
import DeviceTwin.Proofs.Descriptor.Reports

/-!
The records of a document: the objects that are read member by member, or for certain members. What
is found in a record is found in every record that holds it.
-/
namespace DeviceTwin

/-- An object that is read as a record, by its members. Where descriptors are read, this is with a
number of levels below, the names in use, and for a descriptor an outline that it is applied to. -/
inductive Record where
  | device (members : List (String × Json))
  | property (members : List (String × Json))
  | rules (members : List (String × Json))
  | labels (members : List (String × Json))
  | descriptor (level : Nat) (active : List String) (o : Outline) (members : List (String × Json))
  | entry (members : List (String × Json))
  | part (level : Nat) (active : List String) (members : List (String × Json))
  | field (level : Nat) (active : List String) (members : List (String × Json))
  | position (members : List (String × Json))

namespace Record

open Descriptor (levelBelow takeMember takeEntry takePart takeField Follows)

def members : Record → List (String × Json)
  | device members | property members | rules members | labels members | descriptor _ _ _ members
  | entry members | part _ _ members | field _ _ members | position members => members

/-- The names that the members of a record can have. -/
def dialect : Record → List String
  | device _ => ["className", "elProperties", "oneOf", "validRelease", "firstRelease"]
  | property _ =>
    ["propertyName", "accessRule", "data", "oneOf", "validRelease", "note", "atomic"]
  | rules _ => ["get", "set", "inf"]
  | labels _ => ["ja", "en"]
  | descriptor .. => Descriptor.Keyword.all.map (·.name)
  | entry _ => ["edt", "state", "numericValue", "readOnly"]
  | part .. => ["name", "element"]
  | field .. => ["name", "descriptions", "position", "value"]
  | position _ => ["index", "bitMask"]

/-- `Holds scope record place inner`: reading the first record reads the second, which stands at
this place in it. -/
inductive Holds (scope : Scope) : Record → Pointer → Record → Prop
  | className {members names} (hm : ("className", .obj names) ∈ members) :
      Holds scope (.device members) ["className"] (.labels names)
  | elProperty {members properties code property}
      (hm : ("elProperties", .obj properties) ∈ members)
      (hproperty : (code, .obj property) ∈ properties) :
      Holds scope (.device members) ["elProperties", code] (.property property)
  | deviceVariant {members variants variant} {i : Nat} (hm : ("oneOf", .arr variants) ∈ members)
      (hi : variants[i]? = some (.obj variant)) :
      Holds scope (.device members) ["oneOf", toString i] (.device variant)
  | propertyName {members names} (hm : ("propertyName", .obj names) ∈ members) :
      Holds scope (.property members) ["propertyName"] (.labels names)
  | accessRule {members rules} (hm : ("accessRule", .obj rules) ∈ members) :
      Holds scope (.property members) ["accessRule"] (.rules rules)
  | data {members fields} (hm : ("data", .obj fields) ∈ members) :
      Holds scope (.property members) ["data"] (.descriptor scope.maxDepth [] {} fields)
  | propertyVariant {members variants variant} {i : Nat}
      (hm : ("oneOf", .arr variants) ∈ members) (hi : variants[i]? = some (.obj variant)) :
      Holds scope (.property members) ["oneOf", toString i] (.property variant)
  /-- Enumerations of numbers have no entries. -/
  | entry {level active o members r items entry} {i : Nat}
      (hv : Visits (takeMember scope (levelBelow scope level) active) o members r "enum"
        (.arr items))
      (hkind : r.kind = some .state ∨ r.kind = some .numericValue)
      (hi : items[i]? = some (.obj entry)) :
      Holds scope (.descriptor level active o members) ["enum", toString i] (.entry entry)
  | part {level active o members r items part} {i : Nat}
      (hv : Visits (takeMember scope (levelBelow scope level) active) o members r "properties"
        (.arr items))
      (hi : items[i]? = some (.obj part)) :
      Holds scope (.descriptor level active o members) ["properties", toString i]
        (.part level active part)
  | field {level active o members r items field} {i : Nat}
      (hv : Visits (takeMember scope (levelBelow scope level) active) o members r "bitmaps"
        (.arr items))
      (hi : items[i]? = some (.obj field)) :
      Holds scope (.descriptor level active o members) ["bitmaps", toString i]
        (.field level active field)
  | items {level active o members r fields}
      (hv : Visits (takeMember scope (levelBelow scope (level + 1)) active) o members r "items"
        (.obj fields)) :
      Holds scope (.descriptor (level + 1) active o members) ["items"]
        (.descriptor level active {} fields)
  | alternative {level active o members r items fields} {i : Nat}
      (hv : Visits (takeMember scope (levelBelow scope (level + 1)) active) o members r "oneOf"
        (.arr items))
      (hkind : r.kind = none) (hi : items[i]? = some (.obj fields)) :
      Holds scope (.descriptor (level + 1) active o members) ["oneOf", toString i]
        (.descriptor level active {} fields)
  | definition {level active o members r key value reference name fields}
      (hv : Visits (takeMember scope (levelBelow scope (level + 1)) active) o members r key value)
      (hf : Follows scope active r key value reference name (.obj fields)) :
      Holds scope (.descriptor (level + 1) active o members) [key]
        (.descriptor level (name :: active) (r.noteReference reference) fields)
  | state {members names} (hm : ("state", .obj names) ∈ members) :
      Holds scope (.entry members) ["state"] (.labels names)
  | element {level active members fields} (hm : ("element", .obj fields) ∈ members) :
      Holds scope (.part (level + 1) active members) ["element"]
        (.descriptor level active {} fields)
  | descriptions {level active members names} (hm : ("descriptions", .obj names) ∈ members) :
      Holds scope (.field level active members) ["descriptions"] (.labels names)
  | position {level active members fields} (hm : ("position", .obj fields) ∈ members) :
      Holds scope (.field level active members) ["position"] (.position fields)
  | value {level active members fields} (hm : ("value", .obj fields) ∈ members) :
      Holds scope (.field (level + 1) active members) ["value"] (.descriptor level active {} fields)

/-- `Reads scope record place inner`: reading the first record reads the second, somewhere inside
of it or in the definitions that it refers to. -/
inductive Reads (scope : Scope) : Record → Pointer → Record → Prop
  | self {record} : Reads scope record [] record
  | step {record place next rest inner} (h : Holds scope record place next)
      (hrest : Reads scope next rest inner) : Reads scope record (place ++ rest) inner

/-- What is found in a record. Texts and positions are read for certain members, and what is wrong
with these is found where the record stands. -/
def findings (scope : Scope) (options : Options) : Record → List Finding
  | device members => (Device.read scope options (.obj members)).findings
  | property members => (Property.read scope options (.obj members)).findings
  | rules members => (readMembers Property.takeRule {} members).findings
  | descriptor level active o members =>
    (Descriptor.apply scope level active (.obj members) o).findings
  | entry members => (readRecord takeEntry {} (.obj members)).findings
  | part level active members =>
    (readRecord (takePart scope (levelBelow scope level) active) { shape := {} }
      (.obj members)).findings
  | field level active members =>
    (readRecord (takeField scope (levelBelow scope level) active) { value := {} }
      (.obj members)).findings
  | labels _ | position _ => []

variable {scope : Scope} {options : Options} {level : Nat} {active : List String} {o r : Outline}
  {key : String} {value : Json} {members fields : List (String × Json)} {items : List Json}
  {record inner : Record} {place : Pointer}

theorem keeps_nil (findings : List Finding) : Keeps place [] findings := nofun

theorem keeps_member
    (hv : Visits (takeMember scope (levelBelow scope level) active) o members r key value) :
    Keeps [key] (takeMember scope (levelBelow scope level) active r key value).findings
      (findings scope options (.descriptor level active o members)) := by
  rw [findings, Descriptor.apply_eq_applyOver]
  exact keeps_readMembers hv

/-- What is found in a descriptor is found where it is read on its own. -/
theorem keeps_readNested : Keeps [] (findings scope options (.descriptor level active {} fields))
    (Descriptor.readNested scope (levelBelow scope (level + 1)) active (.obj fields)).findings :=
  Descriptor.keeps_complete _

/-- What is found in a descriptor is found in the descriptor that it is inside of. -/
theorem keeps_inside
    (hv : Visits (takeMember scope (levelBelow scope (level + 1)) active) o members r key value)
    (hi : Descriptor.Inside r key value place (.obj fields)) :
    Keeps (key :: place) (findings scope options (.descriptor level active {} fields))
      (findings scope options (.descriptor (level + 1) active o members)) := by
  have hnested : Keeps (place ++ []) (findings scope options (.descriptor level active {} fields))
      (takeMember scope (levelBelow scope (level + 1)) active r key value).findings :=
    keeps_readNested.trans hi.keeps
  rw [List.append_nil] at hnested
  exact hnested.trans (keeps_member hv)

theorem keeps_definition {reference name : String}
    (hv : Visits (takeMember scope (levelBelow scope (level + 1)) active) o members r key value)
    (hf : Follows scope active r key value reference name (.obj fields)) :
    Keeps [key] (findings scope options
        (.descriptor level (name :: active) (r.noteReference reference) fields))
      (findings scope options (.descriptor (level + 1) active o members)) := by
  have hmember : Keeps [] (findings scope options
        (.descriptor level (name :: active) (r.noteReference reference) fields))
      (takeMember scope (levelBelow scope (level + 1)) active r key value).findings :=
    hf.keeps (f := Descriptor.apply scope level)
  exact hmember.trans (keeps_member hv)

theorem findings_entries (hkind : r.kind = some .state ∨ r.kind = some .numericValue) :
    (takeMember scope (levelBelow scope level) active r "enum" (.arr items)).findings =
      (Descriptor.readEntries items).findings := by
  have hk : Descriptor.Keyword.ofName? "enum" = some .values := rfl
  rcases hkind with hkind | hkind <;>
    simp [takeMember, hk, Descriptor.takeKeyword, Descriptor.takeValues, Json.expectArray, hkind,
      Taken.store]

/-- What is found in a record is found in the record that holds it. -/
theorem Holds.keeps (h : Holds scope record place inner) :
    Keeps place (inner.findings scope options) (record.findings scope options) := by
  cases h with
  | className | propertyName | state | descriptions | position => exact keeps_nil _
  | elProperty hm hproperty => exact Device.keeps_property hm hproperty
  | deviceVariant hm hi => exact Device.keeps_variant (.variant hm hi .self)
  | accessRule hm =>
    obtain ⟨draft, hsub⟩ := Property.exists_member_subset hm (by decide)
    exact fun f hf => hsub (List.mem_map_of_mem (List.mem_append_left _ hf))
  | data hm => exact (Descriptor.keeps_complete _).trans (Property.keeps_data hm)
  | propertyVariant hm hi => exact Property.keeps_variant (.variant hm hi .self)
  | entry hv hkind hi =>
    have hitems := keeps_readItems (readRecord takeEntry {}) hi
    rw [← Descriptor.readEntries, ← findings_entries hkind] at hitems
    exact hitems.trans (keeps_member hv)
  | part hv hi => exact (keeps_readItems _ hi).trans (keeps_member hv)
  | field hv hi => exact (keeps_readItems _ hi).trans (keeps_member hv)
  | items hv => exact keeps_inside hv .element
  | alternative hv hkind hi => exact keeps_inside hv (.alternative hkind hi)
  | definition hv hf => exact keeps_definition hv hf
  | @element level active members fields hm =>
    obtain ⟨r, hv⟩ : ∃ r, Visits (takePart scope (levelBelow scope (level + 1)) active)
      { shape := {} } members r "element" (.obj fields) := exists_visits_of_mem hm
    have hnested : Keeps [] (findings scope options (.descriptor level active {} fields))
        (takePart scope (levelBelow scope (level + 1)) active r "element" (.obj fields)).findings :=
      keeps_readNested
    exact hnested.trans (keeps_readRecord hv)
  | @value level active members fields hm =>
    obtain ⟨r, hv⟩ : ∃ r, Visits (takeField scope (levelBelow scope (level + 1)) active)
      { value := {} } members r "value" (.obj fields) := exists_visits_of_mem hm
    have hnested : Keeps [] (findings scope options (.descriptor level active {} fields))
        (takeField scope (levelBelow scope (level + 1)) active r "value" (.obj fields)).findings :=
      keeps_readNested
    exact hnested.trans (keeps_readRecord hv)

/-- What is found in a record is found wherever the record is read. -/
theorem Reads.keeps (h : Reads scope record place inner) :
    Keeps place (inner.findings scope options) (record.findings scope options) := by
  induction h with
  | self => exact keeps_refl _
  | step h _ ih => exact ih.trans h.keeps

end Record
end DeviceTwin
