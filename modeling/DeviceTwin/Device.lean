import DeviceTwin.Property

/-!
Devices of a description. Reading a device gives a trace: contents as properties produce them, and
an end for the device and for each of its variants. An end takes the contents produced since the
end before it, and drops them if the class has no English name.
-/
namespace DeviceTwin.Device

inductive Event where
  /-- A property has produced contents. -/
  | produced (contents : List Content)
  /-- A device or variant of this class has ended. -/
  | ended (className : Labels)

/-- The interfaces of a trace, when `pending` has been produced before it. -/
def assembleFrom (options : Options) (pending : List Content) : List Event → List Interface
  | [] => []
  | .produced contents :: rest => assembleFrom options (pending ++ contents) rest
  | .ended ⟨ja, some en⟩ :: rest =>
    Interface.make options ja en pending :: assembleFrom options [] rest
  | .ended ⟨_, none⟩ :: rest => assembleFrom options [] rest

def assemble (options : Options) (trace : List Event) : List Interface :=
  assembleFrom options [] trace

/-- A device that is being read. -/
structure Draft where
  className : Labels := {}
  trace : List Event := []

/-- Reads properties, an event for each. -/
def readProperties (scope : Scope) (options : Options) :
    List (String × Json) → Noted (List Event)
  | [] => ⟨[], []⟩
  | (code, property) :: rest =>
    let first := (Property.read scope options property).within code
    let later := readProperties scope options rest
    ⟨.produced first.value :: later.value, first.findings ++ later.findings⟩

/-- Takes a member that extends the trace. -/
def Draft.extend (draft : Draft) (events : Noted (List Event)) : Taken Draft :=
  .store draft events fun events => .ok { draft with trace := draft.trace ++ events }

/-- Takes a member other than variants. Some are only checked. -/
def Draft.takeMember (scope : Scope) (options : Options) (draft : Draft) (key : String)
    (value : Json) : Taken Draft :=
  match key with
  | "className" =>
    .ofExcept draft ((Labels.read value).map fun className => { draft with className })
  | "elProperties" =>
    match value.expectObject with
    | .error violation => .refused draft violation
    | .ok properties => draft.extend (readProperties scope options properties)
  | "validRelease" => .ofExcept draft (value.expectObject.map fun _ => draft)
  | "firstRelease" => .ofExcept draft (value.expectString.map fun _ => draft)
  | key => .refused draft (.unknownMember key)

/-- The trace of a device whose members have been taken. -/
def Draft.finish (draft : Draft) : List Event := draft.trace ++ [.ended draft.className]

mutual

/-- Reads a device or a variant as its trace. One that is no object leaves no event. -/
def read (scope : Scope) (options : Options) : Json → Noted (List Event)
  | .obj members => (readDraft scope options {} members).map Draft.finish
  | other => .refused [] (.unexpectedType "object" other.typeName)

/-- Takes the members of a device in order. -/
def readDraft (scope : Scope) (options : Options) (draft : Draft) :
    List (String × Json) → Noted Draft
  | [] => ⟨draft, []⟩
  | (key, value) :: rest =>
    let taken :=
      if key = "oneOf" then
        match value with
        | .arr variants => draft.extend (readVariants scope options 0 variants)
        | other => .refused draft (.unexpectedType "array" other.typeName)
      else draft.takeMember scope options key value
    let later := readDraft scope options taken.record rest
    ⟨later.value, taken.findingsUnder key ++ later.findings⟩

/-- Reads variants; the first of them stands at `position`. -/
def readVariants (scope : Scope) (options : Options) (position : Nat) :
    List Json → Noted (List Event)
  | [] => ⟨[], []⟩
  | variant :: rest =>
    let first := (read scope options variant).within (toString position)
    let later := readVariants scope options (position + 1) rest
    ⟨first.value ++ later.value, first.findings ++ later.findings⟩

end

end DeviceTwin.Device
