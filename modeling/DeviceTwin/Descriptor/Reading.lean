import DeviceTwin.Descriptor.Code
import DeviceTwin.Descriptor.Keyword
import DeviceTwin.Shape.Outline

/-!
Reading type descriptors as shapes.

Members are taken in document order, and a followed reference puts the members of a definition in
its own place. Descriptors inside of descriptors and followed references both lead one level down;
the level below is an argument of everything here, and at the last level there is none.
-/
namespace DeviceTwin

/-- What descriptors are read against. -/
structure Scope where
  /-- The definitions that references can name. -/
  definitions : List (String × Json) := []
  /-- How many levels there are below the outermost descriptor. -/
  maxDepth : Nat

namespace Descriptor

/-- Applies a descriptor to an outline, given the names of the definitions that it is part of. -/
abbrev Application := List String → Json → Outline → Noted Outline

/-- The complete shape; collections that it leaves out are reported at the descriptor. -/
def complete (n : Noted Outline) : Noted Shape :=
  let (shape, misplaced) := n.value.complete
  ⟨shape, n.findings ++ misplaced.map (Finding.mk [])⟩

variable (scope : Scope) (below : Option Application) (active : List String)

/-- Reads a descriptor inside of another. -/
def readNested (descriptor : Json) : Noted Shape :=
  match below with
  | none => .refused {} (.depthExceeded scope.maxDepth)
  | some apply => complete (apply active descriptor {})

/-- Takes one member of a part of an object. -/
def takePart (member : Member Shape) (key : String) (value : Json) : Taken (Member Shape) :=
  match key with
  | "name" =>
    .ofExcept member (value.expectString.map fun name => { member with name := some name })
  | "element" =>
    .store member (readNested scope below active value) fun shape => .ok { member with shape }
  | key => .refused member (.unknownMember key)

/-- Takes one member of a bit field. -/
def takeField (field : BitField Shape) (key : String) (value : Json) : Taken (BitField Shape) :=
  match key with
  | "name" => .ofExcept field (value.expectString.map fun name => { field with name := some name })
  | "descriptions" =>
    .ofExcept field ((Labels.read value).map fun description => { field with description })
  | "position" =>
    .ofExcept field ((BitPosition.read value).map fun ⟨index, mask⟩ => { field with index, mask })
  | "value" =>
    .store field (readNested scope below active value) fun value => .ok { field with value }
  | key => .refused field (.unknownMember key)

/-- Reads the alternatives of a descriptor; none of them is left out. -/
def readAlternatives (items : List Json) : Noted (List (Member Shape)) :=
  readItems (fun item => (readNested scope below active item).map fun shape => some { shape }) 0
    items

def referencePrefix : List Char := "#/definitions/".toList

/-- The name of the definition that a reference points to. -/
def definitionName? (reference : String) : Option String :=
  if referencePrefix.isPrefixOf reference.toList then
    some (String.ofList (reference.toList.drop referencePrefix.length))
  else none

/-- Takes the members of a definition in place of a reference to it. The kind must still be open,
and the definition must not be one that is being taken already. -/
def takeReference (o : Outline) (reference : String) : Taken Outline :=
  match definitionName? reference with
  | none => .refused o (.malformedReference reference)
  | some name =>
    match scope.definitions.lookup name with
    | none => .refused o (.undefinedReference reference)
    | some target =>
      if active.contains name then .refused o (.circularReference reference)
      else
        match o.kind, below with
        | some existing, _ => .refused o (.kindAlreadySet existing.name)
        | none, none => .refused o (.depthExceeded scope.maxDepth)
        | none, some apply =>
          let inlined := apply (name :: active) target (o.noteReference reference)
          { record := inlined.value, findings := inlined.findings }

/-- Takes an enumeration: of states, or of numbers once their format is known. -/
def takeValues (o : Outline) (value : Json) : Taken Outline :=
  match value.expectArray with
  | .error violation => .refused o violation
  | .ok items =>
    match o.kind with
    | some .state | some .numericValue => .store o (readEntries items) o.addStates
    | some .number =>
      match o.format with
      | none => .refused o .missingNumberFormat
      | some format => .ofExcept o ((NumberWords.read format items).bind o.addNumbers)
    | other => .refused o (.enumNotSupported (Tag.nameOf other))

/-- Takes alternatives, which are a kind of their own. -/
def takeAlternatives (o : Outline) (value : Json) : Taken Outline :=
  match o.kind with
  | some existing => .refused o (.kindAlreadySet existing.name)
  | none =>
    match value.expectArray with
    | .error violation => .refused o violation
    | .ok items =>
      let o := { o with kind := some .oneOf }
      .store o (readAlternatives scope below active items) (o.addChildren "oneOf")

/-- Takes an array of parts or bit fields. -/
def takeArray {α : Type} (o : Outline) (value : Json) (read : List Json → Noted α)
    (put : α → Except Violation Outline) : Taken Outline :=
  match value.expectArray with
  | .error violation => .refused o violation
  | .ok items => .store o (read items) put

/-- Takes the descriptor of the items of an array. -/
def takeElement (o : Outline) (value : Json) : Taken Outline :=
  match value.expectObject with
  | .error violation => .refused o violation
  | .ok _ =>
    .store o (readNested scope below active value) fun shape => o.addChildren "items" [{ shape }]

/-- Takes an attribute. -/
def takeAttribute {α : Type} (o : Outline) (value : Except Violation α)
    (put : Attributes → α → Attributes) : Taken Outline :=
  .ofExcept o (value.map fun x => { o with attributes := put o.attributes x })

/-- The kind that a description names. -/
def readKind (value : Json) : Except Violation Tag := do
  let name ← value.expectString
  match Tag.ofName? name with
  | some kind => .ok kind
  | none => .error (.unknownDataType name)

def readFormat (value : Json) : Except Violation NumberFormat := do
  let name ← value.expectString
  match NumberFormat.ofName? name with
  | some format => .ok format
  | none => .error (.unknownNumberFormat name)

def readCodes (value : Json) : Except Violation (List String) := do
  (← value.expectArray).mapM Json.expectString

/-- Takes one member of a descriptor. -/
def takeKeyword (o : Outline) (keyword : Keyword) (value : Json) : Taken Outline :=
  match keyword with
  | .kind => .ofExcept o ((readKind value).bind o.fixKind)
  | .values => takeValues o value
  | .properties =>
    takeArray o value (readItems (readRecord (takePart scope below active) { shape := {} }) 0)
      (o.addChildren "properties")
  | .items => takeElement scope below active o value
  | .bitmaps =>
    takeArray o value (readItems (readRecord (takeField scope below active) { value := {} }) 0)
      o.addBitFields
  | .oneOf => takeAlternatives scope below active o value
  | .format => .ofExcept o ((readFormat value).map o.useFormat)
  | .reference =>
    match value.expectString with
    | .error violation => .refused o violation
    | .ok reference => takeReference scope below active o reference
  | .coefficient => .ofExcept o ((readCodes value).bind o.addCoefficients)
  | .size => takeAttribute o (readSize value) fun a x => { a with size := some x }
  | .unit => takeAttribute o value.expectString fun a x => { a with unit := some x }
  | .multipleOf => takeAttribute o value.expectBinary64 fun a x => { a with multipleOf := some x }
  | .minSize => takeAttribute o value.expectBinary64 fun a x => { a with minSize := some x }
  | .maxSize => takeAttribute o value.expectBinary64 fun a x => { a with maxSize := some x }
  | .itemSize =>
    takeAttribute o value.expectBinary64 fun a x => { a with itemSize := some x.toInt64 }
  | .minItems =>
    takeAttribute o value.expectBinary64 fun a x => { a with minItems := some x.toInt64 }
  | .maxItems =>
    takeAttribute o value.expectBinary64 fun a x => { a with maxItems := some x.toInt64 }
  | .base => takeAttribute o value.expectString fun a x => { a with base := some x }
  | .minimum => takeAttribute o value.expectBinary64 fun a x => { a with minimum := some x }
  | .maximum => takeAttribute o value.expectBinary64 fun a x => { a with maximum := some x }

def takeMember (o : Outline) (key : String) (value : Json) : Taken Outline :=
  match Keyword.ofName? key with
  | none => .refused o (.unknownMember key)
  | some keyword => takeKeyword scope below active o keyword value

/-- Applies a descriptor on top of the level below. -/
def applyOver (descriptor : Json) (o : Outline) : Noted Outline :=
  match descriptor.expectObject with
  | .error violation => .refused o violation
  | .ok members => readMembers (takeMember scope below active) o members

/-- Applies a descriptor with a number of levels below it. -/
def apply (scope : Scope) : Nat → Application
  | 0, active, descriptor, o => applyOver scope none active descriptor o
  | level + 1, active, descriptor, o =>
    applyOver scope (some fun active descriptor o => apply scope level active descriptor o) active
      descriptor o

/-- Reads the shape of a descriptor. -/
def read (scope : Scope) (descriptor : Json) : Noted Shape :=
  complete (apply scope scope.maxDepth [] descriptor {})

end Descriptor
end DeviceTwin
