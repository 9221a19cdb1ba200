import DeviceTwin.Shape.Basic

/-!
Shapes in the making. The kind and every collection are given at most once; whether a collection
belongs to the kind is judged when the shape is complete.
-/
namespace DeviceTwin

/-- What is known of a shape so far. -/
structure Outline where
  kind : Option Tag := none
  format : Option NumberFormat := none
  attributes : Attributes := {}
  states : Option (List StateEntry) := none
  numbers : Option NumberWords := none
  /-- Parts, with the name of the member that listed them. -/
  children : Option (String × List (Member Shape)) := none
  bitFields : Option (List (BitField Shape)) := none
  coefficients : Option (List String) := none
  reference : Option String := none

namespace Outline

/-- Puts a value into an empty slot. -/
def fill {α : Type} (collection : String) (slot : Option α) (value : α) :
    Except Violation (Option α) :=
  match slot with
  | none => .ok (some value)
  | some _ => .error (.alreadyPopulated collection)

def fixKind (o : Outline) (kind : Tag) : Except Violation Outline :=
  match o.kind with
  | none => .ok { o with kind := some kind }
  | some existing => .error (.kindAlreadySet existing.name)

def useFormat (o : Outline) (format : NumberFormat) : Outline := { o with format := some format }

def noteReference (o : Outline) (reference : String) : Outline :=
  { o with reference := some reference }

def addStates (o : Outline) (entries : List StateEntry) : Except Violation Outline :=
  (fill "enum" o.states entries).map fun states => { o with states }

def addNumbers (o : Outline) (numbers : NumberWords) : Except Violation Outline :=
  (fill "enum" o.numbers numbers).map fun numbers => { o with numbers }

def addChildren (o : Outline) (source : String) (children : List (Member Shape)) :
    Except Violation Outline :=
  (fill "children" o.children (source, children)).map fun children => { o with children }

def addBitFields (o : Outline) (fields : List (BitField Shape)) : Except Violation Outline :=
  (fill "bitmaps" o.bitFields fields).map fun bitFields => { o with bitFields }

def addCoefficients (o : Outline) (codes : List String) : Except Violation Outline :=
  (fill "coefficient" o.coefficients codes).map fun coefficients => { o with coefficients }

/-- Name of the member whose parts a kind takes. -/
def childSource? : Tag → Option String
  | .object => some "properties"
  | .array => some "items"
  | .oneOf => some "oneOf"
  | _ => none

/-- The parts that belong to the kind. -/
def ownChildren (o : Outline) : List (Member Shape) :=
  match o.children with
  | some (source, members) => if o.kind.bind childSource? = some source then members else []
  | none => []

/-- The kind with the collections that belong to it. -/
def finalKind (o : Outline) : Kind Shape :=
  match o.kind with
  | none => .unset
  | some .state => .state (o.states.getD [])
  | some .numericValue => .numericValue (o.states.getD [])
  | some .object => .object o.ownChildren
  | some .array => .array (o.ownChildren.head?.map (·.shape))
  | some .oneOf => .oneOf (o.ownChildren.map (·.shape))
  | some .bitmap => .bitmap (o.bitFields.getD [])
  | some .number => .number o.format o.numbers
  | some .dateTime => .dateTime
  | some .time => .time
  | some .raw => .raw
  | some .level => .level

/-- Parts and bit fields that do not belong to the kind, by the names of their members. -/
def misplaced (o : Outline) : List String :=
  (match o.children with
    | some (source, _) => if o.kind.bind childSource? = some source then [] else [source]
    | none => []) ++
  (if o.bitFields.isSome && o.kind != some .bitmap then ["bitmaps"] else [])

/-- The complete shape, and a violation for each collection that it leaves out. -/
def complete (o : Outline) : Shape × List Violation :=
  ({ kind := o.finalKind
     attributes := o.attributes
     coefficients := o.coefficients.getD []
     reference := o.reference },
    o.misplaced.map (.misplacedCollection · (Tag.nameOf o.kind)))

end Outline
end DeviceTwin
