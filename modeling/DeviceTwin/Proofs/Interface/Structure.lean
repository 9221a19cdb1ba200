import DeviceTwin.Interface.Schema
import DeviceTwin.Proofs.Shape.Height

/-!
What a schema says of its shape. It follows the shape node by node, down to the elements of arrays,
which it leaves out. There is no schema if a node on the way cannot be expressed, and the first such
node is the one that is reported.
-/
namespace DeviceTwin

/-- The parts of a container that its schema describes, with their names. Alternatives have no
names, and the element of an array is not described. -/
def Kind.described? {α : Type} : Kind α → Option (List (Option String × α))
  | .object members => some (members.map fun member => (member.name, member.shape))
  | .bitmap fields => some (fields.map fun field => (field.name, field.value))
  | .oneOf alternatives => some (alternatives.map fun alternative => (none, alternative))
  | _ => none

namespace Shape

/-- Data of unknown kind and numbers without a format cannot be expressed. -/
def isUnsupported (shape : Shape) : Bool :=
  match shape.kind with
  | .unset | .number none _ => true
  | _ => false

mutual

/-- The nodes that a schema describes: each one before its parts, and parts from left to right. -/
def describedNodes : Shape → List Shape
  | ⟨kind, attributes, coefficients, reference⟩ =>
    ⟨kind, attributes, coefficients, reference⟩ :: describedInKind kind

def describedInKind : Kind Shape → List Shape
  | .object members => describedInMembers members
  | .bitmap fields => describedInFields fields
  | .oneOf alternatives => describedInAlternatives alternatives
  | .unset | .state _ | .dateTime | .time | .raw | .array _ | .level | .number .. |
    .numericValue _ => []

def describedInMembers : List (Member Shape) → List Shape
  | [] => []
  | ⟨_, shape⟩ :: rest => describedNodes shape ++ describedInMembers rest

def describedInFields : List (BitField Shape) → List Shape
  | [] => []
  | ⟨_, _, _, _, value⟩ :: rest => describedNodes value ++ describedInFields rest

def describedInAlternatives : List Shape → List Shape
  | [] => []
  | shape :: rest => describedNodes shape ++ describedInAlternatives rest

end

/-- The described nodes of parts, one part after the other. -/
def describedInParts (parts : List (Option String × Shape)) : List Shape :=
  parts.flatMap fun part => part.2.describedNodes

theorem describedInMembers_eq (members : List (Member Shape)) :
    describedInMembers members =
      describedInParts (members.map fun member => (member.name, member.shape)) := by
  induction members with
  | nil => rfl
  | cons member rest ih => exact congrArg (member.shape.describedNodes ++ ·) ih

theorem describedInFields_eq (fields : List (BitField Shape)) :
    describedInFields fields =
      describedInParts (fields.map fun field => (field.name, field.value)) := by
  induction fields with
  | nil => rfl
  | cons field rest ih => exact congrArg (field.value.describedNodes ++ ·) ih

theorem describedInAlternatives_eq (alternatives : List Shape) :
    describedInAlternatives alternatives =
      describedInParts (alternatives.map fun alternative => (none, alternative)) := by
  induction alternatives with
  | nil => rfl
  | cons shape rest ih => exact congrArg (shape.describedNodes ++ ·) ih

/-- A node stands before the described nodes of its parts. -/
theorem describedNodes_eq (shape : Shape) :
    shape.describedNodes = shape :: describedInParts (shape.kind.described?.getD []) := by
  obtain ⟨kind, attributes, coefficients, reference⟩ := shape
  rw [describedNodes]
  cases kind with
  | object members => rw [describedInKind, describedInMembers_eq]; rfl
  | bitmap fields => rw [describedInKind, describedInFields_eq]; rfl
  | oneOf alternatives => rw [describedInKind, describedInAlternatives_eq]; rfl
  | _ => rfl

variable {shape : Shape} {parts : List (Option String × Shape)}

theorem not_isUnsupported_of_described (h : shape.kind.described? = some parts) :
    shape.isUnsupported = false := by
  obtain ⟨kind, _, _, _⟩ := shape
  cases kind <;> first | rfl | cases h

theorem map_described (h : shape.kind.described? = some parts) :
    parts.map (·.2) = shape.kind.parts := by
  obtain ⟨kind, _, _, _⟩ := shape
  cases kind <;> cases h <;> simp [Kind.parts, Function.comp_def]

/-- What holds of a node if it holds of its parts holds of every shape. -/
theorem parts_induction {p : Shape → Prop}
    (step : ∀ shape, (∀ part ∈ shape.kind.parts, p part) → p shape) (shape : Shape) : p shape := by
  induction hn : shape.height using Nat.strongRecOn generalizing shape with
  | ind n ih =>
    refine step shape fun part hpart => ?_
    have hlower : part.height < shape.height := height_le_iff.mp (Nat.le_refl _) part hpart
    exact ih part.height (hn ▸ hlower) part rfl

end Shape

namespace Schema

/-- Types of data without parts that have one schema only. -/
def plainTypes : List (Tag × Primitive) :=
  [(.dateTime, .datetime), (.time, .time), (.raw, .string), (.level, .integer),
    (.numericValue, .integer)]

/-- The schema has the structure of the shape. A container has a field for each described part, in
order and with the part's own name; the values of an enumeration are the codes of the states, in
order; and a number is long if it has the one format that integers do not cover. -/
inductive Mirrors : Shape → Schema → Prop
  | container {shape parts fields} (hkind : shape.kind.described? = some parts)
      (hnames : fields.map (·.name) = parts.map (·.1))
      (hschemas : ∀ part field, (part, field) ∈ parts.zip fields → Mirrors part.2 field.schema) :
      Mirrors shape (.object fields)
  | state {shape entries values} (hkind : shape.kind = .state entries)
      (hcodes : values.map (·.value) = entries.map (·.code)) :
      Mirrors shape (.enumeration .integer values)
  | number {shape format numbers type} (hkind : shape.kind = .number (some format) numbers)
      (htype : type = .long ∨ type = .integer) (hlong : type = .long ↔ format = .uint32) :
      Mirrors shape (.primitive type)
  | array {shape element} (hkind : shape.kind = .array element) : Mirrors shape .array
  | plain {shape tag type} (hkind : shape.kind.tag? = some tag) (htype : (tag, type) ∈ plainTypes) :
      Mirrors shape (.primitive type)

/-- Fields with the structure of parts. -/
structure MirrorsParts (parts : List (Option String × Shape)) (fields : List (Field Schema)) :
    Prop where
  names : fields.map (·.name) = parts.map (·.1)
  schemas : ∀ part field, (part, field) ∈ parts.zip fields → Mirrors part.2 field.schema

/-- The outcome where these nodes are described: the first of them that is unsupported is reported,
and if there is none, there is a result that satisfies `p`. -/
def Settles {α : Type} (nodes : List Shape) (x : Except Violation α) (p : α → Prop) : Prop :=
  match nodes.find? Shape.isUnsupported with
  | some node => x = .error (.unsupportedShape node.kindName)
  | none => ∃ a, x = .ok a ∧ p a

section Settles

variable {α β : Type} {nodes later : List Shape} {x : Except Violation α} {p : α → Prop}
  {q : β → Prop} {shape : Shape} {f : α → Except Violation β}

theorem Settles.bind (hx : Settles nodes x p) (hf : ∀ a, p a → Settles later (f a) q) :
    Settles (nodes ++ later) (x.bind f) q := by
  unfold Settles at hx ⊢
  rw [List.find?_append]
  cases hfirst : nodes.find? Shape.isUnsupported with
  | some node =>
    rw [hfirst] at hx
    obtain rfl := hx
    rfl
  | none =>
    rw [hfirst] at hx
    obtain ⟨a, rfl, ha⟩ := hx
    exact hf a ha

theorem Settles.map {g : α → β} (hx : Settles nodes x p) (hg : ∀ a, p a → q (g a)) :
    Settles nodes (x.map g) q := by
  unfold Settles at hx ⊢
  split
  · next node hfirst =>
    rw [hfirst] at hx
    obtain rfl := hx
    rfl
  · next hnone =>
    rw [hnone] at hx
    obtain ⟨a, rfl, ha⟩ := hx
    exact ⟨g a, rfl, hg a ha⟩

/-- A supported node does not matter to the outcome. -/
theorem Settles.cons (h : shape.isUnsupported = false) (hx : Settles nodes x p) :
    Settles (shape :: nodes) x p := by
  unfold Settles at hx ⊢
  rwa [List.find?_cons, h]

theorem settles_unsupported (h : shape.isUnsupported = true) :
    Settles (shape :: nodes) (.error (.unsupportedShape shape.kindName)) p := by
  unfold Settles
  rw [List.find?_cons, h]

theorem settles_ok {a : α} (h : p a) : Settles [] (.ok a) p := ⟨a, rfl, h⟩

/-- What is reported is the first unsupported node. -/
theorem Settles.error_iff {v : Violation} (hx : Settles nodes x p) : x = .error v ↔
    ∃ node, nodes.find? Shape.isUnsupported = some node ∧
      v = .unsupportedShape node.kindName := by
  unfold Settles at hx
  cases hfirst : nodes.find? Shape.isUnsupported with
  | some node =>
    rw [hfirst] at hx
    simp [hx, eq_comm]
  | none =>
    rw [hfirst] at hx
    obtain ⟨a, rfl, -⟩ := hx
    simp

theorem Settles.exists_error_iff (hx : Settles nodes x p) :
    (∃ v, x = .error v) ↔ ∃ node ∈ nodes, node.isUnsupported := by
  rw [← List.find?_isSome, Option.isSome_iff_exists]
  constructor
  · rintro ⟨v, hv⟩
    obtain ⟨node, hfirst, -⟩ := hx.error_iff.mp hv
    exact ⟨node, hfirst⟩
  · rintro ⟨node, hfirst⟩
    exact ⟨_, hx.error_iff.mpr ⟨node, hfirst, rfl⟩⟩

theorem Settles.of_ok {a : α} (hx : Settles nodes x p) (h : x = .ok a) : p a := by
  unfold Settles at hx
  split at hx
  · cases hx.symm.trans h
  · obtain ⟨b, hb, hp⟩ := hx
    cases hb.symm.trans h
    exact hp

end Settles

section Parts

variable {name : Option String} {shape : Shape} {parts : List (Option String × Shape)}

/-- The fields for parts, in order. -/
def ofParts : List (Option String × Shape) → Except Violation (List (Field Schema))
  | [] => .ok []
  | (name, shape) :: rest =>
    (ofShape shape).bind fun schema => (ofParts rest).map fun fields => { name, schema } :: fields

theorem ofMembers_eq (members : List (Member Shape)) :
    ofMembers members = ofParts (members.map fun member => (member.name, member.shape)) := by
  induction members with
  | nil => rfl
  | cons member rest ih =>
    rw [ofMembers, ih, List.map_cons, ofParts]
    rfl

theorem ofFields_eq (fields : List (BitField Shape)) :
    ofFields fields = ofParts (fields.map fun field => (field.name, field.value)) := by
  induction fields with
  | nil => rfl
  | cons field rest ih =>
    rw [ofFields, ih, List.map_cons, ofParts]
    rfl

theorem ofAlternatives_eq (alternatives : List Shape) :
    ofAlternatives alternatives =
      ofParts (alternatives.map fun alternative => (none, alternative)) := by
  induction alternatives with
  | nil => rfl
  | cons shape rest ih =>
    rw [ofAlternatives, ih, List.map_cons, ofParts]
    rfl

/-- The schema of a container is made of those of its described parts. -/
theorem ofShape_container (h : shape.kind.described? = some parts) :
    ofShape shape = (ofParts parts).map .object := by
  obtain ⟨kind, _, _, _⟩ := shape
  rw [ofShape]
  cases kind with
  | object members =>
    cases h
    rw [ofKind, ofMembers_eq]
  | bitmap fields =>
    cases h
    rw [ofKind, ofFields_eq]
  | oneOf alternatives =>
    cases h
    rw [ofKind, ofAlternatives_eq]
  | _ => cases h

theorem mirrorsParts_nil : MirrorsParts [] [] := ⟨rfl, nofun⟩

theorem MirrorsParts.cons {schema : Schema} {fields : List (Field Schema)}
    (h : Mirrors shape schema) (hrest : MirrorsParts parts fields) :
    MirrorsParts ((name, shape) :: parts) ({ name, schema } :: fields) := by
  refine ⟨congrArg (name :: ·) hrest.names, fun part field hm => ?_⟩
  rcases List.mem_cons.mp hm with heq | hm
  · cases heq
    exact h
  · exact hrest.schemas part field hm

theorem settles_ofParts
    (h : ∀ part ∈ parts, Settles part.2.describedNodes (ofShape part.2) (Mirrors part.2)) :
    Settles (Shape.describedInParts parts) (ofParts parts) (MirrorsParts parts) := by
  induction parts with
  | nil => exact settles_ok mirrorsParts_nil
  | cons part rest ih =>
    obtain ⟨name, shape⟩ := part
    have hfirst := h (name, shape) List.mem_cons_self
    have hrest := ih fun part hm => h part (List.mem_cons_of_mem _ hm)
    exact hfirst.bind fun schema hschema => hrest.map fun fields hfields => hfields.cons hschema

end Parts

theorem ofFormat_eq_long_iff {format : NumberFormat} :
    ofFormat format = .long ↔ format = .uint32 := by
  cases format <;> simp [ofFormat]

theorem ofFormat_cases (format : NumberFormat) :
    ofFormat format = .long ∨ ofFormat format = .integer := by
  cases format <;> simp [ofFormat]

/-- A node that is no container has a schema, or is unsupported itself. -/
theorem settles_leaf {shape : Shape} (h : shape.kind.described? = none) :
    Settles [shape] (ofShape shape) (Mirrors shape) := by
  obtain ⟨kind, attributes, coefficients, reference⟩ := shape
  rw [ofShape]
  cases kind with
  | unset => exact settles_unsupported rfl
  | state entries =>
    refine .cons rfl (settles_ok (.state rfl ?_))
    rw [List.map_map]
    rfl
  | array element => exact .cons rfl (settles_ok (.array rfl))
  | number format numbers =>
    cases format with
    | none => exact settles_unsupported rfl
    | some format =>
      have hnumber : Mirrors ⟨.number (some format) numbers, attributes, coefficients, reference⟩
          (.primitive (ofFormat format)) :=
        .number rfl (ofFormat_cases format) ofFormat_eq_long_iff
      exact .cons rfl (settles_ok hnumber)
  | object | bitmap | oneOf => cases h
  | dateTime | time | raw | level | numericValue =>
    exact .cons rfl (settles_ok (.plain rfl (by simp [plainTypes])))

theorem settles_ofShape (shape : Shape) :
    Settles shape.describedNodes (ofShape shape) (Mirrors shape) := by
  induction shape using Shape.parts_induction with
  | step shape ih =>
    rw [Shape.describedNodes_eq]
    cases hkind : shape.kind.described? with
    | none => exact settles_leaf hkind
    | some parts =>
      have hparts := settles_ofParts fun part hm =>
        ih part.2 (Shape.map_described hkind ▸ List.mem_map_of_mem hm)
      have hobject := hparts.map fun fields hfields =>
        Mirrors.container hkind hfields.names hfields.schemas
      rw [ofShape_container hkind]
      exact .cons (Shape.not_isUnsupported_of_described hkind) hobject

/-- A shape has no schema exactly if it has an unsupported node outside of arrays. The first of
these is reported by its kind; without one, the schema has the structure of the shape. -/
theorem ofShape_structure (shape : Shape) :
    ((∃ v, ofShape shape = .error v) ↔ ∃ node ∈ shape.describedNodes, node.isUnsupported) ∧
      (∀ v, ofShape shape = .error v ↔
        ∃ node, shape.describedNodes.find? Shape.isUnsupported = some node ∧
          v = .unsupportedShape node.kindName) ∧
      (∀ schema, ofShape shape = .ok schema → Mirrors shape schema) := by
  have hsettles := settles_ofShape shape
  exact ⟨hsettles.exists_error_iff, fun _ => hsettles.error_iff, fun _ => hsettles.of_ok⟩

end Schema
end DeviceTwin
