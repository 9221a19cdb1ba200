import DeviceTwin.Shape.Basic

/-! The height of a shape, and the nodes that stand a number of steps below its root. -/
namespace DeviceTwin

/-- The shapes right below a node, in order. -/
def Kind.parts {α : Type} : Kind α → List α
  | .object members => members.map (·.shape)
  | .array element => element.toList
  | .bitmap fields => fields.map (·.value)
  | .oneOf alternatives => alternatives
  | _ => []

namespace Shape

mutual

/-- Steps from the root to the deepest node. -/
def height : Shape → Nat
  | ⟨kind, _, _, _⟩ => heightOfKind kind

def heightOfKind : Kind Shape → Nat
  | .object members => heightOfMembers members
  | .array none => 0
  | .array (some element) => height element + 1
  | .bitmap fields => heightOfFields fields
  | .oneOf alternatives => heightOfAlternatives alternatives
  | .unset | .state _ | .dateTime | .time | .raw | .level | .number .. | .numericValue _ => 0

def heightOfMembers : List (Member Shape) → Nat
  | [] => 0
  | ⟨_, shape⟩ :: rest => max (height shape + 1) (heightOfMembers rest)

def heightOfFields : List (BitField Shape) → Nat
  | [] => 0
  | ⟨_, _, _, _, value⟩ :: rest => max (height value + 1) (heightOfFields rest)

def heightOfAlternatives : List Shape → Nat
  | [] => 0
  | shape :: rest => max (height shape + 1) (heightOfAlternatives rest)

end

/-- The nodes that stand `steps` below the root. -/
def nodesAt : Nat → Shape → List Shape
  | 0, shape => [shape]
  | steps + 1, shape => shape.kind.parts.flatMap (nodesAt steps)

/-- The root and all nodes below it satisfy `p`. -/
def AllNodes (p : Shape → Prop) (shape : Shape) : Prop :=
  ∀ steps, ∀ node ∈ shape.nodesAt steps, p node

theorem allNodes_iff {p : Shape → Prop} {shape : Shape} :
    AllNodes p shape ↔ p shape ∧ ∀ part ∈ shape.kind.parts, AllNodes p part := by
  constructor
  · intro h
    refine ⟨h 0 shape (List.mem_singleton_self _), fun part hpart steps node hnode => ?_⟩
    exact h (steps + 1) node (List.mem_flatMap.mpr ⟨part, hpart, hnode⟩)
  · rintro ⟨hroot, hparts⟩ steps node hnode
    cases steps with
    | zero =>
      rw [List.mem_singleton.mp hnode]
      exact hroot
    | succ steps =>
      obtain ⟨part, hpart, hbelow⟩ := List.mem_flatMap.mp hnode
      exact hparts part hpart steps node hbelow

theorem heightOfMembers_le_iff {members : List (Member Shape)} {n : Nat} :
    heightOfMembers members ≤ n ↔ ∀ member ∈ members, member.shape.height < n := by
  induction members with
  | nil => simp [heightOfMembers]
  | cons head rest ih =>
    simp only [heightOfMembers, Nat.max_le, ih, List.mem_cons, forall_eq_or_imp]
    rfl

theorem heightOfFields_le_iff {fields : List (BitField Shape)} {n : Nat} :
    heightOfFields fields ≤ n ↔ ∀ field ∈ fields, field.value.height < n := by
  induction fields with
  | nil => simp [heightOfFields]
  | cons head rest ih =>
    simp only [heightOfFields, Nat.max_le, ih, List.mem_cons, forall_eq_or_imp]
    rfl

theorem heightOfAlternatives_le_iff {alternatives : List Shape} {n : Nat} :
    heightOfAlternatives alternatives ≤ n ↔ ∀ shape ∈ alternatives, shape.height < n := by
  induction alternatives with
  | nil => simp [heightOfAlternatives]
  | cons head rest ih =>
    simp only [heightOfAlternatives, Nat.max_le, ih, List.mem_cons, forall_eq_or_imp]
    rfl

theorem height_le_iff {shape : Shape} {n : Nat} :
    shape.height ≤ n ↔ ∀ part ∈ shape.kind.parts, part.height < n := by
  obtain ⟨kind, _, _, _⟩ := shape
  rw [height]
  cases kind with
  | object members =>
    simp only [heightOfKind, Kind.parts, heightOfMembers_le_iff, List.forall_mem_map]
  | array element =>
    cases element with
    | none => simp [heightOfKind, Kind.parts]
    | some element =>
      simp only [heightOfKind, Kind.parts, Option.toList_some, List.forall_mem_singleton,
        Nat.lt_iff_add_one_le]
  | bitmap fields =>
    simp only [heightOfKind, Kind.parts, heightOfFields_le_iff, List.forall_mem_map]
  | oneOf alternatives => simp only [heightOfKind, Kind.parts, heightOfAlternatives_le_iff]
  | _ => simp [heightOfKind, Kind.parts]

/-- A shape is as high as the last level with nodes. -/
theorem height_le_iff_nodesAt {shape : Shape} {n : Nat} :
    shape.height ≤ n ↔ shape.nodesAt (n + 1) = [] := by
  induction n generalizing shape with
  | zero =>
    rw [height_le_iff]
    simp [nodesAt, List.eq_nil_iff_forall_not_mem]
  | succ n ih =>
    rw [height_le_iff, nodesAt, List.flatMap_eq_nil_iff]
    simp only [Nat.lt_succ_iff, ih]

end Shape
end DeviceTwin
