import DeviceTwin.Proofs.Descriptor.Given

/-!
The members of a node in flattened order: a reference that is followed gives way to the flattened
members of its definition. The first of these members that names a kind settles the kind, the first
codes are the coefficients, and of every attribute the last value counts.
-/
namespace DeviceTwin

theorem Outline.tag?_finalKind (o : Outline) : o.finalKind.tag? = o.kind := by
  obtain ⟨kind?, -⟩ := o
  cases kind? with
  | none => rfl
  | some kind => cases kind <;> rfl

namespace Descriptor

section Step

variable {scope : Scope} {below : Option Application} {active : List String} {o r : Outline}
  {keyword : Keyword} {key : String} {value : Json} {members : List (String × Json)}

theorem kind_takeKeyword (h : keyword ≠ .reference) :
    (takeKeyword scope below active o keyword value).record.kind =
      o.kind.or (kindIn [(keyword.name, value)]) := by
  rw [kindIn_singleton]
  by_cases hkind : keyword = .kind
  · subst hkind
    rw [record_takeKind]
    rfl
  · by_cases hone : keyword = .oneOf
    · subst hone
      rw [record_takeOneOf]
      rfl
    · have hnone : kindOf? keyword.name value = none := by
        cases keyword <;> first | rfl | contradiction
      rw [hnone, Option.or_none]
      exact (leaves_takeKeyword h).kind (mt Keyword.name_injective hkind)
        (mt Keyword.name_injective hone)

theorem coefficients_takeKeyword (h : keyword ≠ .reference) :
    (takeKeyword scope below active o keyword value).record.coefficients =
      o.coefficients.or (coefficientsIn [(keyword.name, value)]) := by
  rw [coefficientsIn, firstGiven_singleton]
  by_cases hcoefficient : keyword = .coefficient
  · subst hcoefficient
    rw [record_takeCoefficient, if_pos rfl]
  · have hkey := mt Keyword.name_injective hcoefficient
    rw [if_neg hkey, Option.or_none]
    exact (leaves_takeKeyword h).coefficients hkey

theorem attributes_takeKeyword (h : keyword ≠ .reference) :
    (takeKeyword scope below active o keyword value).record.attributes =
      (attributesIn [(keyword.name, value)]).onto o.attributes := by
  by_cases hattribute : keyword ∈ attributeKeywords
  · simp only [attributeKeywords, List.mem_cons, List.not_mem_nil, or_false] at hattribute
    rcases hattribute with rfl | rfl | rfl | rfl | rfl | rfl | rfl | rfl | rfl | rfl | rfl <;>
    simp [takeKeyword, record_takeAttribute, attributesIn, lastGiven_singleton,
        Attributes.onto]
    · cases readSize value <;> rfl
    all_goals first | (cases value.expectString <;> rfl) | cases value.expectBinary64 <;> rfl
  · have hnone : attributesIn [(keyword.name, value)] = {} := by
      cases keyword <;> first | rfl | simp [attributeKeywords] at hattribute
    have hkey : keyword.name ∉ attributeKeywords.map (·.name) := fun hm => by
      obtain ⟨other, hother, heq⟩ := List.mem_map.mp hm
      exact hattribute (Keyword.name_injective heq ▸ hother)
    rw [hnone, Attributes.empty_onto]
    exact (leaves_takeKeyword h).attributes hkey

/-- What the members between `o` and `r` name: the first kind, the first codes, and the last of
every attribute. -/
structure Names (o : Outline) (members : List (String × Json)) (r : Outline) : Prop where
  kind : r.kind = o.kind.or (kindIn members)
  coefficients : r.coefficients = o.coefficients.or (coefficientsIn members)
  attributes : r.attributes = (attributesIn members).onto o.attributes

theorem Names.nil : Names o [] o :=
  ⟨(Option.or_none).symm, (Option.or_none).symm, (Attributes.empty_onto _).symm⟩

theorem Names.append {later : List (String × Json)} {r' : Outline} (h : Names o members r)
    (hlater : Names r later r') : Names o (members ++ later) r' where
  kind := by rw [hlater.kind, h.kind, Option.or_assoc, kindIn_append]
  coefficients := by
    rw [hlater.coefficients, h.coefficients, Option.or_assoc, coefficientsIn_append]
  attributes := by
    rw [hlater.attributes, h.attributes, ← Attributes.onto_assoc, attributesIn_append]

/-- A member that is no keyword, or is a reference, names nothing. -/
theorem names_of_skipped (h : ∀ keyword : Keyword, keyword ≠ .reference → key ≠ keyword.name) :
    Names o [(key, value)] o := by
  have hkind := h .kind (by decide)
  have hone := h .oneOf (by decide)
  have hcoefficient := h .coefficient (by decide)
  have hlast {α : Type} (keyword : Keyword) (hk : keyword ≠ .reference)
      (read : Json → Except Violation α) : lastGiven keyword.name read [(key, value)] = none := by
    rw [lastGiven_singleton, if_neg (h keyword hk)]
  constructor
  · rw [kindIn_singleton, kindOf?, if_neg hkind, if_neg hone, Option.or_none]
  · rw [coefficientsIn, firstGiven_singleton, if_neg hcoefficient, Option.or_none]
  · have hnone : attributesIn [(key, value)] = {} := by
      simp only [attributesIn, hlast, ne_eq, reduceCtorEq, not_false_eq_true, Option.map_none]
    rw [hnone, Attributes.empty_onto]

theorem names_takeMember (h : below = none ∨ ∀ reference name target,
      ¬ Follows scope active o key value reference name target) :
    Names o [(key, value)] (takeMember scope below active o key value).record := by
  rw [record_takeMember h]
  split
  · next hk =>
    refine names_of_skipped fun keyword _ heq => ?_
    rw [Keyword.ofName?_eq_some_iff.mpr heq] at hk
    cases hk
  · next hk =>
    refine names_of_skipped fun keyword hreference heq => ?_
    rw [Keyword.ofName?_eq_some_iff.mpr heq] at hk
    exact hreference (Option.some.inj hk)
  · next keyword hreference hk =>
    rw [Keyword.ofName?_eq_some_iff.mp hk]
    exact ⟨kind_takeKeyword hreference, coefficients_takeKeyword hreference,
      attributes_takeKeyword hreference⟩

/-- All members of a merge are named one after the other. -/
theorem Merges.names (h : Merges scope o members r) : Names o members r := by
  induction h with
  | nil => exact .nil
  | own hown _ ih => exact (names_takeMember hown).append ih
  | noted _ ih => exact ⟨ih.kind, ih.coefficients, ih.attributes⟩

end Step

/-- Members in flattened order, and the references that were followed to them. -/
structure Flattened where
  members : List (String × Json) := []
  references : List String := []

instance : Append Flattened :=
  ⟨fun a b => ⟨a.members ++ b.members, a.references ++ b.references⟩⟩

/-- Flattens members one by one. What `expand` gives for a member takes its place; it depends on
the flattened members before it. -/
def flattenMembers (expand : List (String × Json) → String → Json → Option Flattened) :
    List (String × Json) → List (String × Json) → Flattened
  | _, [] => {}
  | seen, (key, value) :: rest =>
    let own := (expand seen key value).getD { members := [(key, value)] }
    own ++ flattenMembers expand (seen ++ own.members) rest

theorem flattenMembers_none (seen members : List (String × Json)) :
    flattenMembers (fun _ _ _ => none) seen members = { members } := by
  induction members generalizing seen with
  | nil => rfl
  | cons member rest ih =>
    rw [flattenMembers, ih]
    rfl

/-- The flattened members of a descriptor, where the flattened members before it are `seen`. A
reference is followed if it names a definition that is not being flattened already, if there is a
level below, and if no member so far names a kind. -/
def flatten (scope : Scope) :
    Nat → List String → List (String × Json) → Json → Flattened
  | 0, _, _, descriptor => { members := descriptor.members?.getD [] }
  | level + 1, active, seen, descriptor =>
    flattenMembers
      (fun seen key value =>
        match followed? scope active { kind := kindIn seen } key value with
        | some (reference, name, target) =>
          some ({ references := [reference] } ++ flatten scope level (name :: active) seen target)
        | none => none)
      seen (descriptor.members?.getD [])

section Flatten

variable {scope : Scope} {below : Option Application} {active : List String} {o r : Outline}
  {key : String} {value : Json} {seen members : List (String × Json)} {flat : Flattened}

/-- An outline is merged from flattened members, and notes the last reference to them. -/
structure MergesFlat (scope : Scope) (o : Outline) (flat : Flattened) (r : Outline) : Prop where
  merges : Merges scope o flat.members r
  reference : r.reference = flat.references.getLast?.or o.reference

theorem MergesFlat.nil : MergesFlat scope o {} o := ⟨.nil, rfl⟩

theorem MergesFlat.append {later : Flattened} {r' : Outline} (h : MergesFlat scope o flat r)
    (hlater : MergesFlat scope r later r') : MergesFlat scope o (flat ++ later) r' := by
  refine ⟨h.merges.append hlater.merges, ?_⟩
  have happend : (flat ++ later).references = flat.references ++ later.references := rfl
  rw [hlater.reference, h.reference, happend, List.getLast?_append, Option.or_assoc]

/-- A member that is not followed stands for itself. -/
theorem MergesFlat.single (h : below = none ∨ ∀ reference name target,
      ¬ Follows scope active o key value reference name target) :
    MergesFlat scope o { members := [(key, value)] }
      (takeMember scope below active o key value).record :=
  ⟨.single h, (leaves_takeMember h).reference⟩

theorem MergesFlat.noted {reference : String}
    (h : MergesFlat scope (o.noteReference reference) flat r) :
    MergesFlat scope o ({ references := [reference] } ++ flat) r := by
  refine ⟨.noted h.merges, ?_⟩
  have hlast : (({ references := [reference] } : Flattened) ++ flat).references.getLast? =
      flat.references.getLast?.or (some reference) := List.getLast?_append
  rw [h.reference, hlast, Option.or_assoc]
  rfl

/-- Members are flattened along with reading them. -/
theorem mergesFlat_readMembers
    {expand : List (String × Json) → String → Json → Option Flattened}
    (hstep : ∀ seen r key value, r.kind = kindIn seen →
      MergesFlat scope r ((expand seen key value).getD { members := [(key, value)] })
        (takeMember scope below active r key value).record)
    (hkind : o.kind = kindIn seen) :
    MergesFlat scope o (flattenMembers expand seen members)
      (readMembers (takeMember scope below active) o members).value := by
  induction members generalizing seen o with
  | nil => exact .nil
  | cons member rest ih =>
    obtain ⟨key, value⟩ := member
    have hfirst := hstep seen o key value hkind
    refine hfirst.append (ih ?_)
    rw [hfirst.merges.names.kind, hkind, kindIn_append]

/-- A descriptor is merged from its flattened members, whatever was merged before it. -/
theorem mergesFlat_apply (scope : Scope) (level : Nat) (active : List String) (descriptor : Json)
    (hkind : o.kind = kindIn seen) :
    MergesFlat scope o (flatten scope level active seen descriptor)
      (apply scope level active descriptor o).value := by
  induction level generalizing active descriptor o seen with
  | zero =>
    rw [apply_eq_applyOver, flatten]
    cases descriptor with
    | obj members =>
      have hmerges : MergesFlat scope o (flattenMembers (fun _ _ _ => none) seen members)
          (readMembers (takeMember scope none active) o members).value :=
        mergesFlat_readMembers (fun _ _ _ _ _ => .single (.inl rfl)) hkind
      rwa [flattenMembers_none] at hmerges
    | _ => exact .nil
  | succ level ih =>
    rw [apply_eq_applyOver, flatten]
    cases descriptor with
    | obj members =>
      refine mergesFlat_readMembers (fun seen r key value hr => ?_) hkind
      -- That a member is followed depends on the outline only through its kind, which `seen` tells.
      cases hf : followed? scope active { kind := kindIn seen } key value with
      | none =>
        refine .single (.inr fun reference name target hfollows => ?_)
        have hsame : Follows scope active { kind := kindIn seen } key value reference name target :=
          { hfollows with undecided := hr.symm.trans hfollows.undecided }
        rw [followed?_eq_some_iff.mpr hsame] at hf
        cases hf
      | some found =>
        obtain ⟨reference, name, target⟩ := found
        have hfollows := followed?_eq_some_iff.mp hf
        have hsame : Follows scope active r key value reference name target :=
          { hfollows with undecided := hr.trans hfollows.undecided }
        have hinlined := ih (o := r.noteReference reference) (name :: active) target hr
        obtain ⟨hk, rfl, -⟩ := id hsame
        obtain rfl := Keyword.ofName?_eq_some_iff.mp hk
        have htake : takeMember scope (levelBelow scope (level + 1)) active r Keyword.reference.name
            (.str reference) = takeReference scope (some (apply scope level)) active r reference :=
          rfl
        rw [htake, takeReference_some hsame]
        exact .noted hinlined
    | _ => exact .nil

end Flatten

/-- What a descriptor is read as, by its flattened members: the kind and the coefficients are the
first that are given, every attribute and the format of a number the last, and the last reference
that was followed is noted. Members of another type than is asked for give nothing. -/
theorem read_flatten (scope : Scope) (descriptor : Json) :
    let shape := (read scope descriptor).value
    let flat := flatten scope scope.maxDepth [] [] descriptor
    shape.kind.tag? = kindIn flat.members ∧
      shape.attributes = attributesIn flat.members ∧
      (∀ format numbers, shape.kind = .number format numbers → format = formatIn flat.members) ∧
      shape.coefficients = (coefficientsIn flat.members).getD [] ∧
      shape.reference = flat.references.getLast? ∧ Told flat.members := by
  intro shape flat
  have hflat : MergesFlat scope {} flat (apply scope scope.maxDepth [] descriptor {}).value :=
    mergesFlat_apply scope scope.maxDepth [] descriptor rfl
  have hnames := hflat.merges.names
  refine ⟨?_, ?_, ?_, ?_, ?_, told _⟩
  · exact (Outline.tag?_finalKind _).trans hnames.kind
  · exact hnames.attributes.trans (Attributes.onto_empty _)
  · intro format numbers hkind
    obtain ⟨-, hformat, -⟩ := Outline.finalKind_eq_number_iff.mp hkind
    rw [← hformat, hflat.merges.format_eq, Option.or_none]
  · exact congrArg (·.getD []) hnames.coefficients
  · exact hflat.reference.trans Option.or_none

/-- A definition that refers to another gives way to the members of both. -/
example :
    let number := .obj [("type", .str "number")]
    let power := .obj [("$ref", .str "#/definitions/number"), ("unit", .str "W")]
    let scope : Scope := { definitions := [("number", number), ("power", power)], maxDepth := 8 }
    let flat := flatten scope scope.maxDepth [] []
      (.obj [("$ref", .str "#/definitions/power"), ("unit", .str "kW")])
    Json.keys flat.members = ["type", "unit", "unit"] ∧
      flat.references = ["#/definitions/power", "#/definitions/number"] ∧
        (attributesIn flat.members).unit = some "kW" := by
  decide

end Descriptor
end DeviceTwin
