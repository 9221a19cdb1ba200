import DeviceTwin.Proofs.Descriptor.Alternatives
import DeviceTwin.Proofs.Device.Traversal

/-!
Where the findings in properties and devices are located, and which of these places exist. A place
behind a reference does not, as a reference is text; nor may an alternative that is counted at the
data of a property while it is written in a definition.
-/
namespace DeviceTwin

open Descriptor (Leads AlternativeAt)

/-- `Located definitions value pointer`: something in the value can be reported at this place. -/
inductive Located (definitions : List (String × Json)) : Json → Pointer → Prop
  /-- The place can be reached, through references or not. -/
  | leads {value pointer} (h : Leads definitions value pointer) : Located definitions value pointer
  /-- An alternative for the data of a property, in whichever descriptor it is written. -/
  | alternative {members data} {i : Nat} (hdata : members.lookup "data" = some data)
    (h : AlternativeAt definitions data i) :
    Located definitions (.obj members) ["data", "oneOf", toString i]
  | inside {value segment part rest} (h : Pointer.child? value segment = some part)
    (hrest : Located definitions part rest) : Located definitions value (segment :: rest)

/-- The pointer goes on behind a reference, in the definition that this names. -/
def BeyondReference (definitions : List (String × Json)) (value : Json) (pointer : Pointer) :
    Prop :=
  ∃ front back reference name target, pointer = front ++ "$ref" :: back ∧ back ≠ [] ∧
    Pointer.resolve? value (front ++ ["$ref"]) = some (.str reference) ∧
    Descriptor.definitionName? reference = some name ∧ definitions.lookup name = some target ∧
    Leads definitions target back

/-- The pointer names an alternative at the data of a property that is written in a descriptor which
the data refers to, and the data has none of its own under the same index. -/
def InlinedAlternative (definitions : List (String × Json)) (value : Json) (pointer : Pointer) :
    Prop :=
  ∃ (front : Pointer) (data : Json) (i : Nat), pointer = front ++ ["data", "oneOf", toString i] ∧
    Pointer.resolve? value (front ++ ["data"]) = some data ∧
    Pointer.resolve? data ["oneOf", toString i] = none ∧
    AlternativeAt definitions data i

variable {definitions members : List (String × Json)} {value part : Json} {pointer : Pointer}
  {segment : String}

section Resolution

theorem resolve?_append (value : Json) (front back : Pointer) :
    Pointer.resolve? value (front ++ back) =
      (Pointer.resolve? value front).bind fun value => Pointer.resolve? value back := by
  induction front generalizing value with
  | nil => rfl
  | cons segment rest ih =>
    rw [List.cons_append, Pointer.resolve?, Pointer.resolve?]
    cases Pointer.child? value segment with
    | none => rfl
    | some part => exact ih part

theorem resolve?_cons (h : Pointer.child? value segment = some part) (rest : Pointer) :
    Pointer.resolve? value (segment :: rest) = Pointer.resolve? part rest := by
  rw [Pointer.resolve?, h, Option.bind_some]

theorem BeyondReference.inside (h : Pointer.child? value segment = some part)
    (hpart : BeyondReference definitions part pointer) :
    BeyondReference definitions value (segment :: pointer) := by
  obtain ⟨front, back, reference, name, target, rfl, hback, hresolve, hrest⟩ := hpart
  exact ⟨segment :: front, back, reference, name, target, rfl, hback,
    (resolve?_cons h _).trans hresolve, hrest⟩

theorem InlinedAlternative.inside (h : Pointer.child? value segment = some part)
    (hpart : InlinedAlternative definitions part pointer) :
    InlinedAlternative definitions value (segment :: pointer) := by
  obtain ⟨front, data, i, rfl, hdata, hrest⟩ := hpart
  exact ⟨segment :: front, data, i, rfl, (resolve?_cons h _).trans hdata, hrest⟩

theorem resolve?_of_beyondReference (h : BeyondReference definitions value pointer) :
    Pointer.resolve? value pointer = none := by
  obtain ⟨front, back, reference, _, _, rfl, hback, hresolve, _⟩ := h
  rw [List.append_cons, resolve?_append, hresolve, Option.bind_some]
  cases back with
  | nil => exact absurd rfl hback
  | cons segment rest => rfl

theorem resolve?_of_inlinedAlternative (h : InlinedAlternative definitions value pointer) :
    Pointer.resolve? value pointer = none := by
  obtain ⟨front, data, i, rfl, hdata, hnone, _⟩ := h
  rw [List.append_cons, resolve?_append, hdata, Option.bind_some, hnone]

/-- A place that can be reached exists, unless it is behind a reference. -/
theorem beyondReference_of_leads (h : Leads definitions value pointer)
    (hnone : Pointer.resolve? value pointer = none) :
    BeyondReference definitions value pointer := by
  induction pointer generalizing value with
  | nil => cases hnone
  | cons segment rest ih =>
    obtain ⟨part, hstep, hrest⟩ := h
    cases hstep with
    | child hchild =>
      rw [resolve?_cons hchild] at hnone
      exact (ih hrest hnone).inside hchild
    | @reference members reference name target hlookup hname hdefined =>
      -- The reference itself exists, so the pointer must go on behind it.
      have hback : rest ≠ [] := by
        rintro rfl
        rw [Pointer.resolve?, Pointer.child?_obj, hlookup] at hnone
        cases hnone
      refine ⟨[], rest, reference, name, part, rfl, hback, ?_, hname, hdefined, hrest⟩
      rw [List.nil_append, Pointer.resolve?, Pointer.child?_obj, hlookup]
      rfl

/-- The places that do not exist. -/
theorem Located.resolve?_eq_none_iff (h : Located definitions value pointer) :
    Pointer.resolve? value pointer = none ↔
      BeyondReference definitions value pointer ∨ InlinedAlternative definitions value pointer := by
  refine ⟨fun hnone => ?_, fun h => h.elim resolve?_of_beyondReference
    resolve?_of_inlinedAlternative⟩
  induction h with
  | leads h => exact .inl (beyondReference_of_leads h hnone)
  | @alternative members data i hdata h =>
    have hchild : Pointer.child? (.obj members) "data" = some data := hdata
    rw [resolve?_cons hchild] at hnone
    exact .inr ⟨[], data, i, rfl, (resolve?_cons hchild _).trans rfl, hnone, h⟩
  | inside hchild _ ih =>
    rw [resolve?_cons hchild] at hnone
    exact (ih hnone).imp (.inside hchild) (.inside hchild)

end Resolution

section Reading

/-- All that was found in a value is reported at places located in it. -/
abbrev LocatedAll (definitions : List (String × Json)) (value : Json) (findings : List Finding) :
    Prop :=
  ∀ f ∈ findings, Located definitions value f.pointer

variable {ρ α : Type} {take : ρ → String → Json → Taken ρ} {o r : ρ} {key : String}
  {read : Json → Noted (List α)} {extend : ρ → Noted (List α) → Taken ρ} {variants : List Json}

theorem locatedAll_nil : LocatedAll definitions value [] := fun _ hf => absurd hf List.not_mem_nil

theorem located_readMembers (hkeys : (Json.keys members).Nodup)
    (h : ∀ r key value, (key, value) ∈ members →
      LocatedAll definitions value (take r key value).findings) :
    LocatedAll definitions (.obj members) (readMembers take o members).findings := by
  apply pointers_readMembers
  · intro key hk
    obtain ⟨⟨_, value⟩, hm, rfl⟩ := List.mem_map.mp hk
    exact .inside (lookup_of_mem hkeys hm) (.leads trivial)
  · exact fun r key value hm f hf => .inside (lookup_of_mem hkeys hm) (h r key value hm f hf)

theorem located_readEach
    (h : ∀ variant ∈ variants, LocatedAll definitions variant (read variant).findings) :
    LocatedAll definitions (.arr variants) (readEach read 0 variants).findings := by
  have hitems : LocatedAll definitions (.arr variants)
      (readItems (fun variant => (read variant).map some) 0 variants).findings :=
    pointers_readItems fun i variant hi f hf =>
      .inside ((Pointer.child?_arr variants i).trans hi) (h variant (List.mem_of_getElem? hi) f hf)
  exact hitems

/-- Variants are located in their array, other members wherever they are taken. -/
theorem located_takeOrExtend (hextend : ∀ n, (extend r n).findings = n.findings)
    (hread : ∀ variants, key = "oneOf" → value = .arr variants → ∀ variant ∈ variants,
      LocatedAll definitions variant (read variant).findings)
    (htake : LocatedAll definitions value (take r key value).findings) :
    LocatedAll definitions value (takeOrExtend read take extend r key value).findings := by
  unfold takeOrExtend
  by_cases hone : key = "oneOf"
  · rw [if_pos hone]
    cases value with
    | arr variants =>
      simp only [hextend]
      exact located_readEach (hread variants hone rfl)
    | _ => exact locatedAll_nil
  · rw [if_neg hone]
    exact htake

theorem located_ofExcept {x : Except Violation ρ} :
    LocatedAll definitions value (Taken.ofExcept o x).findings := by
  cases x <;> exact locatedAll_nil

end Reading

namespace Property

variable {scope : Scope} {options : Options} {draft : Draft} {property : Json} {key : String}

theorem pointer_of_mem_contentsOf {p : Property} {index : Nat} {shape : Shape} {f : Finding}
    (h : f ∈ (contentsOf options p index shape).findings) : f.pointer = [] := by
  unfold contentsOf at h
  split at h
  · cases h
  · rw [List.mem_singleton.mp h]

theorem pointer_of_mem_alternativeContents {p : Property} {position : Nat} {shapes : List Shape}
    {f : Finding} (h : f ∈ (alternativeContents options p position shapes).findings) :
    ∃ i < shapes.length, f.pointer = [toString (position + i)] := by
  induction shapes generalizing position with
  | nil => cases h
  | cons shape rest ih =>
    rcases List.mem_append.mp h with h | h
    · obtain ⟨g, hg, rfl⟩ := List.mem_map.mp h
      have heq := congrArg (toString position :: ·) (pointer_of_mem_contentsOf hg)
      exact ⟨0, Nat.zero_lt_succ _, heq⟩
    · obtain ⟨i, hi, heq⟩ := ih h
      refine ⟨i + 1, Nat.succ_lt_succ hi, ?_⟩
      rw [heq, show position + 1 + i = position + (i + 1) by omega]

/-- What contents are refused for is reported at the property, or at an alternative. -/
theorem pointer_of_mem_contents {p : Property} {f : Finding}
    (h : f ∈ (p.contents options).findings) :
    f.pointer = [] ∨ ∃ (alternatives : List Shape) (i : Nat),
      p.shape.kind = .oneOf alternatives ∧ i < alternatives.length ∧
        f.pointer = ["data", "oneOf", toString i] := by
  unfold contents at h
  split at h
  · next alternatives hkind =>
    obtain ⟨g, hg, rfl⟩ := List.mem_map.mp h
    obtain ⟨g', hg', rfl⟩ := List.mem_map.mp hg
    obtain ⟨i, hi, heq⟩ := pointer_of_mem_alternativeContents hg'
    rw [Nat.zero_add] at heq
    exact .inr ⟨alternatives, i, hkind, hi, congrArg ("data" :: "oneOf" :: ·) heq⟩
  · exact .inl (pointer_of_mem_contentsOf h)

theorem mem_findings_finish {n : Noted Draft} {f : Finding}
    (h : f ∈ (Draft.finish options n).findings) :
    f ∈ n.findings ∨ f ∈ (n.value.property.contents options).findings := by
  unfold Draft.finish at h
  dsimp only at h
  split at h
  · exact .inl h
  · exact List.mem_append.mp h

/-- The shape of a property is that of its data, if there is any. -/
def ShapeFrom (scope : Scope) (members : List (String × Json)) (draft : Draft) : Prop :=
  draft.property.shape = {} ∨ ∃ fields, ("data", .obj fields) ∈ members ∧
    draft.property.shape = (Descriptor.read scope (.obj fields)).value

theorem shapeFrom_takeMember (hm : (key, value) ∈ members) (h : ShapeFrom scope members draft) :
    ShapeFrom scope members (draft.takeMember scope key value).record := by
  unfold Draft.takeMember
  split
  · exact Taken.record_ofExcept h (.map fun _ => h)
  · unfold Draft.takeAccess
    split
    · exact h
    · exact h
  · cases value with
    | obj fields => exact .inr ⟨fields, hm, rfl⟩
    | _ => exact h
  · exact Taken.record_ofExcept h (.map fun _ => h)
  · exact Taken.record_ofExcept h (.map fun _ => h)
  · exact Taken.record_ofExcept h (.map fun _ => h)
  · exact h

theorem shapeFrom_readDraft :
    ShapeFrom scope members (readDraft scope options {} members).value := by
  rw [readDraft_eq_readMembers]
  refine readMembers_invariant (p := ShapeFrom scope members) (fun r key value hv h => ?_)
    (.inl rfl)
  unfold takeOrExtend
  split
  · cases value <;> exact h
  · exact shapeFrom_takeMember hv.mem h

/-- Whatever the contents of a property are refused for is located in it. -/
theorem located_contents (hdefs : (Json.obj scope.definitions).hasDistinctKeys)
    (hkeys : (Json.obj members).hasDistinctKeys) (h : ShapeFrom scope members draft) :
    LocatedAll scope.definitions (.obj members) (draft.property.contents options).findings := by
  rw [Json.hasDistinctKeys_obj] at hkeys
  intro f hf
  rcases pointer_of_mem_contents hf with heq | ⟨alternatives, i, hkind, hi, heq⟩
  · rw [heq]
    exact .leads trivial
  · rw [heq]
    rcases h with hempty | ⟨fields, hm, hshape⟩
    · rw [hempty] at hkind
      cases hkind
    · rw [hshape] at hkind
      have halternative := Descriptor.alternativeAt_read hdefs (hkeys.2 _ hm) hkind i hi
      exact .alternative (lookup_of_mem hkeys.1 hm) halternative

theorem located_takeMember (hdefs : (Json.obj scope.definitions).hasDistinctKeys)
    (hkeys : value.hasDistinctKeys) :
    LocatedAll scope.definitions value (draft.takeMember scope key value).findings := by
  unfold Draft.takeMember
  split
  · exact located_ofExcept
  · cases value with
    | obj rules =>
      exact located_readMembers (Json.hasDistinctKeys_obj.mp hkeys).1 fun _ _ _ _ =>
        located_ofExcept
    | _ => exact locatedAll_nil
  · cases value with
    | obj fields => exact fun f hf => .leads (Descriptor.leads_read hdefs hkeys f hf)
    | _ => exact locatedAll_nil
  · exact located_ofExcept
  · exact located_ofExcept
  · exact located_ofExcept
  · exact locatedAll_nil

/-- Everything found in a property is located in it. -/
theorem located_read (hdefs : (Json.obj scope.definitions).hasDistinctKeys)
    (hkeys : property.hasDistinctKeys) :
    LocatedAll scope.definitions property (read scope options property).findings := by
  induction property using variants_induction with
  | step property ih =>
    cases property with
    | obj members =>
      have hdistinct := Json.hasDistinctKeys_obj.mp hkeys
      intro f hf
      rw [read] at hf
      rcases mem_findings_finish hf with hf | hf
      · rw [readDraft_eq_readMembers] at hf
        refine located_readMembers hdistinct.1 (fun r key value hm => ?_) f hf
        apply located_takeOrExtend (fun _ => rfl)
        · rintro variants rfl rfl variant hv
          exact ih members variants variant rfl hm hv
            (Json.hasDistinctKeys_arr.mp (hdistinct.2 _ hm) variant hv)
        · exact located_takeMember hdefs (hdistinct.2 _ hm)
      · exact located_contents hdefs hkeys shapeFrom_readDraft f hf
    | _ =>
      intro f hf
      rw [List.mem_singleton.mp hf]
      exact .leads trivial

end Property

namespace Device

variable {scope : Scope} {options : Options} {draft : Draft} {device : Json} {key : String}

theorem located_readProperties (hdefs : (Json.obj scope.definitions).hasDistinctKeys)
    (hkeys : (Json.obj members).hasDistinctKeys) :
    LocatedAll scope.definitions (.obj members)
      (readProperties scope options members).findings := by
  rw [Json.hasDistinctKeys_obj] at hkeys
  exact pointers_readProperties fun code property hm f hf =>
    .inside (lookup_of_mem hkeys.1 hm) (Property.located_read hdefs (hkeys.2 _ hm) f hf)

theorem located_takeMember (hdefs : (Json.obj scope.definitions).hasDistinctKeys)
    (hkeys : value.hasDistinctKeys) :
    LocatedAll scope.definitions value (draft.takeMember scope options key value).findings := by
  unfold Draft.takeMember
  split
  · exact located_ofExcept
  · cases value with
    | obj properties => exact located_readProperties hdefs hkeys
    | _ => exact locatedAll_nil
  · exact located_ofExcept
  · exact located_ofExcept
  · exact locatedAll_nil

/-- Everything found in a device is located in it. -/
theorem located_read (hdefs : (Json.obj scope.definitions).hasDistinctKeys)
    (hkeys : device.hasDistinctKeys) :
    LocatedAll scope.definitions device (read scope options device).findings := by
  induction device using variants_induction with
  | step device ih =>
    cases device with
    | obj members =>
      have hdistinct := Json.hasDistinctKeys_obj.mp hkeys
      have hmembers : LocatedAll scope.definitions (.obj members) (readMembers
          (takeOrExtend (read scope options) (Draft.takeMember scope options) Draft.extend) {}
          members).findings := by
        refine located_readMembers hdistinct.1 fun r key value hm => ?_
        apply located_takeOrExtend (fun _ => rfl)
        · rintro variants rfl rfl variant hv
          exact ih members variants variant rfl hm hv
            (Json.hasDistinctKeys_arr.mp (hdistinct.2 _ hm) variant hv)
        · exact located_takeMember hdefs (hdistinct.2 _ hm)
      rw [read, readDraft_eq_readMembers]
      exact hmembers
    | _ =>
      intro f hf
      rw [List.mem_singleton.mp hf]
      exact .leads trivial

end Device

end DeviceTwin
