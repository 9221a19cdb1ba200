import DeviceTwin.Proofs.Descriptor.Parts

/-!
Merging. A followed reference is replaced with the members of its definition, so that all members of
a node are taken one after the other, whichever descriptor they are written in.
-/
namespace DeviceTwin

/-- What each member contributes, at the record where it is taken. -/
def collect {ρ α : Type} (take : ρ → String → Json → Taken ρ)
    (own : ρ → String → Json → List α) : ρ → List (String × Json) → List α
  | _, [] => []
  | o, (key, value) :: rest => own o key value ++ collect take own (take o key value).record rest

theorem collect_eq_self {ρ : Type} {take : ρ → String → Json → Taken ρ}
    {own : ρ → String → Json → List (String × Json)} {o : ρ} {members : List (String × Json)}
    (h : ∀ r key value, (key, value) ∈ members → own r key value = [(key, value)]) :
    collect take own o members = members := by
  induction members generalizing o with
  | nil => rfl
  | cons member rest ih =>
    obtain ⟨key, value⟩ := member
    have hhead := h o key value List.mem_cons_self
    have htail := ih (o := (take o key value).record)
      fun r key' value' hm => h r key' value' (List.mem_cons_of_mem _ hm)
    rw [collect, hhead, htail, List.singleton_append]

namespace Descriptor

/-- The text, the name and the target of a reference that is followed where there is a level
below. -/
def followed? (scope : Scope) (active : List String) (o : Outline) (key : String) (value : Json) :
    Option (String × String × Json) :=
  match Keyword.ofName? key, value with
  | some .reference, .str reference => do
    let name ← definitionName? reference
    let target ← scope.definitions.lookup name
    if name ∉ active ∧ o.kind = none then some (reference, name, target) else none
  | _, _ => none

/-- The members that are taken of a descriptor, in order. A reference that is followed gives the
members that are taken of its definition. -/
def mergedMembers (scope : Scope) : Nat → List String → Json → Outline → List (String × Json)
  | 0, _, descriptor, _ => descriptor.members?.getD []
  | level + 1, active, descriptor, o =>
    collect (takeMember scope (levelBelow scope (level + 1)) active)
      (fun r key value =>
        match followed? scope active r key value with
        | some (reference, name, target) =>
          mergedMembers scope level (name :: active) target (r.noteReference reference)
        | none => [(key, value)])
      o (descriptor.members?.getD [])

/-- `Merges scope o members r`: the members, taken one after the other from `o` on, lead to `r`.
None of them is a reference that is followed; these are noted. -/
inductive Merges (scope : Scope) : Outline → List (String × Json) → Outline → Prop
  | nil {o} : Merges scope o [] o
  | own {below active o key value rest r}
    (h : below = none ∨ ∀ reference name target,
      ¬ Follows scope active o key value reference name target)
    (hrest : Merges scope (takeMember scope below active o key value).record rest r) :
    Merges scope o ((key, value) :: rest) r
  | noted {o reference members r} (h : Merges scope (o.noteReference reference) members r) :
    Merges scope o members r

variable {scope : Scope} {below : Option Application} {active : List String} {o r r' : Outline}
  {key reference name : String} {value target : Json}
  {members later : List (String × Json)}

theorem followed?_eq_some_iff :
    followed? scope active o key value = some (reference, name, target) ↔
      Follows scope active o key value reference name target := by
  constructor
  · intro h
    unfold followed? at h
    split at h
    · next hk =>
      simp only [Option.bind_eq_bind, Option.bind_eq_some_iff] at h
      obtain ⟨name', hname, target', hlookup, h⟩ := h
      split at h
      · next hopen =>
        cases h
        exact ⟨hk, rfl, hname, hlookup, hopen.1, hopen.2⟩
      · cases h
    · cases h
  · intro h
    obtain ⟨hk, rfl, hname, hlookup, hinactive, hkind⟩ := h
    simp [followed?, hk, hname, hlookup, hinactive, hkind]

namespace Merges

theorem append (h : Merges scope o members r) (hlater : Merges scope r later r') :
    Merges scope o (members ++ later) r' := by
  induction h with
  | nil => exact hlater
  | own hown _ ih => exact .own hown (ih hlater)
  | noted _ ih => exact .noted (ih hlater)

/-- A member that is not followed is merged as it is. -/
theorem single (h : below = none ∨ ∀ reference name target,
      ¬ Follows scope active o key value reference name target) :
    Merges scope o [(key, value)] (takeMember scope below active o key value).record :=
  .own h .nil

/-- What each member contributes is merged one after the other. -/
theorem collect {own : Outline → String → Json → List (String × Json)}
    (h : ∀ r key value,
      Merges scope r (own r key value) (takeMember scope below active r key value).record) :
    Merges scope o (DeviceTwin.collect (takeMember scope below active) own o members)
      (readMembers (takeMember scope below active) o members).value := by
  induction members generalizing o with
  | nil => exact .nil
  | cons member rest ih =>
    obtain ⟨key, value⟩ := member
    exact (h o key value).append ih

end Merges

/-- What a descriptor gives is what its merged members give. -/
theorem merges_apply (scope : Scope) (level : Nat) (active : List String) (descriptor : Json)
    (o : Outline) : Merges scope o (mergedMembers scope level active descriptor o)
      (apply scope level active descriptor o).value := by
  induction level generalizing active descriptor o with
  | zero =>
    rw [apply_eq_applyOver, mergedMembers]
    cases descriptor with
    | obj members =>
      have hown : collect (takeMember scope none active) (fun _ key value => [(key, value)]) o
          members = members := collect_eq_self fun _ _ _ _ => rfl
      have hmerges : Merges scope o
          (collect (takeMember scope none active) (fun _ key value => [(key, value)]) o members)
          (readMembers (takeMember scope none active) o members).value :=
        Merges.collect fun _ _ _ => .single (.inl rfl)
      rwa [hown] at hmerges
    | _ => exact .nil
  | succ level ih =>
    rw [apply_eq_applyOver, mergedMembers]
    cases descriptor with
    | obj members =>
      refine Merges.collect fun r key value => ?_
      cases hf : followed? scope active r key value with
      | some found =>
        obtain ⟨reference, name, target⟩ := found
        have hfollows := followed?_eq_some_iff.mp hf
        have hinlined := ih (name :: active) target (r.noteReference reference)
        obtain ⟨hk, rfl, -⟩ := id hfollows
        have htake : takeMember scope (levelBelow scope (level + 1)) active r key (.str reference) =
            takeReference scope (some (apply scope level)) active r reference := by
          rw [takeMember, hk]
          rfl
        rw [htake, takeReference_some hfollows]
        exact .noted hinlined
      | none =>
        refine .single (.inr fun reference name target hfollows => ?_)
        rw [followed?_eq_some_iff.mpr hfollows] at hf
        cases hf
    | _ => exact .nil

end Descriptor
end DeviceTwin
