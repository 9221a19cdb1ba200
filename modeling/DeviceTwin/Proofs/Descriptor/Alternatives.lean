import DeviceTwin.Proofs.Descriptor.Parts
import DeviceTwin.Proofs.Descriptor.Places

/-!
Where the alternatives of a shape are written: in the descriptor itself, or in the definition at the
end of a chain of references.
-/
namespace DeviceTwin.Descriptor

/-- `RefersTo definitions descriptor holder`: the descriptor is the holder, or refers to it over one
or more references. -/
inductive RefersTo (definitions : List (String × Json)) : Json → Json → Prop
  | here (descriptor) : RefersTo definitions descriptor descriptor
  | through {members reference name target holder}
    (hlookup : members.lookup "$ref" = some (.str reference))
    (hname : definitionName? reference = some name)
    (hdefined : definitions.lookup name = some target)
    (h : RefersTo definitions target holder) : RefersTo definitions (.obj members) holder

/-- The alternative number `i` is written in the descriptor, or in one that it refers to. -/
def AlternativeAt (definitions : List (String × Json)) (descriptor : Json) (i : Nat) : Prop :=
  ∃ holder alternative, RefersTo definitions descriptor holder ∧
    Pointer.resolve? holder ["oneOf", toString i] = some alternative

/-- The alternatives in an outline are those before a descriptor was applied, or are written in the
descriptor or one that it refers to. -/
def AlternativesFrom (definitions : List (String × Json)) (descriptor : Json) (o r : Outline) :
    Prop :=
  r.children = o.children ∨
    ∀ members, r.children = some ("oneOf", members) →
      ∀ i < members.length, AlternativeAt definitions descriptor i

variable {definitions members : List (String × Json)} {scope : Scope} {below : Option Application}
  {active : List String} {o r r' : Outline} {key : String} {keyword : Keyword}
  {value descriptor target : Json} {items : List Json}

theorem AlternativesFrom.trans (h : AlternativesFrom definitions descriptor o r)
    (h' : AlternativesFrom definitions descriptor r r') :
    AlternativesFrom definitions descriptor o r' := by
  rcases h' with heq | h'
  · rcases h with heq' | h
    · exact .inl (heq.trans heq')
    · exact .inr fun members hm => h members (heq ▸ hm)
  · exact .inr h'

theorem addChildren_from {source : String} {children : List (Member Shape)}
    (h : source = "oneOf" → ∀ i < children.length, AlternativeAt definitions descriptor i) :
    Yields (AlternativesFrom definitions descriptor o) (r.addChildren source children) := by
  unfold Outline.addChildren Outline.fill
  cases r.children with
  | some _ => exact yields_error _
  | none =>
    refine yields_ok (.inr fun members hm => ?_)
    obtain ⟨rfl, rfl⟩ := Prod.mk.inj (Option.some.inj hm)
    exact h rfl

/-- Alternatives are all kept, each under its index. -/
theorem length_readAlternatives : (readAlternatives scope below active items).value.length =
    items.length := by
  have hfrom : ∀ index, (readItems (fun item => (readNested scope below active item).map
      fun shape => some ({ shape } : Member Shape)) index items).value.length = items.length := by
    induction items with
    | nil => exact fun _ => rfl
    | cons item rest ih => exact fun index => congrArg (· + 1) (ih (index + 1))
  exact hfrom 0

theorem alternativeAt_of_lookup (h : members.lookup "oneOf" = some (.arr items)) :
    ∀ i < items.length, AlternativeAt definitions (.obj members) i := by
  refine fun i hi => ⟨.obj members, items[i], .here _, ?_⟩
  rw [Pointer.resolve?, Pointer.child?_obj, h, Option.bind_some, Pointer.resolve?,
    Pointer.child?_arr, List.getElem?_eq_getElem hi]
  rfl

theorem takeAlternatives_from (h : members.lookup "oneOf" = some value) :
    AlternativesFrom definitions (.obj members) o
      (takeAlternatives scope below active o value).record := by
  unfold takeAlternatives
  split
  · exact .inl rfl
  · cases value with
    | arr items =>
      refine Taken.record_store (.inl rfl) (addChildren_from fun _ => ?_)
      rw [length_readAlternatives]
      exact alternativeAt_of_lookup h
    | _ => exact .inl rfl

theorem takeValues_from :
    AlternativesFrom definitions descriptor o (takeValues o value).record := by
  unfold takeValues
  split
  · exact .inl rfl
  · split
    · exact Taken.record_store (.inl rfl) (.map fun _ => .inl rfl)
    · exact Taken.record_store (.inl rfl) (.map fun _ => .inl rfl)
    · split
      · exact .inl rfl
      · exact Taken.record_ofExcept (.inl rfl) (.bind fun _ => .map fun _ => .inl rfl)
    · exact .inl rfl

theorem fixKind_from (kind : Tag) :
    Yields (AlternativesFrom definitions descriptor o) (o.fixKind kind) := by
  unfold Outline.fixKind
  split
  · exact yields_ok (.inl rfl)
  · exact yields_error _

/-- Only alternatives and references add alternatives. -/
theorem takeKeyword_from (hone : keyword ≠ .oneOf) (href : keyword ≠ .reference) :
    AlternativesFrom definitions descriptor o
      (takeKeyword scope below active o keyword value).record := by
  cases keyword with
  | oneOf => exact absurd rfl hone
  | reference => exact absurd rfl href
  | kind => exact Taken.record_ofExcept (.inl rfl) (.bind fixKind_from)
  | values => exact takeValues_from
  | properties =>
    simp only [takeKeyword, takeArray]
    split
    · exact .inl rfl
    · exact Taken.record_store (.inl rfl) (addChildren_from fun h => absurd h (by decide))
  | items =>
    simp only [takeKeyword, takeElement]
    split
    · exact .inl rfl
    · exact Taken.record_store (.inl rfl) (addChildren_from fun h => absurd h (by decide))
  | bitmaps =>
    simp only [takeKeyword, takeArray]
    split
    · exact .inl rfl
    · exact Taken.record_store (.inl rfl) (.map fun _ => .inl rfl)
  | coefficient => exact Taken.record_ofExcept (.inl rfl) (.bind fun _ => .map fun _ => .inl rfl)
  | _ => exact Taken.record_ofExcept (.inl rfl) (.map fun _ => .inl rfl)

/-- The level below takes alternatives from nowhere but the descriptor. -/
def BelowFrom (scope : Scope) (below : Option Application) : Prop :=
  ∀ f, below = some f → ∀ active (descriptor : Json) o, descriptor.hasDistinctKeys →
    AlternativesFrom scope.definitions descriptor o (f active descriptor o).value

variable (hbelow : BelowFrom scope below) (hdefs : (Json.obj scope.definitions).hasDistinctKeys)

include hbelow hdefs

theorem takeReference_from {reference : String}
    (hlookup : members.lookup "$ref" = some (.str reference)) :
    AlternativesFrom scope.definitions (.obj members) o
      (takeReference scope below active o reference).record := by
  have hk : Keyword.ofName? "$ref" = some .reference := rfl
  rcases takeReference_cases scope below active o reference hk with
    ⟨v, hrefused⟩ | ⟨name, target, f, hf, rfl⟩
  · rw [hrefused]
    exact .inl rfl
  · rw [takeReference_some hf]
    rw [Json.hasDistinctKeys_obj] at hdefs
    -- The definition may leave the parts that are there already, or give alternatives of its own.
    rcases hbelow f rfl (name :: active) target (o.noteReference reference)
      (hdefs.2 _ (mem_of_lookup hf.defined)) with heq | h
    · exact .inl heq
    · refine .inr fun ms hm i hi => ?_
      obtain ⟨holder, alternative, hrefers, hresolve⟩ := h ms hm i hi
      exact ⟨holder, alternative, .through hlookup hf.name_eq hf.defined hrefers, hresolve⟩

theorem takeMember_from (hkeys : (Json.keys members).Nodup) (hm : (key, value) ∈ members) :
    AlternativesFrom scope.definitions (.obj members) o
      (takeMember scope below active o key value).record := by
  have hlookup := lookup_of_mem hkeys hm
  unfold takeMember
  split
  · exact .inl rfl
  · next keyword hk =>
    obtain rfl := Keyword.ofName?_eq_some_iff.mp hk
    by_cases href : keyword = .reference
    · subst href
      cases value with
      | str reference => exact takeReference_from hbelow hdefs hlookup
      | _ => exact .inl rfl
    · by_cases hone : keyword = .oneOf
      · subst hone
        exact takeAlternatives_from hlookup
      · exact takeKeyword_from hone href

theorem applyOver_from (hkeys : descriptor.hasDistinctKeys) :
    AlternativesFrom scope.definitions descriptor o
      (applyOver scope below active descriptor o).value := by
  cases descriptor with
  | obj members =>
    rw [Json.hasDistinctKeys_obj] at hkeys
    -- The parts after each member are compared with those before the first.
    exact readMembers_invariant (p := AlternativesFrom scope.definitions (.obj members) o)
      (fun r key value hv h => h.trans (takeMember_from hbelow hdefs hkeys.1 hv.mem)) (.inl rfl)
  | _ => exact .inl rfl

omit hbelow in
theorem apply_from (level : Nat) : BelowFrom scope (some (apply scope level)) := by
  induction level with
  | zero =>
    rintro _ ⟨⟩ active descriptor o hkeys
    exact applyOver_from nofun hdefs hkeys
  | succ level ih =>
    rintro _ ⟨⟩ active descriptor o hkeys
    exact applyOver_from ih hdefs hkeys

omit hbelow hdefs in
/-- The alternatives of a complete shape are the parts that came as alternatives. -/
theorem length_alternatives {alternatives : List Shape} (h : o.finalKind = .oneOf alternatives) :
    alternatives = [] ∨
      ∃ members, o.children = some ("oneOf", members) ∧ alternatives.length = members.length := by
  have hkind : o.kind = some .oneOf ∧ o.ownChildren.map (·.shape) = alternatives := by
    unfold Outline.finalKind at h
    split at h <;> simp_all
  obtain ⟨hkind, rfl⟩ := hkind
  rw [List.length_map, Outline.ownChildren, hkind]
  cases hchildren : o.children with
  | none => exact .inl rfl
  | some children =>
    obtain ⟨source, members⟩ := children
    by_cases hsource : source = "oneOf"
    · subst hsource
      exact .inr ⟨members, rfl, rfl⟩
    · left
      simp [Outline.childSource?, Ne.symm hsource]

omit hbelow in
/-- The alternatives of a shape are written in its descriptor, or in one that this refers to. -/
theorem alternativeAt_read {alternatives : List Shape} (hkeys : descriptor.hasDistinctKeys)
    (h : (read scope descriptor).value.kind = .oneOf alternatives) :
    ∀ i < alternatives.length, AlternativeAt scope.definitions descriptor i := by
  have hfrom := apply_from hdefs scope.maxDepth _ rfl [] descriptor {} hkeys
  rcases length_alternatives h with rfl | ⟨members, hchildren, hlength⟩
  · exact fun i hi => absurd hi (Nat.not_lt_zero i)
  · rw [hlength]
    rcases hfrom with hnone | hfrom
    · rw [hchildren] at hnone
      cases hnone
    · exact hfrom members hchildren

end DeviceTwin.Descriptor
