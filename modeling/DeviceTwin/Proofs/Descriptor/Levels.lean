import DeviceTwin.Proofs.Descriptor.Inner

/-!
Reading with different numbers of levels and different names in use. Until a limit is reported both
are invisible: more levels and fewer names in use read the same.
-/
namespace DeviceTwin.Descriptor

variable {scope scope' : Scope} {below below' : Option Application} {active active' : List String}
  {o : Outline} {key : String} {value descriptor : Json} {v : Violation} {level level' : Nat}
  {members : List (String × Json)}

/-- The level below a level; there is none below the last. -/
def levelBelow (scope : Scope) : Nat → Option Application
  | 0 => none
  | level + 1 => some (apply scope level)

theorem apply_eq_applyOver (scope : Scope) (level : Nat) (active : List String) (descriptor : Json)
    (o : Outline) : apply scope level active descriptor o =
      applyOver scope (levelBelow scope level) active descriptor o := by
  cases level <;> rfl

@[simp] theorem violations_complete (n : Noted Outline) :
    (complete n).violations =
      n.violations ++ n.value.misplaced.map (.misplacedCollection · (Tag.nameOf n.value.kind)) := by
  simp [complete, Noted.violations, Outline.complete, Function.comp_def]

theorem mem_violations_complete {n : Noted Outline} (hv : v.isLimit = true) :
    v ∈ (complete n).violations ↔ v ∈ n.violations := by
  rw [violations_complete, List.mem_append, or_iff_left]
  intro h
  obtain ⟨collection, _, rfl⟩ := List.mem_map.mp h
  cases hv

theorem Keyword.ofName?_eq_some_iff {keyword : Keyword} :
    Keyword.ofName? key = some keyword ↔ key = keyword.name := by
  constructor
  · intro h
    have := List.find?_some h
    simp_all
  · rintro rfl
    cases keyword <;> rfl

/-- `Follows scope active o key value reference name target`: this member is a reference to a
definition that can be taken in its place. -/
structure Follows (scope : Scope) (active : List String) (o : Outline) (key : String) (value : Json)
    (reference name : String) (target : Json) : Prop where
  keyword : Keyword.ofName? key = some .reference
  value_eq : value = .str reference
  name_eq : definitionName? reference = some name
  defined : scope.definitions.lookup name = some target
  inactive : name ∉ active
  undecided : o.kind = none

theorem takeReference_none {reference name : String} {target : Json}
    (h : Follows scope active o key value reference name target) :
    takeReference scope none active o reference =
      .refused o (.depthExceeded scope.maxDepth) := by
  simp [takeReference, h.name_eq, h.defined, h.inactive, h.undecided]

theorem takeReference_some {reference name : String} {target : Json} {f : Application}
    (h : Follows scope active o key value reference name target) :
    takeReference scope (some f) active o reference =
      { record := (f (name :: active) target (o.noteReference reference)).value
        findings := (f (name :: active) target (o.noteReference reference)).findings } := by
  simp [takeReference, h.name_eq, h.defined, h.inactive, h.undecided]

theorem violations_takeReference_some {reference name : String} {target : Json} {f : Application}
    (h : Follows scope active o key value reference name target) :
    (takeReference scope (some f) active o reference).violations =
      (f (name :: active) target (o.noteReference reference)).violations := by
  rw [takeReference_some h]
  simp [Taken.violations, Noted.violations]

theorem takeReference_circular {reference name : String} {target : Json}
    (hn : definitionName? reference = some name) (hl : scope.definitions.lookup name = some target)
    (hin : name ∈ active) :
    takeReference scope below active o reference = .refused o (.circularReference reference) := by
  simp [takeReference, hn, hl, hin]

/-- A reference is refused, or it is followed to a definition on the level below. -/
theorem takeReference_cases (scope : Scope) (below : Option Application) (active : List String)
    (o : Outline) (reference : String) (hk : Keyword.ofName? key = some .reference) :
    (∃ v, takeReference scope below active o reference = .refused o v) ∨
      ∃ name target f, Follows scope active o key (.str reference) reference name target ∧
        below = some f := by
  cases hn : definitionName? reference with
  | none => exact .inl ⟨.malformedReference reference, by simp [takeReference, hn]⟩
  | some name =>
    cases hl : scope.definitions.lookup name with
    | none => exact .inl ⟨.undefinedReference reference, by simp [takeReference, hn, hl]⟩
    | some target =>
      by_cases hin : name ∈ active
      · exact .inl ⟨.circularReference reference, takeReference_circular hn hl hin⟩
      · cases hkind : o.kind with
        | some existing =>
          exact .inl ⟨.kindAlreadySet existing.name, by simp [takeReference, hn, hl, hin, hkind]⟩
        | none =>
          have hf : Follows scope active o key (.str reference) reference name target :=
            ⟨hk, rfl, hn, hl, hin, hkind⟩
          cases below with
          | none => exact .inl ⟨.depthExceeded scope.maxDepth, takeReference_none hf⟩
          | some f => exact .inr ⟨name, target, f, hf, rfl⟩

/-- A reference that cannot be followed is refused at every level, for the same reason unless its
name is in use for only one of two readers. -/
theorem takeReference_of_not_follows {reference : String}
    (hdefs : scope'.definitions = scope.definitions) (hk : Keyword.ofName? key = some .reference)
    (hactive : ∀ name target, definitionName? reference = some name →
      scope.definitions.lookup name = some target → (name ∈ active' ↔ name ∈ active))
    (h : ∀ name target, ¬ Follows scope active o key (.str reference) reference name target) :
    takeReference scope' below' active' o reference =
      takeReference scope below active o reference := by
  unfold takeReference
  cases hn : definitionName? reference with
  | none => rfl
  | some name =>
    cases hl : scope.definitions.lookup name with
    | none => simp only [hdefs, hl]
    | some target =>
      have hiff := hactive name target hn hl
      simp only [hdefs, hl, List.contains_iff_mem, hiff]
      split
      · rfl
      · next hin =>
        cases hkind : o.kind with
        | none => exact absurd ⟨hk, rfl, hn, hl, by simpa using hin, hkind⟩ (h name target)
        | some existing => rfl

/-- The members that a descriptor has are taken in order. -/
theorem applyOver_obj : applyOver scope below active (.obj members) o =
    readMembers (takeMember scope below active) o members := rfl

theorem mem_violations_applyOver_obj :
    v ∈ (applyOver scope below active (.obj members) o).violations ↔
      ∃ r key value, Visits (takeMember scope below active) o members r key value ∧
        v ∈ (takeMember scope below active r key value).violations :=
  mem_violations_readMembers

theorem exists_follows_of_depthExceeded {reference : String} {cap : Nat}
    (hk : Keyword.ofName? key = some .reference)
    (h : .depthExceeded cap ∈ (takeReference scope below active o reference).violations) :
    ∃ name target, Follows scope active o key (.str reference) reference name target := by
  unfold takeReference at h
  split at h
  · simp at h
  · next name hn =>
    split at h
    · simp at h
    · next target hl =>
      split at h
      · simp at h
      · next hin =>
        split at h
        · simp at h
        · next hkind => exact ⟨name, target, hk, rfl, hn, hl, by simpa using hin, hkind⟩
        · next hkind => exact ⟨name, target, hk, rfl, hn, hl, by simpa using hin, hkind⟩

/-- A depth that is exceeded is exceeded in a descriptor inside or by following a reference. -/
theorem exists_of_depthExceeded {cap : Nat}
    (h : .depthExceeded cap ∈ (applyOver scope below active descriptor o).violations) :
    ∃ members r key value, descriptor = .obj members ∧
      Visits (takeMember scope below active) o members r key value ∧
      ((∃ child ∈ inner r key value,
          .depthExceeded cap ∈ (readNested scope below active child).violations) ∨
        ∃ reference name target, Follows scope active r key value reference name target ∧
          .depthExceeded cap ∈ (takeReference scope below active r reference).violations) := by
  cases descriptor with
  | obj members =>
    obtain ⟨r, key, value, hv, hm⟩ := mem_violations_applyOver_obj.mp h
    refine ⟨members, r, key, value, rfl, hv, ?_⟩
    rcases (mem_violations_takeMember rfl).mp hm with hchild | ⟨hk, reference, rfl, href⟩
    · exact Or.inl hchild
    · obtain ⟨name, target, hf⟩ := exists_follows_of_depthExceeded hk href
      exact Or.inr ⟨reference, name, target, hf, href⟩
  | _ => simp [applyOver, Json.expectObject] at h

/-- Two readers that agree on everything the first asks for read the same. -/
theorem applyOver_congr
    (hn : ∀ r key value child, Visits (takeMember scope below active) o members r key value →
      child ∈ inner r key value →
      readNested scope' below' active' child = readNested scope below active child)
    (hr : ∀ r key value reference, Visits (takeMember scope below active) o members r key value →
      Keyword.ofName? key = some .reference → value = .str reference →
      takeReference scope' below' active' r reference =
        takeReference scope below active r reference) :
    applyOver scope' below' active' (.obj members) o =
      applyOver scope below active (.obj members) o :=
  readMembers_congr fun r key value hv =>
    takeMember_congr (fun child => hn r key value child hv) fun hk reference =>
      hr r key value reference hv hk

section Free

variable {bad : Violation → Prop}

/-- Without a bad violation, agreement one level down gives agreement. `bad` covers circularity for
the names that only the first reader has in use. -/
theorem takeMember_eq_of_below (hbad : ∀ v, bad v → v.isLimit = true)
    (hdefs : scope'.definitions = scope.definitions) (hsub : active' ⊆ active)
    (hcircular : ∀ name ∈ active, name ∉ active' → ∀ reference, bad (.circularReference reference))
    (hn : ∀ child, (∀ v ∈ (readNested scope below active child).violations, ¬ bad v) →
      readNested scope' below' active' child = readNested scope below active child)
    (hr : ∀ reference name target, Follows scope active o key value reference name target →
      (∀ v ∈ (takeReference scope below active o reference).violations, ¬ bad v) →
      takeReference scope' below' active' o reference =
        takeReference scope below active o reference)
    (hfree : ∀ v ∈ (takeMember scope below active o key value).violations, ¬ bad v) :
    takeMember scope' below' active' o key value = takeMember scope below active o key value := by
  apply takeMember_congr
  · intro child hc
    apply hn
    intro v hm hb
    exact hfree v ((mem_violations_takeMember (hbad v hb)).mpr (Or.inl ⟨child, hc, hm⟩)) hb
  · rintro hk reference rfl
    have href : ∀ v ∈ (takeReference scope below active o reference).violations, ¬ bad v := by
      intro v hm hb
      exact hfree v ((mem_violations_takeMember (hbad v hb)).mpr (Or.inr ⟨hk, reference, rfl, hm⟩))
        hb
    by_cases hf : ∃ name target, Follows scope active o key (.str reference) reference name target
    · obtain ⟨name, target, hf⟩ := hf
      exact hr reference name target hf href
    · apply takeReference_of_not_follows hdefs hk
      · intro name target hname hl
        refine ⟨fun h => hsub h, fun h => ?_⟩
        by_cases hnot : name ∈ active'
        · exact hnot
        · rw [takeReference_circular hname hl h] at href
          exact absurd (hcircular name h hnot reference) (href _ (List.mem_singleton_self _))
      · exact fun name target h => hf ⟨name, target, h⟩

theorem applyOver_eq_of_members
    (h : ∀ r key value, (∀ v ∈ (takeMember scope below active r key value).violations, ¬ bad v) →
      takeMember scope' below' active' r key value = takeMember scope below active r key value)
    (hfree : ∀ v ∈ (applyOver scope below active descriptor o).violations, ¬ bad v) :
    applyOver scope' below' active' descriptor o = applyOver scope below active descriptor o := by
  cases descriptor with
  | obj members =>
    apply readMembers_congr
    intro r key value hv
    exact h r key value fun v hm =>
      hfree v (mem_violations_applyOver_obj.mpr ⟨r, key, value, hv, hm⟩)
  | _ => rfl

/-- A member taken without a bad violation is taken the same with more levels below it and with
fewer names in use. -/
theorem takeMember_eq_of_free (hbad : ∀ v, bad v → v.isLimit = true)
    (hdepth : ∀ max, bad (.depthExceeded max)) (hdefs : scope'.definitions = scope.definitions)
    (hlevel : level ≤ level') (hsub : active' ⊆ active)
    (hcircular : ∀ name ∈ active, name ∉ active' → ∀ reference, bad (.circularReference reference))
    (hfree : ∀ v ∈ (takeMember scope (levelBelow scope level) active o key value).violations,
      ¬ bad v) :
    takeMember scope' (levelBelow scope' level') active' o key value =
      takeMember scope (levelBelow scope level) active o key value := by
  induction level generalizing level' active active' o key value with
  | zero =>
    apply takeMember_eq_of_below hbad hdefs hsub hcircular _ _ hfree
    · intro child hchild
      exact absurd (hdepth _) (hchild _ (List.mem_singleton_self _))
    · intro reference name target hf href
      rw [levelBelow, takeReference_none hf] at href
      exact absurd (hdepth _) (href _ (List.mem_singleton_self _))
  | succ level ih =>
    obtain ⟨level', rfl⟩ : ∃ l, level' = l + 1 := ⟨level' - 1, by omega⟩
    apply takeMember_eq_of_below hbad hdefs hsub hcircular _ _ hfree
    · intro child hchild
      have heq : apply scope' level' active' child {} = apply scope level active child {} := by
        rw [apply_eq_applyOver, apply_eq_applyOver scope]
        apply applyOver_eq_of_members
        · exact fun r key value => ih (by omega) hsub hcircular
        · intro v hv hb
          rw [← apply_eq_applyOver] at hv
          exact hchild v ((mem_violations_complete (hbad v hb)).mpr hv) hb
      simp only [levelBelow, readNested, heq]
    · intro reference name target hf href
      have hf' : Follows scope' active' o key value reference name target :=
        { hf with defined := by rw [hdefs, hf.defined], inactive := fun h => hf.inactive (hsub h) }
      have heq : apply scope' level' (name :: active') target (o.noteReference reference) =
          apply scope level (name :: active) target (o.noteReference reference) := by
        rw [apply_eq_applyOver, apply_eq_applyOver scope]
        apply applyOver_eq_of_members
        · intro r key value
          apply ih (by omega) (List.cons_subset_cons name hsub)
          intro n hin hnot
          simp only [List.mem_cons, not_or] at hin hnot
          exact hcircular n (hin.resolve_left hnot.1) hnot.2
        · intro v hv
          rw [← apply_eq_applyOver] at hv
          apply href
          rwa [levelBelow, violations_takeReference_some hf]
      rw [levelBelow, levelBelow, takeReference_some hf, takeReference_some hf', heq]

/-- A descriptor read without a bad violation reads the same with more levels below it and with
fewer names in use. -/
theorem apply_eq_of_free (hbad : ∀ v, bad v → v.isLimit = true)
    (hdepth : ∀ max, bad (.depthExceeded max)) (hdefs : scope'.definitions = scope.definitions)
    (hlevel : level ≤ level') (hsub : active' ⊆ active)
    (hcircular : ∀ name ∈ active, name ∉ active' → ∀ reference, bad (.circularReference reference))
    (hfree : ∀ v ∈ (apply scope level active descriptor o).violations, ¬ bad v) :
    apply scope' level' active' descriptor o = apply scope level active descriptor o := by
  rw [apply_eq_applyOver] at hfree ⊢
  rw [apply_eq_applyOver scope]
  exact applyOver_eq_of_members
    (fun r key value => takeMember_eq_of_free hbad hdepth hdefs hlevel hsub hcircular) hfree

theorem isLimit_of_depthExceeded (v : Violation) (h : ∃ cap, v = .depthExceeded cap) :
    v.isLimit = true := by
  obtain ⟨cap, rfl⟩ := h
  rfl

/-- A member taken within the levels is taken the same with more levels. -/
theorem takeMember_eq_of_depth_kept (hdefs : scope'.definitions = scope.definitions)
    (hlevel : level ≤ level')
    (hfree : ∀ cap, .depthExceeded cap ∉
      (takeMember scope (levelBelow scope level) active o key value).violations) :
    takeMember scope' (levelBelow scope' level') active o key value =
      takeMember scope (levelBelow scope level) active o key value := by
  apply takeMember_eq_of_free isLimit_of_depthExceeded (fun cap => ⟨cap, rfl⟩) hdefs hlevel
    (List.Subset.refl _)
  · exact fun name hin hnot => absurd hin hnot
  · rintro _ hm ⟨cap, rfl⟩
    exact hfree cap hm

/-- A descriptor read within its levels reads the same with more levels. -/
theorem apply_eq_of_depth_kept (hdefs : scope'.definitions = scope.definitions)
    (hlevel : level ≤ level')
    (hfree : ∀ cap, .depthExceeded cap ∉ (apply scope level active descriptor o).violations) :
    apply scope' level' active descriptor o = apply scope level active descriptor o := by
  apply apply_eq_of_free isLimit_of_depthExceeded (fun cap => ⟨cap, rfl⟩) hdefs hlevel
    (List.Subset.refl _)
  · exact fun name hin hnot => absurd hin hnot
  · rintro _ hm ⟨cap, rfl⟩
    exact hfree cap hm

end Free

end DeviceTwin.Descriptor
