import DeviceTwin.Proofs.Descriptor.Levels
import DeviceTwin.Proofs.Shape.Height

/-!
Where the parts of a shape come from. Every part is the shape of a descriptor one level down, so a
shape is no higher than there are levels, and what stands below the last level is unset.
-/
namespace DeviceTwin

namespace Outline

def AllParts (p : Shape → Prop) (o : Outline) : Prop := ∀ part ∈ o.parts, p part

variable {o : Outline} {p : Shape → Prop}

theorem allParts_empty : AllParts p {} := nofun

theorem fixKind_allParts (h : o.AllParts p) (kind : Tag) :
    Yields (AllParts p) (o.fixKind kind) := by
  unfold fixKind
  cases o.kind with
  | none => exact yields_ok h
  | some existing => exact yields_error _

/-- A collection brings its own parts, whether or not it is accepted. -/
theorem addTo_allParts {c : Collection} (h : o.AllParts p) (hc : ∀ part ∈ c.parts, p part) :
    Yields (AllParts p) (c.addTo o) := by
  intro r hadd part hpart
  exact ((mem_parts_of_addTo hadd).mp hpart).elim (hc part) (h part)

/-- Nothing but collected parts goes into the complete shape. -/
theorem mem_parts_of_mem_finalKind {part : Shape} (h : part ∈ o.finalKind.parts) :
    part ∈ o.parts := by
  have hown : ∀ member ∈ o.ownChildren, member.shape ∈ o.parts := by
    intro member hm
    unfold ownChildren at hm
    unfold parts
    cases hc : o.children with
    | none => simp [hc] at hm
    | some children =>
      obtain ⟨source, members⟩ := children
      simp only [hc] at hm
      split at hm
      · exact List.mem_append_left _ (by simpa using ⟨member, hm, rfl⟩)
      · simp at hm
  unfold finalKind at h
  split at h <;> simp only [Kind.parts, List.not_mem_nil, List.mem_map, Option.mem_toList,
    Option.map_eq_some_iff] at h
  · obtain ⟨member, hm, rfl⟩ := h
    exact hown member hm
  · obtain ⟨member, hm, rfl⟩ := h
    exact hown member (List.mem_of_mem_head? hm)
  · obtain ⟨member, hm, rfl⟩ := h
    exact hown member hm
  · obtain ⟨field, hf, rfl⟩ := h
    exact List.mem_append_right _ (List.mem_map_of_mem hf)

end Outline

namespace Descriptor

variable {scope : Scope} {below : Option Application} {active : List String} {o : Outline}
  {keyword : Keyword} {key : String} {value descriptor : Json} {p : Shape → Prop} {level n : Nat}

theorem takePart_holds {part : Member Shape}
    (hn : key = "element" → p (readNested scope below active value).value) (h : p part.shape) :
    p (takePart scope below active part key value).record.shape := by
  unfold takePart
  split
  · exact Taken.record_ofExcept (p := fun part : Member Shape => p part.shape) h (.map fun _ => h)
  · exact hn rfl
  · exact h

theorem takeField_holds {field : BitField Shape}
    (hn : key = "value" → p (readNested scope below active value).value) (h : p field.value) :
    p (takeField scope below active field key value).record.value := by
  unfold takeField
  split
  · exact Taken.record_ofExcept (p := fun field : BitField Shape => p field.value) h
      (.map fun _ => h)
  · exact Taken.record_ofExcept (p := fun field : BitField Shape => p field.value) h
      (.map fun _ => h)
  · exact Taken.record_ofExcept (p := fun field : BitField Shape => p field.value) h
      (.map fun _ => h)
  · exact hn rfl
  · exact h

/-- What holds of a record at first and is kept by its members holds of every record in an array. -/
theorem readCollection_holds {ρ : Type} {q : ρ → Prop} {take : ρ → String → Json → Taken ρ}
    {r : ρ} {items : List Json} {index : Nat}
    (htake : ∀ r k w, (k = key → p (readNested scope below active w).value) → q r →
      q (take r k w).record)
    (hn : ∀ child ∈ items.flatMap (·.valuesOf key), p (readNested scope below active child).value)
    (hr : q r) : ∀ x ∈ (readItems (readRecord take r) index items).value, q x := by
  intro x hx
  obtain ⟨item, hitem, hvalue⟩ := mem_value_readItems hx
  cases item with
  | obj members =>
    cases hvalue
    refine readMembers_invariant (p := q) (fun r k w hv hq => htake r k w ?_ hq) hr
    rintro rfl
    exact hn w (List.mem_flatMap.mpr ⟨_, hitem, Json.mem_valuesOf.mpr hv.mem⟩)
  | _ => cases hvalue

theorem takeValues_allParts (ho : o.AllParts p) : (takeValues o value).record.AllParts p := by
  have hstates (entries : List StateEntry) : Yields (Outline.AllParts p) (o.addStates entries) :=
    Outline.addTo_allParts (c := .states entries) ho (List.forall_mem_nil _)
  have hnumbers (words : NumberWords) : Yields (Outline.AllParts p) (o.addNumbers words) :=
    Outline.addTo_allParts (c := .numbers words) ho (List.forall_mem_nil _)
  unfold takeValues
  split
  · exact ho
  · split
    · exact Taken.record_store ho (hstates _)
    · exact Taken.record_store ho (hstates _)
    · split
      · exact ho
      · exact Taken.record_ofExcept ho (.bind hnumbers)
    · exact ho

/-- A member adds no parts but shapes of the descriptors inside of it, the empty shape, and what a
reference adds. -/
theorem takeKeyword_allParts (hdefault : p {})
    (hn : ∀ child ∈ innerOf o keyword value, p (readNested scope below active child).value)
    (hr : keyword = .reference → ∀ reference, value = .str reference →
      (takeReference scope below active o reference).record.AllParts p)
    (ho : o.AllParts p) : (takeKeyword scope below active o keyword value).record.AllParts p := by
  have hchildren {o : Outline} (ho : o.AllParts p) (source : String) (members : List (Member Shape))
      (hm : ∀ member ∈ members, p member.shape) :
      Yields (Outline.AllParts p) (o.addChildren source members) :=
    Outline.addTo_allParts (c := .children source members) ho (List.forall_mem_map.mpr hm)
  cases keyword with
  | kind => exact Taken.record_ofExcept ho (.bind (Outline.fixKind_allParts ho))
  | values => exact takeValues_allParts ho
  | properties =>
    cases value with
    | arr items =>
      have hparts : ∀ part ∈ (readItems (readRecord (takePart scope below active) { shape := {} }) 0
          items).value, p part.shape :=
        readCollection_holds (q := fun part : Member Shape => p part.shape)
          (fun _ _ _ => takePart_holds) hn hdefault
      exact Taken.record_store ho (hchildren ho _ _ hparts)
    | _ => exact ho
  | items =>
    cases value with
    | obj members =>
      have hpart := hn (.obj members) List.mem_cons_self
      exact Taken.record_store ho (hchildren ho _ _ (by simpa using hpart))
    | _ => exact ho
  | bitmaps =>
    cases value with
    | arr items =>
      have hfields : ∀ field ∈ (readItems (readRecord (takeField scope below active)
          { value := {} }) 0 items).value, p field.value :=
        readCollection_holds (q := fun field : BitField Shape => p field.value)
          (fun _ _ _ => takeField_holds) hn hdefault
      exact Taken.record_store ho (Outline.addTo_allParts (c := .bitFields _) ho
        (List.forall_mem_map.mpr hfields))
    | _ => exact ho
  | oneOf =>
    simp only [takeKeyword, takeAlternatives]
    split
    · exact ho
    · next hkind =>
      cases value with
      | arr items =>
        have hkindSet : Outline.AllParts p { o with kind := some .oneOf } := ho
        refine Taken.record_store (p := Outline.AllParts p) ho (hchildren hkindSet _ _ ?_)
        intro member hm
        obtain ⟨item, hitem, hvalue⟩ := mem_value_readItems hm
        cases hvalue
        exact hn item (by simpa [innerOf, hkind] using hitem)
      | _ => exact ho
  | format => exact Taken.record_ofExcept ho (.map fun _ => ho)
  | reference =>
    cases value with
    | str reference => exact hr rfl reference rfl
    | _ => exact ho
  | coefficient => exact Taken.record_ofExcept ho (.bind fun codes =>
    Outline.addTo_allParts (c := .coefficients codes) ho (List.forall_mem_nil _))
  | _ => exact Taken.record_ofExcept ho (.map fun _ => ho)

theorem takeMember_allParts (hdefault : p {})
    (hn : ∀ child ∈ inner o key value, p (readNested scope below active child).value)
    (hr : Keyword.ofName? key = some .reference → ∀ reference, value = .str reference →
      (takeReference scope below active o reference).record.AllParts p)
    (ho : o.AllParts p) : (takeMember scope below active o key value).record.AllParts p := by
  unfold takeMember
  unfold inner at hn
  cases hk : Keyword.ofName? key with
  | none => exact ho
  | some keyword =>
    rw [hk] at hn hr
    exact takeKeyword_allParts hdefault hn (fun he => hr (by rw [he])) ho

theorem takeReference_allParts {reference : String} (hk : Keyword.ofName? key = some .reference)
    (ho : o.AllParts p)
    (hf : ∀ name target f, Follows scope active o key (.str reference) reference name target →
      below = some f → (f (name :: active) target (o.noteReference reference)).value.AllParts p) :
    (takeReference scope below active o reference).record.AllParts p := by
  rcases takeReference_cases scope below active o reference hk with
    ⟨v, hrefused⟩ | ⟨name, target, f, hfollows, hbelow⟩
  · rw [hrefused]
    exact ho
  · have hparts := hf name target f hfollows hbelow
    rw [hbelow, takeReference_some hfollows]
    exact hparts

/-- The parts of an outline are shapes of the descriptors that its members hold, and what the
definitions that they refer to add. -/
theorem applyOver_allParts {members : List (String × Json)} (hdefault : p {})
    (hn : ∀ r key value child, Visits (takeMember scope below active) o members r key value →
      child ∈ inner r key value → p (readNested scope below active child).value)
    (hf : ∀ r key value reference name target f,
      Visits (takeMember scope below active) o members r key value →
      Follows scope active r key value reference name target → below = some f → r.AllParts p →
      (f (name :: active) target (r.noteReference reference)).value.AllParts p)
    (ho : o.AllParts p) :
    (applyOver scope below active (.obj members) o).value.AllParts p := by
  refine readMembers_invariant (p := Outline.AllParts p) (fun r key value hv hr => ?_) ho
  apply takeMember_allParts hdefault (fun child => hn r key value child hv) _ hr
  rintro hk reference rfl
  apply takeReference_allParts hk hr
  intro name target f hfollows hbelow
  exact hf r key _ reference name target f hv hfollows hbelow hr

/-- Below a node that stands `n` steps down there is nothing, and that node itself is unset. -/
def UnsetAt (n : Nat) (shape : Shape) : Prop := ∀ node ∈ shape.nodesAt n, node = {}

theorem unsetAt_default : UnsetAt n {} := by
  cases n <;> simp [UnsetAt, Shape.nodesAt, Kind.parts]

theorem unsetAt_succ_iff {shape : Shape} :
    UnsetAt (n + 1) shape ↔ ∀ part ∈ shape.kind.parts, UnsetAt n part := by
  simp only [UnsetAt, Shape.nodesAt, List.mem_flatMap]
  constructor
  · exact fun h part hp node hnode => h node ⟨part, hp, hnode⟩
  · rintro h node ⟨part, hp, hnode⟩
    exact h part hp node hnode

theorem UnsetAt.succ {shape : Shape} (h : UnsetAt n shape) : UnsetAt (n + 1) shape := by
  induction n generalizing shape with
  | zero =>
    rw [h shape (List.mem_singleton_self _)]
    exact unsetAt_default
  | succ n ih =>
    rw [unsetAt_succ_iff] at h ⊢
    exact fun part hp => ih (h part hp)

theorem UnsetAt.height_le {shape : Shape} (h : UnsetAt n shape) : shape.height ≤ n := by
  rw [Shape.height_le_iff_nodesAt]
  induction n generalizing shape with
  | zero =>
    rw [h shape (List.mem_singleton_self _)]
    rfl
  | succ n ih =>
    rw [Shape.nodesAt, List.flatMap_eq_nil_iff]
    exact fun part hp => ih (unsetAt_succ_iff.mp h part hp)

theorem unsetAt_complete {m : Noted Outline} (h : m.value.AllParts (UnsetAt n)) :
    UnsetAt (n + 1) (complete m).value :=
  unsetAt_succ_iff.mpr fun part hp => h part (Outline.mem_parts_of_mem_finalKind hp)

theorem UnsetAt.mono {m : Nat} {shape : Shape} (hmn : m ≤ n) (h : UnsetAt m shape) :
    UnsetAt n shape := by
  induction hmn with
  | refl => exact h
  | step _ ih => exact ih.succ

/-- The parts of an outline are cut off where the levels end. -/
theorem apply_allParts {active : List String} (hn : level ≤ n) (ho : o.AllParts (UnsetAt n)) :
    (apply scope level active descriptor o).value.AllParts (UnsetAt n) := by
  induction level generalizing active descriptor o n with
  | zero =>
    rw [apply_eq_applyOver]
    cases descriptor with
    | obj members =>
      apply applyOver_allParts (p := UnsetAt n) unsetAt_default _ _ ho
      · intro r key value child _ _
        exact unsetAt_default
      · rintro r key value reference name target _ _ _ ⟨⟩
    | _ => exact ho
  | succ level ih =>
    rw [apply_eq_applyOver]
    cases descriptor with
    | obj members =>
      apply applyOver_allParts (p := UnsetAt n) unsetAt_default _ _ ho
      · intro r key value child _ _
        exact (unsetAt_complete (ih (Nat.le_refl level) Outline.allParts_empty)).mono hn
      · rintro r key value reference name target _ _ _ ⟨⟩ hr
        exact ih (by omega) hr
    | _ => exact ho

theorem unsetAt_read (scope : Scope) (descriptor : Json) :
    UnsetAt (scope.maxDepth + 1) (read scope descriptor).value :=
  unsetAt_complete (apply_allParts (Nat.le_refl _) Outline.allParts_empty)

end Descriptor
end DeviceTwin
