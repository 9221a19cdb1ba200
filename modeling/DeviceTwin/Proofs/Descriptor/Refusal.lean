import DeviceTwin.Proofs.Descriptor.Levels

/-!
What a refused member leaves behind: nothing, with one exception. Alternatives that come after other
parts, while the kind is still open, settle the kind before they are refused.
-/
namespace DeviceTwin.Descriptor

variable {scope : Scope} {below : Option Application} {active : List String} {o : Outline}
  {keyword : Keyword} {key : String} {value : Json}

/-- A refusal, if it is one, leaves the record as it was. -/
def Atomic {ρ : Type} (o : ρ) (t : Taken ρ) : Prop := t.refusal ≠ none → t.record = o

theorem atomic_ofExcept {ρ : Type} {o : ρ} {x : Except Violation ρ} :
    Atomic o (.ofExcept o x) := by
  cases x with
  | error v => exact fun _ => rfl
  | ok r => exact fun h => absurd rfl h

theorem atomic_refused {ρ : Type} {o : ρ} {v : Violation} : Atomic o (.refused o v) :=
  fun _ => rfl

theorem atomic_store {ρ α : Type} {o : ρ} {n : Noted α} {put : α → Except Violation ρ} :
    Atomic o (.store o n put) := atomic_ofExcept

theorem atomic_values : Atomic o (takeValues o value) := by
  unfold takeValues
  split
  · exact atomic_refused
  · split
    · exact atomic_store
    · exact atomic_store
    · split
      · exact atomic_refused
      · exact atomic_ofExcept
    · exact atomic_refused

theorem atomic_reference {reference : String} :
    Atomic o (takeReference scope below active o reference) := by
  unfold takeReference
  split
  · exact atomic_refused
  · split
    · exact atomic_refused
    · split
      · exact atomic_refused
      · split
        · exact atomic_refused
        · exact atomic_refused
        · exact fun h => absurd rfl h

/-- An array of alternatives for a kind that is still open, after parts from another member. -/
structure LateAlternatives (o : Outline) (key : String) (value : Json) : Prop where
  key_eq : key = "oneOf"
  isArray : ∃ items, value = .arr items
  undecided : o.kind = none
  populated : o.children ≠ none

theorem takeMember_oneOf : takeMember scope below active o "oneOf" value =
    takeAlternatives scope below active o value := by
  have hkeyword : Keyword.ofName? "oneOf" = some .oneOf := rfl
  simp only [takeMember, hkeyword, takeKeyword]

/-- Late alternatives are refused for the parts that are there, but they settle the kind. -/
theorem LateAlternatives.taken (h : LateAlternatives o key value) :
    (takeMember scope below active o key value).refusal = some (.alreadyPopulated "children") ∧
      (takeMember scope below active o key value).record = { o with kind := some .oneOf } := by
  obtain ⟨rfl, ⟨items, rfl⟩, hkind, hchildren⟩ := h
  obtain ⟨children, hc⟩ := Option.ne_none_iff_exists'.mp hchildren
  rw [takeMember_oneOf]
  simp only [takeAlternatives, hkind, Json.expectArray, Taken.store, Outline.addChildren, hc,
    Outline.fill, Except.map, Taken.ofExcept, and_self]

theorem atomic_alternatives (h : ¬ LateAlternatives o "oneOf" value) :
    Atomic o (takeAlternatives scope below active o value) := by
  unfold takeAlternatives
  split
  · exact atomic_refused
  · next hkind =>
    split
    · exact atomic_refused
    · next items harray =>
      -- Without parts from another member the alternatives are stored, so nothing is refused.
      have hvalue : value = .arr items := by cases value <;> simp_all [Json.expectArray]
      have hc : o.children = none := by
        by_cases hc : o.children = none
        · exact hc
        · exact absurd ⟨rfl, ⟨items, hvalue⟩, hkind, hc⟩ h
      intro hrefusal
      simp [Taken.store, Outline.addChildren, Outline.fill, hc, Except.map, Taken.ofExcept]
        at hrefusal

/-- Every refused member but late alternatives leaves the outline as it was. -/
theorem atomic_member (h : ¬ LateAlternatives o key value) :
    Atomic o (takeMember scope below active o key value) := by
  unfold takeMember
  split
  · exact atomic_refused
  · next keyword hk =>
    have hkey := Keyword.ofName?_eq_some_iff.mp hk
    cases keyword with
    | kind => exact atomic_ofExcept
    | values => exact atomic_values
    | properties =>
      simp only [takeKeyword, takeArray]
      split
      · exact atomic_refused
      · exact atomic_store
    | items =>
      simp only [takeKeyword, takeElement]
      split
      · exact atomic_refused
      · exact atomic_store
    | bitmaps =>
      simp only [takeKeyword, takeArray]
      split
      · exact atomic_refused
      · exact atomic_store
    | oneOf =>
      subst hkey
      exact atomic_alternatives h
    | reference =>
      simp only [takeKeyword]
      split
      · exact atomic_refused
      · exact atomic_reference
    | _ => exact atomic_ofExcept

section Members

variable (scope : Scope) (level : Nat) (active : List String) (o : Outline)
  (before after : List (String × Json)) (key : String) (value : Json)

/-- The outline that some members leave. -/
def outlineAfter : Outline := (apply scope level active (.obj before) o).value

/-- What becomes of a member that comes after some others. -/
def takenAfter : Taken Outline :=
  takeMember scope (levelBelow scope level) active (outlineAfter scope level active o before) key
    value

/-- The shape that members give. -/
def shapeOfMembers : Shape := (complete (apply scope level active (.obj before) o)).value

theorem outlineAfter_append : outlineAfter scope level active o (before ++ after) =
    outlineAfter scope level active (outlineAfter scope level active o before) after := by
  simp only [outlineAfter, apply_eq_applyOver, applyOver_obj, value_readMembers_append]

theorem outlineAfter_cons : outlineAfter scope level active o ((key, value) :: after) =
    outlineAfter scope level active
      (takeMember scope (levelBelow scope level) active o key value).record after := by
  simp only [outlineAfter, apply_eq_applyOver, applyOver_obj, readMembers]

theorem shapeOfMembers_eq : shapeOfMembers scope level active o before =
    (outlineAfter scope level active o before).complete.1 := rfl

/-- A refused member is skipped unless it gives late alternatives: the outline is as it was, and the
shape is that of the other members. Late alternatives leave their kind behind. -/
theorem refused_member_skipped_iff
    (h : (takenAfter scope level active o before key value).refusal ≠ none) :
    ((takenAfter scope level active o before key value).record =
        outlineAfter scope level active o before ↔
      ¬ LateAlternatives (outlineAfter scope level active o before) key value) ∧
    (¬ LateAlternatives (outlineAfter scope level active o before) key value →
      shapeOfMembers scope level active o (before ++ (key, value) :: after) =
        shapeOfMembers scope level active o (before ++ after)) ∧
    (LateAlternatives (outlineAfter scope level active o before) key value →
      (takenAfter scope level active o before key value).refusal =
          some (.alreadyPopulated "children") ∧
        (takenAfter scope level active o before key value).record =
          { outlineAfter scope level active o before with kind := some .oneOf }) := by
  refine ⟨⟨?_, ?_⟩, ?_, ?_⟩
  · intro heq hlate
    have hkind : (takenAfter scope level active o before key value).record.kind = some .oneOf := by
      rw [takenAfter, hlate.taken.2]
    rw [heq, hlate.undecided] at hkind
    cases hkind
  · intro hnot
    exact atomic_member hnot h
  · -- The members after it are taken at the same outline either way.
    intro hnot
    have hrecord := atomic_member hnot h
    rw [shapeOfMembers_eq, shapeOfMembers_eq, outlineAfter_append, outlineAfter_append,
      outlineAfter_cons, hrecord]
  · intro hlate
    exact hlate.taken

end Members

/-- Items after properties are read and then refused; the shape is that of the properties. -/
theorem refused_items_skipped :
    (takenAfter { maxDepth := 32 } 32 [] {} [("properties", .arr [])] "items" (.obj [])).refusal ≠
        none ∧
      ¬ LateAlternatives (outlineAfter { maxDepth := 32 } 32 [] {} [("properties", .arr [])])
        "items" (.obj []) ∧
      shapeOfMembers { maxDepth := 32 } 32 [] {}
          ([("properties", .arr [])] ++ ("items", .obj []) :: [("type", .str "object")]) =
        shapeOfMembers { maxDepth := 32 } 32 [] {}
          ([("properties", .arr [])] ++ [("type", .str "object")]) := by
  have hrefused : (takenAfter { maxDepth := 32 } 32 [] {} [("properties", .arr [])] "items"
      (.obj [])).refusal ≠ none := by decide
  have hnot : ¬ LateAlternatives (outlineAfter { maxDepth := 32 } 32 [] {}
      [("properties", .arr [])]) "items" (.obj []) := by
    intro h
    exact absurd h.key_eq (by decide)
  exact ⟨hrefused, hnot, (refused_member_skipped_iff _ _ _ _ _ _ _ _ hrefused).2.1 hnot⟩

/-- Alternatives after items are refused, and still make the shape one of alternatives. -/
theorem late_alternatives_not_skipped :
    (takenAfter { maxDepth := 32 } 32 [] {} [("items", .obj [])] "oneOf" (.arr [])).refusal =
        some (.alreadyPopulated "children") ∧
      (takenAfter { maxDepth := 32 } 32 [] {} [("items", .obj [])] "oneOf" (.arr [])).record ≠
        outlineAfter { maxDepth := 32 } 32 [] {} [("items", .obj [])] ∧
      (read { maxDepth := 32 } (.obj [("items", .obj []), ("oneOf", .arr [])])).value ≠
        (read { maxDepth := 32 } (.obj [("items", .obj [])])).value := by
  refine ⟨by decide, fun h => ?_, fun h => ?_⟩
  · exact absurd (congrArg Outline.kind h) (by decide)
  · have hkind := congrArg (fun shape => shape.kind.tag?) h
    exact absurd hkind (by decide)

end DeviceTwin.Descriptor
