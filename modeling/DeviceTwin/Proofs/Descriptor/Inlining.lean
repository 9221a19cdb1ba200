import DeviceTwin.Proofs.Descriptor.Levels

/-!
A reference stands for the descriptor that it names: reading either gives the same shape, except
for the reference that the shape itself notes, unless a limit on references or depth is reported.
-/
namespace DeviceTwin

namespace Outline

/-- The outline with another reference noted. -/
def withReference (o : Outline) (reference : Option String) : Outline := { o with reference }

variable (o : Outline) (reference : Option String)

theorem fixKind_withReference (kind : Tag) : (o.withReference reference).fixKind kind =
    (o.fixKind kind).map (·.withReference reference) := by
  unfold fixKind withReference
  cases o.kind <;> rfl

/-- Where a collection is accepted does not depend on the reference. -/
theorem addTo_withReference (c : Collection) : c.addTo (o.withReference reference) =
    (c.addTo o).map (·.withReference reference) := by
  obtain ⟨_, _, _, states, numbers, children, bitFields, coefficients, _⟩ := o
  cases c with
  | states => cases states <;> rfl
  | numbers => cases numbers <;> rfl
  | children => cases children <;> rfl
  | bitFields => cases bitFields <;> rfl
  | coefficients => cases coefficients <;> rfl

end Outline

namespace Descriptor

variable {scope : Scope} {below : Option Application} {active : List String}
  {o o' : Outline} {keyword : Keyword} {key : String} {value descriptor : Json}
  {reference : Option String}

/-- Outlines that differ at most in the reference that they note. -/
def Alike (o o' : Outline) : Prop := ∃ reference, o' = o.withReference reference

def AlikeTaken (t t' : Taken Outline) : Prop :=
  Alike t.record t'.record ∧ t'.findings = t.findings ∧ t'.refusal = t.refusal

theorem alikeTaken_ofExcept {x x' : Except Violation Outline}
    (h : x' = x.map (·.withReference reference)) :
    AlikeTaken (.ofExcept o x) (.ofExcept (o.withReference reference) x') := by
  subst h
  cases x <;> exact ⟨⟨reference, rfl⟩, rfl, rfl⟩

theorem alikeTaken_refused {v : Violation} :
    AlikeTaken (.refused o v) (.refused (o.withReference reference) v) :=
  ⟨⟨reference, rfl⟩, rfl, rfl⟩

theorem alikeTaken_store {α : Type} {n : Noted α} {put put' : α → Except Violation Outline}
    (h : ∀ x, put' x = (put x).map (·.withReference reference)) :
    AlikeTaken (.store o n put) (.store (o.withReference reference) n put') := by
  obtain ⟨hrecord, _, hrefusal⟩ := alikeTaken_ofExcept (o := o) (h n.value)
  exact ⟨hrecord, rfl, hrefusal⟩

theorem alikeTaken_attribute {α : Type} {x : Except Violation α}
    {put : Attributes → α → Attributes} :
    AlikeTaken (takeAttribute o x put) (takeAttribute (o.withReference reference) x put) := by
  apply alikeTaken_ofExcept
  cases x <;> rfl

theorem alikeTaken_values :
    AlikeTaken (takeValues o value) (takeValues (o.withReference reference) value) := by
  unfold takeValues
  cases value.expectArray with
  | error v => exact alikeTaken_refused
  | ok items =>
    have hstates : AlikeTaken (.store o (readEntries items) o.addStates)
        (.store (o.withReference reference) (readEntries items)
          (o.withReference reference).addStates) :=
      alikeTaken_store fun entries => o.addTo_withReference reference (.states entries)
    simp only [Outline.withReference]
    split
    · exact hstates
    · exact hstates
    · split
      · exact alikeTaken_refused
      · next format _ =>
        apply alikeTaken_ofExcept
        cases NumberWords.read format items with
        | error v => rfl
        | ok numbers => exact o.addTo_withReference reference (.numbers numbers)
    · exact alikeTaken_refused

theorem alikeTaken_reference {target : String} :
    AlikeTaken (takeReference scope below active o target)
      (takeReference scope below active (o.withReference reference) target) := by
  unfold takeReference
  split
  · exact alikeTaken_refused
  · split
    · exact alikeTaken_refused
    · split
      · exact alikeTaken_refused
      · simp only [Outline.withReference]
        split
        · exact alikeTaken_refused
        · exact alikeTaken_refused
        · exact ⟨⟨_, rfl⟩, rfl, rfl⟩

/-- The reference that an outline notes has no part in what a member does. -/
theorem alikeTaken_keyword :
    AlikeTaken (takeKeyword scope below active o keyword value)
      (takeKeyword scope below active (o.withReference reference) keyword value) := by
  cases keyword with
  | kind =>
    apply alikeTaken_ofExcept
    cases readKind value with
    | error v => rfl
    | ok kind => exact o.fixKind_withReference reference kind
  | values => exact alikeTaken_values
  | properties =>
    simp only [takeKeyword, takeArray]
    split
    · exact alikeTaken_refused
    · exact alikeTaken_store fun parts =>
        o.addTo_withReference reference (.children "properties" parts)
  | items =>
    simp only [takeKeyword, takeElement]
    split
    · exact alikeTaken_refused
    · exact alikeTaken_store fun shape =>
        o.addTo_withReference reference (.children "items" [{ shape }])
  | bitmaps =>
    simp only [takeKeyword, takeArray]
    split
    · exact alikeTaken_refused
    · exact alikeTaken_store fun fields => o.addTo_withReference reference (.bitFields fields)
  | oneOf =>
    simp only [takeKeyword, takeAlternatives, Outline.withReference]
    split
    · exact alikeTaken_refused
    · split
      · exact alikeTaken_refused
      · exact alikeTaken_store (o := { o with kind := some .oneOf }) fun alternatives =>
          Outline.addTo_withReference { o with kind := some .oneOf } reference
            (.children "oneOf" alternatives)
  | format =>
    apply alikeTaken_ofExcept
    cases readFormat value <;> rfl
  | reference =>
    simp only [takeKeyword]
    split
    · exact alikeTaken_refused
    · exact alikeTaken_reference
  | coefficient =>
    apply alikeTaken_ofExcept
    cases readCodes value with
    | error v => rfl
    | ok codes => exact o.addTo_withReference reference (.coefficients codes)
  | _ => exact alikeTaken_attribute

theorem alikeTaken_member :
    AlikeTaken (takeMember scope below active o key value)
      (takeMember scope below active (o.withReference reference) key value) := by
  unfold takeMember
  split
  · exact alikeTaken_refused
  · exact alikeTaken_keyword

theorem applyOver_alike (h : Alike o o') :
    Alike (applyOver scope below active descriptor o).value
        (applyOver scope below active descriptor o').value ∧
      (applyOver scope below active descriptor o').findings =
        (applyOver scope below active descriptor o).findings := by
  cases descriptor with
  | obj members =>
    have hmember : ∀ r s key value, Alike r s →
        Alike (takeMember scope below active r key value).record
            (takeMember scope below active s key value).record ∧
          (takeMember scope below active s key value).findingsUnder key =
            (takeMember scope below active r key value).findingsUnder key := by
      rintro r _ key value ⟨reference, rfl⟩
      obtain ⟨hrecord, hfindings, hrefusal⟩ :
          AlikeTaken (takeMember scope below active r key value) _ := alikeTaken_member
      exact ⟨hrecord, by simp only [Taken.findingsUnder, hfindings, hrefusal]⟩
    exact readMembers_related (fun r s key value _ => hmember r s key value) h
  | _ => exact ⟨h, rfl⟩

theorem complete_alike {n n' : Noted Outline} (h : Alike n.value n'.value)
    (hviolations : n'.violations = n.violations) :
    (∃ reference, (complete n').value = { (complete n).value with reference }) ∧
      (complete n').violations = (complete n).violations := by
  obtain ⟨reference, h⟩ := h
  constructor
  · exact ⟨reference, by simp only [complete, h]; rfl⟩
  · rw [violations_complete, violations_complete, hviolations, h]
    rfl

/-- Within the limits, a definition read one level up and without its own name in use differs only
in the reference noted. -/
theorem apply_inlined_alike {level : Nat} {name reference : String}
    (hfree : ∀ v ∈ (apply scope level [name] descriptor
      (({} : Outline).noteReference reference)).violations, ¬ v.isLimit = true) :
    Alike (apply scope (level + 1) [] descriptor {}).value
        (apply scope level [name] descriptor (({} : Outline).noteReference reference)).value ∧
      (apply scope level [name] descriptor
          (({} : Outline).noteReference reference)).violations =
        (apply scope (level + 1) [] descriptor {}).violations := by
  have heq : apply scope (level + 1) [] descriptor (({} : Outline).noteReference reference) = _ :=
    apply_eq_of_free (fun _ h => h) (fun _ => rfl) rfl (Nat.le_succ level) (List.nil_subset _)
      (fun _ _ _ _ => rfl) hfree
  rw [← heq, apply_eq_applyOver, apply_eq_applyOver]
  obtain ⟨hvalue, hfindings⟩ := applyOver_alike
    (⟨some reference, rfl⟩ : Alike {} (({} : Outline).noteReference reference))
  exact ⟨hvalue, by rw [Noted.violations, hfindings, Noted.violations]⟩

theorem definitionName?_append (name : String) :
    definitionName? ("#/definitions/" ++ name) = some name := by
  have hsplit : ("#/definitions/" ++ name).toList = referencePrefix ++ name.toList :=
    String.toList_append ..
  have hprefix : referencePrefix.isPrefixOf (referencePrefix ++ name.toList) = true :=
    List.isPrefixOf_iff_prefix.mpr (List.prefix_append _ _)
  unfold definitionName?
  rw [hsplit, if_pos hprefix, List.drop_left, String.ofList_toList]

/-- A descriptor that is nothing but a reference to a definition. -/
def referenceTo (name : String) : Json := .obj [("$ref", .str ("#/definitions/" ++ name))]

theorem follows_referenceTo {name : String} {target : Json}
    (hdef : scope.definitions.lookup name = some target) :
    Follows scope [] {} "$ref" (.str ("#/definitions/" ++ name)) ("#/definitions/" ++ name) name
      target where
  keyword := by decide
  value_eq := rfl
  name_eq := definitionName?_append name
  defined := hdef
  inactive := List.not_mem_nil
  undecided := rfl

/-- Taking a reference alone is taking its target, one level down. -/
theorem applyOver_referenceTo {name : String} {target : Json}
    (hdef : scope.definitions.lookup name = some target) :
    applyOver scope below [] (referenceTo name) {} =
      ⟨(takeReference scope below [] {} ("#/definitions/" ++ name)).record,
        (takeReference scope below [] {} ("#/definitions/" ++ name)).findingsUnder "$ref"⟩ := by
  have hkeyword := (follows_referenceTo hdef).keyword
  have hmember : takeMember scope below [] {} "$ref" (.str ("#/definitions/" ++ name)) =
      takeReference scope below [] {} ("#/definitions/" ++ name) := by
    simp only [takeMember, hkeyword, takeKeyword, Json.expectString]
  simp only [referenceTo, applyOver_obj, readMembers, hmember, List.append_nil]

theorem apply_referenceTo {name : String} {target : Json} (level : Nat)
    (hdef : scope.definitions.lookup name = some target) :
    (apply scope (level + 1) [] (referenceTo name) {}).value =
        (apply scope level [name] target
          (({} : Outline).noteReference ("#/definitions/" ++ name))).value ∧
      (apply scope (level + 1) [] (referenceTo name) {}).violations =
        (apply scope level [name] target
          (({} : Outline).noteReference ("#/definitions/" ++ name))).violations := by
  rw [apply_eq_applyOver, levelBelow, applyOver_referenceTo hdef,
    takeReference_some (follows_referenceTo hdef)]
  refine ⟨rfl, ?_⟩
  rw [Noted.violations_mk, Taken.violations_findingsUnder]
  simp [Taken.violations, Noted.violations]

theorem isLimit_iff_code {v : Violation} :
    v.isLimit = true ↔ v.code = "S012" ∨ v.code = "S013" := by
  cases v <;> simp [Violation.isLimit, Violation.code]

theorem violations_diagnostics (base : String) (n : Noted Shape) :
    (n.findings.map (·.diagnostic base)).map (·.violation) = n.violations := by
  simp [Noted.violations, Finding.diagnostic, Function.comp_def]

/-- Reading a reference gives the shape of its target, down to the references noted inside of it,
and the same violations in the same order, wherever the two descriptors stand. -/
theorem read_referenceTo (scope : Scope) (name : String) (target : Json) (base base' : String)
    (hdef : scope.definitions.lookup name = some target)
    (hfree : ∀ d ∈ (read scope (referenceTo name)).findings.map (·.diagnostic base),
      d.violation.code ≠ "S012" ∧ d.violation.code ≠ "S013") :
    (∃ reference, (read scope (referenceTo name)).value =
      { (read scope target).value with reference }) ∧
    ((read scope (referenceTo name)).findings.map (·.diagnostic base)).map (·.violation) =
      ((read scope target).findings.map (·.diagnostic base')).map (·.violation) := by
  have hread : ∀ v ∈ (read scope (referenceTo name)).violations, ¬ v.isLimit = true := by
    intro v hv
    obtain ⟨f, hf, rfl⟩ := List.mem_map.mp hv
    have hcode := hfree _ (List.mem_map.mpr ⟨f, hf, rfl⟩)
    simpa [isLimit_iff_code, Finding.diagnostic] using hcode
  rw [violations_diagnostics, violations_diagnostics]
  unfold read at hread ⊢
  cases hmax : scope.maxDepth with
  | zero =>
    rw [hmax, apply_eq_applyOver, levelBelow, applyOver_referenceTo hdef,
      takeReference_none (follows_referenceTo hdef)] at hread
    exact absurd rfl (hread (.depthExceeded scope.maxDepth)
      ((mem_violations_complete rfl).mpr (List.mem_singleton_self _)))
  | succ level =>
    rw [hmax] at hread
    obtain ⟨hvalue, hviolations⟩ := apply_referenceTo level hdef
    have hfree : ∀ v ∈ (apply scope level [name] target
        (({} : Outline).noteReference ("#/definitions/" ++ name))).violations,
        ¬ v.isLimit = true := by
      intro v hv hlimit
      rw [← hviolations] at hv
      exact hread v ((mem_violations_complete hlimit).mpr hv) hlimit
    obtain ⟨halike, hsame⟩ := apply_inlined_alike hfree
    rw [← hvalue] at halike
    exact complete_alike halike (hviolations.trans hsame)

/-- An object with a part that is a reference, and a member that is unknown. -/
def linkedNode : Json :=
  .obj [("type", .str "object"), ("color", .null),
    ("properties", .arr [.obj [("element", referenceTo "leaf")]])]

def linkedScope : Scope where
  definitions := [("leaf", .obj [("type", .str "level")]), ("node", linkedNode)]
  maxDepth := 32

theorem read_referenceTo_linkedNode :
    linkedScope.definitions.lookup "node" = some linkedNode ∧
    (∀ d ∈ (read linkedScope (referenceTo "node")).findings.map (·.diagnostic "/data"),
      d.violation.code ≠ "S012" ∧ d.violation.code ≠ "S013") ∧
    (∃ reference, (read linkedScope (referenceTo "node")).value =
      { (read linkedScope linkedNode).value with reference }) ∧
    ((read linkedScope (referenceTo "node")).findings.map (·.diagnostic "/data")).map
        (·.violation) =
      ((read linkedScope linkedNode).findings.map (·.diagnostic "/other")).map (·.violation) := by
  have hdef : linkedScope.definitions.lookup "node" = some linkedNode := rfl
  have hfree : ∀ d ∈ (read linkedScope (referenceTo "node")).findings.map (·.diagnostic "/data"),
      d.violation.code ≠ "S012" ∧ d.violation.code ≠ "S013" := by decide
  exact ⟨hdef, hfree, read_referenceTo linkedScope "node" linkedNode "/data" "/other" hdef hfree⟩

end Descriptor
end DeviceTwin
