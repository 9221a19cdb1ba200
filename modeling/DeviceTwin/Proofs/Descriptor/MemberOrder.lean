import DeviceTwin.Proofs.Descriptor.Flattening
import DeviceTwin.Proofs.Descriptor.Reordering

/-!
The order of the members of one descriptor. Six members share what they read and write: the kind,
the format and the collections that depend on the kind. Every other member has a place of its own in
the shape, and can stand anywhere between the rest.
-/
namespace DeviceTwin

variable {ρ : Type} {t t' : Taken ρ} {key : String}

/-- The same is found in a member that is taken at two records. -/
structure Taken.FindsSame (t t' : Taken ρ) : Prop where
  findings_eq : t'.findings = t.findings
  refusal_eq : t'.refusal = t.refusal

theorem Taken.FindsSame.findingsUnder_eq (h : t.FindsSame t') :
    t'.findingsUnder key = t.findingsUnder key := by
  rw [findingsUnder, h.findings_eq, h.refusal_eq, findingsUnder]

/-- What the members of fixed order read and write. -/
def Outline.core (o : Outline) : Outline where
  kind := o.kind
  format := o.format
  states := o.states
  numbers := o.numbers
  children := o.children

theorem Outline.eq_of_core_eq {o o' : Outline} (hcore : o'.core = o.core)
    (hattributes : o'.attributes = o.attributes) (hbitFields : o'.bitFields = o.bitFields)
    (hcoefficients : o'.coefficients = o.coefficients) (hreference : o'.reference = o.reference) :
    o' = o := by
  cases o
  cases o'
  simp_all [core]

theorem Outline.exists_of_core_eq {o o' : Outline} (h : o'.core = o.core) :
    ∃ attributes bitFields coefficients reference,
      o' = { o with attributes, bitFields, coefficients, reference } :=
  ⟨o'.attributes, o'.bitFields, o'.coefficients, o'.reference,
    eq_of_core_eq h rfl rfl rfl rfl⟩

namespace Descriptor

/-- Members whose order among each other matters. -/
def orderedKeywords : List Keyword := [.kind, .format, .values, .oneOf, .properties, .items]

def isOrdered (key : String) : Bool := key ∈ orderedKeywords.map (·.name)

variable {scope : Scope} {below : Option Application} {active : List String} {o o' : Outline}
  {keyword : Keyword} {key' : String} {value value' : Json}
  {members members' : List (String × Json)}

/-- An enumeration sees only the core of the outline. -/
theorem takeValues_of_core (h : o'.core = o.core) :
    (takeValues o value).FindsSame (takeValues o' value) ∧
      (takeValues o' value).record.core = (takeValues o value).record.core := by
  obtain ⟨attributes, bitFields, coefficients, reference, rfl⟩ := Outline.exists_of_core_eq h
  obtain ⟨kind?, format?, -, states?, numbers?, -⟩ := o
  unfold takeValues
  cases value.expectArray with
  | error v => exact ⟨⟨rfl, rfl⟩, rfl⟩
  | ok items =>
    simp only
    split
    · cases states? <;> exact ⟨⟨rfl, rfl⟩, rfl⟩
    · cases states? <;> exact ⟨⟨rfl, rfl⟩, rfl⟩
    · cases format? with
      | none => exact ⟨⟨rfl, rfl⟩, rfl⟩
      | some format =>
        simp only
        cases NumberWords.read format items with
        | error v => exact ⟨⟨rfl, rfl⟩, rfl⟩
        | ok words => cases numbers? <;> exact ⟨⟨rfl, rfl⟩, rfl⟩
    · exact ⟨⟨rfl, rfl⟩, rfl⟩

/-- A member of fixed order sees only the core of the outline. -/
theorem takeKeyword_of_core (hkeyword : keyword ∈ orderedKeywords) (h : o'.core = o.core) :
    (takeKeyword scope below active o keyword value).FindsSame
        (takeKeyword scope below active o' keyword value) ∧
      (takeKeyword scope below active o' keyword value).record.core =
        (takeKeyword scope below active o keyword value).record.core := by
  obtain ⟨attributes, bitFields, coefficients, reference, rfl⟩ := Outline.exists_of_core_eq h
  -- Both outlines are now built from the same slots, and each step on them computes.
  obtain ⟨kind?, _, _, _, _, children?, _⟩ := o
  simp only [orderedKeywords, List.mem_cons, List.not_mem_nil, or_false] at hkeyword
  rcases hkeyword with rfl | rfl | rfl | rfl | rfl | rfl
  · simp only [takeKeyword]
    cases readKind value with
    | error v => exact ⟨⟨rfl, rfl⟩, rfl⟩
    | ok kind => cases kind? <;> exact ⟨⟨rfl, rfl⟩, rfl⟩
  · simp only [takeKeyword]
    cases readFormat value <;> exact ⟨⟨rfl, rfl⟩, rfl⟩
  · exact takeValues_of_core h
  · simp only [takeKeyword, takeAlternatives]
    cases kind? with
    | some existing => exact ⟨⟨rfl, rfl⟩, rfl⟩
    | none =>
      cases value.expectArray with
      | error v => exact ⟨⟨rfl, rfl⟩, rfl⟩
      | ok items => cases children? <;> exact ⟨⟨rfl, rfl⟩, rfl⟩
  · simp only [takeKeyword, takeArray]
    cases value.expectArray with
    | error v => exact ⟨⟨rfl, rfl⟩, rfl⟩
    | ok items => cases children? <;> exact ⟨⟨rfl, rfl⟩, rfl⟩
  · simp only [takeKeyword, takeElement]
    cases value.expectObject with
    | error v => exact ⟨⟨rfl, rfl⟩, rfl⟩
    | ok members => cases children? <;> exact ⟨⟨rfl, rfl⟩, rfl⟩

/-- Any other member sees at most the collection that it gives itself. -/
theorem takeKeyword_of_free (hkeyword : keyword ∉ orderedKeywords) (href : keyword ≠ .reference)
    (hbitFields : keyword = .bitmaps → o'.bitFields = o.bitFields)
    (hcoefficients : keyword = .coefficient → o'.coefficients = o.coefficients) :
    (takeKeyword scope below active o keyword value).FindsSame
      (takeKeyword scope below active o' keyword value) := by
  cases keyword with
  | reference => exact absurd rfl href
  | kind | format | values | oneOf | properties | items => simp [orderedKeywords] at hkeyword
  | bitmaps =>
    rw [takeKeyword_bitmaps, takeKeyword_bitmaps, takeArray, takeArray]
    cases value.expectArray with
    | error v => exact ⟨rfl, rfl⟩
    | ok items =>
      refine ⟨rfl, ?_⟩
      simp only [Taken.store, Outline.addBitFields, Outline.refusal_fill, hbitFields rfl]
  | coefficient =>
    simp only [takeKeyword]
    cases readCodes value with
    | error v => exact ⟨rfl, rfl⟩
    | ok codes =>
      refine ⟨by simp only [Taken.findings_ofExcept], ?_⟩
      simp only [Except.bind, Outline.addCoefficients, Outline.refusal_fill, hcoefficients rfl]
  | _ => exact ⟨by simp only [takeKeyword, takeAttribute, Taken.findings_ofExcept],
      Taken.refusal_ofExcept_map _ _ _⟩

theorem isOrdered_iff : isOrdered key ↔ ∃ keyword ∈ orderedKeywords, keyword.name = key := by
  simp [isOrdered]

theorem takeMember_of_core (hkey : isOrdered key) (h : o'.core = o.core) :
    (takeMember scope below active o key value).FindsSame
        (takeMember scope below active o' key value) ∧
      (takeMember scope below active o' key value).record.core =
        (takeMember scope below active o key value).record.core := by
  obtain ⟨keyword, hkeyword, rfl⟩ := isOrdered_iff.mp hkey
  unfold takeMember
  rw [Keyword.ofName?_eq_some_iff.mpr rfl]
  exact takeKeyword_of_core hkeyword h

theorem takeMember_of_free (hkey : ¬ isOrdered key) (href : key ≠ Keyword.reference.name)
    (hbitFields : key = Keyword.bitmaps.name → o'.bitFields = o.bitFields)
    (hcoefficients : key = Keyword.coefficient.name → o'.coefficients = o.coefficients) :
    (takeMember scope below active o key value).FindsSame
      (takeMember scope below active o' key value) := by
  unfold takeMember
  cases hk : Keyword.ofName? key with
  | none => exact ⟨rfl, rfl⟩
  | some keyword =>
    obtain rfl := Keyword.ofName?_eq_some_iff.mp hk
    refine takeKeyword_of_free (fun hkeyword => hkey (isOrdered_iff.mpr ⟨keyword, hkeyword, rfl⟩))
      ?_ ?_ ?_
    · rintro rfl
      exact href rfl
    · rintro rfl
      exact hbitFields rfl
    · rintro rfl
      exact hcoefficients rfl

/-- A member of free order leaves the core as it is. -/
theorem core_takeMember_of_free (hkey : ¬ isOrdered key) (href : key ≠ Keyword.reference.name) :
    (takeMember scope below active o key value).record.core = o.core := by
  have h : Leaves key o (takeMember scope below active o key value).record :=
    leaves_takeMember (not_follows_of_ne href)
  have hne (keyword) (hkeyword : keyword ∈ orderedKeywords) : key ≠ keyword.name := fun heq =>
    hkey (isOrdered_iff.mpr ⟨keyword, hkeyword, heq.symm⟩)
  have hkind := h.kind (hne .kind (by decide)) (hne .oneOf (by decide))
  have hchildren :=
    h.children (hne .properties (by decide)) (hne .items (by decide)) (hne .oneOf (by decide))
  have hvalues := hne .values (by decide)
  simp only [Outline.core, hkind, h.format (hne .format (by decide)), h.states hvalues,
    h.numbers hvalues, hchildren]

section Given

variable {α : Type} {own : String} {read : Json → Except Violation α}

theorem given_comm (h : key ≠ key') : given own read ([(key, value)] ++ [(key', value')]) =
    given own read ([(key', value')] ++ [(key, value)]) := by
  by_cases hkey : key = own
  · have hkey' : key' ≠ own := fun heq => h (hkey.trans heq.symm)
    cases hread : (read value).toOption <;> simp [given, hkey, hkey', hread]
  · simp [given, List.filterMap_cons, hkey]

theorem attributesIn_comm (h : key ≠ key') : attributesIn ([(key, value)] ++ [(key', value')]) =
    attributesIn ([(key', value')] ++ [(key, value)]) := by
  simp only [attributesIn, lastGiven, given_comm h]

theorem coefficientsIn_comm (h : key ≠ key') :
    coefficientsIn ([(key, value)] ++ [(key', value')]) =
      coefficientsIn ([(key', value')] ++ [(key, value)]) := by
  rw [coefficientsIn, firstGiven, given_comm h, coefficientsIn, firstGiven]

end Given

/-- A member of free order commutes with every other member. -/
theorem commutes_takeMember (hne : key ≠ key') (href : key ≠ Keyword.reference.name)
    (href' : key' ≠ Keyword.reference.name) (hfree : ¬ isOrdered key') :
    Commutes (takeMember scope below active) (key, value) (key', value') where
  findings_eq r := by
    by_cases hkey : isOrdered key
    · exact (takeMember_of_core hkey (core_takeMember_of_free hfree href')).1.findingsUnder_eq
    · have h : Leaves key' r (takeMember scope below active r key' value').record :=
        leaves_takeMember (not_follows_of_ne href')
      refine (takeMember_of_free hkey href ?_ ?_).findingsUnder_eq
      · rintro rfl
        exact h.bitFields hne.symm
      · rintro rfl
        exact h.coefficients hne.symm
  findings_eq' r := by
    have h : Leaves key r (takeMember scope below active r key value).record :=
      leaves_takeMember (not_follows_of_ne href)
    refine (takeMember_of_free hfree href' ?_ ?_).findingsUnder_eq
    · rintro rfl
      exact h.bitFields hne
    · rintro rfl
      exact h.coefficients hne
  record_eq r := by
    have hleaves (o key) (value : Json) (href : key ≠ Keyword.reference.name) :
        Leaves key o (takeMember scope below active o key value).record :=
      leaves_takeMember (not_follows_of_ne href)
    have hnames (o key) (value : Json) (href : key ≠ Keyword.reference.name) :
        Names o [(key, value)] (takeMember scope below active o key value).record :=
      names_takeMember (not_follows_of_ne href)
    refine Outline.eq_of_core_eq ?_ ?_ ?_ ?_ ?_
    · rw [core_takeMember_of_free hfree href']
      by_cases hkey : isOrdered key
      · exact (takeMember_of_core hkey (core_takeMember_of_free hfree href')).2.symm
      · rw [core_takeMember_of_free hkey href, core_takeMember_of_free hkey href,
          core_takeMember_of_free hfree href']
    · simp only [(hnames _ _ _ href).attributes, (hnames _ _ _ href').attributes,
        ← Attributes.onto_assoc, ← attributesIn_append, attributesIn_comm hne]
    · simp only [bitFields_takeMember href, bitFields_takeMember href', changeAt_comm hne]
    · simp only [(hnames _ _ _ href).coefficients, (hnames _ _ _ href').coefficients,
        Option.or_assoc, ← coefficientsIn_append, coefficientsIn_comm hne]
    · rw [(hleaves _ _ _ href).reference, (hleaves _ _ _ href').reference,
        (hleaves _ _ _ href').reference, (hleaves _ _ _ href).reference]

/-- Members that are put into another order read the same if those of fixed order remain in
order. -/
theorem applyOver_matches_of_order (hkeys : (Json.keys members).Nodup)
    (href : Keyword.reference.name ∉ Json.keys members) (hperm : members.Perm members')
    (hordered : members.filter (isOrdered ·.1) = members'.filter (isOrdered ·.1)) :
    (applyOver scope below active (.obj members) o).Matches
      (applyOver scope below active (.obj members') o) := by
  rw [applyOver_obj, applyOver_obj]
  refine readMembers_matches_of_filter (isOrdered ·.1) hkeys hperm hordered
    fun member hm other hother hne hnot => ?_
  have hkey (member) (hm : member ∈ members) : member.1 ≠ Keyword.reference.name := fun heq =>
    href (heq ▸ mem_keys hm)
  by_cases hfree : isOrdered other.1
  · refine (commutes_takeMember hne.symm (hkey other hother) (hkey member hm) ?_).symm
    exact fun hordered => hnot ⟨hordered, hfree⟩
  · exact commutes_takeMember hne (hkey member hm) (hkey other hother) hfree

/-- The order of the members of a descriptor matters only among those of fixed order: with any other
order of the rest, its shape is the same, and so are the diagnostics in some order. -/
theorem read_eq_of_order (scope : Scope) (hkeys : (Json.keys members).Nodup)
    (href : Keyword.reference.name ∉ Json.keys members) (hperm : members.Perm members')
    (hordered : members.filter (isOrdered ·.1) = members'.filter (isOrdered ·.1)) :
    let n := read scope (.obj members)
    let n' := read scope (.obj members')
    n'.value = n.value ∧
      ∀ base, (n'.findings.map (·.diagnostic base)).Perm (n.findings.map (·.diagnostic base)) := by
  intro n n'
  have hmatches : n.Matches n' := by
    simp only [n, n', read, apply_eq_applyOver]
    exact complete_matches (applyOver_matches_of_order hkeys href hperm hordered)
  exact ⟨hmatches.value_eq, fun base => hmatches.findings.map _⟩

/-- The unit of a level, and a member that is unknown, before and after their neighbours. -/
theorem read_eq_of_order_level :
    let members := [("unit", .str "%"), ("type", .str "level"), ("colour", .null),
      ("properties", .arr [])]
    let members' := [("type", .str "level"), ("unit", .str "%"), ("properties", .arr []),
      ("colour", .null)]
    (Json.keys members).Nodup ∧ Keyword.reference.name ∉ Json.keys members ∧
      members.Perm members' ∧
      members.filter (isOrdered ·.1) = members'.filter (isOrdered ·.1) ∧
      (read { maxDepth := 32 } (.obj members')).value =
        (read { maxDepth := 32 } (.obj members)).value ∧
      ∀ base, ((read { maxDepth := 32 } (.obj members')).findings.map (·.diagnostic base)).Perm
        ((read { maxDepth := 32 } (.obj members)).findings.map (·.diagnostic base)) := by
  intro members members'
  have hkeys : (Json.keys members).Nodup := by decide
  have href : Keyword.reference.name ∉ Json.keys members := by decide
  have hperm : members.Perm members' :=
    (List.Perm.swap _ _ _).trans (.cons _ (.cons _ (.swap _ _ _)))
  have hordered : members.filter (isOrdered ·.1) = members'.filter (isOrdered ·.1) := rfl
  exact ⟨hkeys, href, hperm, hordered, read_eq_of_order _ hkeys href hperm hordered⟩

/-- The order of a format and an enumeration of numbers does matter. -/
example : [[("type", .str "number"), ("format", .str "int8"), ("enum", .arr [])],
    [("type", .str "number"), ("enum", .arr []), ("format", .str "int8")]].map
      (fun members => (read { maxDepth := 32 } (.obj members)).findings) =
        [[], [⟨["enum"], .missingNumberFormat⟩]] := by
  decide

end Descriptor
end DeviceTwin
