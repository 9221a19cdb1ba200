import DeviceTwin.Proofs.Descriptor.Flattening
import DeviceTwin.Proofs.Descriptor.Reports
import DeviceTwin.Proofs.Shape.Collections
import DeviceTwin.Proofs.Shape.Wrapping

/-!
The collections of a node. A member that lists a collection is refused, or its collection is held
from there on: it is the payload of the node or is reported at the node. A node has no payload but
these.
-/
namespace DeviceTwin

section Records

variable {ρ : Type} {take : ρ → String → Json → Taken ρ} {initial : ρ} {index : Nat}
  {items : List Json}

/-- The objects among the items, each read as a record. -/
def records (take : ρ → String → Json → Taken ρ) (initial : ρ) (items : List Json) : List ρ :=
  (items.filterMap Json.members?).map fun members => (readMembers take initial members).value

theorem value_readItems_readRecord :
    (readItems (readRecord take initial) index items).value = records take initial items := by
  induction items generalizing index with
  | nil => rfl
  | cons item rest ih =>
    simp only [readItems, ih]
    cases item <;> rfl

/-- An item that is no object is found at its index. -/
theorem mem_findings_readItems_readRecord {item : Json} {i : Nat} (hi : items[i]? = some item)
    (hitem : item.members? = none) :
    ⟨[toString i], .unexpectedType "object" item.typeName⟩ ∈
      (readItems (readRecord take initial) 0 items).findings := by
  refine keeps_readItems (readRecord take initial) hi ⟨[], _⟩ ?_
  cases item <;> first | exact List.mem_singleton_self _ | cases hitem

/-- The members behind a visited one go on from what it leaves. -/
theorem Visits.exists_rest {o r : ρ} {key : String} {value : Json}
    {members : List (String × Json)} (h : Visits take o members r key value) :
    ∃ rest, (readMembers take o members).value =
      (readMembers take (take r key value).record rest).value := by
  induction h with
  | here => exact ⟨_, rfl⟩
  | later _ ih => exact ih

end Records

namespace Descriptor

/-- `Gives scope below active o keyword value c`: what the member lists, as it reads on top of
`o`. -/
inductive Gives (scope : Scope) (below : Option Application) (active : List String) (o : Outline) :
    Keyword → Json → Collection → Prop
  | states {items} (hkind : o.kind = some .state ∨ o.kind = some .numericValue) :
    Gives scope below active o .values (.arr items) (.states (records takeEntry {} items))
  | numbers {items words} (hkind : o.kind = some .number) (hformat : o.format = some words.format)
      (hitems : List.Forall₂ words.format.ReadsAs items words.values) :
    Gives scope below active o .values (.arr items) (.numbers words)
  | parts {items} :
    Gives scope below active o .properties (.arr items)
      (.children "properties" (records (takePart scope below active) { shape := {} } items))
  | element {fields} :
    Gives scope below active o .items (.obj fields)
      (.children "items" [{ shape := (readNested scope below active (.obj fields)).value }])
  | fields {items} :
    Gives scope below active o .bitmaps (.arr items)
      (.bitFields (records (takeField scope below active) { value := {} } items))
  | alternatives {items} (hkind : o.kind = none) :
    Gives scope below active o .oneOf (.arr items)
      (.children "oneOf" (items.map fun item =>
        { shape := (readNested scope below active item).value }))
  | codes {value codes} (hvalue : value = .arr (codes.map .str)) :
    Gives scope below active o .coefficient value (.coefficients codes)

/-- Members that list a collection. -/
def collectionKeywords : List Keyword :=
  [.values, .properties, .items, .bitmaps, .oneOf, .coefficient]

variable {scope : Scope} {below : Option Application} {active : List String} {o r : Outline}
  {key : String} {keyword : Keyword} {value descriptor : Json} {members : List (String × Json)}
  {c d : Collection} {level : Nat}

theorem Gives.source_eq (h : Gives scope below active o keyword value c) :
    c.source = keyword.name := by
  cases h <;> rfl

theorem Gives.keyword_mem (h : Gives scope below active o keyword value c) :
    keyword ∈ collectionKeywords := by
  cases h <;> simp [collectionKeywords]

/-- A member gives one collection at most. -/
theorem Gives.unique (h : Gives scope below active o keyword value c)
    (h' : Gives scope below active o keyword value d) : c = d := by
  cases h with
  | states hkind =>
    cases h' with
    | states => rfl
    | numbers hnumber => simp [hnumber] at hkind
  | numbers hnumber hformat hitems =>
    cases h' with
    | states hkind => simp [hnumber] at hkind
    | numbers _ hformat' hitems' =>
      have hsame := Option.some.inj (hformat.symm.trans hformat')
      have hread := NumberWords.read_eq_ok_iff.mpr ⟨rfl, hitems⟩
      have hread' := NumberWords.read_eq_ok_iff.mpr ⟨hsame.symm, hsame ▸ hitems'⟩
      cases hread.symm.trans hread'
      rfl
  | codes hvalue =>
    cases h' with
    | codes hvalue' =>
      have hread := readCodes_eq_ok_iff.mpr hvalue
      cases hread.symm.trans (readCodes_eq_ok_iff.mpr hvalue')
      rfl
  | _ =>
    cases h'
    rfl

/-- What became of a member that lists a collection: the outline holds what it did, and nothing
more where the member is refused. -/
inductive Settles (scope : Scope) (below : Option Application) (active : List String) (o : Outline)
    (keyword : Keyword) (value : Json) (taken : Taken Outline) : Prop
  | refused (v : Violation) (hrefusal : taken.refusal = some v)
      (hheld : ∀ d : Collection, d.HeldBy taken.record ↔ d.HeldBy o)
  | given (c : Collection) (hrefusal : taken.refusal = none)
      (hgives : Gives scope below active o keyword value c)
      (hheld : ∀ d : Collection, d.HeldBy taken.record ↔ d = c ∨ d.HeldBy o)

theorem settles_refused (v : Violation) :
    Settles scope below active o keyword value (.refused o v) :=
  .refused v rfl fun _ => .rfl

/-- A collection that is read is given unless there is one already. -/
theorem Gives.settles (h : Gives scope below active o keyword value c)
    (hsame : ∀ d : Collection, d.HeldBy r ↔ d.HeldBy o) (findings : List Finding) :
    Settles scope below active o keyword value
      { Taken.ofExcept r (c.addTo r) with findings } := by
  cases hadd : c.addTo r with
  | error v => exact .refused v rfl hsame
  | ok added =>
    refine .given c rfl h fun d => ?_
    rw [← hsame d]
    exact Outline.heldBy_iff_of_addTo hadd

theorem Gives.settles_ofExcept {x : Except Violation Outline}
    (h : Gives scope below active o keyword value c) (hx : x = c.addTo o) :
    Settles scope below active o keyword value (.ofExcept o x) := by
  have hsettles := h.settles (fun _ => .rfl) []
  rw [← hx] at hsettles
  cases x <;> exact hsettles

theorem Gives.settles_store {α : Type} {n : Noted α} {put : α → Except Violation Outline}
    (h : Gives scope below active o keyword value c)
    (hsame : ∀ d : Collection, d.HeldBy r ↔ d.HeldBy o) (hput : put n.value = c.addTo r) :
    Settles scope below active o keyword value (.store r n put) := by
  rw [Taken.store, hput]
  exact h.settles hsame n.findings

/-- None of the alternatives is left out. -/
theorem value_readAlternatives {items : List Json} :
    (readAlternatives scope below active items).value =
      items.map fun item => { shape := (readNested scope below active item).value } := by
  unfold readAlternatives
  generalize 0 = index
  induction items generalizing index with
  | nil => rfl
  | cons item rest ih => exact congrArg (_ :: ·) (ih (index + 1))

theorem settles_takeValues : Settles scope below active o .values value (takeValues o value) := by
  unfold takeValues
  cases value with
  | arr items =>
    simp only [Json.expectArray]
    have hstates (hkind : o.kind = some .state ∨ o.kind = some .numericValue) :
        Settles scope below active o .values (.arr items)
          (.store o (readEntries items) o.addStates) :=
      (Gives.states hkind).settles_store (fun _ => .rfl)
        (by rw [readEntries, value_readItems_readRecord]; rfl)
    split
    · next hkind => exact hstates (.inl hkind)
    · next hkind => exact hstates (.inr hkind)
    · next hkind =>
      cases hformat : o.format with
      | none => exact settles_refused _
      | some format =>
        cases hread : NumberWords.read format items with
        | error v =>
          simp only [hread]
          exact settles_refused v
        | ok words =>
          simp only [hread]
          obtain ⟨rfl, hitems⟩ := NumberWords.read_eq_ok_iff.mp hread
          exact (Gives.numbers hkind hformat hitems).settles_ofExcept rfl
    · exact settles_refused _
  | _ => exact settles_refused _

theorem settles_takeKeyword (scope : Scope) (below : Option Application) (active : List String)
    (o : Outline) (value : Json) (h : keyword ∈ collectionKeywords) :
    Settles scope below active o keyword value
      (takeKeyword scope below active o keyword value) := by
  simp only [collectionKeywords, List.mem_cons, List.not_mem_nil, or_false] at h
  rcases h with rfl | rfl | rfl | rfl | rfl | rfl
  · exact settles_takeValues
  · cases value with
    | arr items =>
      refine Gives.parts.settles_store (fun _ => .rfl) ?_
      rw [value_readItems_readRecord]
      rfl
    | _ => exact settles_refused _
  · cases value with
    | obj fields =>
      simp only [takeKeyword, takeElement, Json.expectObject]
      exact Gives.element.settles_store (fun _ => .rfl) rfl
    | _ => exact settles_refused _
  · cases value with
    | arr items =>
      refine Gives.fields.settles_store (fun _ => .rfl) ?_
      rw [value_readItems_readRecord]
      rfl
    | _ => exact settles_refused _
  · simp only [takeKeyword, takeAlternatives]
    cases hkind : o.kind with
    | some existing => exact settles_refused _
    | none =>
      cases value with
      | arr items =>
        -- The kind is settled before the alternatives are stored.
        have hsame (d : Collection) : d.HeldBy { o with kind := some .oneOf } ↔ d.HeldBy o := by
          cases d <;> rfl
        refine (Gives.alternatives hkind).settles_store hsame ?_
        rw [value_readAlternatives]
        rfl
      | _ => exact settles_refused _
  · cases hread : readCodes value with
    | error v =>
      simp only [takeKeyword, hread]
      exact settles_refused v
    | ok codes =>
      simp only [takeKeyword, hread]
      exact (Gives.codes (readCodes_eq_ok_iff.mp hread)).settles_ofExcept rfl

theorem Leaves.heldBy_iff (h : Leaves key o r)
    (hkey : ∀ keyword ∈ collectionKeywords, key ≠ keyword.name) : d.HeldBy r ↔ d.HeldBy o := by
  have hvalues := h.states (hkey .values (by decide))
  have hnumbers := h.numbers (hkey .values (by decide))
  have hchildren := h.children (hkey .properties (by decide)) (hkey .items (by decide))
    (hkey .oneOf (by decide))
  have hfields := h.bitFields (hkey .bitmaps (by decide))
  have hcodes := h.coefficients (hkey .coefficient (by decide))
  cases d <;> simp only [Collection.HeldBy, hvalues, hnumbers, hchildren, hfields, hcodes]

/-- What is held behind a member that is not followed was held before, or the member gives it. -/
theorem heldBy_takeMember_iff (h : below = none ∨ ∀ reference name target,
      ¬ Follows scope active o key value reference name target) :
    d.HeldBy (takeMember scope below active o key value).record ↔ d.HeldBy o ∨
      (takeMember scope below active o key value).refusal = none ∧
        ∃ keyword, key = keyword.name ∧ Gives scope below active o keyword value d := by
  by_cases hkey : ∃ keyword ∈ collectionKeywords, key = keyword.name
  · obtain ⟨keyword, hkeyword, rfl⟩ := hkey
    have hgives : (∃ own, keyword.name = own.name ∧ Gives scope below active o own value d) ↔
        Gives scope below active o keyword value d := by
      constructor
      · rintro ⟨own, hname, hd⟩
        rwa [Keyword.name_injective hname]
      · exact fun hd => ⟨keyword, rfl, hd⟩
    rw [takeMember_name, hgives]
    cases settles_takeKeyword scope below active o value hkeyword with
    | refused v hrefusal hheld => simp [hheld, hrefusal]
    | given c hrefusal hc hheld =>
      have heq : Gives scope below active o keyword value d ↔ d = c :=
        ⟨fun hd => hd.unique hc, fun hd => hd ▸ hc⟩
      rw [hheld, heq, hrefusal, or_comm, eq_self, true_and]
  · have hnone : ¬ ∃ keyword, key = keyword.name ∧ Gives scope below active o keyword value d := by
      rintro ⟨keyword, hname, hd⟩
      exact hkey ⟨keyword, hd.keyword_mem, hname⟩
    rw [(leaves_takeMember h).heldBy_iff fun keyword hm hname => hkey ⟨keyword, hm, hname⟩]
    simp [hnone]

/-- The kind and the collections of an outline remain. -/
structure Grows (o r : Outline) : Prop where
  kind : ∀ kind, o.kind = some kind → r.kind = some kind
  held : ∀ c : Collection, c.HeldBy o → c.HeldBy r

theorem Grows.refl (o : Outline) : Grows o o := ⟨fun _ h => h, fun _ h => h⟩

theorem Grows.trans {r' : Outline} (h : Grows o r) (h' : Grows r r') : Grows o r' :=
  ⟨fun kind hkind => h'.kind kind (h.kind kind hkind), fun c hc => h'.held c (h.held c hc)⟩

theorem Merges.grows (h : Merges scope o members r) : Grows o r := by
  induction h with
  | nil => exact .refl _
  | own hown _ ih =>
    refine Grows.trans ⟨fun kind hkind => ?_, fun c hc => ?_⟩ ih
    · rw [(names_takeMember hown).kind, hkind, Option.some_or]
    · exact (heldBy_takeMember_iff hown).mpr (.inl hc)
  | noted _ ih => exact ⟨ih.kind, fun c hc => ih.held c (by cases c <;> exact hc)⟩

theorem grows_apply : Grows o (apply scope level active descriptor o).value :=
  (merges_apply scope level active descriptor o).grows

/-- A member that is taken, with what there is at that time. -/
structure Taking where
  level : Nat
  active : List String
  outline : Outline
  key : String
  value : Json

namespace Taking

def taken (scope : Scope) (s : Taking) : Taken Outline :=
  takeMember scope (levelBelow scope s.level) s.active s.outline s.key s.value

/-- The collection that the member lists. -/
def Lists (scope : Scope) (s : Taking) (c : Collection) : Prop :=
  ∃ keyword, s.key = keyword.name ∧
    Gives scope (levelBelow scope s.level) s.active s.outline keyword s.value c

/-- Items of states, parts and bit fields are objects; others are left out. -/
def LeavesOut (s : Taking) (i : Nat) (item : Json) : Prop :=
  ∃ items, s.value = .arr items ∧ items[i]? = some item ∧ item.members? = none ∧
    (s.key = "properties" ∨ s.key = "bitmaps" ∨ s.key = "enum" ∧ s.outline.kind ≠ some .number)

end Taking

/-- `Applies scope level active descriptor o place s`: the member `s` of the descriptor, or of a
definition that is followed from there, is applied. It is found at this place. -/
inductive Applies (scope : Scope) :
    Nat → List String → Json → Outline → Pointer → Taking → Prop
  | own {level : Nat} {active : List String} {o : Outline} {members r key value}
      (hv : Visits (takeMember scope (levelBelow scope level) active) o members r key value) :
    Applies scope level active (.obj members) o [key] ⟨level, active, r, key, value⟩
  | followed {level : Nat} {active : List String} {o : Outline}
      {members r key value reference name target place s}
      (hv : Visits (takeMember scope (levelBelow scope (level + 1)) active) o members r key value)
      (hf : Follows scope active r key value reference name target)
      (h : Applies scope level (name :: active) target (r.noteReference reference) place s) :
    Applies scope (level + 1) active (.obj members) o (key :: place) s

variable {place : Pointer} {s : Taking}

/-- Every member of a descriptor is applied. -/
theorem exists_applies_of_mem (h : (key, value) ∈ members) :
    ∃ s, Applies scope level active (.obj members) o [key] s ∧ s.key = key ∧ s.value = value := by
  obtain ⟨r, hv⟩ := exists_visits_of_mem h
  exact ⟨_, .own hv, rfl, rfl⟩

theorem takeMember_of_follows {reference name : String} {target : Json}
    (h : Follows scope active o key value reference name target) :
    takeMember scope (levelBelow scope (level + 1)) active o key value =
      { record := (apply scope level (name :: active) target (o.noteReference reference)).value
        findings :=
          (apply scope level (name :: active) target (o.noteReference reference)).findings } := by
  obtain ⟨hk, rfl, -⟩ := id h
  rw [takeMember, hk]
  exact takeReference_some h

/-- A reference that can be followed is refused only where there is no level below. -/
theorem level_of_not_refused {reference name : String} {target : Json}
    (hf : Follows scope active o key value reference name target)
    (h : (takeMember scope (levelBelow scope level) active o key value).refusal = none) :
    ∃ below, level = below + 1 := by
  cases level with
  | zero =>
    obtain ⟨hk, rfl, -⟩ := id hf
    rw [takeMember, hk] at h
    cases (congrArg Taken.refusal (takeReference_none hf)).symm.trans h
  | succ below => exact ⟨below, rfl⟩

/-- Every member of a definition that an applied member follows is applied. -/
theorem Applies.exists_of_follows {reference name : String}
    (h : Applies scope level active descriptor o place s)
    (hf : Follows scope s.active s.outline s.key s.value reference name (.obj members))
    (hrefusal : (s.taken scope).refusal = none) (hm : (key, value) ∈ members) :
    ∃ t, Applies scope level active descriptor o (place ++ [key]) t ∧
      t.key = key ∧ t.value = value := by
  induction h with
  | own hv =>
    obtain ⟨below, rfl⟩ := level_of_not_refused hf hrefusal
    obtain ⟨t, ht, htaken⟩ := exists_applies_of_mem hm
    exact ⟨t, .followed hv hf ht, htaken⟩
  | followed hv hfirst _ ih =>
    obtain ⟨t, ht, htaken⟩ := ih hf hrefusal
    exact ⟨t, .followed hv hfirst ht, htaken⟩

theorem grows_of_visits
    (h : Visits (takeMember scope (levelBelow scope level) active) o members r key value) :
    Grows (takeMember scope (levelBelow scope level) active r key value).record
      (apply scope level active (.obj members) o).value := by
  obtain ⟨rest, hrest⟩ := h.exists_rest
  rw [apply_eq_applyOver, applyOver_obj, hrest, ← applyOver_obj, ← apply_eq_applyOver]
  exact grows_apply

/-- What an applied member leaves remains to the end. -/
theorem Applies.grows (h : Applies scope level active descriptor o place s) :
    Grows (s.taken scope).record (apply scope level active descriptor o).value := by
  induction h with
  | own hv => exact grows_of_visits hv
  | followed hv hf _ ih =>
    have hlater := grows_of_visits hv
    rw [takeMember_of_follows hf] at hlater
    exact ih.trans hlater

/-- Everything found in an applied member is found at its place. -/
theorem Applies.keeps (h : Applies scope level active descriptor o place s) :
    DeviceTwin.Keeps place
      ((s.taken scope).findings ++ (s.taken scope).refusal.toList.map (Finding.mk []))
      (apply scope level active descriptor o).findings := by
  induction h with
  | own hv =>
    intro f hf
    rw [apply_eq_applyOver, applyOver_obj]
    exact findingsUnder_subset_readMembers hv (List.mem_map_of_mem hf)
  | followed hv hf _ ih =>
    have houter := DeviceTwin.keeps_readMembers hv
    rw [takeMember_of_follows hf] at houter
    rw [apply_eq_applyOver, applyOver_obj]
    exact ih.trans houter

theorem unfollowed_or_follows (scope : Scope) (level : Nat) (active : List String) (o : Outline)
    (key : String) (value : Json) :
    (levelBelow scope level = none ∨ ∀ reference name target,
        ¬ Follows scope active o key value reference name target) ∨
      ∃ below reference name target, level = below + 1 ∧
        Follows scope active o key value reference name target := by
  cases level with
  | zero => exact .inl (.inl rfl)
  | succ below =>
    by_cases h : ∃ reference name target, Follows scope active o key value reference name target
    · obtain ⟨reference, name, target, hf⟩ := h
      exact .inr ⟨below, reference, name, target, rfl, hf⟩
    · exact .inl (.inr fun reference name target hf => h ⟨reference, name, target, hf⟩)

/-- What is held in the end was held before, or an applied member gives it. -/
theorem exists_applies_of_heldBy (h : c.HeldBy (apply scope level active descriptor o).value) :
    c.HeldBy o ∨ ∃ place s, Applies scope level active descriptor o place s ∧
      (s.taken scope).refusal = none ∧ s.Lists scope c := by
  induction level using Nat.strongRecOn generalizing active descriptor o with
  | ind level ih =>
  rw [apply_eq_applyOver] at h
  cases descriptor with
  | obj members =>
    revert h
    refine readMembers_invariant (p := fun r : Outline => c.HeldBy r → c.HeldBy o ∨ ∃ place s,
      Applies scope level active (.obj members) o place s ∧ (s.taken scope).refusal = none ∧
        s.Lists scope c) (fun r key value hv hr hheld => ?_) .inl
    rcases unfollowed_or_follows scope level active r key value with
      hown | ⟨below, reference, name, target, rfl, hf⟩
    · rcases (heldBy_takeMember_iff hown).mp hheld with hbefore | ⟨hrefusal, hlists⟩
      · exact hr hbefore
      · exact .inr ⟨[key], _, .own hv, hrefusal, hlists⟩
    · rw [takeMember_of_follows hf] at hheld
      rcases ih below (Nat.lt_succ_self below) hheld with hbefore | ⟨place, s, hs, hrefusal, hlists⟩
      · exact hr (by cases c <;> exact hbefore)
      · exact .inr ⟨key :: place, s, .followed hv hf hs, hrefusal, hlists⟩
  | _ => exact .inl h

/-- Items that are left out are found, each at its index. -/
theorem Taking.LeavesOut.mem_findings {i : Nat} {item : Json} (h : s.LeavesOut i item)
    (hrefusal : (s.taken scope).refusal = none) :
    ⟨[toString i], .unexpectedType "object" item.typeName⟩ ∈ (s.taken scope).findings := by
  obtain ⟨level, active, o, key, value⟩ := s
  obtain ⟨items, rfl, hi, hitem, hkey⟩ := h
  rcases hkey with rfl | rfl | ⟨rfl, hnumber⟩
  · exact mem_findings_readItems_readRecord hi hitem
  · exact mem_findings_readItems_readRecord hi hitem
  · have htaken : Taking.taken scope ⟨level, active, o, "enum", .arr items⟩ =
        takeValues o (.arr items) := rfl
    rw [htaken, takeValues, Json.expectArray] at hrefusal ⊢
    simp only at hrefusal ⊢ hnumber
    split at hrefusal
    · exact mem_findings_readItems_readRecord hi hitem
    · exact mem_findings_readItems_readRecord hi hitem
    · next hkind => exact absurd hkind hnumber
    · cases hrefusal

/-- A collection that a member gives is not lost where the kind remains. -/
theorem Gives.not_lostIn (h : Gives scope below active o keyword value c)
    (hkind : ∀ kind, o.kind = some kind → r.kind = some kind) : ¬ c.LostIn r := by
  cases h with
  | states h =>
    rintro ⟨hstate, hnumeric, -⟩
    exact h.elim (fun h => hstate (hkind _ h)) (fun h => hnumeric (hkind _ h))
  | numbers h =>
    rintro ⟨hnumber, -⟩
    exact hnumber (hkind _ h)
  | element =>
    rintro ⟨-, -, hlength⟩
    simp at hlength
  | parts | alternatives =>
    rintro ⟨-, hsource, -⟩
    simp at hsource
  | fields | codes => nofun

theorem grows_taken : Grows s.outline (s.taken scope).record := by
  have hsingle : Grows s.outline
      (apply scope s.level s.active (.obj [(s.key, s.value)]) s.outline).value := grows_apply
  rwa [apply_eq_applyOver] at hsingle

theorem kindName_complete (n : Noted Outline) :
    (complete n).value.kindName = Tag.nameOf n.value.kind :=
  congrArg Tag.nameOf n.value.tag?_finalKind

/-- An applied member that lists a collection is refused and found at its place, or the complete
shape has the whole collection, or it is found that it is misplaced. -/
theorem Applies.accounted (h : Applies scope level active descriptor o place s)
    (hkeyword : keyword ∈ collectionKeywords) (hkey : s.key = keyword.name) :
    (∃ v, (s.taken scope).refusal = some v ∧
        ⟨place, v⟩ ∈ (complete (apply scope level active descriptor o)).findings) ∨
      (s.taken scope).refusal = none ∧ ∃ c, s.Lists scope c ∧
        (c.KeptIn (complete (apply scope level active descriptor o)).value ∨
          ⟨[], .misplacedCollection s.key
            (complete (apply scope level active descriptor o)).value.kindName⟩ ∈
            (complete (apply scope level active descriptor o)).findings) := by
  have hsettles := settles_takeKeyword scope (levelBelow scope s.level) s.active s.outline s.value
    hkeyword
  rw [← takeMember_name, ← hkey] at hsettles
  cases hsettles with
  | refused v hrefusal _ =>
    refine .inl ⟨v, hrefusal, List.mem_append_left _ ?_⟩
    have hfound := h.keeps ⟨[], v⟩ (List.mem_append_right _ (by simp [Taking.taken, hrefusal]))
    rwa [Finding.beneath, List.append_nil] at hfound
  | given c hrefusal hgives hheld =>
    refine .inr ⟨hrefusal, c, ⟨keyword, hkey, hgives⟩, ?_⟩
    have hheldAtEnd := h.grows.held c ((hheld c).mpr (.inl rfl))
    have hlost := hgives.not_lostIn (grows_taken.trans h.grows).kind
    refine ((Outline.kept_or_reported_iff hheldAtEnd).mpr hlost).imp_right ?_
    rintro ⟨kind, hreported⟩
    obtain ⟨-, rfl⟩ := Outline.mem_complete_iff.mp hreported
    rw [hgives.source_eq, ← hkey] at hreported
    rw [kindName_complete]
    exact List.mem_append_right _ (List.mem_map_of_mem hreported)

/-- What belongs to the kind of a complete shape is given by an applied member. -/
theorem isBare_or_exists_applies (scope : Scope) (level : Nat) (active : List String)
    (descriptor : Json) :
    (complete (apply scope level active descriptor {})).value.kind.IsBare ∨
      ∃ place s c, Applies scope level active descriptor {} place s ∧
        (s.taken scope).refusal = none ∧ s.Lists scope c ∧
        c.PayloadOf (complete (apply scope level active descriptor {})).value.kind := by
  refine (Outline.isBare_or_exists_heldBy _).imp_right ?_
  rintro ⟨c, hheld, hlost⟩
  rcases exists_applies_of_heldBy hheld with hempty | ⟨place, s, hs, hrefusal, hlists⟩
  · cases c <;> cases hempty
  · obtain ⟨keyword, -, hgives⟩ := id hlists
    have hkept := hgives.not_lostIn (grows_taken.trans hs.grows).kind
    exact ⟨place, s, c, hs, hrefusal, hlists, hlost.resolve_left hkept⟩

/-- All members of the descriptor are applied, and all members of a definition that is followed from
an applied one. Each applied member that lists a collection is refused at its own path, or else the
shape has the whole collection but for the items that are reported as no objects, or the collection
is reported as misplaced at the descriptor; and the shape has nothing but such collections. -/
theorem read_collections (scope : Scope) (descriptor : Json) (path : String) :
    let shape := (read scope descriptor).value
    let diagnostics := (read scope descriptor).findings.map (·.diagnostic path)
    (∀ members key value, descriptor = .obj members → (key, value) ∈ members →
      ∃ s, Applies scope scope.maxDepth [] descriptor {} [key] s ∧ s.key = key ∧ s.value = value) ∧
    (∀ place s reference name members key value,
      Applies scope scope.maxDepth [] descriptor {} place s →
      Follows scope s.active s.outline s.key s.value reference name (.obj members) →
      (s.taken scope).refusal = none → (key, value) ∈ members →
        ∃ t, Applies scope scope.maxDepth [] descriptor {} (place ++ [key]) t ∧
          t.key = key ∧ t.value = value) ∧
    (∀ place s keyword, Applies scope scope.maxDepth [] descriptor {} place s →
      keyword ∈ collectionKeywords → s.key = keyword.name →
        (∃ v, (s.taken scope).refusal = some v ∧ ⟨place.renderFrom path, v⟩ ∈ diagnostics) ∨
        (s.taken scope).refusal = none ∧
          (∀ i item, s.LeavesOut i item →
            ⟨(place ++ [toString i]).renderFrom path, .unexpectedType "object" item.typeName⟩ ∈
              diagnostics) ∧
          ∃ c, s.Lists scope c ∧ (c.KeptIn shape ∨
            ⟨path, .misplacedCollection s.key shape.kindName⟩ ∈ diagnostics)) ∧
    (shape.kind.IsBare ∨ ∃ place s c, Applies scope scope.maxDepth [] descriptor {} place s ∧
      (s.taken scope).refusal = none ∧ s.Lists scope c ∧ c.PayloadOf shape.kind) := by
  intro shape diagnostics
  have hdiagnostic {place : Pointer} {v : Violation}
      (h : ⟨place, v⟩ ∈ (read scope descriptor).findings) :
      ⟨place.renderFrom path, v⟩ ∈ diagnostics := List.mem_map_of_mem (f := (·.diagnostic path)) h
  refine ⟨?_, fun _ _ _ _ _ _ _ h => h.exists_of_follows,
    fun place s keyword h hkeyword hkey => ?_, isBare_or_exists_applies ..⟩
  · rintro members key value rfl hm
    exact exists_applies_of_mem hm
  · rcases h.accounted hkeyword hkey with ⟨v, hrefusal, hv⟩ | ⟨hrefusal, c, hlists, hc⟩
    · exact .inl ⟨v, hrefusal, hdiagnostic hv⟩
    · refine .inr ⟨hrefusal, fun i item hitem => ?_, c, hlists, hc.imp_right hdiagnostic⟩
      refine hdiagnostic (List.mem_append_left _ ?_)
      exact h.keeps _ (List.mem_append_left _ (hitem.mem_findings hrefusal))

/-- Parts of a level are misplaced, though they are listed without fault. -/
example : (read { maxDepth := 1 }
      (.obj [("type", .str "level"), ("properties", .arr [])])).findings =
    [⟨[], .misplacedCollection "properties" "level"⟩] := by decide

end Descriptor
end DeviceTwin
