import DeviceTwin.Proofs.Descriptor.CleanMembers
import DeviceTwin.Proofs.Descriptor.Flattening

/-!
Outlines after members. Where no reference is followed, the members tell which slots of an outline
are still open, which kind and format have been settled, and which collections remain to the end.
-/
namespace DeviceTwin

namespace Outline

variable {o : Outline}

theorem misplaced_eq_nil_iff : o.misplaced = [] ↔
    (∀ source parts, o.children = some (source, parts) →
      o.kind.bind childSource? = some source) ∧
    (o.bitFields ≠ none → o.kind = some .bitmap) := by
  rw [misplaced, List.append_eq_nil_iff]
  refine and_congr ?_ ?_
  · cases o.children with
    | none => simp
    | some children =>
      obtain ⟨source, parts⟩ := children
      simp
  · cases o.bitFields <;> simp

/-- A kind takes its parts from one member, and no two kinds take them from the same. -/
theorem bind_childSource?_eq_some_iff {kind? : Option Tag} {tag : Tag} {source : String}
    (h : childSource? tag = some source) :
    kind?.bind childSource? = some source ↔ kind? = some tag := by
  constructor
  · intro hbind
    obtain ⟨tag', rfl, h'⟩ := Option.bind_eq_some_iff.mp hbind
    cases tag <;> cases h <;> cases tag' <;> first | rfl | simp [childSource?] at h'
  · rintro rfl
    exact h

end Outline

namespace Descriptor

variable {scope : Scope} {below : Option Application} {active : List String} {o r : Outline}
  {key : String} {keyword : Keyword} {value : Json} {members before : List (String × Json)}

/-- Members that list parts of a node. -/
def childKeywords : List Keyword := [.properties, .items, .oneOf]

/-- What is known of an outline after these members. -/
structure After (members : List (String × Json)) (o : Outline) : Prop where
  kind : o.kind = kindIn members
  format : o.format = formatIn members
  states : Keyword.values.name ∉ Json.keys members → o.states = none
  numbers : Keyword.values.name ∉ Json.keys members → o.numbers = none
  coefficients : Keyword.coefficient.name ∉ Json.keys members → o.coefficients = none
  bitFields : Keyword.bitmaps.name ∉ Json.keys members → o.bitFields = none
  children : ∀ source parts, o.children = some (source, parts) →
    source ∈ Json.keys members ∧ source ∈ childKeywords.map (·.name)

theorem after_nil : After [] {} := by
  constructor <;> first | rfl | simp

theorem or_cases {α : Type} {slot given : Option (String × α)}
    (h : ∀ x, given = some x → x.1 = key) :
    slot.or given = slot ∨ slot = none ∧ ∃ a, slot.or given = some (key, a) := by
  cases slot with
  | some existing => exact .inl rfl
  | none =>
    cases given with
    | none => exact .inl rfl
    | some x =>
      obtain rfl := h x rfl
      exact .inr ⟨rfl, x.2, rfl⟩

/-- A member either leaves the parts as they are or is the first to list them. -/
theorem children_takeMember (href : key ≠ Keyword.reference.name) :
    (takeMember scope below active o key value).record.children = o.children ∨
      key ∈ childKeywords.map (·.name) ∧ o.children = none ∧ ∃ parts,
        (takeMember scope below active o key value).record.children = some (key, parts) := by
  by_cases hchild : key ∈ childKeywords.map (·.name)
  · refine Or.imp_right (fun h => ⟨hchild, h⟩) ?_
    obtain ⟨keyword, hkeyword, rfl⟩ := List.mem_map.mp hchild
    rw [takeMember_name]
    simp only [childKeywords, List.mem_cons, List.not_mem_nil, or_false] at hkeyword
    rcases hkeyword with rfl | rfl | rfl
    · rw [record_takeProperties]
      refine or_cases fun x hx => ?_
      obtain ⟨items, -, rfl⟩ := Option.map_eq_some_iff.mp hx
      rfl
    · rw [record_takeItems]
      refine or_cases fun x hx => ?_
      obtain ⟨items, -, rfl⟩ := Option.map_eq_some_iff.mp hx
      rfl
    · rw [record_takeOneOf]
      cases o.kind with
      | some existing => exact .inl rfl
      | none =>
        refine or_cases fun x hx => ?_
        obtain ⟨items, -, rfl⟩ := Option.map_eq_some_iff.mp hx
        rfl
  · have hleaves : Leaves key o (takeMember scope below active o key value).record :=
      leaves_takeMember (not_follows_of_ne href)
    simp only [childKeywords, List.map_cons, List.map_nil, List.mem_cons, List.not_mem_nil,
      or_false, not_or] at hchild
    exact .inl (hleaves.children hchild.1 hchild.2.1 hchild.2.2)

theorem After.step (h : After members o) (href : key ≠ Keyword.reference.name) :
    After (members ++ [(key, value)]) (takeMember scope below active o key value).record := by
  have hnot : below = none ∨ ∀ reference name target,
      ¬ Follows scope active o key value reference name target := not_follows_of_ne href
  have hnames := names_takeMember hnot
  have hleaves := leaves_takeMember hnot
  have hkeys : Json.keys (members ++ [(key, value)]) = Json.keys members ++ [key] :=
    List.map_append
  have habsent {own : String} (hown : own ∉ Json.keys (members ++ [(key, value)])) :
      own ∉ Json.keys members ∧ key ≠ own := by
    rw [hkeys, List.mem_append, not_or, List.mem_singleton] at hown
    exact ⟨hown.1, Ne.symm hown.2⟩
  constructor
  · rw [hnames.kind, h.kind, kindIn_append]
  · rw [format_takeMember hnot, h.format, formatIn_append]
  · exact fun hown => (hleaves.states (habsent hown).2).trans (h.states (habsent hown).1)
  · exact fun hown => (hleaves.numbers (habsent hown).2).trans (h.numbers (habsent hown).1)
  · exact fun hown =>
      (hleaves.coefficients (habsent hown).2).trans (h.coefficients (habsent hown).1)
  · exact fun hown => (hleaves.bitFields (habsent hown).2).trans (h.bitFields (habsent hown).1)
  · intro source parts hparts
    rw [hkeys, List.mem_append, List.mem_singleton]
    rcases children_takeMember href with hsame | ⟨hchild, -, parts', hnew⟩
    · obtain ⟨hmem, hsource⟩ := h.children source parts (hsame ▸ hparts)
      exact ⟨.inl hmem, hsource⟩
    · obtain ⟨rfl, -⟩ := Prod.mk.inj (Option.some.inj (hnew.symm.trans hparts))
      exact ⟨.inr rfl, hchild⟩

theorem After.readMembers (h : After before o)
    (href : Keyword.reference.name ∉ Json.keys members) :
    After (before ++ members) (readMembers (takeMember scope below active) o members).value := by
  induction members generalizing before o with
  | nil => rwa [List.append_nil]
  | cons member rest ih =>
    obtain ⟨key, value⟩ := member
    have hkey : key ≠ Keyword.reference.name := fun heq => href (heq ▸ List.mem_cons_self)
    have hrest : Keyword.reference.name ∉ Json.keys rest := fun hm =>
      href (List.mem_cons_of_mem _ hm)
    have hstep : After (before ++ [(key, value)])
        (takeMember scope below active o key value).record := h.step hkey
    have hlater := ih hstep hrest
    rwa [List.append_assoc] at hlater

/-- What was collected remains. -/
structure Keeps (o r : Outline) : Prop where
  children : ∀ children, o.children = some children → r.children = some children
  bitFields : o.bitFields ≠ none → r.bitFields ≠ none

theorem Keeps.trans {r' : Outline} (h : Keeps o r) (hlater : Keeps r r') : Keeps o r' :=
  ⟨fun children hchildren => hlater.children children (h.children children hchildren),
    fun hfields => hlater.bitFields (h.bitFields hfields)⟩

theorem keeps_takeMember (href : key ≠ Keyword.reference.name) :
    Keeps o (takeMember scope below active o key value).record where
  children children hchildren := by
    rcases children_takeMember href with hsame | ⟨-, hnone, -⟩
    · exact hsame.trans hchildren
    · cases hnone.symm.trans hchildren
  bitFields hfields := by
    rw [bitFields_takeMember href]
    by_cases hkey : key = Keyword.bitmaps.name
    · subst hkey
      rw [changeAt_self]
      cases ho : o.bitFields with
      | none => exact absurd ho hfields
      | some fields => nofun
    · rwa [changeAt_of_ne hkey]

theorem keeps_readMembers (href : Keyword.reference.name ∉ Json.keys members) :
    Keeps o (readMembers (takeMember scope below active) o members).value := by
  refine readMembers_invariant (fun r key value hv hr => hr.trans (keeps_takeMember ?_))
    ⟨fun _ h => h, fun h => h⟩
  rintro rfl
  exact href (mem_keys hv.mem)

section Kinds

variable {tag : Tag} {after : List (String × Json)}

theorem mem_of_kindIn (h : kindIn members = some tag) (hone : tag ≠ .oneOf) :
    (Keyword.kind.name, .str tag.name) ∈ members := by
  obtain ⟨before, key, value, after, rfl, hnames, -⟩ := ((told members).kind tag).mp h
  rcases hnames with ⟨rfl, -, rfl⟩ | ⟨-, rfl, -⟩
  · exact List.mem_append_right before List.mem_cons_self
  · exact absurd rfl hone

theorem kindIn_eq_none_iff :
    kindIn members = none ↔ ∀ key value, (key, value) ∈ members → kindOf? key value = none :=
  List.findSome?_eq_none_iff.trans Prod.forall

/-- Of the members that name a kind there is only one. -/
theorem kindIn_eq_none_of_split (hkeys : (Json.keys members).Nodup)
    (hsingle : Keyword.kind.name ∉ Json.keys members ∨ Keyword.oneOf.name ∉ Json.keys members)
    (hsplit : members = before ++ (key, value) :: after)
    (hkey : key = Keyword.kind.name ∨ key = Keyword.oneOf.name) : kindIn before = none := by
  refine kindIn_eq_none_iff.mpr fun key' value' hm => ?_
  cases hkind : kindOf? key' value' with
  | none => rfl
  | some tag =>
    have hmem : (key, value) ∈ members := hsplit ▸ List.mem_append_right before List.mem_cons_self
    have hmem' : (key', value') ∈ members := hsplit ▸ List.mem_append_left _ hm
    have hne : key' ≠ key := by
      rintro rfl
      exact (keys_of_split hkeys hsplit).2 (mem_keys hm)
    have hkey' : key' = Keyword.kind.name ∨ key' = Keyword.oneOf.name :=
      Or.imp And.left And.left (kindOf?_eq_some_iff.mp hkind)
    rcases hkey with rfl | rfl <;> rcases hkey' with rfl | rfl
    · exact absurd rfl hne
    · exact (hsingle.elim (· (mem_keys hmem)) (· (mem_keys hmem'))).elim
    · exact (hsingle.elim (· (mem_keys hmem')) (· (mem_keys hmem))).elim
    · exact absurd rfl hne

theorem kindIn_of_mem (hkeys : (Json.keys members).Nodup)
    (hsingle : Keyword.kind.name ∉ Json.keys members ∨ Keyword.oneOf.name ∉ Json.keys members)
    (hm : (key, value) ∈ members) (hkind : kindOf? key value = some tag) :
    kindIn members = some tag := by
  obtain ⟨before, after, hsplit⟩ := List.append_of_mem hm
  have hkey : key = Keyword.kind.name ∨ key = Keyword.oneOf.name :=
    Or.imp And.left And.left (kindOf?_eq_some_iff.mp hkind)
  have hbefore := kindIn_eq_none_of_split hkeys hsingle hsplit hkey
  rw [hsplit, kindIn_append, hbefore, Option.none_or, ← List.singleton_append, kindIn_append,
    kindIn_singleton, hkind, Option.some_or]

theorem mem_of_formatIn {format : NumberFormat} (h : formatIn members = some format) :
    (Keyword.format.name, .str format.name) ∈ members := by
  obtain ⟨before, key, value, after, rfl, ⟨rfl, rfl⟩, -⟩ := ((told members).format format).mp h
  exact List.mem_append_right before List.mem_cons_self

theorem exists_formatIn_of_mem {format : NumberFormat}
    (h : (Keyword.format.name, .str format.name) ∈ members) :
    ∃ format', formatIn members = some format' := by
  obtain ⟨before, after, rfl⟩ := List.append_of_mem h
  have hformat : formatIn [(Keyword.format.name, .str format.name)] = some format := by
    cases format <;> rfl
  rw [formatIn_append, formatIn_cons, hformat]
  cases formatIn after with
  | none => exact ⟨format, rfl⟩
  | some later => exact ⟨later, rfl⟩

end Kinds

end Descriptor
end DeviceTwin
