import DeviceTwin.Proofs.Descriptor.AfterMembers

/-!
Acceptance. Where there are no references and no level is missing, nothing is found in a descriptor
if and only if it is in the grammar.
-/
namespace DeviceTwin.Descriptor

variable {scope : Scope} {below : Option Application} {active : List String} {o : Outline}
  {key : String} {keyword : Keyword} {value : Json} {members before : List (String × Json)}

section Members

variable {after : List (String × Json)}

/-- What a collection asks of the kind of its node. -/
structure Placed (kind? : Option Tag) (keyword : Keyword) : Prop where
  children : keyword ∈ childKeywords → kind?.bind Outline.childSource? = some keyword.name
  bitFields : keyword = .bitmaps → kind? = some .bitmap

/-- A member that is taken without findings is in the grammar. -/
theorem conformingMember_of_isClean (href : keyword ≠ .reference) (hafter : After before o)
    (hplaced : Placed (kindIn members) keyword)
    (hbelow : Judges scope below active (innerOf {} keyword value))
    (hclean : (takeKeyword scope below active o keyword value).IsClean) :
    ConformingMember members before keyword value := by
  have hnamed (tag : Tag) (hone : tag ≠ .oneOf) (hchild : keyword ∈ childKeywords)
      (hsource : Outline.childSource? tag = some keyword.name) :
      (Keyword.kind.name, .str tag.name) ∈ members := by
    have hbind := hplaced.children hchild
    exact mem_of_kindIn ((Outline.bind_childSource?_eq_some_iff hsource).mp hbind) hone
  cases keyword with
  | reference => exact absurd rfl href
  | kind =>
    obtain ⟨⟨tag, htag, rfl⟩, -⟩ := isClean_takeKind_iff.mp hclean
    exact .kind htag
  | format =>
    obtain ⟨format, rfl⟩ := isClean_takeFormat_iff.mp hclean
    exact .format format
  | coefficient =>
    obtain ⟨⟨items, rfl, h⟩, -⟩ := isClean_takeCoefficient_iff.mp hclean
    exact .coefficient h
  | values =>
    obtain ⟨items, rfl, ⟨hkind, h, -⟩ | ⟨hkind, ⟨format, hformat⟩, h, -⟩⟩ :=
      isClean_takeValues_iff.mp hclean
    · rw [hafter.kind] at hkind
      exact .states (hkind.imp (mem_of_kindIn · nofun) (mem_of_kindIn · nofun)) h
    · rw [hafter.kind] at hkind
      rw [hafter.format] at hformat
      exact .numbers (mem_of_kindIn hkind nofun) (mem_of_formatIn hformat) h
  | properties =>
    obtain ⟨items, rfl, ⟨h, helements⟩, -⟩ := (isClean_takeProperties_iff hbelow).mp hclean
    exact .properties (hnamed .object nofun (by decide) rfl) h helements
  | items =>
    obtain ⟨h, -⟩ := (isClean_takeItems_iff hbelow).mp hclean
    exact .items (hnamed .array nofun (by decide) rfl) h
  | bitmaps =>
    obtain ⟨items, rfl, ⟨h, hvalues⟩, -⟩ := (isClean_takeBitmaps_iff hbelow).mp hclean
    exact .bitmaps (mem_of_kindIn (hplaced.bitFields rfl) nofun) h hvalues
  | oneOf =>
    obtain ⟨-, ⟨items, rfl, h⟩, -⟩ := (isClean_takeOneOf_iff hbelow).mp hclean
    exact .oneOf h
  | size => exact .size (isClean_takeSize_iff.mp hclean)
  | unit | base => exact .text (by decide) ((isClean_takeText_iff (by decide)).mp hclean)
  | _ => exact .number (by decide) ((isClean_takeNumber_iff (by decide)).mp hclean)

/-- A member of the grammar is taken without findings. -/
theorem isClean_of_conformingMember (hkeys : (Json.keys members).Nodup)
    (hsingle : Keyword.kind.name ∉ Json.keys members ∨ Keyword.oneOf.name ∉ Json.keys members)
    (hsplit : members = before ++ (keyword.name, value) :: after) (hafter : After before o)
    (hplaced : ∀ keyword : Keyword, keyword.name ∈ Json.keys members →
      Placed (kindIn members) keyword)
    (hbelow : Judges scope below active (innerOf {} keyword value))
    (h : ConformingMember members before keyword value) :
    (takeKeyword scope below active o keyword value).IsClean := by
  have hbefore : Json.keys before ⊆ Json.keys members :=
    hsplit ▸ List.map_subset _ (List.subset_append_left _ _)
  have hmember : keyword.name ∈ Json.keys members :=
    hsplit ▸ mem_keys (List.mem_append_right _ List.mem_cons_self)
  obtain ⟨hnodup, hnew⟩ := keys_of_split hkeys hsplit
  have hkind (tag : Tag) (htag : tag ∈ Tag.named)
      (hm : (Keyword.kind.name, .str tag.name) ∈ before) : o.kind = some tag := by
    rw [hafter.kind]
    exact kindIn_of_mem hnodup (hsingle.imp (mt (hbefore ·)) (mt (hbefore ·))) hm
      (kindOf?_eq_some_iff.mpr (.inl ⟨rfl, htag, rfl⟩))
  have hopen (hkey : keyword.name = Keyword.kind.name ∨ keyword.name = Keyword.oneOf.name) :
      o.kind = none :=
    hafter.kind.trans (kindIn_eq_none_of_split hkeys hsingle hsplit hkey)
  have hempty (hchild : keyword ∈ childKeywords) : o.children = none := by
    cases hchildren : o.children with
    | none => rfl
    | some children =>
      obtain ⟨source, parts⟩ := children
      obtain ⟨hsource, hname⟩ := hafter.children source parts hchildren
      obtain ⟨other, hother, rfl⟩ := List.mem_map.mp hname
      -- Parts that are there already belong to the same kind, hence stand under the same key.
      have hown := (hplaced keyword hmember).children hchild
      have hboth := ((hplaced other (hbefore hsource)).children hother).symm.trans hown
      exact absurd (Option.some.inj hboth ▸ hsource) hnew
  cases h with
  | kind htag => exact isClean_takeKind_iff.mpr ⟨⟨_, htag, rfl⟩, hopen (.inl rfl)⟩
  | format format => exact isClean_takeFormat_iff.mpr ⟨format, rfl⟩
  | text hkeyword h => exact (isClean_takeText_iff hkeyword).mpr h
  | number hkeyword h => exact (isClean_takeNumber_iff hkeyword).mpr h
  | size h => exact isClean_takeSize_iff.mpr h
  | coefficient h =>
    exact isClean_takeCoefficient_iff.mpr ⟨⟨_, rfl, h⟩, hafter.coefficients hnew⟩
  | states hstate h =>
    refine isClean_takeValues_iff.mpr ⟨_, rfl, .inl ⟨?_, h, hafter.states hnew⟩⟩
    exact hstate.imp (hkind .state (by decide)) (hkind .numericValue (by decide))
  | numbers hnumber hformat h =>
    refine isClean_takeValues_iff.mpr
      ⟨_, rfl, .inr ⟨hkind .number (by decide) hnumber, ?_, h, hafter.numbers hnew⟩⟩
    rw [hafter.format]
    exact exists_formatIn_of_mem hformat
  | properties _ h helements =>
    exact (isClean_takeProperties_iff hbelow).mpr ⟨_, rfl, ⟨h, helements⟩, hempty (by decide)⟩
  | items _ h => exact (isClean_takeItems_iff hbelow).mpr ⟨h, hempty (by decide)⟩
  | bitmaps _ h hvalues =>
    exact (isClean_takeBitmaps_iff hbelow).mpr
      ⟨_, rfl, ⟨h, hvalues⟩, hafter.bitFields hnew⟩
  | oneOf h =>
    exact (isClean_takeOneOf_iff hbelow).mpr
      ⟨hopen (.inr rfl), ⟨_, rfl, h⟩, hempty (by decide)⟩

/-- In a descriptor of the grammar every collection belongs to the kind. -/
theorem placed_of_conforming (hkeys : (Json.keys members).Nodup)
    (hsingle : Keyword.kind.name ∉ Json.keys members ∨ Keyword.oneOf.name ∉ Json.keys members)
    (hmembers : ∀ before (keyword : Keyword) value after,
      members = before ++ (keyword.name, value) :: after →
        ConformingMember members before keyword value)
    (hkey : keyword.name ∈ Json.keys members) : Placed (kindIn members) keyword := by
  obtain ⟨value, hm⟩ := exists_mem_of_mem_keys hkey
  obtain ⟨before, after, hsplit⟩ := List.append_of_mem hm
  have hkind (tag : Tag) (htag : tag ∈ Tag.named)
      (hm : (Keyword.kind.name, .str tag.name) ∈ members) : kindIn members = some tag :=
    kindIn_of_mem hkeys hsingle hm (kindOf?_eq_some_iff.mpr (.inl ⟨rfl, htag, rfl⟩))
  cases hmembers before keyword value after hsplit with
  | properties h =>
    refine ⟨fun _ => ?_, nofun⟩
    rw [hkind .object (by decide) h]
    rfl
  | items h =>
    refine ⟨fun _ => ?_, nofun⟩
    rw [hkind .array (by decide) h]
    rfl
  | oneOf =>
    refine ⟨fun _ => ?_, nofun⟩
    rw [kindIn_of_mem hkeys hsingle hm (kindOf?_eq_some_iff.mpr (.inr ⟨rfl, rfl, _, rfl⟩))]
    rfl
  | bitmaps h => exact ⟨fun h => absurd h (by decide), fun _ => hkind .bitmap (by decide) h⟩
  | kind | format | size | coefficient | states | numbers =>
    exact ⟨fun h => absurd h (by decide), nofun⟩
  | text hkeyword | number hkeyword =>
    cases keyword <;>
      first
      | exact absurd hkeyword (by decide)
      | exact ⟨fun h => absurd h (by decide), nofun⟩

theorem misplaced_eq_nil_of_placed (hafter : After members o)
    (hplaced : ∀ keyword : Keyword, keyword.name ∈ Json.keys members →
      Placed (kindIn members) keyword) : o.misplaced = [] := by
  refine Outline.misplaced_eq_nil_iff.mpr ⟨fun source parts hparts => ?_, fun hfields => ?_⟩
  · obtain ⟨hsource, hname⟩ := hafter.children source parts hparts
    obtain ⟨keyword, hkeyword, rfl⟩ := List.mem_map.mp hname
    rw [hafter.kind]
    exact (hplaced keyword hsource).children hkeyword
  · by_cases hkey : Keyword.bitmaps.name ∈ Json.keys members
    · exact hafter.kind.trans ((hplaced .bitmaps hkey).bitFields rfl)
    · exact absurd (hafter.bitFields hkey) hfields

/-- A member that lists parts and is taken without findings is the one whose parts are stored. -/
theorem children_of_isClean (hchild : keyword ∈ childKeywords)
    (hbelow : Judges scope below active (innerOf {} keyword value))
    (hclean : (takeKeyword scope below active o keyword value).IsClean) :
    ∃ parts, (takeKeyword scope below active o keyword value).record.children =
      some (keyword.name, parts) := by
  simp only [childKeywords, List.mem_cons, List.not_mem_nil, or_false] at hchild
  rcases hchild with rfl | rfl | rfl
  · obtain ⟨items, rfl, -, hnone⟩ := (isClean_takeProperties_iff hbelow).mp hclean
    rw [record_takeProperties, hnone]
    exact ⟨_, rfl⟩
  · obtain ⟨h, hnone⟩ := (isClean_takeItems_iff hbelow).mp hclean
    rw [record_takeItems, hnone]
    cases h
    exact ⟨_, rfl⟩
  · obtain ⟨hkind, ⟨items, rfl, -⟩, hnone⟩ := (isClean_takeOneOf_iff hbelow).mp hclean
    rw [record_takeOneOf, hkind, hnone]
    exact ⟨_, rfl⟩

theorem bitFields_of_isClean
    (hbelow : Judges scope below active (innerOf {} .bitmaps value))
    (hclean : (takeKeyword scope below active o .bitmaps value).IsClean) :
    (takeKeyword scope below active o .bitmaps value).record.bitFields ≠ none := by
  obtain ⟨items, rfl, -, hnone⟩ := (isClean_takeBitmaps_iff hbelow).mp hclean
  rw [record_takeBitmaps, hnone]
  nofun

/-- Where no collection is misplaced, one that is taken without findings belongs to the kind. -/
theorem placed_of_isClean (href : Keyword.reference.name ∉ Json.keys members)
    (hsplit : members = before ++ (keyword.name, value) :: after)
    (hmisplaced :
      (readMembers (takeMember scope below active) {} members).value.misplaced = [])
    (hbelow : Judges scope below active (innerOf {} keyword value))
    (hclean : (takeKeyword scope below active
      (readMembers (takeMember scope below active) {} before).value keyword value).IsClean) :
    Placed (kindIn members) keyword := by
  have hafter : After ([] ++ members)
      (readMembers (takeMember scope below active) {} members).value := after_nil.readMembers href
  have hkept : Keeps (takeKeyword scope below active
      (readMembers (takeMember scope below active) {} before).value keyword value).record
        (readMembers (takeMember scope below active) {} members).value := by
    rw [hsplit, value_readMembers_append, readMembers, takeMember_name]
    exact keeps_readMembers fun hm => href (by
      rw [hsplit, Json.keys, List.map_append]
      exact List.mem_append_right _ (List.mem_cons_of_mem _ hm))
  obtain ⟨hchildren, hfields⟩ := Outline.misplaced_eq_nil_iff.mp hmisplaced
  rw [hafter.kind] at hchildren hfields
  refine ⟨fun hchild => ?_, ?_⟩
  · obtain ⟨parts, hparts⟩ := children_of_isClean hchild hbelow hclean
    exact hchildren _ _ (hkept.children _ hparts)
  · rintro rfl
    exact hfields (hkept.bitFields (bitFields_of_isClean hbelow hclean))

end Members

section Levels

theorem isClean_complete_iff {n : Noted Outline} :
    (complete n).IsClean ↔ n.IsClean ∧ n.value.misplaced = [] := by
  refine List.append_eq_nil_iff.trans (and_congr_right' ?_)
  exact List.map_eq_nil_iff.trans List.map_eq_nil_iff

/-- If every member that names a kind finds it open, there is no more than one of them. -/
theorem single_of_open (hopen : ∀ before (keyword : Keyword) value after,
      members = before ++ (keyword.name, value) :: after → keyword = .kind ∨ keyword = .oneOf →
        kindIn before = none ∧ kindOf? keyword.name value ≠ none) :
    Keyword.kind.name ∉ Json.keys members ∨ Keyword.oneOf.name ∉ Json.keys members := by
  rw [← Classical.not_and_iff_not_or_not]
  rintro ⟨hkind, hone⟩
  obtain ⟨value, hvalue⟩ := exists_mem_of_mem_keys hkind
  obtain ⟨items, hitems⟩ := exists_mem_of_mem_keys hone
  obtain ⟨before, after, hsplit⟩ := List.append_of_mem hvalue
  obtain ⟨hbefore, hnamed⟩ := hopen before .kind value after hsplit (.inl rfl)
  rw [hsplit, List.mem_append, List.mem_cons] at hitems
  -- Whichever of the two stands behind the other finds the kind settled.
  rcases hitems with hm | heq | hm
  · obtain ⟨front, rest, hfront⟩ := List.append_of_mem hm
    have hlisted := (hopen front .oneOf items (rest ++ (Keyword.kind.name, value) :: after)
      (by rw [hsplit, hfront, List.append_assoc]; rfl) (.inr rfl)).2
    exact hlisted (kindIn_eq_none_iff.mp hbefore _ _ hm)
  · exact absurd (Prod.mk.inj heq).1 (by decide)
  · obtain ⟨middle, rest, hmiddle⟩ := List.append_of_mem hm
    have hlater := (hopen (before ++ (Keyword.kind.name, value) :: middle) .oneOf items rest
      (by rw [hsplit, hmiddle, List.append_assoc]; rfl) (.inr rfl)).1
    exact hnamed (kindIn_eq_none_iff.mp hlater _ _ (List.mem_append_right _ List.mem_cons_self))

section Below

variable (href : Keyword.reference.name ∉ Json.keys members)
  (hbelow : ∀ (keyword : Keyword) value, (keyword.name, value) ∈ members →
    Judges scope below active (innerOf {} keyword value))

include href

theorem after_of_split (hsplit : members = before ++ (key, value) :: after) :
    After before (readMembers (takeMember scope below active) {} before).value := by
  have hbefore : After ([] ++ before)
      (readMembers (takeMember scope below active) {} before).value := by
    refine after_nil.readMembers fun hm => href ?_
    rw [hsplit, Json.keys, List.map_append]
    exact List.mem_append_left _ hm
  exact hbefore

include hbelow

theorem conforms_of_isClean
    (hclean : (complete (applyOver scope below active (.obj members) {})).IsClean) :
    Conforms (.obj members) := by
  obtain ⟨hclean, hmisplaced⟩ := isClean_complete_iff.mp hclean
  rw [applyOver_obj, isClean_readMembers_iff] at hclean
  have htaken (before) (keyword : Keyword) (value after)
      (hsplit : members = before ++ (keyword.name, value) :: after) :
      (keyword.name, value) ∈ members ∧ (takeKeyword scope below active
        (readMembers (takeMember scope below active) {} before).value keyword value).IsClean := by
    refine ⟨hsplit ▸ List.mem_append_right before List.mem_cons_self, ?_⟩
    rw [← takeMember_name]
    exact hclean before keyword.name value after hsplit
  refine .intro (fun key hkey => ?_) (single_of_open ?_) ?_
  · obtain ⟨value, hm⟩ := exists_mem_of_mem_keys hkey
    obtain ⟨before, after, hsplit⟩ := List.append_of_mem hm
    have htaken := hclean before key value after hsplit
    unfold takeMember at htaken
    split at htaken
    · exact absurd htaken (Taken.not_isClean_refused _ _)
    · next keyword hk => exact ⟨keyword, (Keyword.ofName?_eq_some_iff.mp hk).symm⟩
  · intro before keyword value after hsplit hkeyword
    obtain ⟨hm, htaken⟩ := htaken before keyword value after hsplit
    have hkind : (readMembers (takeMember scope below active) {} before).value.kind =
        kindIn before := (after_of_split href hsplit).kind
    rw [← hkind]
    rcases hkeyword with rfl | rfl
    · obtain ⟨⟨tag, htag, rfl⟩, hopen⟩ := isClean_takeKind_iff.mp htaken
      have hnamed := kindOf?_eq_some_iff.mpr (.inl ⟨rfl, htag, rfl⟩)
      exact ⟨hopen, hnamed ▸ nofun⟩
    · obtain ⟨hopen, ⟨items, rfl, -⟩, -⟩ :=
        (isClean_takeOneOf_iff (hbelow .oneOf value hm)).mp htaken
      exact ⟨hopen, nofun⟩
  · intro before keyword value after hsplit
    obtain ⟨hm, htaken⟩ := htaken before keyword value after hsplit
    have hplaced := placed_of_isClean href hsplit hmisplaced (hbelow keyword value hm) htaken
    refine conformingMember_of_isClean ?_ (after_of_split href hsplit) hplaced
      (hbelow keyword value hm) htaken
    rintro rfl
    exact href (mem_keys hm)

theorem isClean_of_conforms (hkeys : (Json.keys members).Nodup) (h : Conforms (.obj members)) :
    (complete (applyOver scope below active (.obj members) {})).IsClean := by
  obtain ⟨hknown, hsingle, hmembers⟩ := h
  have hplaced (keyword : Keyword) (hkey : keyword.name ∈ Json.keys members) :
      Placed (kindIn members) keyword := placed_of_conforming hkeys hsingle hmembers hkey
  have hall : After ([] ++ members)
      (readMembers (takeMember scope below active) {} members).value :=
    after_nil.readMembers href
  rw [isClean_complete_iff, applyOver_obj, isClean_readMembers_iff]
  refine ⟨fun before key value after hsplit => ?_, misplaced_eq_nil_of_placed hall hplaced⟩
  have hm : (key, value) ∈ members := hsplit ▸ List.mem_append_right before List.mem_cons_self
  obtain ⟨keyword, rfl⟩ := hknown key (mem_keys hm)
  rw [takeMember_name]
  exact isClean_of_conformingMember hkeys hsingle hsplit (after_of_split href hsplit) hplaced
    (hbelow keyword value hm) (hmembers before keyword value after hsplit)

end Below

/-- On top of a level below that finds nothing exactly in the grammar, this holds of a descriptor
that is read. -/
theorem isClean_applyOver_iff {descriptor : Json} (hkeys : descriptor.hasDistinctKeys)
    (href : descriptor.get? Keyword.reference.name = none)
    (hbelow : ∀ child, NestedAt 1 descriptor child →
      ((readNested scope below active child).IsClean ↔ Conforms child)) :
    (complete (applyOver scope below active descriptor {})).IsClean ↔ Conforms descriptor := by
  cases descriptor with
  | obj members =>
    have hdistinct : (Json.keys members).Nodup := (Json.hasDistinctKeys_obj.mp hkeys).1
    have hown : Keyword.reference.name ∉ Json.keys members := by
      intro hkey
      obtain ⟨value, hm⟩ := exists_mem_of_mem_keys hkey
      cases (lookup_of_mem hdistinct hm).symm.trans href
    have hmembers (keyword : Keyword) (value) (hm : (keyword.name, value) ∈ members) :
        Judges scope below active (innerOf {} keyword value) := by
      intro child hchild
      have hinner : child ∈ inner {} keyword.name value := by
        rwa [inner, Keyword.ofName?_eq_some_iff.mpr rfl]
      exact hbelow child (.inside (List.mem_flatMap.mpr ⟨_, hm, hinner⟩) .here)
    exact ⟨conforms_of_isClean hown hmembers, isClean_of_conforms hown hmembers hdistinct⟩
  | _ =>
    refine iff_of_false (fun hclean => ?_) (fun h => by cases h)
    exact Noted.not_isClean_refused _ _ (isClean_complete_iff.mp hclean).1

/-- With enough levels below it, nothing is found in a descriptor if and only if it is in the
grammar. -/
theorem isClean_apply_iff (level : Nat) (active : List String) (descriptor : Json)
    (hkeys : descriptor.hasDistinctKeys)
    (href : ∀ depth nested, NestedAt depth descriptor nested →
      nested.get? Keyword.reference.name = none)
    (hlevel : ∀ depth nested, NestedAt depth descriptor nested → depth ≤ level) :
    (complete (apply scope level active descriptor {})).IsClean ↔ Conforms descriptor := by
  induction level generalizing active descriptor with
  | zero =>
    refine isClean_applyOver_iff hkeys (href 0 _ .here) fun child hchild => ?_
    exact absurd (hlevel 1 child hchild) (by decide)
  | succ level ih =>
    refine isClean_applyOver_iff hkeys (href 0 _ .here) fun child hchild => ?_
    cases hchild with
    | inside hchild h =>
      cases h
      refine ih active child ((within_of_mem_nestedIn hchild).hasDistinctKeys hkeys) ?_ ?_
      · exact fun depth nested h => href (depth + 1) nested (.inside hchild h)
      · exact fun depth nested h => Nat.le_of_succ_le_succ (hlevel _ _ (.inside hchild h))

/-- Where neither a descriptor nor any inside of it has a reference, and the levels reach to the
innermost of them, nothing is found if and only if the descriptor is in the grammar. -/
theorem read_clean_iff (scope : Scope) (descriptor : Json) (hkeys : descriptor.hasDistinctKeys)
    (href : ∀ depth nested, NestedAt depth descriptor nested →
      nested.get? Keyword.reference.name = none)
    (hdepth : ∀ depth nested, NestedAt depth descriptor nested → depth ≤ scope.maxDepth) :
    (read scope descriptor).findings = [] ↔ Conforms descriptor :=
  isClean_apply_iff scope.maxDepth [] descriptor hkeys href hdepth

/-- An array of numbers with an enumeration. -/
def gauges : Json :=
  .obj [("maxItems", .int 4), ("items", .obj [("type", .str "number"), ("format", .str "uint8"),
    ("enum", .arr [.int 0, .int 255])]), ("type", .str "array")]

theorem read_clean_iff_gauges :
    gauges.hasDistinctKeys ∧
      (∀ depth nested, NestedAt depth gauges nested →
        nested.get? Keyword.reference.name = none) ∧
      (∀ depth nested, NestedAt depth gauges nested → depth ≤ 1) ∧
      (read { maxDepth := 1 } gauges).findings = [] ∧ Conforms gauges := by
  have hkeys : gauges.hasDistinctKeys := by decide
  have hnested (depth) (nested : Json) (h : NestedAt depth gauges nested) :
      nested.get? Keyword.reference.name = none ∧ depth ≤ 1 := by
    cases h with
    | here => exact ⟨rfl, by decide⟩
    | inside hchild h =>
      obtain rfl := List.mem_singleton.mp hchild
      cases h with
      | here => exact ⟨rfl, by decide⟩
      | inside hchild => cases hchild
  have href := fun depth nested h => (hnested depth nested h).1
  have hdepth := fun depth nested h => (hnested depth nested h).2
  have hclean : (read { maxDepth := 1 } gauges).findings = [] := by decide
  exact ⟨hkeys, href, hdepth, hclean,
    (read_clean_iff { maxDepth := 1 } gauges hkeys href hdepth).mp hclean⟩

end Levels

end DeviceTwin.Descriptor
