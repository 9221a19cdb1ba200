import DeviceTwin.Proofs.Descriptor.NumberFormat
import DeviceTwin.Proofs.Descriptor.Values

/-!
What members give. The first that names a kind and the first codes count, and of a format and of
every attribute the last; those that are not of the type that is asked for do not count.
-/
namespace DeviceTwin

/-- The attributes that are given, and the old ones where none is. -/
def Attributes.onto (new old : Attributes) : Attributes where
  size := new.size.or old.size
  unit := new.unit.or old.unit
  multipleOf := new.multipleOf.or old.multipleOf
  minSize := new.minSize.or old.minSize
  maxSize := new.maxSize.or old.maxSize
  itemSize := new.itemSize.or old.itemSize
  minItems := new.minItems.or old.minItems
  maxItems := new.maxItems.or old.maxItems
  minimum := new.minimum.or old.minimum
  maximum := new.maximum.or old.maximum
  base := new.base.or old.base

theorem Attributes.onto_assoc (a b c : Attributes) : (a.onto b).onto c = a.onto (b.onto c) := by
  simp only [onto, Option.or_assoc]

theorem Attributes.empty_onto (a : Attributes) : ({} : Attributes).onto a = a := by
  simp only [onto, Option.none_or]

theorem Attributes.onto_empty (a : Attributes) : a.onto {} = a := by
  simp only [onto, Option.or_none]

namespace Descriptor

section Given

variable {α : Type} {read : Json → Except Violation α} {key own : String} {value : Json}
  {members later : List (String × Json)}

/-- What the well-typed members under a key read as, in order. -/
def given (own : String) (read : Json → Except Violation α) (members : List (String × Json)) :
    List α :=
  members.filterMap fun (key, value) => if key = own then (read value).toOption else none

def firstGiven (own : String) (read : Json → Except Violation α) (members : List (String × Json)) :
    Option α :=
  (given own read members).head?

def lastGiven (own : String) (read : Json → Except Violation α) (members : List (String × Json)) :
    Option α :=
  (given own read members).getLast?

/-- The kind that a member names: a known one, or that of alternatives. -/
def kindOf? (key : String) (value : Json) : Option Tag :=
  if key = Keyword.kind.name then (readKind value).toOption
  else if key = Keyword.oneOf.name then value.expectArray.toOption.map fun _ => .oneOf
  else none

/-- The first kind that is named. -/
def kindIn (members : List (String × Json)) : Option Tag :=
  members.findSome? fun (key, value) => kindOf? key value

/-- The last well-typed value of every attribute. -/
def attributesIn (members : List (String × Json)) : Attributes where
  size := lastGiven Keyword.size.name readSize members
  unit := lastGiven Keyword.unit.name Json.expectString members
  multipleOf := lastGiven Keyword.multipleOf.name Json.expectBinary64 members
  minSize := lastGiven Keyword.minSize.name Json.expectBinary64 members
  maxSize := lastGiven Keyword.maxSize.name Json.expectBinary64 members
  itemSize := (lastGiven Keyword.itemSize.name Json.expectBinary64 members).map Binary64.toInt64
  minItems := (lastGiven Keyword.minItems.name Json.expectBinary64 members).map Binary64.toInt64
  maxItems := (lastGiven Keyword.maxItems.name Json.expectBinary64 members).map Binary64.toInt64
  minimum := lastGiven Keyword.minimum.name Json.expectBinary64 members
  maximum := lastGiven Keyword.maximum.name Json.expectBinary64 members
  base := lastGiven Keyword.base.name Json.expectString members

/-- The first codes that are given. -/
def coefficientsIn (members : List (String × Json)) : Option (List String) :=
  firstGiven Keyword.coefficient.name readCodes members

theorem firstGiven_append : firstGiven own read (members ++ later) =
    (firstGiven own read members).or (firstGiven own read later) := by
  rw [firstGiven, given, List.filterMap_append, List.head?_append]
  rfl

theorem lastGiven_append : lastGiven own read (members ++ later) =
    (lastGiven own read later).or (lastGiven own read members) := by
  rw [lastGiven, given, List.filterMap_append, List.getLast?_append]
  rfl

theorem firstGiven_singleton : firstGiven own read [(key, value)] =
    if key = own then (read value).toOption else none := by
  by_cases h : key = own <;> cases hread : (read value).toOption <;>
    simp [firstGiven, given, h, hread]

theorem lastGiven_singleton : lastGiven own read [(key, value)] =
    if key = own then (read value).toOption else none := by
  by_cases h : key = own <;> cases hread : (read value).toOption <;>
    simp [lastGiven, given, h, hread]

theorem kindIn_append : kindIn (members ++ later) = (kindIn members).or (kindIn later) :=
  List.findSome?_append

theorem kindIn_singleton : kindIn [(key, value)] = kindOf? key value := by
  simp only [kindIn, List.findSome?_cons, List.findSome?_nil]
  cases kindOf? key value <;> rfl

theorem coefficientsIn_append : coefficientsIn (members ++ later) =
    (coefficientsIn members).or (coefficientsIn later) :=
  firstGiven_append

theorem attributesIn_append :
    attributesIn (members ++ later) = (attributesIn later).onto (attributesIn members) := by
  simp only [attributesIn, Attributes.onto, lastGiven_append, Option.map_or]

end Given

section Told

variable {α : Type} {gives : String → Json → α → Prop} {f : String × Json → Option α}
  {read : Json → Except Violation α} {reads : Json → α → Prop} {own key : String} {value : Json}
  {members : List (String × Json)} {x : α} {tag : Tag}

/-- The first member that gives anything gives `x`. -/
def FirstGives (gives : String → Json → α → Prop) (members : List (String × Json)) (x : α) : Prop :=
  ∃ before key value after, members = before ++ (key, value) :: after ∧ gives key value x ∧
    ∀ other ∈ before, ∀ y, ¬ gives other.1 other.2 y

/-- The last member that gives anything gives `x`. -/
def LastGives (gives : String → Json → α → Prop) (members : List (String × Json)) (x : α) : Prop :=
  ∃ before key value after, members = before ++ (key, value) :: after ∧ gives key value x ∧
    ∀ other ∈ after, ∀ y, ¬ gives other.1 other.2 y

theorem lastGives_iff_reverse : LastGives gives members x ↔ FirstGives gives members.reverse x := by
  constructor
  · rintro ⟨before, key, value, after, rfl, hx, hafter⟩
    exact ⟨after.reverse, key, value, before.reverse, by simp, hx, by simpa using hafter⟩
  · rintro ⟨after, key, value, before, hsplit, hx, hafter⟩
    refine ⟨before.reverse, key, value, after.reverse, ?_, hx, by simpa using hafter⟩
    rw [← List.reverse_reverse members, hsplit]
    simp

theorem findSome?_eq_some_iff_firstGives (h : ∀ m x, f m = some x ↔ gives m.1 m.2 x) :
    members.findSome? f = some x ↔ FirstGives gives members x := by
  have hnone (m : String × Json) : f m = none ↔ ∀ y, ¬ gives m.1 m.2 y := by
    simp only [← h, Option.eq_none_iff_forall_ne_some, ne_eq]
  rw [List.findSome?_eq_some_iff]
  constructor
  · rintro ⟨before, ⟨key, value⟩, after, hsplit, hx, hbefore⟩
    exact ⟨before, key, value, after, hsplit, (h _ x).mp hx,
      fun m hm => (hnone m).mp (hbefore m hm)⟩
  · rintro ⟨before, key, value, after, hsplit, hx, hbefore⟩
    exact ⟨before, (key, value), after, hsplit, (h (key, value) x).mpr hx,
      fun m hm => (hnone m).mpr (hbefore m hm)⟩

theorem findSome?_reverse_eq_some_iff_lastGives (h : ∀ m x, f m = some x ↔ gives m.1 m.2 x) :
    members.reverse.findSome? f = some x ↔ LastGives gives members x :=
  (findSome?_eq_some_iff_firstGives h).trans lastGives_iff_reverse.symm

/-- The members under one key, with what their values read as. -/
def Under (own : String) (reads : Json → α → Prop) (key : String) (value : Json) (x : α) : Prop :=
  key = own ∧ reads value x

theorem ite_toOption_eq_some_iff (h : ∀ value x, read value = .ok x ↔ reads value x) :
    (if key = own then (read value).toOption else none) = some x ↔ Under own reads key value x := by
  rw [Under, ← h]
  by_cases hkey : key = own <;> cases read value <;> simp [hkey, Except.toOption]

theorem firstGiven_eq_some_iff (h : ∀ value x, read value = .ok x ↔ reads value x) :
    firstGiven own read members = some x ↔ FirstGives (Under own reads) members x := by
  rw [firstGiven, given, List.head?_filterMap]
  exact findSome?_eq_some_iff_firstGives fun _ _ => ite_toOption_eq_some_iff h

theorem lastGiven_eq_some_iff (h : ∀ value x, read value = .ok x ↔ reads value x) :
    lastGiven own read members = some x ↔ LastGives (Under own reads) members x := by
  rw [lastGiven, given, List.getLast?_filterMap]
  exact findSome?_reverse_eq_some_iff_lastGives fun _ _ => ite_toOption_eq_some_iff h

/-- A member names a kind by a known name, or is a list of alternatives. -/
def NamesKind (key : String) (value : Json) (tag : Tag) : Prop :=
  (key = "type" ∧ tag ∈ Tag.named ∧ value = .str tag.name) ∨
    key = "oneOf" ∧ tag = .oneOf ∧ ∃ items, value = .arr items

theorem kindOf?_eq_some_iff : kindOf? key value = some tag ↔ NamesKind key value tag := by
  unfold kindOf? NamesKind
  split
  · next hkey =>
    subst hkey
    rw [← readKind_eq_ok_iff]
    cases readKind value <;> simp [Except.toOption, Keyword.name]
  · next hkind =>
    split
    · next hkey =>
      subst hkey
      cases value <;> simp [Json.expectArray, Except.toOption, Keyword.name, eq_comm]
    · next hone => simp [show key ≠ "type" from hkind, show key ≠ "oneOf" from hone]

/-- What members tell is told by those with the type and the spelling that is asked for; members of
another type tell nothing. -/
structure Told (members : List (String × Json)) : Prop where
  kind (tag : Tag) : kindIn members = some tag ↔ FirstGives NamesKind members tag
  format (format : NumberFormat) : formatIn members = some format ↔
    LastGives (Under "format" fun value (format : NumberFormat) => value = .str format.name)
      members format
  coefficients (codes : List String) : coefficientsIn members = some codes ↔
    FirstGives (Under "coefficient" fun value codes => value = .arr (codes.map .str)) members codes
  size (size : Int32) : lastGiven "size" readSize members = some size ↔
    LastGives (Under "size" IsSize) members size
  text (own text : String) : lastGiven own Json.expectString members = some text ↔
    LastGives (Under own fun value text => value = .str text) members text
  number (own : String) (x : Binary64) : lastGiven own Json.expectBinary64 members = some x ↔
    LastGives (Under own fun value x => ∃ number, value = .num number ∧ x = number.toBinary64)
      members x

theorem told (members : List (String × Json)) : Told members where
  kind _ := findSome?_eq_some_iff_firstGives fun _ _ => kindOf?_eq_some_iff
  format _ := lastGiven_eq_some_iff fun _ _ => readFormat_eq_ok_iff
  coefficients _ := firstGiven_eq_some_iff fun _ _ => readCodes_eq_ok_iff
  size _ := lastGiven_eq_some_iff fun _ _ => readSize_eq_ok_iff
  text _ _ := lastGiven_eq_some_iff fun _ _ => Json.expectString_eq_ok_iff
  number _ _ := lastGiven_eq_some_iff fun _ _ => Json.expectBinary64_eq_ok_iff

end Told

end Descriptor
end DeviceTwin
