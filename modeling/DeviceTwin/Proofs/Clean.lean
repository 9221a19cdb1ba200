import DeviceTwin.Proofs.Record

/-!
Readers that find nothing wrong. A record is read without findings if each of its members is, at the
record that the members before it have left.
-/
namespace DeviceTwin

/-- A computation with a result. -/
def Succeeds {ε α : Type} (x : Except ε α) : Prop := ∃ a, x = .ok a

section Succeeds

variable {ε α β : Type} {x : Except ε α} {f : α → Except ε β}

@[simp] theorem succeeds_ok (a : α) : Succeeds (.ok a : Except ε α) := ⟨a, rfl⟩

@[simp] theorem not_succeeds_error (e : ε) : ¬ Succeeds (.error e : Except ε α) := nofun

@[simp] theorem succeeds_map_iff {f : α → β} : Succeeds (x.map f) ↔ Succeeds x := by
  cases x with
  | error e => exact iff_of_false (not_succeeds_error e) (not_succeeds_error e)
  | ok a => exact iff_of_true (succeeds_ok (f a)) (succeeds_ok a)

theorem succeeds_bind_iff : Succeeds (x.bind f) ↔ ∃ a, x = .ok a ∧ Succeeds (f a) := by
  constructor
  · rintro ⟨b, h⟩
    obtain ⟨a, ha, hf⟩ := bind_eq_ok_iff.mp h
    exact ⟨a, ha, b, hf⟩
  · rintro ⟨a, ha, b, hf⟩
    exact ⟨b, bind_eq_ok_iff.mpr ⟨a, ha, hf⟩⟩

/-- What follows a computation succeeds whatever its result is, or never does. -/
theorem succeeds_bind_of_iff {p : Prop} (h : ∀ a, x = .ok a → (Succeeds (f a) ↔ p)) :
    Succeeds (x.bind f) ↔ Succeeds x ∧ p := by
  rw [succeeds_bind_iff]
  constructor
  · rintro ⟨a, ha, hf⟩
    exact ⟨⟨a, ha⟩, (h a ha).mp hf⟩
  · rintro ⟨⟨a, ha⟩, hp⟩
    exact ⟨a, ha, (h a ha).mpr hp⟩

theorem succeeds_mapM_iff {γ : Type} {g : γ → Except ε β} {items : List γ} :
    Succeeds (items.mapM g) ↔ ∀ item ∈ items, Succeeds (g item) := by
  induction items with
  | nil => exact iff_of_true (succeeds_ok []) nofun
  | cons item rest ih =>
    rw [List.mapM_cons, List.forall_mem_cons, ← ih]
    refine succeeds_bind_of_iff fun b _ => ?_
    exact (succeeds_bind_of_iff fun bs _ => iff_true_intro (succeeds_ok (b :: bs))).trans
      (and_iff_left trivial)

end Succeeds

section Clean

variable {ρ α β : Type} {o : ρ} {key : String} {value : Json} {t : Taken ρ} {n : Noted α}
  {take : ρ → String → Json → Taken ρ} {members : List (String × Json)} {items : List Json}

def Noted.IsClean (n : Noted α) : Prop := n.findings = []

/-- Nothing was found inside of the member, and it was not refused. -/
structure Taken.IsClean (t : Taken ρ) : Prop where
  findings_eq : t.findings = []
  refusal_eq : t.refusal = none

theorem Taken.findingsUnder_eq_nil_iff : t.findingsUnder key = [] ↔ t.IsClean := by
  constructor
  · intro h
    have hall := List.append_eq_nil_iff.mp (List.map_eq_nil_iff.mp h)
    exact ⟨hall.1, Option.toList_eq_nil_iff.mp (List.map_eq_nil_iff.mp hall.2)⟩
  · intro h
    rw [findingsUnder, h.findings_eq, h.refusal_eq]
    rfl

theorem Taken.not_isClean_refused (o : ρ) (v : Violation) : ¬ (Taken.refused o v).IsClean :=
  fun h => by cases h.refusal_eq

theorem Taken.isClean_ofExcept_iff {x : Except Violation ρ} :
    (Taken.ofExcept o x).IsClean ↔ Succeeds x := by
  cases x with
  | error v => exact iff_of_false (not_isClean_refused o v) (not_succeeds_error v)
  | ok r => exact iff_of_true ⟨rfl, rfl⟩ (succeeds_ok r)

theorem Taken.isClean_store_iff {put : α → Except Violation ρ} :
    (Taken.store o n put).IsClean ↔ n.IsClean ∧ Succeeds (put n.value) := by
  rw [← isClean_ofExcept_iff (o := o)]
  constructor
  · intro h
    refine ⟨h.findings_eq, ?_, h.refusal_eq⟩
    cases put n.value <;> rfl
  · exact fun h => ⟨h.1, h.2.refusal_eq⟩

theorem Noted.not_isClean_refused (a : α) (v : Violation) : ¬ (Noted.refused a v).IsClean := nofun

theorem isClean_readMembers_cons_iff : (readMembers take o ((key, value) :: members)).IsClean ↔
    (take o key value).IsClean ∧ (readMembers take (take o key value).record members).IsClean :=
  List.append_eq_nil_iff.trans (and_congr_left' Taken.findingsUnder_eq_nil_iff)

theorem isClean_readMembers_iff : (readMembers take o members).IsClean ↔
    ∀ before key value after, members = before ++ (key, value) :: after →
      (take (readMembers take o before).value key value).IsClean := by
  induction members generalizing o with
  | nil =>
    refine iff_of_true rfl fun before key value after h => ?_
    cases before <;> cases h
  | cons member rest ih =>
    obtain ⟨key, value⟩ := member
    rw [isClean_readMembers_cons_iff, ih]
    constructor
    · rintro ⟨hfirst, hlater⟩ before key' value' after h
      cases before with
      | nil =>
        cases h
        exact hfirst
      | cons first before =>
        obtain ⟨rfl, rfl⟩ := List.cons.inj h
        exact hlater before key' value' after rfl
    · intro h
      refine ⟨h [] key value rest rfl, fun before key' value' after heq => ?_⟩
      exact h ((key, value) :: before) key' value' after (congrArg _ heq)

/-- Members that are clean or not whatever stands before them. -/
theorem isClean_readMembers_of_iff {p : String → Json → Prop}
    (h : ∀ r key value, (key, value) ∈ members → ((take r key value).IsClean ↔ p key value)) :
    (readMembers take o members).IsClean ↔ ∀ key value, (key, value) ∈ members → p key value := by
  rw [isClean_readMembers_iff]
  constructor
  · intro hclean key value hm
    obtain ⟨before, after, rfl⟩ := List.append_of_mem hm
    exact (h _ key value hm).mp (hclean before key value after rfl)
  · rintro hp before key value after rfl
    have hm : (key, value) ∈ before ++ (key, value) :: after :=
      List.mem_append_right before List.mem_cons_self
    exact (h _ key value hm).mpr (hp key value hm)

theorem isClean_readItems_iff {read : Json → Noted (Option α)} {index : Nat} :
    (readItems read index items).IsClean ↔ ∀ item ∈ items, (read item).IsClean := by
  induction items generalizing index with
  | nil => exact iff_of_true rfl nofun
  | cons item rest ih =>
    rw [List.forall_mem_cons]
    exact List.append_eq_nil_iff.trans (and_congr List.map_eq_nil_iff ih)

/-- An object whose members have a property that is judged for each of them alone. -/
def Json.IsRecord (p : String → Json → Prop) (value : Json) : Prop :=
  ∃ members, value = .obj members ∧ ∀ key part, (key, part) ∈ members → p key part

variable {p : String → Json → Prop}

theorem isClean_readRecord_iff (h : ∀ r key part, part ∈ value.valuesOf key →
      ((take r key part).IsClean ↔ p key part)) :
    (readRecord take o value).IsClean ↔ value.IsRecord p := by
  cases value with
  | obj members =>
    have hmembers : (readMembers take o members).IsClean ↔
        ∀ key part, (key, part) ∈ members → p key part :=
      isClean_readMembers_of_iff fun r key part hm => h r key part (Json.mem_valuesOf.mpr hm)
    refine hmembers.trans ⟨fun hp => ⟨members, rfl, hp⟩, ?_⟩
    rintro ⟨_, ⟨⟩, hp⟩
    exact hp
  | _ =>
    refine iff_of_false (Noted.not_isClean_refused _ _) ?_
    rintro ⟨_, h, -⟩
    cases h

theorem isClean_readRecords_iff {index : Nat} (h : ∀ item ∈ items, ∀ r key part,
      part ∈ item.valuesOf key → ((take r key part).IsClean ↔ p key part)) :
    (readItems (readRecord take o) index items).IsClean ↔ ∀ item ∈ items, item.IsRecord p :=
  isClean_readItems_iff.trans (forall₂_congr fun item hm => isClean_readRecord_iff (h item hm))

/-- What is asked of the values under one key can be asked apart. -/
theorem Json.isRecord_and_iff {own : String} {q : Json → Prop} :
    value.IsRecord (fun key part => p key part ∧ (key = own → q part)) ↔
      value.IsRecord p ∧ ∀ part ∈ value.valuesOf own, q part := by
  constructor
  · rintro ⟨members, rfl, h⟩
    refine ⟨⟨members, rfl, fun key part hm => (h key part hm).1⟩, fun part hpart => ?_⟩
    exact (h own part (mem_valuesOf.mp hpart)).2 rfl
  · rintro ⟨⟨members, rfl, hp⟩, hq⟩
    refine ⟨members, rfl, fun key part hm => ⟨hp key part hm, ?_⟩⟩
    rintro rfl
    exact hq part (mem_valuesOf.mpr hm)

end Clean

namespace Json

/-! The kinds of values that are read. -/

def IsText (value : Json) : Prop := ∃ s, value = .str s

def IsNumber (value : Json) : Prop := ∃ n, value = .num n

def IsTruth (value : Json) : Prop := ∃ b, value = .bool b

variable {value : Json} {key : String} {members : List (String × Json)}

theorem expectString_eq_ok_iff {text : String} :
    value.expectString = .ok text ↔ value = .str text := by
  cases value <;> simp [expectString]

theorem expectBinary64_eq_ok_iff {x : Binary64} :
    value.expectBinary64 = .ok x ↔ ∃ number, value = .num number ∧ x = number.toBinary64 := by
  cases value <;> simp [expectBinary64, eq_comm]

theorem succeeds_expectString_iff : Succeeds value.expectString ↔ value.IsText :=
  exists_congr fun _ => expectString_eq_ok_iff

theorem succeeds_expectBinary64_iff : Succeeds value.expectBinary64 ↔ value.IsNumber := by
  cases value <;> simp [expectBinary64, IsNumber]

theorem succeeds_expectBool_iff : Succeeds value.expectBool ↔ value.IsTruth := by
  cases value <;> simp [expectBool, IsTruth]

theorem expectArray_eq_ok_iff {items : List Json} :
    value.expectArray = .ok items ↔ value = .arr items := by
  cases value <;> simp [expectArray]

theorem expectObject_eq_ok_iff : value.expectObject = .ok members ↔ value = .obj members := by
  cases value <;> simp [expectObject]

theorem succeeds_optionalString_iff : Succeeds (optionalString members key) ↔
    ∀ value, members.lookup key = some value → value.IsText := by
  unfold optionalString
  cases members.lookup key with
  | none => exact iff_of_true (succeeds_ok none) nofun
  | some value =>
    rw [succeeds_map_iff, succeeds_expectString_iff]
    exact ⟨fun h _ heq => Option.some.inj heq ▸ h, fun h => h value rfl⟩

end Json
end DeviceTwin
