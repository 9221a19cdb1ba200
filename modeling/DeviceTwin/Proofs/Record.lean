import DeviceTwin.Record

/-!
What readers of records and arrays look at and find. A member is taken at the record that the
members before it have left, and every violation has its origin in one of the members.
-/
namespace DeviceTwin

variable {ρ σ α : Type} {o r : ρ} {key : String} {value : Json} {v : Violation}
  {members : List (String × Json)} {items : List Json}

def Noted.violations (n : Noted α) : List Violation := n.findings.map (·.violation)

/-- What was found inside of a member, and its refusal last. -/
def Taken.violations (t : Taken ρ) : List Violation :=
  t.findings.map (·.violation) ++ t.refusal.toList

@[simp] theorem Noted.violations_mk (x : α) (findings : List Finding) :
    (Noted.mk x findings).violations = findings.map (·.violation) := rfl

@[simp] theorem Noted.violations_map (f : α → σ) (n : Noted α) :
    (n.map f).violations = n.violations := rfl

@[simp] theorem Noted.violations_within (segment : String) (n : Noted α) :
    (n.within segment).violations = n.violations := by
  simp [Noted.within, Noted.violations, Finding.within, Function.comp_def]

@[simp] theorem Noted.violations_refused (x : α) (v : Violation) :
    (Noted.refused x v).violations = [v] := rfl

@[simp] theorem Taken.violations_refused (o : ρ) (v : Violation) :
    (Taken.refused o v).violations = [v] := rfl

@[simp] theorem Taken.violations_findingsUnder (key : String) (t : Taken ρ) :
    (t.findingsUnder key).map (·.violation) = t.violations := by
  simp [Taken.findingsUnder, Taken.violations, Finding.within, Function.comp_def]

theorem Taken.mem_violations_ofExcept {x : Except Violation ρ} :
    v ∈ (Taken.ofExcept o x).violations ↔ x = .error v := by
  cases x <;> simp [Taken.ofExcept, Taken.violations, eq_comm]

theorem Taken.mem_violations_store {n : Noted α} {put : α → Except Violation ρ} :
    v ∈ (Taken.store o n put).violations ↔ v ∈ n.violations ∨ put n.value = .error v := by
  cases h : put n.value <;>
    simp [Taken.store, Taken.ofExcept, Taken.violations, Noted.violations, h, eq_comm]

theorem Noted.mem_violations_append {x : ρ} {a : Noted α} {b : Noted σ} :
    v ∈ (Noted.mk x (a.findings ++ b.findings)).violations ↔
      v ∈ a.violations ∨ v ∈ b.violations := by
  simp [Noted.violations]

/-- `Visits take o members r key value`: on the way through `members` from `o`, the member with
this key and value is taken at `r`. -/
inductive Visits (take : ρ → String → Json → Taken ρ) :
    ρ → List (String × Json) → ρ → String → Json → Prop
  | here {o key value rest} : Visits take o ((key, value) :: rest) o key value
  | later {o key value rest r key' value'} :
      Visits take (take o key value).record rest r key' value' →
      Visits take o ((key, value) :: rest) r key' value'

variable {take take' : ρ → String → Json → Taken ρ}

theorem Visits.mem (h : Visits take o members r key value) : (key, value) ∈ members := by
  induction h with
  | here => exact List.mem_cons_self
  | later _ ih => exact List.mem_cons_of_mem _ ih

theorem exists_visits_of_mem (h : (key, value) ∈ members) :
    ∃ r, Visits take o members r key value := by
  induction members generalizing o with
  | nil => simp at h
  | cons entry rest ih =>
    obtain ⟨k, w⟩ := entry
    rcases List.mem_cons.mp h with heq | hrest
    · cases heq
      exact ⟨o, .here⟩
    · obtain ⟨r, hr⟩ := ih (o := (take o k w).record) hrest
      exact ⟨r, .later hr⟩

theorem visits_cons_iff {k : String} {w : Json} :
    Visits take o ((k, w) :: members) r key value ↔
      (r = o ∧ key = k ∧ value = w) ∨ Visits take (take o k w).record members r key value := by
  constructor
  · intro h
    cases h with
    | here => exact Or.inl ⟨rfl, rfl, rfl⟩
    | later h => exact Or.inr h
  · rintro (⟨rfl, rfl, rfl⟩ | h)
    · exact .here
    · exact .later h

theorem not_visits_nil : ¬ Visits take o [] r key value := nofun

/-- Two ways of taking members that agree on every visited member read the same. -/
theorem readMembers_congr
    (h : ∀ r key value, Visits take o members r key value → take' r key value = take r key value) :
    readMembers take' o members = readMembers take o members := by
  induction members generalizing o with
  | nil => rfl
  | cons entry rest ih =>
    obtain ⟨key, value⟩ := entry
    have hhead := h o key value .here
    have htail := ih (o := (take o key value).record)
      fun r key' value' hv => h r key' value' (.later hv)
    simp only [readMembers, hhead, htail]

theorem visits_congr
    (h : ∀ r key value, Visits take o members r key value → take' r key value = take r key value) :
    Visits take' o members r key value ↔ Visits take o members r key value := by
  induction members generalizing o with
  | nil => simp [not_visits_nil]
  | cons entry rest ih =>
    obtain ⟨k, w⟩ := entry
    have htail := ih (o := (take o k w).record)
      fun r key' value' hv => h r key' value' (.later hv)
    rw [visits_cons_iff, visits_cons_iff, h o k w .here, htail]

theorem mem_violations_readMembers :
    v ∈ (readMembers take o members).violations ↔
      ∃ r key value, Visits take o members r key value ∧ v ∈ (take r key value).violations := by
  induction members generalizing o with
  | nil => simp [readMembers, not_visits_nil]
  | cons entry rest ih =>
    obtain ⟨k, w⟩ := entry
    have htail : v ∈ (readMembers take o ((k, w) :: rest)).violations ↔
        v ∈ (take o k w).violations ∨
          v ∈ (readMembers take (take o k w).record rest).violations := by
      simp only [readMembers, Noted.violations, List.map_append,
        Taken.violations_findingsUnder, List.mem_append]
    rw [htail, ih]
    constructor
    · rintro (hv | ⟨r, key, value, hr, hv⟩)
      · exact ⟨o, k, w, .here, hv⟩
      · exact ⟨r, key, value, .later hr, hv⟩
    · rintro ⟨r, key, value, hr, hv⟩
      rcases visits_cons_iff.mp hr with ⟨rfl, rfl, rfl⟩ | hr
      · exact Or.inl hv
      · exact Or.inr ⟨r, key, value, hr, hv⟩

theorem value_readMembers_append {later : List (String × Json)} :
    (readMembers take o (members ++ later)).value =
      (readMembers take (readMembers take o members).value later).value := by
  induction members generalizing o with
  | nil => rfl
  | cons entry rest ih => exact ih

/-- Two records that stay related while the same things are found in every member. -/
theorem readMembers_related {R : ρ → σ → Prop} {take : ρ → String → Json → Taken ρ}
    {take' : σ → String → Json → Taken σ} {s : σ}
    (h : ∀ r s key value, (key, value) ∈ members → R r s →
      R (take r key value).record (take' s key value).record ∧
        (take' s key value).findingsUnder key = (take r key value).findingsUnder key)
    (ho : R o s) :
    R (readMembers take o members).value (readMembers take' s members).value ∧
      (readMembers take' s members).findings = (readMembers take o members).findings := by
  induction members generalizing o s with
  | nil => exact ⟨ho, rfl⟩
  | cons entry rest ih =>
    obtain ⟨key, value⟩ := entry
    obtain ⟨hrecord, hfindings⟩ := h o s key value List.mem_cons_self ho
    have hrest := fun r s key value hm => h r s key value (List.mem_cons_of_mem _ hm)
    obtain ⟨hvalue, hlater⟩ := ih hrest hrecord
    exact ⟨hvalue, by simp only [readMembers, hfindings, hlater]⟩

/-- What every member preserves, at the record where it is taken, holds at the end. -/
theorem readMembers_invariant {p : ρ → Prop}
    (h : ∀ r key value, Visits take o members r key value → p r → p (take r key value).record)
    (ho : p o) : p (readMembers take o members).value := by
  induction members generalizing o with
  | nil => exact ho
  | cons entry rest ih =>
    obtain ⟨key, value⟩ := entry
    apply ih (o := (take o key value).record)
    · intro r key' value' hv hr
      exact h r key' value' (.later hv) hr
    · exact h o key value .here ho

variable {read read' : Json → Noted (Option α)} {index : Nat}

theorem readItems_congr (h : ∀ item ∈ items, read' item = read item) :
    readItems read' index items = readItems read index items := by
  induction items generalizing index with
  | nil => rfl
  | cons item rest ih =>
    have hhead := h item List.mem_cons_self
    have htail : readItems read' (index + 1) rest = readItems read (index + 1) rest :=
      ih fun item' hm => h item' (List.mem_cons_of_mem _ hm)
    simp only [readItems, hhead, htail]

theorem mem_violations_readItems :
    v ∈ (readItems read index items).violations ↔
      ∃ item ∈ items, v ∈ (read item).violations := by
  induction items generalizing index with
  | nil => simp [readItems]
  | cons item rest ih =>
    have hsplit : v ∈ (readItems read index (item :: rest)).violations ↔
        v ∈ (read item).violations ∨ v ∈ (readItems read (index + 1) rest).violations := by
      rw [← Noted.violations_within (toString index) (read item)]
      simp only [readItems, Noted.violations, List.map_append, List.mem_append]
    simp only [hsplit, ih, List.mem_cons, exists_eq_or_imp]

theorem mem_value_readItems {x : α} (h : x ∈ (readItems read index items).value) :
    ∃ item ∈ items, (read item).value = some x := by
  induction items generalizing index with
  | nil => simp [readItems] at h
  | cons item rest ih =>
    simp only [readItems, List.mem_append, Option.mem_toList] at h
    rcases h with h | h
    · exact ⟨item, List.mem_cons_self, h⟩
    · obtain ⟨item', hm, hv⟩ := ih h
      exact ⟨item', List.mem_cons_of_mem _ hm, hv⟩

/-- The values that an object has under a key. -/
def Json.valuesOf (key : String) : Json → List Json
  | .obj members => (members.filter fun entry => entry.1 = key).map (·.2)
  | _ => []

theorem Json.mem_valuesOf {value : Json} :
    value ∈ valuesOf key (.obj members) ↔ (key, value) ∈ members := by
  simp [valuesOf]

theorem readRecord_congr (h : ∀ members, value = .obj members →
      ∀ key' value', (key', value') ∈ members →
        ∀ r, take' r key' value' = take r key' value') :
    readRecord take' o value = readRecord take o value := by
  cases value with
  | obj members =>
    have heq := readMembers_congr (o := o) fun r key' value' hv =>
      h members rfl key' value' hv.mem r
    simp only [readRecord, Json.expectObject, heq]
  | _ => rfl

/-- Two computations in a row have a result if the first one has and the second one has it. -/
theorem bind_eq_ok_iff {ε α β : Type} {x : Except ε α} {f : α → Except ε β} {b : β} :
    x >>= f = .ok b ↔ ∃ a, x = .ok a ∧ f a = .ok b := by
  cases x with
  | error e => exact ⟨nofun, nofun⟩
  | ok a =>
    refine ⟨fun h => ⟨a, rfl, h⟩, ?_⟩
    rintro ⟨_, ⟨⟩, h⟩
    exact h

/-- A computation whose result, if there is one, satisfies `p`. -/
def Yields {ε α : Type} (p : α → Prop) (x : Except ε α) : Prop := ∀ a, x = .ok a → p a

section Yields

variable {ε α β : Type} {p : β → Prop} {x : Except ε α}

theorem yields_ok {b : β} (h : p b) : Yields p (.ok b : Except ε β) := by
  rintro _ ⟨⟩
  exact h

theorem yields_error (e : ε) : Yields p (.error e) := nofun

theorem Yields.map {f : α → β} (h : ∀ a, p (f a)) : Yields p (x.map f) := by
  cases x with
  | error e => exact yields_error e
  | ok a => exact yields_ok (h a)

theorem Yields.bind {f : α → Except ε β} (h : ∀ a, Yields p (f a)) : Yields p (x.bind f) := by
  cases x with
  | error e => exact yields_error e
  | ok a => exact h a

theorem yields_map_iff {f : α → β} : Yields p (x.map f) ↔ Yields (fun a => p (f a)) x := by
  cases x with
  | error e => exact iff_of_true (yields_error e) (yields_error e)
  | ok a => exact ⟨fun h => yields_ok (h _ rfl), fun h => yields_ok (h a rfl)⟩

/-- What a computation yields is all that is known to what follows. -/
theorem Yields.andThen {q : α → Prop} {f : α → Except ε β} (hx : Yields q x)
    (h : ∀ a, q a → Yields p (f a)) : Yields p (x.bind f) := by
  intro b hb
  obtain ⟨a, ha, hf⟩ := bind_eq_ok_iff.mp hb
  exact h a (hx a ha) b hf

theorem Taken.record_ofExcept {ρ : Type} {p : ρ → Prop} {o : ρ} {x : Except Violation ρ}
    (ho : p o) (hx : Yields p x) : p (Taken.ofExcept o x).record := by
  cases x with
  | error v => exact ho
  | ok r => exact hx r rfl

theorem Taken.record_store {ρ : Type} {p : ρ → Prop} {o : ρ} {n : Noted α}
    {put : α → Except Violation ρ} (ho : p o) (hput : Yields p (put n.value)) :
    p (Taken.store o n put).record :=
  Taken.record_ofExcept ho hput

end Yields

end DeviceTwin
