import DeviceTwin.Proofs.Json.Nesting
import DeviceTwin.Proofs.Limits

/-!
Objects with variants. Properties and devices are read alike, member by member, and an array under
"oneOf" holds further objects of the same form. What is known of the other members extends to the
whole.
-/
namespace DeviceTwin

/-- `InVariants own json x`: a member of the object, or of one of its variants, has `x`. -/
inductive InVariants (own : String → Json → Json → Prop) : Json → Json → Prop
  | member {members key value x} (hm : (key, value) ∈ members) (h : own key value x) :
      InVariants own (.obj members) x
  | variant {members variants variant x} (hm : ("oneOf", .arr variants) ∈ members)
      (hv : variant ∈ variants) (h : InVariants own variant x) : InVariants own (.obj members) x

variable {own : String → Json → Json → Prop} {json x value : Json} {key : String}
  {members : List (String × Json)} {v : Violation}

theorem InVariants.nesting_lt (hown : ∀ key value x, own key value x → x.nesting ≤ value.nesting)
    (h : InVariants own json x) : x.nesting < json.nesting := by
  induction h with
  | member hm h =>
    have := Json.nesting_lt_obj hm
    have := hown _ _ _ h
    omega
  | variant hm hv _ ih =>
    have := Json.nesting_lt_obj hm
    have := Json.nesting_lt_arr hv
    omega

/-- Induction over the variants of an object, which stand below it. -/
theorem variants_induction {P : Json → Prop}
    (step : ∀ json, (∀ members variants variant, json = .obj members →
      ("oneOf", .arr variants) ∈ members → variant ∈ variants → P variant) → P json)
    (json : Json) : P json := by
  induction hn : json.nesting using Nat.strongRecOn generalizing json with
  | ind n ih =>
    apply step
    rintro members variants variant rfl hm hv
    have := Json.nesting_lt_arr hv
    have := Json.nesting_lt_obj hm
    exact ih variant.nesting (by omega) variant rfl

section Reading

variable {α ρ : Type} {read read' : Json → Noted (List α)}
  {take take' : ρ → String → Json → Taken ρ} {extend : ρ → Noted (List α) → Taken ρ} {o r : ρ}

/-- Reads variants, of which the first stands at a position. -/
def readEach (read : Json → Noted (List α)) (position : Nat) (variants : List Json) :
    Noted (List α) :=
  (readItems (fun variant => (read variant).map some) position variants).map List.flatten

/-- Takes a member, or the variants. -/
def takeOrExtend (read : Json → Noted (List α)) (take : ρ → String → Json → Taken ρ)
    (extend : ρ → Noted (List α) → Taken ρ) (r : ρ) (key : String) (value : Json) : Taken ρ :=
  if key = "oneOf" then
    match value with
    | .arr variants => extend r (readEach read 0 variants)
    | other => .refused r (.unexpectedType "array" other.typeName)
  else take r key value

theorem readEach_cons {position : Nat} {variant : Json} {rest : List Json} :
    readEach read position (variant :: rest) =
      ⟨((read variant).within (toString position)).value ++
          (readEach read (position + 1) rest).value,
        ((read variant).within (toString position)).findings ++
          (readEach read (position + 1) rest).findings⟩ := rfl

theorem takeOrExtend_congr
    (hread : ∀ variants, key = "oneOf" → value = .arr variants → ∀ variant ∈ variants,
      read' variant = read variant)
    (htake : key ≠ "oneOf" → take' r key value = take r key value) :
    takeOrExtend read' take' extend r key value = takeOrExtend read take extend r key value := by
  by_cases hkey : key = "oneOf"
  · cases value with
    | arr variants =>
      have heach : readEach read' 0 variants = readEach read 0 variants := by
        rw [readEach, readEach, readItems_congr fun variant hv => by
          rw [hread variants hkey rfl variant hv]]
      simp only [takeOrExtend, hkey, if_true, heach]
    | _ => simp only [takeOrExtend, hkey, if_true]
  · simp only [takeOrExtend, if_neg hkey, htake hkey]

/-- Two readers are the same where they take the members other than variants in the same way. -/
theorem read_congr_of_variants (take take' : ρ → String → Json → Taken ρ)
    (extend : ρ → Noted (List α) → Taken ρ) (o : ρ) {same : Json → Prop}
    (hobj : ∀ members, readMembers (takeOrExtend read' take' extend) o members =
      readMembers (takeOrExtend read take extend) o members →
      read' (.obj members) = read (.obj members))
    (hother : ∀ json, json.members? = none → read' json = read json)
    (htake : ∀ r key value, (∀ x, own key value x → same x) →
      take' r key value = take r key value)
    (h : ∀ x, InVariants own json x → same x) : read' json = read json := by
  induction json using variants_induction with
  | step json ih =>
    cases json with
    | obj members =>
      apply hobj
      apply readMembers_congr
      intro r key value hvisit
      apply takeOrExtend_congr
      · rintro variants rfl rfl variant hv
        exact ih members variants variant rfl hvisit.mem hv fun x hx =>
          h x (.variant hvisit.mem hv hx)
      · exact fun _ => htake r key value fun x hx => h x (.member hvisit.mem hx)
    | _ => exact hother _ rfl

theorem mem_violations_takeOrExtend (hv : v.isLimit = true)
    (hextend : ∀ r n, v ∈ (extend r n).violations ↔ v ∈ n.violations) :
    v ∈ (takeOrExtend read take extend r key value).violations ↔
      (∃ variants, key = "oneOf" ∧ value = .arr variants ∧
        ∃ variant ∈ variants, v ∈ (read variant).violations) ∨
      (key ≠ "oneOf" ∧ v ∈ (take r key value).violations) := by
  by_cases hkey : key = "oneOf"
  · subst hkey
    cases value with
    | arr variants =>
      simp [takeOrExtend, hextend, readEach, mem_violations_readItems]
    | _ => exact iff_of_false (not_mem_violations_refused hv rfl) (by simp)
  · simp [takeOrExtend, hkey]

/-- A limit that is found has its origin in a member other than variants. -/
theorem mem_violations_of_variants (take : ρ → String → Json → Taken ρ)
    (extend : ρ → Noted (List α) → Taken ρ) (o : ρ) {found : Json → Prop} (hv : v.isLimit = true)
    (hextend : ∀ r n, v ∈ (extend r n).violations ↔ v ∈ n.violations)
    (hobj : ∀ members, v ∈ (read (.obj members)).violations ↔
      v ∈ (readMembers (takeOrExtend read take extend) o members).violations)
    (hother : ∀ json, json.members? = none → v ∉ (read json).violations)
    (hown : ∀ value x, ¬ own "oneOf" value x)
    (htake : ∀ r key value, v ∈ (take r key value).violations ↔ ∃ x, own key value x ∧ found x) :
    v ∈ (read json).violations ↔ ∃ x, InVariants own json x ∧ found x := by
  induction json using variants_induction with
  | step json ih =>
    cases json with
    | obj members =>
      rw [hobj, mem_violations_readMembers]
      constructor
      · rintro ⟨r, key, value, hvisit, h⟩
        rcases (mem_violations_takeOrExtend hv hextend).mp h with
          ⟨variants, rfl, rfl, variant, hm, h⟩ | ⟨_, h⟩
        · obtain ⟨x, hx, hfound⟩ := (ih members variants variant rfl hvisit.mem hm).mp h
          exact ⟨x, .variant hvisit.mem hm hx, hfound⟩
        · obtain ⟨x, hx, hfound⟩ := (htake r key value).mp h
          exact ⟨x, .member hvisit.mem hx, hfound⟩
      · rintro ⟨x, hx, hfound⟩
        cases hx with
        | @member _ key value _ hm hx =>
          -- It is taken at some record, and what is found does not depend on which.
          obtain ⟨r, hvisit⟩ := exists_visits_of_mem hm
          have hkey : key ≠ "oneOf" := by
            rintro rfl
            exact hown value x hx
          exact ⟨r, key, value, hvisit, (mem_violations_takeOrExtend hv hextend).mpr
            (Or.inr ⟨hkey, (htake r key value).mpr ⟨x, hx, hfound⟩⟩)⟩
        | @variant _ variants variant _ hm hmem hx =>
          obtain ⟨r, hvisit⟩ := exists_visits_of_mem hm
          have hread := (ih members variants variant rfl hm hmem).mpr ⟨x, hx, hfound⟩
          exact ⟨r, "oneOf", .arr variants, hvisit, (mem_violations_takeOrExtend hv hextend).mpr
            (Or.inl ⟨variants, rfl, rfl, variant, hmem, hread⟩)⟩
    | _ => exact iff_of_false (hother _ rfl) (by rintro ⟨_, ⟨⟩, _⟩)

end Reading

end DeviceTwin
