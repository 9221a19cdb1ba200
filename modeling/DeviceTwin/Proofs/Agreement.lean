import Mathlib.Data.List.Forall2
import DeviceTwin.Proofs.Variants

/-!
Two runs side by side. They fail alike or have related results, and they find the same at the same
places.
-/
namespace DeviceTwin

variable {ε α β α' β' ρ ρ' : Type} {R : α → α' → Prop} {S : β → β' → Prop} {T : ρ → ρ' → Prop}
  {r : ρ} {r' : ρ'}

/-- Both fail, with the same error, or both have results, which are related. -/
inductive Agree (R : α → α' → Prop) : Except ε α → Except ε α' → Prop
  | error (e : ε) : Agree R (.error e) (.error e)
  | ok {a a'} (h : R a a') : Agree R (.ok a) (.ok a')

namespace Agree

variable {x : Except ε α} {x' : Except ε α'}

theorem refl (x : Except ε α) : Agree Eq x x := by
  cases x with
  | error e => exact .error e
  | ok a => exact .ok rfl

theorem map {f : α → β} {f' : α' → β'} (h : Agree R x x') (hf : ∀ a a', R a a' → S (f a) (f' a')) :
    Agree S (x.map f) (x'.map f') := by
  cases h with
  | error e => exact .error e
  | ok h => exact .ok (hf _ _ h)

theorem bind {f : α → Except ε β} {f' : α' → Except ε β'} (h : Agree R x x')
    (hf : ∀ a a', R a a' → Agree S (f a) (f' a')) : Agree S (x.bind f) (x'.bind f') := by
  cases h with
  | error e => exact .error e
  | ok h => exact hf _ _ h

/-- What the two runs are, outcome by outcome. -/
theorem error_or_ok (h : Agree R x x') :
    (∃ e, x = .error e ∧ x' = .error e) ∨ ∃ a a', x = .ok a ∧ x' = .ok a' ∧ R a a' := by
  cases h with
  | error e => exact .inl ⟨e, rfl, rfl⟩
  | ok h => exact .inr ⟨_, _, rfl, rfl, h⟩

/-- Two runs that begin with the same computation. -/
theorem after (x : Except ε α) {f : α → Except ε β} {f' : α → Except ε β'}
    (hf : ∀ a, Agree S (f a) (f' a)) : Agree S (x.bind f) (x.bind f') :=
  (refl x).bind fun a _ h => h ▸ hf a

end Agree

/-- Related values, and the same findings. -/
structure Noted.Related (R : α → α' → Prop) (n : Noted α) (n' : Noted α') : Prop where
  value : R n.value n'.value
  findings_eq : n'.findings = n.findings

/-- Related records, and the same findings and refusal. -/
structure Taken.Related (T : ρ → ρ' → Prop) (t : Taken ρ) (t' : Taken ρ') : Prop where
  record : T t.record t'.record
  findings_eq : t'.findings = t.findings
  refusal_eq : t'.refusal = t.refusal

namespace Noted.Related

variable {n : Noted α} {n' : Noted α'}

theorem refl (n : Noted α) : n.Related Eq n := ⟨rfl, rfl⟩

theorem within (h : n.Related R n') (segment : String) :
    (n.within segment).Related R (n'.within segment) :=
  ⟨h.value, congrArg (List.map _) h.findings_eq⟩

/-- Lists of values follow one another. -/
theorem append {us vs : Noted (List α)} {us' vs' : Noted (List α')}
    (hus : us.Related (List.Forall₂ R) us') (hvs : vs.Related (List.Forall₂ R) vs') :
    (Noted.mk (us.value ++ vs.value) (us.findings ++ vs.findings)).Related (List.Forall₂ R)
      ⟨us'.value ++ vs'.value, us'.findings ++ vs'.findings⟩ :=
  ⟨List.rel_append hus.value hvs.value, congrArg₂ _ hus.findings_eq hvs.findings_eq⟩

end Noted.Related

namespace Taken.Related

theorem refused (hr : T r r') (violation : Violation) :
    (Taken.refused r violation).Related T (.refused r' violation) := ⟨hr, rfl, rfl⟩

theorem ofExcept {x : Except Violation ρ} {x' : Except Violation ρ'} (hr : T r r')
    (hx : Agree T x x') : (Taken.ofExcept r x).Related T (.ofExcept r' x') := by
  cases hx with
  | error v => exact ⟨hr, rfl, rfl⟩
  | ok h => exact ⟨h, rfl, rfl⟩

theorem store {n : Noted α} {n' : Noted α'} {put : α → Except Violation ρ}
    {put' : α' → Except Violation ρ'} (hr : T r r') (hn : n.Related R n')
    (hput : ∀ a a', R a a' → Agree T (put a) (put' a')) :
    (Taken.store r n put).Related T (.store r' n' put') :=
  have h := ofExcept hr (hput _ _ hn.value)
  ⟨h.record, hn.findings_eq, h.refusal_eq⟩

theorem findingsUnder_eq {t : Taken ρ} {t' : Taken ρ'} (h : t.Related T t') (key : String) :
    t'.findingsUnder key = t.findingsUnder key := by
  simp only [findingsUnder, h.findings_eq, h.refusal_eq]

end Taken.Related

section Variants

variable {read : Json → Noted (List α)} {read' : Json → Noted (List α')}
  {take : ρ → String → Json → Taken ρ} {take' : ρ' → String → Json → Taken ρ'}
  {extend : ρ → Noted (List α) → Taken ρ} {extend' : ρ' → Noted (List α') → Taken ρ'}
  {members : List (String × Json)} {variants : List Json} {key : String} {value : Json}

theorem related_readMembers
    (htake : ∀ r r' key value, (key, value) ∈ members → T r r' →
      (take r key value).Related T (take' r' key value)) (hr : T r r') :
    (readMembers take r members).Related T (readMembers take' r' members) := by
  have hmember := fun r r' key value hm h =>
    And.intro (htake r r' key value hm h).record ((htake r r' key value hm h).findingsUnder_eq key)
  obtain ⟨hvalue, hfindings⟩ := readMembers_related hmember hr
  exact ⟨hvalue, hfindings⟩

theorem related_readEach (position : Nat)
    (hread : ∀ variant ∈ variants, (read variant).Related (List.Forall₂ R) (read' variant)) :
    (readEach read position variants).Related (List.Forall₂ R)
      (readEach read' position variants) := by
  induction variants generalizing position with
  | nil => exact ⟨.nil, rfl⟩
  | cons variant rest ih =>
    have hfirst := (hread variant List.mem_cons_self).within (toString position)
    rw [readEach_cons, readEach_cons]
    exact hfirst.append (ih (position + 1) fun variant hm => hread variant (.tail _ hm))

/-- Two readers of objects with variants are related if they are in the members other than
variants. -/
theorem related_of_variants {initial : ρ} {initial' : ρ'}
    (finish : Noted ρ → Noted (List α)) (finish' : Noted ρ' → Noted (List α'))
    (hobj : ∀ members, read (.obj members) =
      finish (readMembers (takeOrExtend read take extend) initial members))
    (hobj' : ∀ members, read' (.obj members) =
      finish' (readMembers (takeOrExtend read' take' extend') initial' members))
    (hother : ∀ json, json.members? = none → (read json).Related (List.Forall₂ R) (read' json))
    (hinitial : T initial initial')
    (htake : ∀ r r' key value, T r r' → (take r key value).Related T (take' r' key value))
    (hextend : ∀ r r' n n', T r r' → Noted.Related (List.Forall₂ R) n n' →
      (extend r n).Related T (extend' r' n'))
    (hfinish : ∀ n n', Noted.Related T n n' →
      (finish n).Related (List.Forall₂ R) (finish' n')) (json : Json) :
    (read json).Related (List.Forall₂ R) (read' json) := by
  induction json using variants_induction with
  | step json ih =>
    cases json with
    | obj members =>
      rw [hobj, hobj']
      refine hfinish _ _ (related_readMembers (fun r r' key value hm hr => ?_) hinitial)
      by_cases hkey : key = "oneOf"
      · subst hkey
        cases value with
        | arr variants =>
          have hvariants := related_readEach 0 fun variant => ih members variants variant rfl hm
          exact hextend r r' _ _ hr hvariants
        | _ => exact .refused hr _
      · simp only [takeOrExtend, if_neg hkey]
        exact htake r r' key value hr
    | _ => exact hother _ rfl

end Variants

end DeviceTwin
