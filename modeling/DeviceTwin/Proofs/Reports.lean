import DeviceTwin.Proofs.Notes
import DeviceTwin.Proofs.Record
import DeviceTwin.Proofs.Variants

/-!
Nothing that is found gets lost. What is found in a part of a value is found in the value, at the
place of the part, however the reading goes on.
-/
namespace DeviceTwin

variable {ρ α : Type} {o r : ρ} {key : String} {value item : Json} {f : Finding} {v : Violation}
  {members : List (String × Json)} {items variants : List Json} {place inner : Pointer}
  {part whole outer : List Finding} {take : ρ → String → Json → Taken ρ}

/-- Everything found in a part at this place is found in the whole. -/
def Keeps (place : Pointer) (part whole : List Finding) : Prop :=
  ∀ f ∈ part, f.beneath place ∈ whole

theorem keeps_refl (findings : List Finding) : Keeps [] findings findings := fun _ hf => hf

theorem Keeps.trans (h : Keeps inner part whole) (h' : Keeps place whole outer) :
    Keeps (place ++ inner) part outer := by
  intro f hf
  have heq : f.beneath (place ++ inner) = (f.beneath inner).beneath place := by
    simp [Finding.beneath]
  rw [heq]
  exact h' _ (h f hf)

theorem Keeps.subset (h : Keeps place part whole) (hsub : whole ⊆ outer) :
    Keeps place part outer := fun f hf => hsub (h f hf)

/-- A violation of the part is one of the whole. -/
theorem Keeps.violation (h : Keeps place part whole) (hv : v ∈ part.map (·.violation)) :
    v ∈ whole.map (·.violation) := by
  obtain ⟨f, hf, rfl⟩ := List.mem_map.mp hv
  exact List.mem_map.mpr ⟨_, h f hf, rfl⟩

theorem findingsUnder_subset_readMembers (hv : Visits take o members r key value) :
    (take r key value).findingsUnder key ⊆ (readMembers take o members).findings := by
  induction hv with
  | here => exact List.subset_append_left _ _
  | later _ ih => exact List.Subset.trans ih (List.subset_append_right _ _)

theorem keeps_readMembers (hv : Visits take o members r key value) :
    Keeps [key] (take r key value).findings (readMembers take o members).findings := by
  intro f hf
  apply findingsUnder_subset_readMembers hv
  exact List.mem_map_of_mem (List.mem_append_left _ hf)

/-- The refusal of a member is found at the member. -/
theorem refusal_mem_readMembers (hv : Visits take o members r key value)
    (h : (take r key value).refusal = some v) :
    ⟨[key], v⟩ ∈ (readMembers take o members).findings := by
  apply findingsUnder_subset_readMembers hv
  have hmem : (⟨[], v⟩ : Finding) ∈ (take r key value).refusal.toList.map (Finding.mk []) := by
    simp [h]
  exact List.mem_map_of_mem (List.mem_append_right _ hmem)

theorem keeps_readItems (read : Json → Noted (Option α)) {i : Nat} (hi : items[i]? = some item) :
    Keeps [toString i] (read item).findings (readItems read 0 items).findings := by
  -- The rest of the items is read from a later index on.
  have hfrom : ∀ index, Keeps [toString (index + i)] (read item).findings
      (readItems read index items).findings := by
    induction items generalizing i with
    | nil => simp at hi
    | cons first rest ih =>
      intro index
      cases i with
      | zero =>
        obtain rfl : first = item := by simpa using hi
        exact fun f hf => List.mem_append_left _ (List.mem_map_of_mem hf)
      | succ i =>
        have hrest := ih (i := i) (by simpa using hi) (index + 1)
        rw [show index + 1 + i = index + (i + 1) by omega] at hrest
        exact hrest.subset (List.subset_append_right _ _)
  simpa only [Nat.zero_add] using hfrom 0

theorem keeps_readRecord (hv : Visits take o members r key value) :
    Keeps [key] (take r key value).findings (readRecord take o (.obj members)).findings :=
  keeps_readMembers hv

/-- What a record among the items finds in a member is found in the items. -/
theorem keeps_readRecords {i : Nat} (hi : items[i]? = some (.obj members))
    (hv : Visits take o members r key value) :
    Keeps [toString i, key] (take r key value).findings
      (readItems (readRecord take o) 0 items).findings :=
  (keeps_readRecord hv).trans (keeps_readItems _ hi)

theorem keeps_store (n : Noted α) (put : α → Except Violation ρ) :
    Keeps [] n.findings (Taken.store o n put).findings := keeps_refl _

section Variants

/-- `VariantAt json place variant`: the object itself, or a variant of it, of any depth. -/
inductive VariantAt : Json → Pointer → Json → Prop
  | self {json} : VariantAt json [] json
  | variant {members variants variant place inner} {i : Nat}
      (hm : ("oneOf", .arr variants) ∈ members) (hi : variants[i]? = some variant)
      (h : VariantAt variant place inner) :
      VariantAt (.obj members) ("oneOf" :: toString i :: place) inner

variable {own : String → Json → Json → Prop} {json x variant : Json}
  {read : Json → Noted (List α)} {extend : ρ → Noted (List α) → Taken ρ}

theorem InVariants.exists_variantAt (h : InVariants own json x) :
    ∃ place members key value, VariantAt json place (.obj members) ∧ (key, value) ∈ members ∧
      own key value x := by
  induction h with
  | member hm h => exact ⟨[], _, _, _, .self, hm, h⟩
  | variant hm hv _ ih =>
    obtain ⟨i, hi⟩ := List.getElem?_of_mem hv
    obtain ⟨place, members, key, value, hvariant, hmember, hown⟩ := ih
    exact ⟨_, members, key, value, .variant hm hi hvariant, hmember, hown⟩

theorem keeps_takeOrExtend_variants {i : Nat} (hextend : ∀ r n, (extend r n).findings = n.findings)
    (hi : variants[i]? = some variant) :
    Keeps [toString i] (read variant).findings
      (takeOrExtend read take extend r "oneOf" (.arr variants)).findings := by
  simp only [takeOrExtend, if_true, hextend]
  exact keeps_readItems (fun variant => (read variant).map some) hi

/-- What is found in a variant is found in the whole object. -/
theorem VariantAt.keeps (take : ρ → String → Json → Taken ρ) (extend : ρ → Noted (List α) → Taken ρ)
    (o : ρ) (hextend : ∀ r n, (extend r n).findings = n.findings)
    (hobj : ∀ members, (readMembers (takeOrExtend read take extend) o members).findings ⊆
      (read (.obj members)).findings)
    (h : VariantAt json place variant) :
    Keeps place (read variant).findings (read json).findings := by
  induction h with
  | self => exact keeps_refl _
  | variant hm hi _ ih =>
    obtain ⟨r, hv⟩ : ∃ r, Visits (takeOrExtend read take extend) o _ r _ _ :=
      exists_visits_of_mem hm
    exact ((ih.trans (keeps_takeOrExtend_variants hextend hi)).trans (keeps_readMembers hv)).subset
      (hobj _)

end Variants

end DeviceTwin
