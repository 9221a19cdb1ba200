import DeviceTwin.Proofs.Json.DistinctKeys
import DeviceTwin.Proofs.Record

/-!
Records whose members can be given in any order. Different members of such a record change different
parts of it, and what is found in a member does not depend on the record.
-/
namespace DeviceTwin

variable {α β ρ σ : Type} {o r : ρ} {key key' own : String} {value value' : Json}
  {members members' : List (String × Json)} {take take' : ρ → String → Json → Taken ρ}

section Matching

/-- The same value, and the same findings in some order. -/
structure Noted.Matches (n n' : Noted α) : Prop where
  value_eq : n'.value = n.value
  findings : n'.findings.Perm n.findings

/-- The same record and refusal, and the same findings in some order. -/
structure Taken.Matches (t t' : Taken ρ) : Prop where
  record_eq : t'.record = t.record
  findings : t'.findings.Perm t.findings
  refusal_eq : t'.refusal = t.refusal

theorem Noted.Matches.refl (n : Noted α) : n.Matches n := ⟨rfl, .refl _⟩

theorem Taken.Matches.refl (t : Taken ρ) : t.Matches t := ⟨rfl, .refl _, rfl⟩

theorem Noted.Matches.trans {n n' n'' : Noted α} (h : n.Matches n') (h' : n'.Matches n'') :
    n.Matches n'' :=
  ⟨h'.value_eq.trans h.value_eq, h'.findings.trans h.findings⟩

theorem Noted.Matches.map {n n' : Noted α} (h : n.Matches n') (f : α → β) :
    (n.map f).Matches (n'.map f) :=
  ⟨congrArg f h.value_eq, h.findings⟩

theorem Noted.Matches.within {n n' : Noted α} (h : n.Matches n') (segment : String) :
    (n.within segment).Matches (n'.within segment) :=
  ⟨h.value_eq, h.findings.map _⟩

theorem Taken.Matches.findingsUnder {t t' : Taken ρ} (h : t.Matches t') (key : String) :
    (t'.findingsUnder key).Perm (t.findingsUnder key) := by
  rw [Taken.findingsUnder, h.refusal_eq]
  exact (h.findings.append_right _).map _

theorem Taken.Matches.store {n n' : Noted α} (h : n.Matches n')
    (put : α → Except Violation ρ) : (Taken.store r n put).Matches (Taken.store r n' put) := by
  unfold Taken.store
  rw [h.value_eq]
  exact ⟨rfl, h.findings, rfl⟩

end Matching

section Parts

/-- What a member does to a part of a record. Only the member under the part's own key changes
it. -/
def changeAt (own key : String) (f : α → α) (x : α) : α := if key = own then f x else x

@[simp] theorem changeAt_self (f : α → α) (x : α) : changeAt own own f x = f x := if_pos rfl

theorem changeAt_of_ne (h : key ≠ own) (f : α → α) (x : α) : changeAt own key f x = x := if_neg h

/-- What was read, or else what was there before. -/
def readOr (read : Except Violation α) (x : α) : α :=
  match read with
  | .ok a => a
  | .error _ => x

/-- Members with different keys do not both change a part. -/
theorem changeAt_comm (h : key ≠ key') (f g : α → α) (x : α) :
    changeAt own key' g (changeAt own key f x) = changeAt own key f (changeAt own key' g x) := by
  by_cases hkey : key = own
  · have hne : key' ≠ own := fun heq => h (hkey.trans heq.symm)
    rw [changeAt_of_ne hne, changeAt_of_ne hne]
  · rw [changeAt_of_ne hkey, changeAt_of_ne hkey]

/-- A part of the record that was read from members with distinct keys depends on the member under
its own key only. -/
theorem readMembers_part (part : ρ → β) {f : Json → β → β}
    (hpart : ∀ r key value, part (take r key value).record = changeAt own key (f value) (part r))
    (hkeys : (Json.keys members).Nodup) :
    part (readMembers take o members).value =
      match members.lookup own with
      | none => part o
      | some value => f value (part o) := by
  induction members generalizing o with
  | nil => rfl
  | cons member rest ih =>
    obtain ⟨key, value⟩ := member
    obtain ⟨hnot, hrest⟩ := List.nodup_cons.mp hkeys
    rw [readMembers, ih hrest, hpart, List.lookup_cons]
    by_cases hkey : key = own
    · subst hkey
      have hnone : rest.lookup key = none := by
        cases hlookup : rest.lookup key with
        | none => rfl
        | some later => exact absurd (mem_keys (mem_of_lookup hlookup)) hnot
      simp only [hnone, beq_self_eq_true, changeAt_self]
    · simp only [changeAt_of_ne hkey, beq_false_of_ne (Ne.symm hkey)]

end Parts

/-- The members of the record can be taken in any order. -/
structure OrderFree (take : ρ → String → Json → Taken ρ) : Prop where
  findings_eq : ∀ r s key value, (take s key value).findings = (take r key value).findings
  refusal_eq : ∀ r s key value, (take s key value).refusal = (take r key value).refusal
  record_comm : ∀ r key key' value value', key ≠ key' →
    (take (take r key value).record key' value').record =
      (take (take r key' value').record key value).record

theorem OrderFree.findingsUnder_eq (h : OrderFree take) (r s : ρ) (key : String) (value : Json) :
    (take s key value).findingsUnder key = (take r key value).findingsUnder key := by
  rw [Taken.findingsUnder, h.findings_eq r s, h.refusal_eq r s, Taken.findingsUnder]

@[simp] theorem Taken.findings_ofExcept (x : Except Violation ρ) :
    (Taken.ofExcept o x).findings = [] := by
  cases x <;> rfl

/-- Why a value is refused does not depend on what would be done with it. -/
theorem Taken.refusal_ofExcept_map (x : Except Violation α) (f g : α → ρ) :
    (Taken.ofExcept r (x.map g)).refusal = (Taken.ofExcept o (x.map f)).refusal := by
  cases x <;> rfl

section Commuting

variable {member member' : String × Json} {front rest : List (String × Json)}

/-- Two members of which neither affects what is found in the other. They leave the same record,
whichever of them is taken first. -/
structure Commutes (take : ρ → String → Json → Taken ρ) (member member' : String × Json) :
    Prop where
  findings_eq : ∀ r,
    (take (take r member'.1 member'.2).record member.1 member.2).findingsUnder member.1 =
      (take r member.1 member.2).findingsUnder member.1
  findings_eq' : ∀ r,
    (take (take r member.1 member.2).record member'.1 member'.2).findingsUnder member'.1 =
      (take r member'.1 member'.2).findingsUnder member'.1
  record_eq : ∀ r, (take (take r member.1 member.2).record member'.1 member'.2).record =
    (take (take r member'.1 member'.2).record member.1 member.2).record

theorem Commutes.symm (h : Commutes take member member') : Commutes take member' member :=
  ⟨h.findings_eq', h.findings_eq, fun r => (h.record_eq r).symm⟩

theorem OrderFree.commutes (h : OrderFree take) (hne : key ≠ key') :
    Commutes take (key, value) (key', value') where
  findings_eq r := h.findingsUnder_eq r _ key value
  findings_eq' r := h.findingsUnder_eq r _ key' value'
  record_eq r := h.record_comm r key key' value value' hne

theorem Noted.Matches.cons
    (h : (readMembers take (take o key value).record members).Matches
      (readMembers take (take o key value).record members')) :
    (readMembers take o ((key, value) :: members)).Matches
      (readMembers take o ((key, value) :: members')) :=
  ⟨h.value_eq, h.findings.append_left _⟩

theorem Commutes.readMembers_swap (h : Commutes take member member') :
    (readMembers take o (member :: member' :: rest)).Matches
      (readMembers take o (member' :: member :: rest)) := by
  simp only [readMembers, h.record_eq, h.findings_eq, h.findings_eq']
  refine ⟨rfl, ?_⟩
  simp only [← List.append_assoc]
  exact List.perm_append_comm.append_right _

/-- A member can be taken before those that it commutes with. -/
theorem readMembers_to_front (h : ∀ other ∈ front, Commutes take member other) :
    (readMembers take o (member :: front ++ rest)).Matches
      (readMembers take o (front ++ member :: rest)) := by
  induction front generalizing o with
  | nil => exact .refl _
  | cons first front ih =>
    have hswap : (readMembers take o (member :: first :: (front ++ rest))).Matches
        (readMembers take o (first :: member :: (front ++ rest))) :=
      (h first List.mem_cons_self).readMembers_swap
    exact hswap.trans (.cons (ih fun other hm => h other (List.mem_cons_of_mem _ hm)))

/-- Before the first of the members that `p` picks, there are none of them. -/
theorem filter_front {p : String × Json → Bool} (hp : p member)
    (hfilter : (member :: members).filter p = (front ++ member :: rest).filter p)
    (hnot : member ∉ front) : front.filter p = [] := by
  rw [List.filter_cons_of_pos hp, List.filter_append, List.filter_cons_of_pos hp] at hfilter
  cases hfront : front.filter p with
  | nil => rfl
  | cons first others =>
    rw [hfront, List.cons_append] at hfilter
    have hfirst : first ∈ front.filter p := hfront ▸ List.mem_cons_self
    exact absurd ((List.cons.inj hfilter).1 ▸ (List.mem_filter.mp hfirst).1) hnot

/-- Members read the same in another order if those that `p` picks remain in order, and all others
commute with every member. -/
theorem readMembers_matches_of_filter (p : String × Json → Bool)
    (hkeys : (Json.keys members).Nodup) (hperm : members.Perm members')
    (hfilter : members.filter p = members'.filter p)
    (h : ∀ member ∈ members, ∀ other ∈ members, member.1 ≠ other.1 →
      ¬ (p member ∧ p other) → Commutes take member other) :
    (readMembers take o members).Matches (readMembers take o members') := by
  induction members generalizing o members' with
  | nil =>
    obtain rfl := hperm.nil_eq
    exact .refl _
  | cons member members ih =>
    -- The first member comes to the front of the other order, past members it commutes with.
    obtain ⟨front, rest, rfl⟩ := List.append_of_mem (hperm.mem_iff.mp List.mem_cons_self)
    have hlater : members.Perm (front ++ rest) := (hperm.trans List.perm_middle).cons_inv
    obtain ⟨hnot, hrest⟩ := List.nodup_cons.mp hkeys
    have hmem (other) (hm : other ∈ front) : other ∈ members :=
      hlater.mem_iff.mpr (List.mem_append_left _ hm)
    have hpicked (hp : p member) : front.filter p = [] :=
      filter_front hp hfilter fun hm => hnot (mem_keys (hmem _ hm))
    have hfront (other) (hm : other ∈ front) : Commutes take member other := by
      refine h member List.mem_cons_self other (List.mem_cons_of_mem _ (hmem _ hm)) ?_ ?_
      · exact fun heq => hnot (List.mem_map.mpr ⟨other, hmem other hm, heq.symm⟩)
      · exact fun hboth => List.filter_eq_nil_iff.mp (hpicked hboth.1) other hm hboth.2
    have hkept : members.filter p = (front ++ rest).filter p := by
      rw [List.filter_append] at hfilter ⊢
      cases hp : p member with
      | true =>
        rw [List.filter_cons_of_pos hp, List.filter_cons_of_pos hp, hpicked hp] at hfilter
        rw [hpicked hp]
        exact (List.cons.inj hfilter).2
      | false =>
        rwa [List.filter_cons_of_neg (by simp [hp]), List.filter_cons_of_neg (by simp [hp])]
          at hfilter
    have hrecord : (readMembers take o (member :: members)).Matches
        (readMembers take o (member :: front ++ rest)) :=
      .cons (ih hrest hlater hkept fun other hm later hm' =>
        h other (List.mem_cons_of_mem _ hm) later (List.mem_cons_of_mem _ hm'))
    exact hrecord.trans (readMembers_to_front hfront)

/-- Members with distinct keys read the same in every order. -/
theorem OrderFree.readMembers_matches (h : OrderFree take) (hkeys : (Json.keys members).Nodup)
    (hperm : members.Perm members') :
    (readMembers take o members).Matches (readMembers take o members') := by
  have hnone (l : List (String × Json)) : l.filter (fun _ => false) = [] :=
    List.filter_eq_nil_iff.mpr nofun
  refine readMembers_matches_of_filter (fun _ => false) hkeys hperm ?_ ?_
  · rw [hnone, hnone]
  · exact fun _ _ _ _ hne _ => h.commutes hne

end Commuting

end DeviceTwin
