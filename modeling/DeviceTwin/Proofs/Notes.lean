import DeviceTwin.Record

/-!
Findings with their places. What is found while an object or an array is read stands under the key
or the index of a part, and readings of lists follow one another.
-/
namespace DeviceTwin

variable {α ρ : Type} {take : ρ → String → Json → Taken ρ} {o : ρ} {items : List Json}
  {members : List (String × Json)}

/-- The same finding, seen from a value that holds this one at `place`. -/
def Finding.beneath (place : Pointer) (finding : Finding) : Finding :=
  { finding with pointer := place ++ finding.pointer }

/-- Findings made inside of a value that stands at `place`. -/
def Noted.beneath (place : Pointer) (n : Noted α) : Noted α :=
  ⟨n.value, n.findings.map (·.beneath place)⟩

@[simp] theorem Noted.beneath_nil (n : Noted α) : n.beneath [] = n := by
  simp [Noted.beneath, Finding.beneath]

theorem Noted.within_beneath (segment : String) (place : Pointer) (n : Noted α) :
    (n.beneath place).within segment = n.beneath (segment :: place) := by
  simp [Noted.beneath, Noted.within, Finding.beneath, Finding.within, Function.comp_def]

/-- What is found in members stands at their keys or below. -/
theorem pointers_readMembers {P : Pointer → Prop} (hkey : ∀ key ∈ members.map (·.1), P [key])
    (h : ∀ r key value, (key, value) ∈ members → ∀ f ∈ (take r key value).findings,
      P (key :: f.pointer)) :
    ∀ f ∈ (readMembers take o members).findings, P f.pointer := by
  induction members generalizing o with
  | nil => exact nofun
  | cons member rest ih =>
    obtain ⟨key, value⟩ := member
    intro f hf
    rcases List.mem_append.mp hf with hf | hf
    · obtain ⟨g, hg, rfl⟩ := List.mem_map.mp hf
      rcases List.mem_append.mp hg with hg | hg
      · exact h o key value List.mem_cons_self g hg
      · obtain ⟨v, _, rfl⟩ := List.mem_map.mp hg
        exact hkey key List.mem_cons_self
    · exact ih (fun key hk => hkey key (List.mem_cons_of_mem _ hk))
        (fun r key value hm => h r key value (List.mem_cons_of_mem _ hm)) f hf

/-- What is found in items stands at their indices or below. -/
theorem pointers_readItems {P : Pointer → Prop} {read : Json → Noted (Option α)}
    (h : ∀ (i : Nat) item, items[i]? = some item → ∀ f ∈ (read item).findings,
      P (toString i :: f.pointer)) :
    ∀ f ∈ (readItems read 0 items).findings, P f.pointer := by
  -- The rest of the items is read from a later index on.
  have hfrom : ∀ index, (∀ (i : Nat) item, items[i]? = some item → ∀ f ∈ (read item).findings,
      P (toString (index + i) :: f.pointer)) →
      ∀ f ∈ (readItems read index items).findings, P f.pointer := by
    clear h
    induction items with
    | nil => exact fun _ _ => nofun
    | cons item rest ih =>
      intro index h f hf
      rcases List.mem_append.mp hf with hf | hf
      · obtain ⟨g, hg, rfl⟩ := List.mem_map.mp hf
        exact h 0 item rfl g hg
      · refine ih (index + 1) (fun i item' hitem g hg => ?_) f hf
        rw [show index + 1 + i = index + (i + 1) by omega]
        exact h (i + 1) item' hitem g hg
  exact hfrom 0 (by simpa only [Nat.zero_add] using h)

section Append

/-- Two readings one after the other. -/
instance : Append (Noted (List α)) := ⟨fun a b => ⟨a.value ++ b.value, a.findings ++ b.findings⟩⟩

variable (a b c : Noted (List α))

@[simp] theorem Noted.value_append : (a ++ b).value = a.value ++ b.value := rfl

@[simp] theorem Noted.findings_append : (a ++ b).findings = a.findings ++ b.findings := rfl

theorem Noted.ext {a b : Noted α} (hvalue : a.value = b.value)
    (hfindings : a.findings = b.findings) : a = b := by
  obtain ⟨value, findings⟩ := a
  simp_all

theorem Noted.append_assoc : a ++ b ++ c = a ++ (b ++ c) :=
  Noted.ext (List.append_assoc ..) (List.append_assoc ..)

theorem Noted.nil_append : ⟨[], []⟩ ++ a = a := rfl

theorem Noted.append_nil : a ++ ⟨[], []⟩ = a :=
  Noted.ext (List.append_nil _) (List.append_nil _)

theorem Noted.within_append (segment : String) :
    (a ++ b).within segment = a.within segment ++ b.within segment :=
  Noted.ext rfl List.map_append

end Append

section Surroundings

/-! A part of a value, and what is read around it. -/

variable {place : Pointer} {segment other : String} {a b : Noted (List α)}
  {whole part : Json → Noted (List α)}

/-- Nothing is found at a place. -/
def Noted.Avoids (place : Pointer) (n : Noted α) : Prop :=
  ∀ f ∈ n.findings, ¬ place <+: f.pointer

theorem Noted.avoids_nil (value : List α) : (Noted.mk value []).Avoids place := nofun

theorem Noted.Avoids.append (ha : a.Avoids place) (hb : b.Avoids place) :
    (a ++ b).Avoids place := fun f hf => (List.mem_append.mp hf).elim (ha f) (hb f)

theorem Noted.Avoids.within (h : a.Avoids place) (segment : String) :
    (a.within segment).Avoids (segment :: place) := by
  intro f hf
  obtain ⟨g, hg, rfl⟩ := List.mem_map.mp hf
  rw [Finding.within, List.cons_prefix_cons]
  exact fun hlies => h g hg hlies.2

theorem Noted.avoids_within_of_ne (h : segment ≠ other) :
    (a.within other).Avoids (segment :: place) := by
  intro f hf
  obtain ⟨g, _, rfl⟩ := List.mem_map.mp hf
  rw [Finding.within, List.cons_prefix_cons]
  exact fun hlies => h hlies.1

/-- `Surrounds place whole part`: the reading `whole` is the reading `part` at a place, between
readings that do not change and find nothing there. -/
def Surrounds (place : Pointer) (whole part : Json → Noted (List α)) : Prop :=
  ∃ before after : Noted (List α), before.Avoids place ∧ after.Avoids place ∧
    ∀ value, whole value = before ++ (part value).beneath place ++ after

theorem Surrounds.refl (part : Json → Noted (List α)) : Surrounds [] part part := by
  refine ⟨⟨[], []⟩, ⟨[], []⟩, Noted.avoids_nil _, Noted.avoids_nil _, fun value => ?_⟩
  rw [Noted.beneath_nil, Noted.nil_append, Noted.append_nil]

theorem Surrounds.within (h : Surrounds place whole part) (segment : String) :
    Surrounds (segment :: place) (fun value => (whole value).within segment) part := by
  obtain ⟨before, after, hbefore, hafter, heq⟩ := h
  refine ⟨_, _, hbefore.within segment, hafter.within segment, fun value => ?_⟩
  simp only [heq, Noted.within_append, Noted.within_beneath]

theorem Surrounds.between (h : Surrounds place whole part) (ha : a.Avoids place)
    (hb : b.Avoids place) : Surrounds place (fun value => a ++ whole value ++ b) part := by
  obtain ⟨before, after, hbefore, hafter, heq⟩ := h
  refine ⟨_, _, ha.append hbefore, hafter.append hb, fun value => ?_⟩
  simp only [heq, Noted.append_assoc]

end Surroundings

end DeviceTwin
