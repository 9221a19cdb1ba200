import DeviceTwin.Json.Basic

/-! Members by their keys, and values in which no object has two members under one key. -/
namespace DeviceTwin

section Members

variable {members : List (String × Json)} {key : String} {value : Json}

/-- The keys of members. -/
abbrev Json.keys (members : List (String × Json)) : List String := members.map (·.1)

theorem mem_keys (h : (key, value) ∈ members) : key ∈ Json.keys members :=
  List.mem_map.mpr ⟨_, h, rfl⟩

theorem exists_mem_of_mem_keys (h : key ∈ Json.keys members) : ∃ value, (key, value) ∈ members := by
  obtain ⟨⟨_, value⟩, hm, rfl⟩ := List.mem_map.mp h
  exact ⟨value, hm⟩

theorem keys_of_split {before after : List (String × Json)} (hkeys : (Json.keys members).Nodup)
    (hsplit : members = before ++ (key, value) :: after) :
    (Json.keys before).Nodup ∧ key ∉ Json.keys before := by
  rw [hsplit, Json.keys, List.map_append, List.nodup_append] at hkeys
  exact ⟨hkeys.1, fun hm => hkeys.2.2 key hm key List.mem_cons_self rfl⟩

/-- A member stands between members under other keys. -/
theorem exists_split (hkeys : (Json.keys members).Nodup) (h : (key, value) ∈ members) :
    ∃ before after, members = before ++ (key, value) :: after ∧
      key ∉ Json.keys before ∧ key ∉ Json.keys after := by
  obtain ⟨before, after, rfl⟩ := List.append_of_mem h
  rw [Json.keys, List.map_append, List.nodup_append] at hkeys
  obtain ⟨_, hafter, hdisjoint⟩ := hkeys
  refine ⟨before, after, rfl, fun hk => ?_, (List.nodup_cons.mp hafter).1⟩
  exact hdisjoint key hk key List.mem_cons_self rfl

theorem lookup_append_cons {before after : List (String × Json)} (h : key ∉ Json.keys before) :
    (before ++ (key, value) :: after).lookup key = some value := by
  refine List.lookup_eq_some_iff.mpr ⟨before, after, rfl, fun member hm => bne_iff_ne.mpr ?_⟩
  rintro rfl
  exact h (List.mem_map.mpr ⟨member, hm, rfl⟩)

/-- Another member does not matter to a lookup. -/
theorem lookup_append_cons_of_ne {before after : List (String × Json)} {other : String}
    (h : other ≠ key) :
    (before ++ (key, value) :: after).lookup other = (before ++ after).lookup other := by
  rw [List.lookup_append, List.lookup_append, List.lookup_cons, beq_false_of_ne h]

theorem mem_of_lookup (h : members.lookup key = some value) : (key, value) ∈ members := by
  obtain ⟨before, after, rfl, _⟩ := List.lookup_eq_some_iff.mp h
  exact List.mem_append_right before List.mem_cons_self

theorem lookup_of_mem (hkeys : (Json.keys members).Nodup) (h : (key, value) ∈ members) :
    members.lookup key = some value := by
  obtain ⟨before, after, rfl, hbefore, _⟩ := exists_split hkeys h
  exact lookup_append_cons hbefore

/-- Looking up a key does not depend on the order of members. -/
theorem lookup_eq_of_perm {members' : List (String × Json)} (hkeys : (Json.keys members).Nodup)
    (h : members.Perm members') : members'.lookup key = members.lookup key := by
  have hkeys' : (Json.keys members').Nodup := (h.map _).nodup_iff.mp hkeys
  cases hlookup : members.lookup key with
  | some value => exact lookup_of_mem hkeys' (h.mem_iff.mp (mem_of_lookup hlookup))
  | none =>
    cases hlookup' : members'.lookup key with
    | none => rfl
    | some value =>
      rw [lookup_of_mem hkeys (h.mem_iff.mpr (mem_of_lookup hlookup'))] at hlookup
      cases hlookup

end Members

namespace Json

mutual

/-- No object in the value has two members under one key. Every value read from text is of this kind
(`hasDistinctKeys_of_read?`). -/
def hasDistinctKeys : Json → Bool
  | .arr items => itemsHaveDistinctKeys items
  | .obj members => decide (members.map (·.1)).Nodup && membersHaveDistinctKeys members
  | _ => true

def itemsHaveDistinctKeys : List Json → Bool
  | [] => true
  | item :: rest => hasDistinctKeys item && itemsHaveDistinctKeys rest

def membersHaveDistinctKeys : List (String × Json) → Bool
  | [] => true
  | (_, value) :: rest => hasDistinctKeys value && membersHaveDistinctKeys rest

end

variable {items : List Json} {members : List (String × Json)} {key : String} {value : Json}

theorem itemsHaveDistinctKeys_iff :
    itemsHaveDistinctKeys items ↔ ∀ item ∈ items, hasDistinctKeys item := by
  induction items with
  | nil => simp [itemsHaveDistinctKeys]
  | cons item rest ih => simp [itemsHaveDistinctKeys, ih]

theorem membersHaveDistinctKeys_iff :
    membersHaveDistinctKeys members ↔ ∀ member ∈ members, hasDistinctKeys member.2 := by
  induction members with
  | nil => simp [membersHaveDistinctKeys]
  | cons member rest ih => simp [membersHaveDistinctKeys, ih]

@[simp] theorem hasDistinctKeys_arr :
    hasDistinctKeys (.arr items) ↔ ∀ item ∈ items, hasDistinctKeys item := by
  rw [hasDistinctKeys, itemsHaveDistinctKeys_iff]

@[simp] theorem hasDistinctKeys_obj :
    hasDistinctKeys (.obj members) ↔
      (members.map (·.1)).Nodup ∧ ∀ member ∈ members, hasDistinctKeys member.2 := by
  rw [hasDistinctKeys, Bool.and_eq_true, decide_eq_true_iff, membersHaveDistinctKeys_iff]

theorem hasDistinctKeys_of_get? {part : Json} (hkeys : value.hasDistinctKeys)
    (h : value.get? key = some part) : part.hasDistinctKeys := by
  cases value with
  | obj members => exact (hasDistinctKeys_obj.mp hkeys).2 _ (mem_of_lookup h)
  | _ => cases h

end Json
end DeviceTwin
