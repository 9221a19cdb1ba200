import DeviceTwin.Json.Pointer
import DeviceTwin.Proofs.Json.DistinctKeys

/-! Steps of pointers into values with distinct keys, and the value with another part at a place. -/
namespace DeviceTwin.Pointer

variable {items : List Json} {members : List (String × Json)} {segment : String} {f : Json → Json}
  {value old new : Json} {place : Pointer}

/-- An item stands between as many items as its index says, and the others. -/
theorem exists_split_at {i : Nat} (h : items[i]? = some value) :
    ∃ before after, items = before ++ value :: after ∧ i = before.length := by
  obtain ⟨hlt, rfl⟩ := List.getElem?_eq_some_iff.mp h
  refine ⟨items.take i, items.drop (i + 1), ?_, by rw [List.length_take]; omega⟩
  rw [← List.drop_eq_getElem_cons, List.take_append_drop]

/-- Different indices are written differently. -/
theorem index_inj {i j : Nat} (h : toString i = toString j) : i = j := by
  have hdigits : Nat.toDigits 10 i = Nat.toDigits 10 j := String.ofList_inj.mp h
  calc i = Nat.ofDigitChars 10 (Nat.toDigits 10 i) 0 := Nat.ofDigitChars_ten_toDigits.symm
    _ = j := by rw [hdigits, Nat.ofDigitChars_ten_toDigits]

theorem item?_toString (items : List Json) (i : Nat) : item? items (toString i) = items[i]? := by
  have hfrom : ∀ n, ((items.zipIdx n).find? fun entry => toString entry.2 = toString (n + i)).map
      (·.1) = items[i]? := by
    induction items generalizing i with
    | nil => exact fun _ => rfl
    | cons item rest ih =>
      intro n
      cases i with
      | zero => simp
      | succ i =>
        have hne : ¬ toString n = toString (n + (i + 1)) := fun h => by
          have := index_inj h
          omega
        rw [List.zipIdx_cons, List.find?_cons_of_neg,
          show n + (i + 1) = n + 1 + i by omega, ih, List.getElem?_cons_succ]
        exact fun h => hne (of_decide_eq_true h)
  have hzero := hfrom 0
  rwa [Nat.zero_add] at hzero

theorem child?_arr (items : List Json) (i : Nat) :
    child? (.arr items) (toString i) = items[i]? := item?_toString items i

@[simp] theorem child?_obj (members : List (String × Json)) (key : String) :
    child? (.obj members) key = members.lookup key := rfl

/-- The value with the parts that a segment names changed by `f`. -/
def mapChild (segment : String) (f : Json → Json) : Json → Json
  | .arr items => .arr (items.mapIdx fun i item => if toString i = segment then f item else item)
  | .obj members =>
    .obj (members.map fun member =>
      (member.1, if member.1 = segment then f member.2 else member.2))
  | other => other

/-- The value with `new` in place of what the pointer leads to. -/
def replace (new : Json) : Pointer → Json → Json
  | [], _ => new
  | segment :: rest, value => mapChild segment (replace new rest) value

theorem mapChild_obj_split {before after : List (String × Json)} {key : String}
    (hbefore : key ∉ Json.keys before) (hafter : key ∉ Json.keys after) :
    mapChild key f (.obj (before ++ (key, value) :: after)) =
      .obj (before ++ (key, f value) :: after) := by
  have hother : ∀ members : List (String × Json), key ∉ Json.keys members →
      members.map (fun member => (member.1, if member.1 = key then f member.2 else member.2)) =
        members := by
    intro members hk
    have hsame : ∀ member ∈ members,
        (member.1, if member.1 = key then f member.2 else member.2) = member := by
      intro member hm
      rw [if_neg fun heq => hk (List.mem_map.mpr ⟨member, hm, heq⟩)]
    exact (List.map_congr_left hsame).trans (List.map_id' members)
  rw [mapChild, List.map_append, List.map_cons, hother before hbefore, hother after hafter,
    if_pos rfl]

theorem mapChild_arr_split {before after : List Json} :
    mapChild (toString before.length) f (.arr (before ++ value :: after)) =
      .arr (before ++ f value :: after) := by
  rw [mapChild, Json.arr.injEq]
  apply List.ext_getElem?
  intro i
  rw [List.getElem?_mapIdx]
  by_cases hi : i = before.length
  · subst i
    simp
  · have hne : ¬ toString i = toString before.length := fun heq => hi (index_inj heq)
    have hsame : (before ++ value :: after)[i]? = (before ++ f value :: after)[i]? := by
      rcases Nat.lt_or_gt_of_ne hi with hlt | hgt
      · rw [List.getElem?_append_left hlt, List.getElem?_append_left hlt]
      · obtain ⟨j, rfl⟩ : ∃ j, i = before.length + (j + 1) := ⟨i - before.length - 1, by omega⟩
        rw [List.getElem?_append_right (by omega), List.getElem?_append_right (by omega)]
        simp
    simp only [if_neg hne, hsame, Option.map_id']

theorem lookup_map_value {key : String} :
    (members.map fun member =>
      (member.1, if member.1 = key then f member.2 else member.2)).lookup key =
        (members.lookup key).map f := by
  induction members with
  | nil => rfl
  | cons member rest ih =>
    rw [List.map_cons, List.lookup_cons, List.lookup_cons]
    by_cases hkey : member.1 = key
    · simp [hkey]
    · have hne : (key == member.1) = false := by simpa using Ne.symm hkey
      simp only [hne, ih]

theorem lookup_map_value_of_ne {key other : String} (h : other ≠ key) :
    (members.map fun member =>
      (member.1, if member.1 = key then f member.2 else member.2)).lookup other =
        members.lookup other := by
  induction members with
  | nil => rfl
  | cons member rest ih =>
    rw [List.map_cons, List.lookup_cons, List.lookup_cons, ih]
    by_cases hkey : member.1 = key
    · have hne : (other == member.1) = false := by simpa [hkey] using h
      simp only [hne]
    · rw [if_neg hkey]

theorem exists_index (h : item? items segment = some old) :
    ∃ i : Nat, segment = toString i := by
  obtain ⟨⟨item, i⟩, hfind, _⟩ := Option.map_eq_some_iff.mp h
  have hsegment : toString i = segment := by simpa using List.find?_some hfind
  exact ⟨i, hsegment.symm⟩

theorem child?_mapChild (h : child? value segment = some old) :
    child? (mapChild segment f value) segment = some (f old) := by
  cases value with
  | obj members =>
    rw [child?_obj] at h
    rw [mapChild, child?_obj, lookup_map_value, h, Option.map_some]
  | arr items =>
    obtain ⟨i, rfl⟩ := exists_index h
    rw [child?_arr] at h
    rw [mapChild, child?_arr, List.getElem?_mapIdx, h, Option.map_some, if_pos rfl]
  | _ => cases h

/-- The value at a place that exists, put there again, changes nothing. -/
theorem replace_self (hkeys : value.hasDistinctKeys) (h : resolve? value place = some old) :
    replace old place value = value := by
  induction place generalizing value with
  | nil => exact (Option.some.inj h).symm
  | cons segment rest ih =>
    obtain ⟨child, hchild, hrest⟩ := Option.bind_eq_some_iff.mp h
    cases value with
    | obj members =>
      rw [Json.hasDistinctKeys_obj] at hkeys
      have hm : (segment, child) ∈ members := mem_of_lookup hchild
      have hsame := ih (hkeys.2 _ hm) hrest
      obtain ⟨before, after, rfl, hbefore, hafter⟩ := exists_split hkeys.1 hm
      rw [replace, mapChild_obj_split hbefore hafter, hsame]
    | arr items =>
      obtain ⟨i, rfl⟩ := exists_index hchild
      rw [child?_arr] at hchild
      have hsame := ih (Json.hasDistinctKeys_arr.mp hkeys child (List.mem_of_getElem? hchild)) hrest
      obtain ⟨before, after, rfl, rfl⟩ := exists_split_at hchild
      rw [replace, mapChild_arr_split, hsame]
    | _ => cases hchild

/-- A place that exists holds the new value afterwards. -/
theorem resolve?_replace (h : resolve? value place = some old) :
    resolve? (replace new place value) place = some new := by
  induction place generalizing value with
  | nil => rfl
  | cons segment rest ih =>
    obtain ⟨child, hchild, hrest⟩ := Option.bind_eq_some_iff.mp h
    rw [replace, resolve?, child?_mapChild hchild, Option.bind_some]
    exact ih hrest

end DeviceTwin.Pointer
