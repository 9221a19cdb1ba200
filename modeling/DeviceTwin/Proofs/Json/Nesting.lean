import DeviceTwin.Json.Basic

/-! How deep arrays and objects are nested in a value. -/
namespace DeviceTwin.Json

mutual

/-- Levels of arrays and objects; a value without parts has none. -/
def nesting : Json → Nat
  | .arr items => nestingOfItems items + 1
  | .obj members => nestingOfMembers members + 1
  | _ => 0

def nestingOfItems : List Json → Nat
  | [] => 0
  | item :: rest => max (nesting item) (nestingOfItems rest)

def nestingOfMembers : List (String × Json) → Nat
  | [] => 0
  | (_, value) :: rest => max (nesting value) (nestingOfMembers rest)

end

variable {item value : Json} {items : List Json} {key : String} {members : List (String × Json)}

theorem nesting_le_nestingOfItems (h : item ∈ items) : item.nesting ≤ nestingOfItems items := by
  induction items with
  | nil => simp at h
  | cons head rest ih =>
    rw [nestingOfItems]
    rcases List.mem_cons.mp h with rfl | h
    · exact Nat.le_max_left ..
    · exact Nat.le_trans (ih h) (Nat.le_max_right ..)

theorem nesting_le_nestingOfMembers (h : (key, value) ∈ members) :
    value.nesting ≤ nestingOfMembers members := by
  induction members with
  | nil => simp at h
  | cons head rest ih =>
    obtain ⟨k, w⟩ := head
    rw [nestingOfMembers]
    rcases List.mem_cons.mp h with heq | h
    · cases heq
      exact Nat.le_max_left ..
    · exact Nat.le_trans (ih h) (Nat.le_max_right ..)

theorem nesting_lt_arr (h : item ∈ items) : item.nesting < (arr items).nesting := by
  have := nesting_le_nestingOfItems h
  rw [nesting]
  omega

theorem nesting_lt_obj (h : (key, value) ∈ members) : value.nesting < (obj members).nesting := by
  have := nesting_le_nestingOfMembers h
  rw [nesting]
  omega

end DeviceTwin.Json
