import Mathlib.Data.List.Forall2
import DeviceTwin.Json.Basic

/-!
Equality of JSON values. The order of items counts, the order of members does not. A way of writing
is faithful if different values are never written the same.
-/
namespace DeviceTwin.Json

/-- The same value: the same items, and under every key the same member. The two zeros are the same
number, and no integer is the same as a real. -/
inductive Same : Json → Json → Prop
  | null : Same .null .null
  | bool (b : Bool) : Same (.bool b) (.bool b)
  | num (n : Number) : Same (.num n) (.num n)
  | zeros {x y : Binary64} (hx : x.units = 0) (hy : y.units = 0) :
      Same (.num (.real x)) (.num (.real y))
  | str (s : String) : Same (.str s) (.str s)
  | arr {items items'} (h : List.Forall₂ Same items items') : Same (.arr items) (.arr items')
  | obj {members members'}
      (h : ∀ key, Option.Rel Same (members.lookup key) (members'.lookup key)) :
      Same (.obj members) (.obj members')

namespace Same

mutual

theorem refl : (value : Json) → Same value value
  | .null => .null
  | .bool b => .bool b
  | .num n => .num n
  | .str s => .str s
  | .arr items => .arr (refl_items items)
  | .obj members => .obj (refl_lookup members)

theorem refl_items : (items : List Json) → List.Forall₂ Same items items
  | [] => .nil
  | item :: rest => .cons (refl item) (refl_items rest)

theorem refl_lookup : (members : List (String × Json)) → ∀ key,
    Option.Rel Same (members.lookup key) (members.lookup key)
  | [], _ => .none
  | (other, value) :: rest, key => by
    rw [List.lookup_cons]
    split
    · exact .some (refl value)
    · exact refl_lookup rest key

end

theorem get? {value value' : Json} (h : value.Same value') (key : String) :
    Option.Rel Same (value.get? key) (value'.get? key) := by
  cases h with
  | obj h => exact h key
  | _ => exact .none

theorem items {us vs : List Json} (h : (Json.arr us).Same (.arr vs)) : List.Forall₂ Same us vs := by
  cases h with
  | arr h => exact h

end Same

section Fields

variable {fields : List (String × Option Json)} {key other : String} {value? : Option Json}

theorem get?_ofFields_cons_of_ne (h : key ≠ other) :
    (ofFields ((other, value?) :: fields)).get? key = (ofFields fields).get? key := by
  have hne : (key == other) = false := beq_eq_false_iff_ne.mpr h
  cases value? with
  | none => rfl
  | some value =>
    simp only [ofFields, get?, List.filterMap_cons, Option.map_some, List.lookup_cons, hne]

theorem get?_ofFields_of_notMem (h : key ∉ fields.map (·.1)) :
    (ofFields fields).get? key = none := by
  induction fields with
  | nil => rfl
  | cons field rest ih =>
    rw [List.map_cons, List.mem_cons, not_or] at h
    rw [get?_ofFields_cons_of_ne h.1, ih h.2]

theorem get?_ofFields_cons_self (h : key ∉ fields.map (·.1)) :
    (ofFields ((key, value?) :: fields)).get? key = value? := by
  cases value? with
  | none =>
    have hnone : (ofFields fields).get? key = none := get?_ofFields_of_notMem h
    exact hnone
  | some value => exact List.lookup_cons_self

/-- Objects of the same fields are the same only if every field is, be it absent or not. -/
theorem Same.ofFields {us vs : List (String × Option Json)}
    (h : ∀ key, Option.Rel Same ((ofFields us).get? key) ((ofFields vs).get? key))
    (hkeys : vs.map (·.1) = us.map (·.1)) (hnodup : (us.map (·.1)).Nodup) :
    List.Forall₂ (Option.Rel Same) (us.map (·.2)) (vs.map (·.2)) := by
  induction us generalizing vs with
  | nil =>
    obtain rfl := List.map_eq_nil_iff.mp hkeys
    exact .nil
  | cons u us ih =>
    obtain ⟨⟨key, v⟩, vs, rfl, hkey, hrest⟩ := List.map_eq_cons_iff.mp hkeys
    obtain ⟨other, u⟩ := u
    obtain rfl : key = other := hkey
    obtain ⟨hus, hnodup⟩ := List.nodup_cons.mp hnodup
    have hvs : key ∉ vs.map (·.1) := hrest ▸ hus
    have hfirst := h key
    rw [get?_ofFields_cons_self hus, get?_ofFields_cons_self hvs] at hfirst
    refine .cons hfirst (ih (fun other => ?_) hrest hnodup)
    by_cases hother : other = key
    · rw [hother, get?_ofFields_of_notMem hus, get?_ofFields_of_notMem hvs]
      exact .none
    · have hlater := h other
      rwa [get?_ofFields_cons_of_ne hother, get?_ofFields_cons_of_ne hother] at hlater

theorem ofFields_map_some (members : List (String × Json)) :
    ofFields (members.map fun member => (member.1, some member.2)) = obj members := by
  simp [ofFields, List.filterMap_map]

/-- The same for members that are always there. -/
theorem Same.members {us vs : List (String × Json)} (h : (Json.obj us).Same (.obj vs))
    (hkeys : vs.map (·.1) = us.map (·.1)) (hnodup : (us.map (·.1)).Nodup) :
    List.Forall₂ Same (us.map (·.2)) (vs.map (·.2)) := by
  rw [← ofFields_map_some us, ← ofFields_map_some vs] at h
  have hfields := Same.ofFields h.get? (by simpa [Function.comp_def] using hkeys)
    (by simpa [Function.comp_def] using hnodup)
  simpa [List.forall₂_map_left_iff, List.forall₂_map_right_iff] using hfields

end Fields

/-- Values that are written the same are equal. -/
def Faithful {α : Type} (f : α → Json) : Prop := ∀ a a', (f a).Same (f a') → a = a'

theorem faithful_str : Faithful str := by
  rintro s s' ⟨⟩
  rfl

theorem faithful_bool : Faithful bool := by
  rintro b b' ⟨⟩
  rfl

theorem faithful_int : Faithful int := by
  rintro n n' ⟨⟩
  rfl

namespace Faithful

variable {α β : Type} {f : α → Json}

theorem comp {g : β → α} (hf : Faithful f) (hg : g.Injective) : Faithful fun b => f (g b) :=
  fun _ _ h => hg (hf _ _ h)

/-- A field that may be absent. -/
theorem option {a? a?' : Option α} (hf : Faithful f)
    (h : Option.Rel Same (a?.map f) (a?'.map f)) : a? = a?' := by
  cases a? <;> cases a?' <;> cases h
  · rfl
  · next h => exact congrArg some (hf _ _ h)

theorem list {as as' : List α} (hf : Faithful f)
    (h : List.Forall₂ Same (as.map f) (as'.map f)) : as = as' := by
  rw [List.forall₂_map_left_iff, List.forall₂_map_right_iff] at h
  exact List.forall₂_eq_eq_eq ▸ h.imp hf

end Faithful
end DeviceTwin.Json
