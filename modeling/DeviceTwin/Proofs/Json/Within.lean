import Mathlib.Logic.Relation
import DeviceTwin.Proofs.Json.DistinctKeys
import DeviceTwin.Proofs.Json.Nesting

/-! Values that stand inside of a value, at any depth. -/
namespace DeviceTwin.Json

/-- `Part part value`: an item of the array, or the value of a member. -/
inductive Part : Json → Json → Prop
  | item {item items} (h : item ∈ items) : Part item (.arr items)
  | member {key value members} (h : (key, value) ∈ members) : Part value (.obj members)

/-- `Within inner value`: the value itself, or one that stands inside of it. -/
def Within : Json → Json → Prop := Relation.ReflTransGen Part

variable {inner part value outer : Json}

theorem Within.refl (value : Json) : Within value value := Relation.ReflTransGen.refl

theorem Part.within (h : Part part value) : Within part value := Relation.ReflTransGen.single h

theorem Within.trans (h : Within inner value) (h' : Within value outer) : Within inner outer :=
  Relation.ReflTransGen.trans h h'

theorem Part.nesting_lt (h : Part part value) : part.nesting < value.nesting := by
  cases h with
  | item h => exact nesting_lt_arr h
  | member h => exact nesting_lt_obj h

theorem Within.nesting_le (h : Within inner value) : inner.nesting ≤ value.nesting := by
  induction h with
  | refl => exact Nat.le_refl _
  | tail _ hpart ih => exact Nat.le_trans ih (Nat.le_of_lt hpart.nesting_lt)

theorem Part.hasDistinctKeys (h : Part part value) (hkeys : value.hasDistinctKeys) :
    part.hasDistinctKeys := by
  cases h with
  | item h => exact hasDistinctKeys_arr.mp hkeys part h
  | member h => exact (hasDistinctKeys_obj.mp hkeys).2 _ h

theorem Within.hasDistinctKeys (h : Within inner value) (hkeys : value.hasDistinctKeys) :
    inner.hasDistinctKeys := by
  induction h with
  | refl => exact hkeys
  | tail _ hpart ih => exact ih (hpart.hasDistinctKeys hkeys)

end DeviceTwin.Json
