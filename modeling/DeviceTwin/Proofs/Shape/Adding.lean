import DeviceTwin.Shape.Outline

/-!
Collections are added to an outline one by one. One that is accepted is held from then on, next to
those that were held before, and all parts of an outline are parts of the collections that it holds.
-/
namespace DeviceTwin

/-- A collection that is given for a shape. -/
inductive Collection where
  | states (entries : List StateEntry)
  | numbers (words : NumberWords)
  /-- Parts, with the name of the member that lists them. -/
  | children (source : String) (members : List (Member Shape))
  | bitFields (fields : List (BitField Shape))
  | coefficients (codes : List String)

namespace Collection

/-- The member that lists a collection; a collection is reported under its name. -/
def source : Collection → String
  | states _ | numbers _ => "enum"
  | children source _ => source
  | bitFields _ => "bitmaps"
  | coefficients _ => "coefficient"

def addTo (o : Outline) : Collection → Except Violation Outline
  | states entries => o.addStates entries
  | numbers words => o.addNumbers words
  | children source members => o.addChildren source members
  | bitFields fields => o.addBitFields fields
  | coefficients codes => o.addCoefficients codes

def HeldBy (o : Outline) : Collection → Prop
  | states entries => o.states = some entries
  | numbers words => o.numbers = some words
  | children source members => o.children = some (source, members)
  | bitFields fields => o.bitFields = some fields
  | coefficients codes => o.coefficients = some codes

/-- The shapes that are parts of a collection. -/
def parts : Collection → List Shape
  | children _ members => members.map (·.shape)
  | bitFields fields => fields.map (·.value)
  | states _ | numbers _ | coefficients _ => []

end Collection

namespace Outline

variable {o r : Outline} {c d : Collection}

theorem map_fill_eq_ok_iff {α : Type} {collection : String} {slot : Option α} {a : α}
    {put : Option α → Outline} :
    (fill collection slot a).map put = .ok r ↔ slot = none ∧ r = put (some a) := by
  cases slot <;> simp [fill, Except.map, eq_comm]

/-- A collection that is added is held from then on, along with those that were held before. -/
theorem heldBy_iff_of_addTo (h : c.addTo o = .ok r) : d.HeldBy r ↔ d = c ∨ d.HeldBy o := by
  cases c with
  | states | numbers | children | bitFields | coefficients =>
    obtain ⟨hopen, rfl⟩ := map_fill_eq_ok_iff.mp h
    cases d <;> simp [Collection.HeldBy, hopen, eq_comm]

/-- Shapes of all parts and bit fields collected so far. -/
def parts (o : Outline) : List Shape :=
  (o.children.toList.flatMap fun (_, members) => members.map (·.shape)) ++
    (o.bitFields.getD []).map (·.value)

theorem mem_parts_iff {part : Shape} :
    part ∈ o.parts ↔ ∃ c : Collection, c.HeldBy o ∧ part ∈ c.parts := by
  rw [parts, List.mem_append, List.mem_flatMap]
  constructor
  · rintro (⟨⟨source, members⟩, hheld, hpart⟩ | hpart)
    · exact ⟨.children source members, Option.mem_toList.mp hheld, hpart⟩
    · cases hfields : o.bitFields with
      | none => simp [hfields] at hpart
      | some fields =>
        exact ⟨.bitFields fields, hfields, by simpa [hfields, Collection.parts] using hpart⟩
  · rintro ⟨c, hheld, hpart⟩
    cases c with
    | children source members =>
      exact .inl ⟨(source, members), Option.mem_toList.mpr hheld, hpart⟩
    | bitFields fields =>
      have hfields : o.bitFields = some fields := hheld
      exact .inr (by simpa [hfields, Collection.parts] using hpart)
    | states | numbers | coefficients => simp [Collection.parts] at hpart

/-- A collection that is added adds its own parts. -/
theorem mem_parts_of_addTo {part : Shape} (h : c.addTo o = .ok r) :
    part ∈ r.parts ↔ part ∈ c.parts ∨ part ∈ o.parts := by
  simp only [mem_parts_iff, heldBy_iff_of_addTo h, or_and_right, exists_or, exists_eq_left]

end Outline
end DeviceTwin
