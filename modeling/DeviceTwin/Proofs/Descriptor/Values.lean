import DeviceTwin.Descriptor.Reading
import DeviceTwin.Proofs.Clean

/-!
Values that are well typed. Each reader of a value accepts the values of its own type and spelling,
and what it reads them as is said here without the reader.
-/
namespace DeviceTwin

theorem Tag.ofName?_eq_some_iff {name : String} {tag : Tag} :
    Tag.ofName? name = some tag ↔ tag ∈ Tag.named ∧ tag.name = name := by
  constructor
  · intro h
    unfold Tag.ofName? at h
    exact ⟨List.mem_of_find?_eq_some h, by simpa using List.find?_some h⟩
  · rintro ⟨htag, rfl⟩
    revert htag
    cases tag <;> decide

theorem NumberFormat.ofName?_eq_some_iff {name : String} {format : NumberFormat} :
    NumberFormat.ofName? name = some format ↔ format.name = name := by
  constructor
  · intro h
    unfold NumberFormat.ofName? at h
    simpa using List.find?_some h
  · rintro rfl
    cases format <;> decide

namespace Json

variable {items : List Json}

theorem mapM_expectString_eq_ok_iff {texts : List String} :
    items.mapM expectString = .ok texts ↔ items = texts.map .str := by
  induction items generalizing texts with
  | nil => cases texts <;> simp [pure, Except.pure]
  | cons item rest ih =>
    simp only [List.mapM_cons, bind_eq_ok_iff, expectString_eq_ok_iff, ih]
    constructor
    · rintro ⟨text, rfl, others, rfl, ⟨⟩⟩
      rfl
    · intro h
      cases texts with
      | nil => cases h
      | cons text others =>
        cases h
        exact ⟨text, rfl, others, rfl, rfl⟩

end Json

namespace Descriptor

variable {value : Json}

theorem readKind_eq_ok_iff {tag : Tag} :
    readKind value = .ok tag ↔ tag ∈ Tag.named ∧ value = .str tag.name := by
  cases value with
  | str name =>
    rw [Json.str.injEq, eq_comm (a := name), ← Tag.ofName?_eq_some_iff]
    simp only [readKind, Json.expectString, bind, Except.bind]
    cases Tag.ofName? name <;> simp
  | _ =>
    refine iff_of_false (fun h => ?_) (fun h => ?_)
    · cases h
    · cases h.2

theorem readFormat_eq_ok_iff {format : NumberFormat} :
    readFormat value = .ok format ↔ value = .str format.name := by
  cases value with
  | str name =>
    rw [Json.str.injEq, eq_comm (a := name), ← NumberFormat.ofName?_eq_some_iff]
    simp only [readFormat, Json.expectString, bind, Except.bind]
    cases NumberFormat.ofName? name <;> simp
  | _ => exact iff_of_false (fun h => by cases h) (fun h => by cases h)

theorem readCodes_eq_ok_iff {codes : List String} :
    readCodes value = .ok codes ↔ value = .arr (codes.map .str) := by
  cases value with
  | arr items => exact Json.mapM_expectString_eq_ok_iff.trans (Json.arr.injEq _ _).symm.to_iff
  | _ => exact iff_of_false (fun h => by cases h) (fun h => by cases h)

/-- A size is a number that is held within 32 bits, or a text with an integer in front. -/
def IsSize (value : Json) (size : Int32) : Prop :=
  (∃ number, value = .num number ∧ size = number.toBinary64.toInt32) ∨
    ∃ text, value = .str text ∧ size = LeadingInteger.low32 10 text

theorem readSize_eq_ok_iff {size : Int32} : readSize value = .ok size ↔ IsSize value size := by
  cases value <;> simp [readSize, integerOf, IsSize, eq_comm]

end Descriptor
end DeviceTwin
