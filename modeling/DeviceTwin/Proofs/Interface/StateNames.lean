import DeviceTwin.Interface.Schema
import DeviceTwin.Proofs.Descriptor.Spelling

/-!
Names of states without an English label. They hold the code as an unsigned word in hexadecimal,
and reading that word as a code gives the code back, its sign included.
-/
namespace DeviceTwin.StateEntry

open Descriptor

/-- Hexadecimal digits that are read as this code behind either mark, in lower and in upper case. -/
structure Spells (digits : String) (code : Int32) : Prop where
  ne_empty : digits ≠ ""
  chars : ∀ c ∈ digits.toList, ∃ d < 16, c = Nat.digitChar d
  lower : ∀ mark ∈ ["0x", "0X"], readCode (.str (mark ++ digits)) = .ok code
  upper : ∀ mark ∈ ["0x", "0X"], readCode (.str (mark ++ digits.toUpper)) = .ok code

/-- A code as an unsigned word in hexadecimal. -/
def wordDigits (code : Int32) : String := String.ofList (Nat.toDigits 16 code.toUInt32.toNat)

variable {digits : String} {code code' : Int32} {a b : StateEntry}

theorem Spells.unique (h : Spells digits code) (h' : Spells digits code') : code = code' := by
  have hcodes : (.ok code : Except Violation Int32) = .ok code' := by
    rw [← h.lower "0x" List.mem_cons_self, h'.lower "0x" List.mem_cons_self]
  exact Except.ok.inj hcodes

/-- A word that is taken for a signed one is the code that it came from. -/
theorem ofInt_toNat_toUInt32 (code : Int32) : Int32.ofInt code.toUInt32.toNat = code :=
  calc Int32.ofInt code.toUInt32.toNat
      = (UInt32.ofNat code.toUInt32.toNat).toInt32 := Int32.ofInt_eq_ofNat
    _ = code := by rw [UInt32.ofNat_toNat, Int32.toInt32_toUInt32]

theorem isNumeral_wordDigits (code : Int32) :
    IsNumeral 16 code.toUInt32.toNat (wordDigits code).toList := by
  rw [wordDigits, String.toList_ofList]
  exact ⟨0, List.forall₂_same.mpr fun _ _ => .inl rfl⟩

theorem isNumeral_toUpper_wordDigits (code : Int32) :
    IsNumeral 16 code.toUInt32.toNat (wordDigits code).toUpper.toList := by
  rw [wordDigits, String.toUpper, String.toList_map, String.toList_ofList]
  exact ⟨0, List.forall₂_map_left_iff.mpr (List.forall₂_same.mpr fun _ _ => .inr rfl)⟩

/-- A numeral of the word is read as the code behind either mark. -/
theorem readCode_of_isNumeral (h : IsNumeral 16 code.toUInt32.toNat digits.toList) :
    ∀ mark ∈ ["0x", "0X"], readCode (.str (mark ++ digits)) = .ok code := by
  have hmax : code.toUInt32.toNat ≤ LeadingInteger.magnitudeMax := by
    have hmagnitude : LeadingInteger.magnitudeMax = 2 ^ 63 - 1 := rfl
    have hword := code.toUInt32.toNat_lt
    omega
  have hmarked : ∀ mark ∈ ["0x", "0X"],
      IsMarkedNumeral code.toUInt32.toNat (mark ++ digits).toList := by
    intro mark hmark
    simp only [List.mem_cons, List.not_mem_nil, or_false] at hmark
    rw [String.toList_append]
    rcases hmark with rfl | rfl
    · exact ⟨'x', _, rfl, .inl rfl, h⟩
    · exact ⟨'X', _, rfl, .inr rfl, h⟩
  intro mark hmark
  rw [readCode, integerOf, codeOfText_of_isMarkedNumeral (hmarked mark hmark) hmax,
    ofInt_toNat_toUInt32]

theorem spells_wordDigits (code : Int32) : Spells (wordDigits code) code where
  ne_empty := by
    intro h
    exact Nat.toDigits_ne_nil (String.ofList_eq_empty_iff.mp h)
  chars := by
    intro c hc
    obtain ⟨ds, _, hds, _, heq⟩ := exists_digits (show 1 < 16 by decide) code.toUInt32.toNat
    rw [wordDigits, String.toList_ofList, heq] at hc
    obtain ⟨d, hd, rfl⟩ := List.mem_map.mp hc
    exact ⟨d, hds d hd, rfl⟩
  lower := readCode_of_isNumeral (isNumeral_wordDigits code)
  upper := readCode_of_isNumeral (isNumeral_toUpper_wordDigits code)

theorem name_of_unlabelled (h : a.labels.en = none) : a.name = "edt" ++ wordDigits a.code := by
  rw [name, h, wordDigits]

/-- Without an English label, a state has digits in its name that are read as its code, so that two
such states have the same name exactly if they have the same code. -/
theorem name_spells_code (ha : a.labels.en = none) (hb : b.labels.en = none) :
    (∃ digits, a.name = "edt" ++ digits ∧ Spells digits a.code) ∧
    (a.name = b.name ↔ a.code = b.code) := by
  rw [name_of_unlabelled ha, name_of_unlabelled hb]
  refine ⟨⟨_, rfl, spells_wordDigits a.code⟩, ?_, ?_⟩
  · intro h
    have hdigits : wordDigits a.code = wordDigits b.code := (String.append_right_inj _).mp h
    have hcode := spells_wordDigits a.code
    rw [hdigits] at hcode
    exact hcode.unique (spells_wordDigits b.code)
  · intro h
    rw [h]

/-- The least code, and the one with all bits set under a Japanese label. -/
theorem name_spells_code_negative :
    ({ code := -2147483648 } : StateEntry).labels.en = none ∧
    ({ code := -1, labels := { ja := some "強" } } : StateEntry).labels.en = none ∧
    (∃ digits, ({ code := -2147483648 } : StateEntry).name = "edt" ++ digits ∧
      Spells digits (-2147483648)) ∧
    ({ code := -2147483648 } : StateEntry).name ≠
      ({ code := -1, labels := { ja := some "強" } } : StateEntry).name := by
  obtain ⟨hspells, hsame⟩ := name_spells_code (a := { code := -2147483648 })
    (b := { code := -1, labels := { ja := some "強" } }) rfl rfl
  exact ⟨rfl, rfl, hspells, fun h => absurd (hsame.mp h) (by decide)⟩

end DeviceTwin.StateEntry
