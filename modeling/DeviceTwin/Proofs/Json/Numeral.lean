import Mathlib.Data.List.TakeWhile
import DeviceTwin.Json.Numeral
import DeviceTwin.Json.Writer

/-! Integers in decimal. The digits that are written of an integer of 64 bits are read as it. -/
namespace DeviceTwin.Numeral

theorem head?_toDigits_ne_zero {n : Nat} (h : 0 < n) : (Nat.toDigits 10 n).head? ≠ some '0' := by
  induction n using Nat.strongRecOn with
  | ind n ih =>
    rcases Nat.lt_or_ge n 10 with hlt | hge
    · have hdigit : ∀ d < 10, 0 < d → (Nat.toDigits 10 d).head? ≠ some '0' := by decide
      exact hdigit n hlt h
    · have hhead := ih (n / 10) (by omega) (by omega)
      rw [Nat.toDigits_of_base_le (by decide) hge]
      cases hdigits : Nat.toDigits 10 (n / 10) with
      | nil => exact absurd hdigits Nat.toDigits_ne_nil
      | cons digit digits =>
        rw [hdigits] at hhead
        exact hhead

theorem isWhole_toDigits (n : Nat) : isWhole (Nat.toDigits 10 n) = true := by
  rcases Nat.eq_zero_or_pos n with rfl | hpos
  · rfl
  · have hhead := head?_toDigits_ne_zero hpos
    unfold isWhole
    split
    · next hnil => exact absurd hnil Nat.toDigits_ne_nil
    · rfl
    · next heq =>
      rw [heq] at hhead
      simpa using hhead

theorem readUnsigned?_toDigits (negative : Bool) (n : Nat) :
    readUnsigned? negative (Nat.toDigits 10 n) = ofWhole? negative (Nat.toDigits 10 n) := by
  have hdigits : ∀ c ∈ Nat.toDigits 10 n, c.isDigit = true := fun c hc =>
    Nat.isDigit_of_mem_toDigits (by decide) (by decide) hc
  have hwhole := List.takeWhile_eq_self_iff.mpr hdigits
  have hrest := List.dropWhile_eq_nil_iff.mpr hdigits
  simp [readUnsigned?, hwhole, hrest, isWhole_toDigits]

/-- The integer fits in 64 bits, with a sign or without. -/
def Fits (i : Int) : Prop := -9223372036854775808 ≤ i ∧ i < 18446744073709551616

/-- An integer that fits in 64 bits is read as it was written. -/
theorem read?_writeNumber {i : Int} (h : Fits i) :
    read? (Json.writeNumber (.int i)) = some (.int i) := by
  obtain ⟨hmin, hmax⟩ := h
  rcases Int.lt_or_le i 0 with hneg | hpos
  · have hread : read? ('-' :: Nat.toDigits 10 i.natAbs) = some (.int i) := by
      have hrange : 0 < i.natAbs ∧ i.natAbs ≤ Nat.pow 2 63 := by
        rw [show Nat.pow 2 63 = 9223372036854775808 from rfl]
        omega
      rw [read?, readUnsigned?_toDigits, ofWhole?, Nat.ofDigitChars_ten_toDigits]
      simp only [Bool.not_true, Bool.false_and, Bool.false_eq_true, if_false, hrange, decide_true,
        Bool.and_self, if_true]
      rw [show -(i.natAbs : Int) = i by omega]
    rw [Json.writeNumber, if_pos hneg]
    exact hread
  · have hread : read? (Nat.toDigits 10 i.natAbs) = some (.int i) := by
      have hrange : i.natAbs ≤ significandMax := by
        rw [show significandMax = 18446744073709551615 from rfl]
        omega
      unfold read?
      split
      · next rest heq =>
        have hdigit : '-' ∈ Nat.toDigits 10 i.natAbs := heq ▸ List.mem_cons_self
        exact absurd (Nat.isDigit_of_mem_toDigits (by decide) (by decide) hdigit) (by decide)
      · rw [readUnsigned?_toDigits, ofWhole?, Nat.ofDigitChars_ten_toDigits]
        simp only [Bool.not_false, Bool.true_and, hrange, decide_true, if_true]
        rw [show (i.natAbs : Int) = i by omega]
    rw [Json.writeNumber, if_neg (by omega), List.nil_append]
    exact hread

end DeviceTwin.Numeral
