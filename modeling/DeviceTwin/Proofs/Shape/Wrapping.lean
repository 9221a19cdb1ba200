import Mathlib.Data.Int.ModEq
import Mathlib.Data.List.Forall2
import DeviceTwin.Proofs.Binary64
import DeviceTwin.Shape.Enumeration

/-!
Numbers as words of a format. The integer part of a number is held within 64 bits before it wraps
around to the width of the format, so what is read is congruent to the number as far as 64 bits go,
and beyond only by chance.
-/
namespace DeviceTwin

/-- The integer part, held within 64 bits. -/
theorem Binary64.toInt_toInt64 (x : Binary64) :
    x.toInt64.toInt = max (-2 ^ 63) (min x.truncate (2 ^ 63 - 1)) := by
  have hmin : Int64.minValue.toInt = -2 ^ 63 := rfl
  have hmax : Int64.maxValue.toInt = 2 ^ 63 - 1 := rfl
  unfold toInt64
  by_cases hlow : -2 ^ 63 ≤ x.truncate
  · by_cases hhigh : x.truncate ≤ 2 ^ 63 - 1
    · rw [Int64.toInt_ofIntClamp (hmin ▸ hlow) (hmax ▸ hhigh)]
      omega
    · rw [Int64.ofIntClamp, dif_pos (hmin ▸ hlow), dif_neg (hmax ▸ hhigh), hmax]
      omega
  · rw [Int64.ofIntClamp, dif_neg (hmin ▸ hlow), hmin]
    omega

/-- Beyond 64 bits there are even values only. -/
theorem Binary64.two_dvd_truncate {x : Binary64} (h : 2 ^ 63 ≤ x.truncate) : 2 ∣ x.truncate := by
  have hwhole : 2 ^ 63 ≤ x.units / one → 2 ^ 11 ∣ x.units / one := two_pow_dvd_whole
  simp only [truncate] at h ⊢
  generalize x.units / one = whole at *
  cases hsign : x.negative with
  | true =>
    simp only [hsign, if_true] at h
    omega
  | false =>
    simp only [hsign, Bool.false_eq_true, if_false] at h ⊢
    have := hwhole (by omega)
    omega

namespace NumberFormat

/-- The least integer of a format. -/
def lowest (format : NumberFormat) : Int := if format.isSigned then -2 ^ (format.width - 1) else 0

/-- The greatest integer of a format. -/
def highest (format : NumberFormat) : Int :=
  if format.isSigned then 2 ^ (format.width - 1) - 1 else 2 ^ format.width - 1

/-- An integer wraps around to one in the range of the format that is congruent to it modulo the
width. -/
structure Wraps (format : NumberFormat) (t n : Int) : Prop where
  lowest_le : format.lowest ≤ n
  le_highest : n ≤ format.highest
  modEq : n ≡ t [ZMOD 2 ^ format.width]

variable {format : NumberFormat} {t m n : Int}

theorem highest_eq (format : NumberFormat) :
    format.highest = format.lowest + 2 ^ format.width - 1 := by
  cases format <;> rfl

theorem Wraps.unique (hm : format.Wraps t m) (hn : format.Wraps t n) : m = n := by
  have hdvd : 2 ^ format.width ∣ n - m := (hm.modEq.trans hn.modEq.symm).dvd
  have hlt : |n - m| < 2 ^ format.width := by
    have := format.highest_eq
    have := hm.lowest_le
    have := hm.le_highest
    have := hn.lowest_le
    have := hn.le_highest
    rw [abs_lt]
    omega
  have := Int.eq_zero_of_abs_lt_dvd hdvd hlt
  omega

/-- The word of an integer stands for what the integer wraps around to. -/
theorem wraps_valueOf (format : NumberFormat) (t : Int) :
    format.Wraps t (format.valueOf (.ofInt format.width t)) := by
  have hpos : 0 < 2 ^ format.width := Nat.two_pow_pos _
  have hcast : ((2 ^ format.width : Nat) : Int) = 2 ^ format.width := by push_cast; rfl
  unfold valueOf
  split
  · next hsigned =>
    rw [BitVec.toInt_ofInt]
    have hlow := Int.le_bmod (x := t) hpos
    have hhigh := Int.bmod_lt (x := t) hpos
    have hhalf : (2 ^ format.width : Int) = 2 * 2 ^ (format.width - 1) := by cases format <;> rfl
    refine ⟨?_, ?_, ?_⟩
    · rw [lowest, if_pos hsigned]
      omega
    · rw [highest, if_pos hsigned]
      omega
    · rw [Int.ModEq, ← hcast, Int.bmod_emod]
  · next hunsigned =>
    have hnonneg := Int.emod_nonneg t (b := (2 ^ format.width : Nat)) (by omega)
    have hlt := Int.emod_lt_of_pos t (b := (2 ^ format.width : Nat)) (by omega)
    rw [BitVec.toNat_ofInt, Int.toNat_of_nonneg hnonneg]
    refine ⟨?_, ?_, ?_⟩
    · rw [lowest, if_neg hunsigned]
      exact hnonneg
    · rw [highest, if_neg hunsigned]
      omega
    · rw [Int.ModEq, ← hcast, Int.emod_emod_of_dvd _ (dvd_refl _)]

/-- What an integer wraps around to is all that is congruent to it and in range. -/
theorem Wraps.iff_eq (hn : format.Wraps t n) : format.Wraps t m ↔ m = n :=
  ⟨fun hm => hm.unique hn, fun heq => heq ▸ hn⟩

/-- Held within 64 bits, an even integer wraps around as before just if it fits in there, or is a
negative multiple of the width. -/
theorem Wraps.held_iff (hn : format.Wraps (max (-2 ^ 63) (min t (2 ^ 63 - 1))) n)
    (heven : 2 ^ 63 ≤ t → 2 ∣ t) :
    format.Wraps t n ↔ t < 2 ^ 63 ∧ (-2 ^ 63 ≤ t ∨ 2 ^ format.width ∣ t) := by
  have hiff : format.Wraps t n ↔
      max (-2 ^ 63) (min t (2 ^ 63 - 1)) ≡ t [ZMOD 2 ^ format.width] :=
    ⟨fun h => hn.modEq.symm.trans h.modEq, fun h => ⟨hn.1, hn.2, hn.modEq.trans h⟩⟩
  rw [hiff, Int.ModEq]
  cases format <;> simp only [width] <;> omega

/-- The item is a number. Its integer part, held within 64 bits, wraps around to `n`. -/
def ReadsAs (format : NumberFormat) (item : Json) (n : Int) : Prop :=
  ∃ number : Number, item = .num number ∧
    format.Wraps (max (-2 ^ 63) (min number.toBinary64.truncate (2 ^ 63 - 1))) n

theorem rightUnique_readsAs (format : NumberFormat) : Relator.RightUnique format.ReadsAs := by
  rintro item m n ⟨number, rfl, hm⟩ ⟨_, ⟨⟩, hn⟩
  exact hm.unique hn

theorem valueOf_injective (format : NumberFormat) : Function.Injective format.valueOf := by
  intro v w h
  unfold valueOf at h
  split at h
  · exact BitVec.eq_of_toInt_eq h
  · exact BitVec.eq_of_toNat_eq (Int.ofNat_inj.mp h)

end NumberFormat

namespace NumberWords

open Json (expectBinary64)

theorem eq_of_values {d e : NumberWords} (hformat : d.format = e.format)
    (hvalues : d.values = e.values) : d = e := by
  obtain ⟨format, words⟩ := d
  cases hformat
  have hwords : words = e.words := e.format.valueOf_injective.list_map hvalues
  rw [hwords]

/-- Numbers are read up to the first item that is none. -/
theorem mapM_expectBinary64 (items : List Json) :
    (∃ numbers : List Number, items = numbers.map Json.num ∧
      items.mapM expectBinary64 = .ok (numbers.map Number.toBinary64)) ∨
    ∃ (before : List Number) (item : Json) (after : List Json),
      items = before.map Json.num ++ item :: after ∧ (∀ number, item ≠ .num number) ∧
      items.mapM expectBinary64 = .error (.unexpectedType "number" item.typeName) := by
  induction items with
  | nil => exact .inl ⟨[], rfl, rfl⟩
  | cons item rest ih =>
    rw [List.mapM_cons]
    cases item with
    | num number =>
      rcases ih with ⟨numbers, rfl, hread⟩ | ⟨before, item, after, rfl, hitem, hread⟩
      · refine .inl ⟨number :: numbers, rfl, ?_⟩
        rw [hread]
        rfl
      · refine .inr ⟨number :: before, item, after, rfl, hitem, ?_⟩
        rw [hread]
        rfl
    | _ => exact .inr ⟨[], _, rest, rfl, nofun, rfl⟩

theorem forall₂_readsAs (format : NumberFormat) (numbers : List Number) :
    List.Forall₂ format.ReadsAs (numbers.map Json.num) (values ⟨format,
      (numbers.map Number.toBinary64).map fun x => .ofInt format.width x.toInt64.toInt⟩) := by
  rw [values, List.map_map, List.map_map, List.forall₂_map_left_iff, List.forall₂_map_right_iff,
    List.forall₂_same]
  intro number _
  refine ⟨number, rfl, ?_⟩
  rw [← Binary64.toInt_toInt64]
  exact format.wraps_valueOf _

/-- Words are read from numbers only, one for each and in their order. -/
theorem read_eq_ok_iff {format : NumberFormat} {items : List Json} {e : NumberWords} :
    read format items = .ok e ↔
      e.format = format ∧ List.Forall₂ format.ReadsAs items e.values := by
  rcases mapM_expectBinary64 items with
    ⟨numbers, rfl, hread⟩ | ⟨before, item, after, rfl, hitem, hread⟩
  · have hown := forall₂_readsAs format numbers
    rw [read, hread]
    constructor
    · rintro ⟨⟩
      exact ⟨rfl, hown⟩
    · rintro ⟨hformat, hall⟩
      subst hformat
      have hvalues := List.right_unique_forall₂' e.format.rightUnique_readsAs hown hall
      exact congrArg Except.ok (eq_of_values rfl hvalues)
  · rw [read, hread]
    refine iff_of_false nofun ?_
    rintro ⟨-, hall⟩
    have hnumbers := hall.imp fun _ _ h => And.intro (h.imp fun _ => And.left) h
    obtain ⟨number, heq⟩ := ((List.forall₂_and_left _ _).mp hnumbers).1 item (by simp)
    exact hitem number heq

/-- Either all items are numbers, and each is read as the one integer in the range of the format
that is congruent to its integer part held within 64 bits; this is congruent to the integer part
itself just if that fits in there or is a negative multiple of the width. Or there is a first item
that is no number, and its type is reported. -/
theorem read_cases (format : NumberFormat) (items : List Json) :
    (∃ (numbers : List Number) (e : NumberWords), items = numbers.map Json.num ∧
      read format items = .ok e ∧ e.format = format ∧ e.values.length = items.length ∧
      ∀ (i : Nat) (number : Number) (t : Int), numbers[i]? = some number →
        number.toBinary64.truncate = t → ∃ n, e.values[i]? = some n ∧
          (∀ m, format.Wraps (max (-2 ^ 63) (min t (2 ^ 63 - 1))) m ↔ m = n) ∧
          (format.Wraps t n ↔ t < 2 ^ 63 ∧ (-2 ^ 63 ≤ t ∨ 2 ^ format.width ∣ t))) ∨
    ∃ (before : List Number) (item : Json) (after : List Json),
      items = before.map Json.num ++ item :: after ∧ (∀ number, item ≠ .num number) ∧
      read format items = .error (.unexpectedType "number" item.typeName) := by
  rcases mapM_expectBinary64 items with
    ⟨numbers, rfl, hread⟩ | ⟨before, item, after, heq, hitem, hread⟩
  · have hok : read format (numbers.map Json.num) = .ok ⟨format,
        (numbers.map Number.toBinary64).map fun x => .ofInt format.width x.toInt64.toInt⟩ := by
      rw [read, hread]
      rfl
    refine .inl ⟨numbers, _, rfl, hok, rfl, by simp [values], ?_⟩
    rintro i number t hnumber rfl
    let n := format.valueOf (.ofInt format.width number.toBinary64.toInt64.toInt)
    have hwraps : format.Wraps number.toBinary64.toInt64.toInt n := format.wraps_valueOf _
    rw [Binary64.toInt_toInt64] at hwraps
    exact ⟨n, by simp [values, hnumber, n], fun m => hwraps.iff_eq,
      hwraps.held_iff Binary64.two_dvd_truncate⟩
  · refine .inr ⟨before, item, after, heq, hitem, ?_⟩
    rw [read, hread]
    rfl

/-- Numbers out of range wrap around. -/
example : (read .int8 [.int 200, .int 65536, .int (-129)]).map values = .ok [-56, 0, 127] := by
  decide +kernel

/-- The least integer that does not fit in 64 bits wraps around to zero, but it is held first. -/
theorem held_not_wrapped :
    (read .uint8 [.int (2 ^ 63)]).map values = .ok [255] ∧
      (Number.int (2 ^ 63)).toBinary64.truncate = 2 ^ 63 ∧
      NumberFormat.uint8.Wraps (2 ^ 63) 0 ∧ ¬ NumberFormat.uint8.Wraps (2 ^ 63) 255 := by
  refine ⟨by decide +kernel, by decide +kernel, ⟨by decide, by decide, rfl⟩, fun h => ?_⟩
  have hmod : (255 : Int) % 2 ^ 8 = 2 ^ 63 % 2 ^ 8 := h.modEq
  omega

end NumberWords
end DeviceTwin
