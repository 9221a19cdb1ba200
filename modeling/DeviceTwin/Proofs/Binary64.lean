import Mathlib.Algebra.Group.Int.Defs
import Mathlib.Algebra.Group.Nat.Defs
import Mathlib.Data.Nat.Log
import DeviceTwin.Binary64

/-!
Integers among the finite binary64 numbers. Integers up to 53 bits are exact, and a value of more
than 63 bits is a multiple of a high power of two.
-/
namespace DeviceTwin.Binary64

/-- One has this many binary places. Nothing is gained by computing with its power of two. -/
@[irreducible] def places : Nat := 1074

theorem places_eq : places = 1074 := by unfold places; rfl

theorem one_eq : one = 2 ^ places := by
  unfold one
  rw [← places_eq, Nat.pow_eq]

theorem one_pos : 0 < one := one_eq ▸ Nat.two_pow_pos places

/-- Rounding a multiple changes nothing. -/
theorem divNearestEven_mul (m : Nat) {d : Nat} (hd : 0 < d) : divNearestEven (m * d) d = m := by
  simp [divNearestEven, Nat.mul_div_cancel m hd, Nat.mul_mod_left, hd]

/-- The value with a significand of 53 bits, the highest one set. -/
theorem unitsOfRank_of_significand {shift m : Nat} (hlow : 2 ^ 52 ≤ m) (hhigh : m < 2 ^ 53) :
    unitsOfRank (shift * Nat.pow 2 52 + m) = m * 2 ^ shift := by
  have hpow : Nat.pow 2 52 = 2 ^ 52 := rfl
  have hshift : (shift * 2 ^ 52 + m) / 2 ^ 52 - 1 = shift := by omega
  simp only [unitsOfRank, hpow, hshift, Nat.add_sub_cancel_left, Nat.pow_eq]

/-- Every other significand is below 53 bits as well. -/
theorem exists_significand (rank : Nat) :
    ∃ s shift, s < 2 ^ 53 ∧ unitsOfRank rank = s * 2 ^ shift := by
  have hpow : Nat.pow 2 52 = 2 ^ 52 := rfl
  refine ⟨rank - (rank / Nat.pow 2 52 - 1) * Nat.pow 2 52, rank / Nat.pow 2 52 - 1, ?_, rfl⟩
  rw [hpow]
  omega

/-- An integer with a significand of 53 bits is the value of a rank. -/
theorem rankNearest_of_significand {m : Nat} (shift : Nat) (hlow : 2 ^ 52 ≤ m)
    (hhigh : m < 2 ^ 53) :
    rankNearest (m * 2 ^ shift) 1 = shift * Nat.pow 2 52 + m := by
  have hlog : (m * 2 ^ shift).log2 = 52 + shift := by
    have hpos : 0 < 2 ^ shift := Nat.two_pow_pos shift
    have hne : m * 2 ^ shift ≠ 0 := (Nat.mul_pos (by omega) hpos).ne'
    rw [Nat.log2_eq_iff hne, Nat.add_right_comm, Nat.pow_add, Nat.pow_add]
    exact ⟨Nat.mul_le_mul_right _ hlow, Nat.mul_lt_mul_of_pos_right hhigh hpos⟩
  have hdiv : divNearestEven (m * 2 ^ shift) (1 * Nat.pow 2 shift) = m := by
    rw [Nat.one_mul]
    exact divNearestEven_mul m (Nat.two_pow_pos shift)
  rw [rankNearest, Nat.div_one, hlog, Nat.add_sub_cancel_left, hdiv]

/-- An integer of at most 53 bits, scaled to exactly 53 bits. -/
theorem exists_scaled {n : Nat} (hpos : 0 < n) (h : n < 2 ^ 53) :
    ∃ m shift, 2 ^ 52 ≤ m ∧ m < 2 ^ 53 ∧ shift ≤ places ∧ n * one = m * 2 ^ shift := by
  have hlog : n.log2 ≤ 52 := Nat.lt_succ_iff.mp ((Nat.log2_lt hpos.ne').mpr h)
  have hplaces := places_eq
  refine ⟨n * 2 ^ (52 - n.log2), n.log2 + 1022, ?_, ?_, by omega, ?_⟩
  · calc 2 ^ 52 = 2 ^ n.log2 * 2 ^ (52 - n.log2) := by rw [← Nat.pow_add, Nat.add_sub_cancel' hlog]
      _ ≤ n * 2 ^ (52 - n.log2) := Nat.mul_le_mul_right _ (Nat.log2_self_le hpos.ne')
  · calc n * 2 ^ (52 - n.log2) < 2 ^ (n.log2 + 1) * 2 ^ (52 - n.log2) :=
          Nat.mul_lt_mul_of_pos_right Nat.lt_log2_self (Nat.two_pow_pos _)
      _ = 2 ^ 53 := by rw [← Nat.pow_add, show n.log2 + 1 + (52 - n.log2) = 53 by omega]
  · rw [one_eq, Nat.mul_assoc, ← Nat.pow_add,
      show 52 - n.log2 + (n.log2 + 1022) = places by omega]

/-- The value nearest to an integer of at most 53 bits is the integer. -/
theorem units_ofInt {n : Int} (h : n.natAbs < 2 ^ 53) :
    (ofInt n).negative = decide (n < 0) ∧ (ofInt n).units = n.natAbs * one := by
  by_cases hzero : n = 0
  · subst hzero
    decide +kernel
  · obtain ⟨m, shift, hlow, hhigh, hshift, heq⟩ := exists_scaled (Int.natAbs_pos.mpr hzero) h
    have hrank := rankNearest_of_significand shift hlow hhigh
    have hlt : shift * Nat.pow 2 52 + m < 2047 * Nat.pow 2 52 := by
      have hpow : Nat.pow 2 52 = 2 ^ 52 := rfl
      have hplaces := places_eq
      rw [hpow]
      omega
    have hofInt : ofInt n = ⟨n < 0, shift * Nat.pow 2 52 + m, hlt⟩ := by
      rw [ofInt, heq, hrank, ofRank?, dif_pos hlt, Option.getD_some]
    rw [hofInt]
    exact ⟨rfl, (unitsOfRank_of_significand hlow hhigh).trans heq.symm⟩

theorem truncate_ofInt {n : Int} (h : n.natAbs < 2 ^ 53) : (ofInt n).truncate = n := by
  obtain ⟨hnegative, hunits⟩ := units_ofInt h
  simp only [truncate, hnegative, hunits, Nat.mul_div_cancel _ one_pos, decide_eq_true_eq]
  omega

/-- A value of more than 63 bits has no bits of its own in the lowest places. -/
theorem two_pow_dvd_whole {x : Binary64} (h : 2 ^ 63 ≤ x.units / one) :
    2 ^ 11 ∣ x.units / one := by
  obtain ⟨s, shift, hs, hunits⟩ := exists_significand x.rank.val
  have hx : x.units = s * 2 ^ shift := hunits
  have hshift : places + 11 ≤ shift := by
    by_contra hsmall
    have hlt : x.units < 2 ^ 63 * one := by
      calc x.units = s * 2 ^ shift := hx
        _ ≤ s * 2 ^ (places + 10) :=
          Nat.mul_le_mul_left s (Nat.pow_le_pow_right (by decide) (by omega))
        _ < 2 ^ 53 * 2 ^ (places + 10) := Nat.mul_lt_mul_of_pos_right hs (Nat.two_pow_pos _)
        _ = 2 ^ 53 * 2 ^ 10 * 2 ^ places := by rw [Nat.add_comm, Nat.pow_add, Nat.mul_assoc]
        _ = 2 ^ 63 * one := by rw [one_eq, ← Nat.pow_add]
    exact absurd h (Nat.not_le.mpr ((Nat.div_lt_iff_lt_mul one_pos).mpr hlt))
  obtain ⟨more, rfl⟩ := Nat.exists_eq_add_of_le hshift
  have hwhole : x.units / one = 2 ^ 11 * (s * 2 ^ more) := by
    refine Nat.div_eq_of_eq_mul_left one_pos ?_
    rw [hx, one_eq, Nat.pow_add, Nat.pow_add]
    generalize 2 ^ places = unit
    ac_rfl
  exact ⟨_, hwhole⟩

end DeviceTwin.Binary64
