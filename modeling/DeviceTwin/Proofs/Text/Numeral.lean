import Mathlib.Data.List.Forall2
import DeviceTwin.Text.LeadingInteger

/-!
Numerals as leading integers. A numeral is read as the number that it is written for, whatever the
case of its letters is and however many zeros lead it.
-/
namespace DeviceTwin

/-- The character is this digit, in lower case or in upper case. -/
def IsDigit (c : Char) (d : Nat) : Prop := c = Nat.digitChar d ∨ c = (Nat.digitChar d).toUpper

instance : DecidableRel IsDigit := fun c d =>
  inferInstanceAs (Decidable (c = Nat.digitChar d ∨ c = (Nat.digitChar d).toUpper))

/-- The digits of a number in a radix, each in either case, after any number of zeros. -/
def IsNumeral (radix n : Nat) (cs : List Char) : Prop :=
  ∃ zeros, List.Forall₂ (fun c digit => c = digit ∨ c = digit.toUpper) cs
    (List.replicate zeros '0' ++ Nat.toDigits radix n)

variable {radix n d : Nat} {c : Char} {cs : List Char} {ds : List Nat}

section Digits

theorem digit?_eq_some_of_le (h : digit? 16 c = some d) (hd : d < radix) :
    digit? radix c = some d := by
  unfold digit? at h ⊢
  rw [Option.filter_eq_some_iff] at h ⊢
  exact ⟨h.1, decide_eq_true hd⟩

namespace IsDigit

theorem digit?_eq (h : IsDigit c d) (hd : d < radix) (hradix : radix ≤ 16) :
    digit? radix c = some d := by
  have hdigits : ∀ d < 16, digit? 16 (Nat.digitChar d) = some d ∧
      digit? 16 (Nat.digitChar d).toUpper = some d := by decide
  have hd16 := hdigits d (by omega)
  rcases h with rfl | rfl
  · exact digit?_eq_some_of_le hd16.1 hd
  · exact digit?_eq_some_of_le hd16.2 hd

/-- No digit is white space or a sign, or marks a radix. -/
theorem not_special (h : IsDigit c d) (hd : d < 16) :
    isWhiteSpace c = false ∧ c ∉ ['-', '+', 'x', 'X'] := by
  have hspecial : ∀ d < 16,
      (isWhiteSpace (Nat.digitChar d) = false ∧ Nat.digitChar d ∉ ['-', '+', 'x', 'X']) ∧
      isWhiteSpace (Nat.digitChar d).toUpper = false ∧
        (Nat.digitChar d).toUpper ∉ ['-', '+', 'x', 'X'] := by decide
  rcases h with rfl | rfl
  · exact (hspecial d hd).1
  · exact (hspecial d hd).2

end IsDigit

/-- A character of a range is known by its place there. -/
theorem eq_of_range {first last : Char} {f : Nat → Char} (h : first ≤ c ∧ c ≤ last)
    (hf : ∀ k ≤ last.toNat - first.toNat, Char.ofNat (first.toNat + k) = f k) :
    c = f (c.toNat - first.toNat) := by
  obtain ⟨hfirst, hlast⟩ := h
  have hle : first.toNat ≤ c.toNat := hfirst
  have hge : c.toNat ≤ last.toNat := hlast
  rw [← hf _ (by omega), Nat.add_sub_cancel' hle, Char.ofNat_toNat]

theorem isDigit_of_digit? (h : digit? radix c = some d) : IsDigit c d ∧ d < radix := by
  unfold digit? at h
  rw [Option.filter_eq_some_iff] at h
  obtain ⟨hvalue, hlt⟩ := h
  simp only [Char.isDigit, Bool.and_eq_true, decide_eq_true_eq] at hvalue
  refine ⟨?_, of_decide_eq_true hlt⟩
  split at hvalue
  · next hdecimal =>
    have hrange : '0' ≤ c ∧ c ≤ '9' := hdecimal
    cases hvalue
    exact .inl (eq_of_range hrange (by decide))
  · split at hvalue
    · next hlower =>
      cases hvalue
      exact .inl (eq_of_range (f := fun k => Nat.digitChar (k + 10)) hlower (by decide))
    · split at hvalue
      · next hupper =>
        cases hvalue
        exact .inr (eq_of_range (f := fun k => (Nat.digitChar (k + 10)).toUpper) hupper (by decide))
      · cases hvalue

theorem digit?_eq_none (h : ∀ d < radix, ¬ IsDigit c d) : digit? radix c = none := by
  rw [Option.eq_none_iff_forall_ne_some]
  intro d hd
  obtain ⟨hdigit, hlt⟩ := isDigit_of_digit? hd
  exact h d hlt hdigit

theorem ofDigits_concat (radix : Nat) (ds : List Nat) (d : Nat) :
    ofDigits radix (ds ++ [d]) = ofDigits radix ds * radix + d := by
  simp [ofDigits]

theorem ofDigits_replicate_zero (radix zeros : Nat) (ds : List Nat) :
    ofDigits radix (List.replicate zeros 0 ++ ds) = ofDigits radix ds := by
  induction zeros with
  | zero => rfl
  | succ zeros ih =>
    rw [← ih]
    simp [ofDigits, List.replicate_succ]

/-- The digits that are written of a number have its value. -/
theorem exists_digits (hradix : 1 < radix) (n : Nat) : ∃ ds : List Nat, ds ≠ [] ∧
    (∀ d ∈ ds, d < radix) ∧ ofDigits radix ds = n ∧
      Nat.toDigits radix n = ds.map Nat.digitChar := by
  induction n using Nat.strongRecOn with
  | ind n ih =>
    rcases Nat.lt_or_ge n radix with hlt | hge
    · exact ⟨[n], by simp, by simpa using hlt, by simp [ofDigits],
        Nat.toDigits_of_lt_base hlt⟩
    · obtain ⟨ds, _, hds, hvalue, heq⟩ := ih (n / radix) (Nat.div_lt_self (by omega) hradix)
      have hlast : n % radix < radix := Nat.mod_lt n (by omega)
      refine ⟨ds ++ [n % radix], by simp, ?_, ?_, ?_⟩
      · simpa [or_imp, forall_and] using ⟨hds, hlast⟩
      · rw [ofDigits_concat, hvalue, Nat.mul_comm, Nat.div_add_mod]
      · rw [Nat.toDigits_of_base_le hradix hge, heq, List.map_append, List.map_singleton]

end Digits

section Numerals

/-- A numeral as a sequence of digits. -/
theorem IsNumeral.exists_digits (h : IsNumeral radix n cs) (hradix : 1 < radix) :
    ∃ ds : List Nat, ds ≠ [] ∧ (∀ d ∈ ds, d < radix) ∧ ofDigits radix ds = n ∧
      List.Forall₂ IsDigit cs ds := by
  obtain ⟨zeros, h⟩ := h
  obtain ⟨ds, hne, hds, hvalue, heq⟩ := DeviceTwin.exists_digits hradix n
  refine ⟨List.replicate zeros 0 ++ ds, by simp [hne], ?_, ?_, ?_⟩
  · intro d hd
    rcases List.mem_append.mp hd with hd | hd
    · rw [List.eq_of_mem_replicate hd]
      omega
    · exact hds d hd
  · rw [ofDigits_replicate_zero, hvalue]
  · have hzeros : List.replicate zeros '0' ++ Nat.toDigits radix n =
        (List.replicate zeros 0 ++ ds).map Nat.digitChar := by
      rw [List.map_append, List.map_replicate, heq]
      rfl
    rw [hzeros, List.forall₂_map_right_iff] at h
    exact h

/-- The leading digits end where a character follows that is no digit. -/
theorem leadingDigits_append {rest : List Char} (h : List.Forall₂ IsDigit cs ds)
    (hds : ∀ d ∈ ds, d < radix) (hrest : ∀ c ∈ rest.head?, ∀ d < radix, ¬ IsDigit c d)
    (hradix : radix ≤ 16) : leadingDigits radix (cs ++ rest) = ds := by
  induction h with
  | nil =>
    cases rest with
    | nil => rfl
    | cons c rest => rw [List.nil_append, leadingDigits, digit?_eq_none (hrest c rfl)]
  | cons hdigit _ ih =>
    rw [List.forall_mem_cons] at hds
    rw [List.cons_append, leadingDigits, hdigit.digit?_eq hds.1 hradix, ih hds.2]

theorem not_special_of_digits (h : List.Forall₂ IsDigit cs ds) (hds : ∀ d ∈ ds, d < 16) :
    ∀ c ∈ cs, isWhiteSpace c = false ∧ c ∉ ['-', '+', 'x', 'X'] := by
  induction h with
  | nil => nofun
  | cons hdigit _ ih =>
    rw [List.forall_mem_cons] at hds ⊢
    exact ⟨hdigit.not_special hds.1, ih hds.2⟩

/-- A numeral consists of digits, and there is at least one. -/
theorem IsNumeral.not_special (h : IsNumeral radix n cs) (hradix : 1 < radix) (hle : radix ≤ 16) :
    cs ≠ [] ∧ ∀ c ∈ cs, isWhiteSpace c = false ∧ c ∉ ['-', '+', 'x', 'X'] := by
  obtain ⟨ds, hne, hds, _, hdigits⟩ := h.exists_digits hradix
  refine ⟨?_, not_special_of_digits hdigits fun d hd => Nat.lt_of_lt_of_le (hds d hd) hle⟩
  rintro rfl
  cases hdigits
  exact hne rfl

namespace LeadingInteger

theorem magnitude_of_isNumeral (h : IsNumeral radix n cs) (hradix : 1 < radix)
    (hle : radix ≤ 16) : magnitude radix cs = min n magnitudeMax := by
  obtain ⟨ds, _, hds, rfl, hdigits⟩ := h.exists_digits hradix
  have hleading : leadingDigits radix (cs ++ []) = ds := leadingDigits_append hdigits hds nofun hle
  rw [List.append_nil] at hleading
  rw [magnitude, hleading]

/-- Without a sign in front, a text is read as its magnitude. -/
theorem ofUnpadded_of_unsigned (h : ∀ c ∈ cs.head?, c ∉ ['-', '+']) :
    ofUnpadded radix cs = magnitude radix cs := by
  rw [ofUnpadded]
  · rintro rest rfl
    exact h '-' rfl (by decide)
  · rintro rest rfl
    exact h '+' rfl (by decide)

/-- A numeral is read as its number, as long as that is not too large. -/
theorem ofText_of_isNumeral {s : String} (h : IsNumeral radix n s.toList) (hradix : 1 < radix)
    (hle : radix ≤ 16) : ofText radix s = min n magnitudeMax := by
  obtain ⟨hne, hspecial⟩ := h.not_special hradix hle
  rw [← magnitude_of_isNumeral h hradix hle, ofText]
  generalize s.toList = cs at *
  cases cs with
  | nil => exact absurd rfl hne
  | cons c rest =>
    obtain ⟨hspace, hsign⟩ := hspecial c List.mem_cons_self
    rw [List.dropWhile_cons_of_neg (by simp [hspace]), ofUnpadded_of_unsigned]
    rintro _ ⟨⟩ hmem
    exact hsign (List.mem_append_left ['x', 'X'] hmem)

theorem low32_of_isNumeral {s : String} (h : IsNumeral radix n s.toList) (hradix : 1 < radix)
    (hle : radix ≤ 16) (hn : n ≤ magnitudeMax) : low32 radix s = Int32.ofInt n := by
  rw [low32, ofText_of_isNumeral h hradix hle, Nat.min_eq_left hn]

end LeadingInteger

end Numerals

end DeviceTwin
