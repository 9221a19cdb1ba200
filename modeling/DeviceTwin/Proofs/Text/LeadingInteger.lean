import Mathlib.Data.List.DropRight
import Mathlib.Data.List.TakeWhile
import Mathlib.Data.Nat.Digits.Defs
import DeviceTwin.Proofs.Text.Numeral

/-!
Leading integers against the rules of `strtol` for integers of 64 bits. Those take a text apart into
white space, a sign, digits and a rest, and hold the signed number within 64 bits. A leading
integer is found behind all white space, that outside ASCII included, and only its magnitude is
held, so that it never becomes the least integer. The low 32 bits agree wherever neither matters.
-/
namespace DeviceTwin.LeadingInteger

/-- The white space of ASCII. -/
def asciiBlanks : List Char := [' ', '\t', '\n', '\x0b', '\x0c', '\r']

/-- A sign that may be missing, and the factor that it stands for. -/
inductive IsSign : List Char → Int → Prop where
  | missing : IsSign [] 1
  | plus : IsSign ['+'] 1
  | minus : IsSign ['-'] (-1)

/-- A text taken apart by the rules of `strtol`, with the factor of its sign and the values of its
digits. No part could take in a character of the next one. -/
structure Parts (radix : Nat) (text : List Char) where
  blanks : List Char
  sign : List Char
  factor : Int
  digits : List Char
  values : List Nat
  rest : List Char
  text_eq : text = blanks ++ (sign ++ (digits ++ rest))
  isBlank : ∀ c ∈ blanks, c ∈ asciiBlanks
  isSign : IsSign sign factor
  isDigit : List.Forall₂ IsDigit digits values
  value_lt : ∀ d ∈ values, d < radix
  no_blank : ∀ c ∈ (sign ++ (digits ++ rest)).head?, c ∉ asciiBlanks
  no_sign : sign = [] → ∀ c ∈ (digits ++ rest).head?, c ∉ ['-', '+']
  no_digit : ∀ c ∈ rest.head?, ∀ d < radix, ¬ IsDigit c d

variable {radix : Nat} {text sign cs cs' : List Char} {factor factor' : Int}

theorem ofDigits_eq (radix : Nat) (ds : List Nat) :
    ofDigits radix ds = Nat.ofDigits radix ds.reverse := by
  rw [Nat.ofDigits_eq_foldr, List.foldr_reverse, ofDigits]
  congr 1
  funext value digit
  rw [Nat.cast_id, Nat.mul_comm, Nat.add_comm]

theorem isWhiteSpace_of_mem_asciiBlanks : ∀ c ∈ asciiBlanks, isWhiteSpace c = true := by
  have hall : asciiBlanks.all isWhiteSpace = true := rfl
  exact List.all_eq_true.mp hall

theorem IsSign.factor_cases (h : IsSign sign factor) : factor = 1 ∨ factor = -1 := by
  cases h with
  | missing => exact .inl rfl
  | plus => exact .inl rfl
  | minus => exact .inr rfl

/-- Where a sign is taken whenever there is one, a text has only one. -/
theorem IsSign.unique {sign' : List Char} (h : IsSign sign factor) (h' : IsSign sign' factor')
    (hcs : sign = [] → ∀ c ∈ cs.head?, c ∉ ['-', '+'])
    (hcs' : sign' = [] → ∀ c ∈ cs'.head?, c ∉ ['-', '+']) (heq : sign ++ cs = sign' ++ cs') :
    factor = factor' ∧ cs = cs' := by
  cases h with
  | missing =>
    have hhead := hcs rfl
    rw [List.nil_append] at heq
    rw [heq] at hhead
    cases h' with
    | missing => exact ⟨rfl, heq⟩
    | plus => exact absurd (by decide) (hhead '+' rfl)
    | minus => exact absurd (by decide) (hhead '-' rfl)
  | plus =>
    cases h' with
    | missing =>
      have hhead := hcs' rfl
      rw [List.nil_append] at heq
      rw [← heq] at hhead
      exact absurd (by decide) (hhead '+' rfl)
    | plus => exact ⟨rfl, List.append_cancel_left heq⟩
    | minus => cases heq
  | minus =>
    cases h' with
    | missing =>
      have hhead := hcs' rfl
      rw [List.nil_append] at heq
      rw [← heq] at hhead
      exact absurd (by decide) (hhead '-' rfl)
    | plus => cases heq
    | minus => exact ⟨rfl, List.append_cancel_left heq⟩

/-- A sign is read as its factor. -/
theorem ofUnpadded_signed (hsign : IsSign sign factor)
    (hcs : sign = [] → ∀ c ∈ cs.head?, c ∉ ['-', '+']) :
    ofUnpadded radix (sign ++ cs) = factor * magnitude radix cs := by
  cases hsign with
  | missing =>
    rw [List.nil_append, ofUnpadded_of_unsigned (hcs rfl), Int.one_mul]
  | plus => exact (Int.one_mul _).symm
  | minus => exact Int.neg_eq_neg_one_mul _

theorem exists_sign (cs : List Char) : ∃ sign factor rest, cs = sign ++ rest ∧
    IsSign sign factor ∧ (sign = [] → ∀ c ∈ rest.head?, c ∉ ['-', '+']) := by
  cases cs with
  | nil => exact ⟨[], 1, [], rfl, .missing, nofun⟩
  | cons c cs =>
    by_cases hplus : c = '+'
    · subst c
      exact ⟨['+'], 1, cs, rfl, .plus, nofun⟩
    · by_cases hminus : c = '-'
      · subst c
        exact ⟨['-'], -1, cs, rfl, .minus, nofun⟩
      · refine ⟨[], 1, c :: cs, rfl, .missing, ?_⟩
        rintro _ _ ⟨⟩
        simp [hplus, hminus]

theorem exists_run (radix : Nat) (cs : List Char) : ∃ digits values rest, cs = digits ++ rest ∧
    List.Forall₂ IsDigit digits values ∧ (∀ d ∈ values, d < radix) ∧
    ∀ c ∈ rest.head?, ∀ d < radix, ¬ IsDigit c d := by
  induction cs with
  | nil => exact ⟨[], [], [], rfl, .nil, nofun, nofun⟩
  | cons c cs ih =>
    by_cases hc : ∃ d < radix, IsDigit c d
    · obtain ⟨d, hd, hdigit⟩ := hc
      obtain ⟨digits, values, rest, rfl, hdigits, hvalues, hrest⟩ := ih
      exact ⟨c :: digits, d :: values, rest, rfl, .cons hdigit hdigits,
        List.forall_mem_cons.mpr ⟨hd, hvalues⟩, hrest⟩
    · refine ⟨[], [], c :: cs, rfl, .nil, nofun, ?_⟩
      rintro _ ⟨⟩ d hd hdigit
      exact hc ⟨d, hd, hdigit⟩

namespace Parts

/-- The number that the digits make up, with its sign. -/
def number (P : Parts radix text) : Int := P.factor * Nat.ofDigits radix P.values.reverse

/-- The number, held within 64 bits. -/
def value (P : Parts radix text) : Int := max (-2 ^ 63) (min P.number (2 ^ 63 - 1))

/-- What stands behind the white space of ASCII. -/
def behind (P : Parts radix text) : List Char := P.sign ++ (P.digits ++ P.rest)

/-- Every text can be taken apart. -/
theorem nonempty (radix : Nat) (text : List Char) : Nonempty (Parts radix text) := by
  obtain ⟨sign, factor, unsigned, hsign, hfactor, hunsigned⟩ :=
    exists_sign (text.dropWhile (· ∈ asciiBlanks))
  obtain ⟨digits, values, rest, rfl, hdigits, hvalues, hrest⟩ := exists_run radix unsigned
  refine ⟨⟨text.takeWhile (· ∈ asciiBlanks), sign, factor, digits, values, rest, ?_, ?_, hfactor,
    hdigits, hvalues, ?_, hunsigned, hrest⟩⟩
  · rw [← hsign, List.takeWhile_append_dropWhile]
  · intro c hc
    have hblank := List.mem_takeWhile_imp hc
    exact of_decide_eq_true hblank
  · intro c hc
    have hhead := List.head?_dropWhile_not (· ∈ asciiBlanks) text
    rw [hsign, Option.mem_def.mp hc] at hhead
    exact of_decide_eq_false hhead

variable (P : Parts radix text)

theorem values_eq (hradix : radix ≤ 16) : P.values = leadingDigits radix (P.digits ++ P.rest) :=
  (leadingDigits_append P.isDigit P.value_lt P.no_digit hradix).symm

/-- Whoever skips the white space of ASCII finds the same behind it. -/
theorem dropWhile_eq {p : Char → Bool} (hp : ∀ c ∈ asciiBlanks, p c = true) :
    text.dropWhile p = P.behind.dropWhile p :=
  calc text.dropWhile p
      = (P.blanks ++ P.behind).dropWhile p := congrArg _ P.text_eq
    _ = P.behind.dropWhile p := List.dropWhile_append_of_pos fun c hc => hp c (P.isBlank c hc)

theorem behind_eq : P.behind = text.dropWhile (· ∈ asciiBlanks) := by
  have hno : ∀ c ∈ P.behind.head?, c ∉ asciiBlanks := P.no_blank
  rw [P.dropWhile_eq fun c hc => decide_eq_true hc]
  cases hbehind : P.behind with
  | nil => rfl
  | cons c rest =>
    rw [hbehind] at hno
    simp [hno c rfl]

/-- There is only one way to take a text apart, as far as its number goes. -/
theorem value_unique (hradix : radix ≤ 16) (P Q : Parts radix text) : P.value = Q.value := by
  have hbehind : P.sign ++ (P.digits ++ P.rest) = Q.sign ++ (Q.digits ++ Q.rest) :=
    P.behind_eq.trans Q.behind_eq.symm
  obtain ⟨hfactor, hunsigned⟩ := P.isSign.unique Q.isSign P.no_sign Q.no_sign hbehind
  have hvalues : P.values = Q.values := by
    rw [P.values_eq hradix, Q.values_eq hradix, hunsigned]
  rw [value, value, number, number, hfactor, hvalues]

/-- Behind white space the magnitude is held and not the number, which leaves the least integer
out. -/
theorem ofUnpadded_behind (hradix : radix ≤ 16) :
    ofUnpadded radix P.behind = max P.value (-(2 ^ 63 - 1)) := by
  have hmax : magnitudeMax = 2 ^ 63 - 1 := rfl
  rw [behind, ofUnpadded_signed P.isSign P.no_sign, magnitude, ← P.values_eq hradix, ofDigits_eq,
    value, number]
  generalize Nat.ofDigits radix P.values.reverse = n
  rcases P.isSign.factor_cases with h | h
  · rw [h]
    omega
  · rw [h]
    omega

/-- Behind other white space than that of ASCII there is neither a sign nor a digit. -/
theorem value_of_blank (hradix : radix ≤ 16) {c : Char} (hc : c ∈ P.behind.head?)
    (hblank : isWhiteSpace c = true) : P.value = 0 := by
  obtain ⟨blanks, sign, factor, digits, values, rest, _, _, hsign, hdigits, hvalues, _, _, _⟩ := P
  -- Whatever part the character belonged to, it would not be white space.
  cases hsign with
  | plus =>
    cases hc
    exact absurd hblank (by decide)
  | minus =>
    cases hc
    exact absurd hblank (by decide)
  | missing =>
    cases hdigits with
    | nil => rfl
    | cons hdigit _ =>
      cases hc
      have hlt := hvalues _ List.mem_cons_self
      rw [(hdigit.not_special (by omega)).1] at hblank
      cases hblank

end Parts

/-- All white space that the text begins with is that of ASCII. -/
def BeginsInAscii (cs : List Char) : Prop := ∀ c ∈ cs.takeWhile isWhiteSpace, c ∈ asciiBlanks

/-- Behind its white space, a text begins with none. -/
theorem beginsInAscii_dropWhile (cs : List Char) : BeginsInAscii (cs.dropWhile isWhiteSpace) := by
  intro c hc
  have hhead := List.head?_dropWhile_not isWhiteSpace cs
  cases hbehind : cs.dropWhile isWhiteSpace with
  | nil =>
    rw [hbehind] at hc
    cases hc
  | cons d rest =>
    rw [hbehind] at hhead hc
    rw [List.takeWhile_cons_of_neg (by simpa using hhead)] at hc
    cases hc

namespace Parts

variable (P : Parts radix text)

theorem takeWhile_eq :
    text.takeWhile isWhiteSpace = P.blanks ++ P.behind.takeWhile isWhiteSpace :=
  calc text.takeWhile isWhiteSpace
      = (P.blanks ++ P.behind).takeWhile isWhiteSpace := congrArg _ P.text_eq
    _ = P.blanks ++ P.behind.takeWhile isWhiteSpace :=
        List.takeWhile_append_of_pos fun c hc => isWhiteSpace_of_mem_asciiBlanks c (P.isBlank c hc)

/-- Either the white space of ASCII is all there is, or other white space follows it. -/
theorem begins_cases : (BeginsInAscii text ∧ text.dropWhile isWhiteSpace = P.behind) ∨
    (¬ BeginsInAscii text ∧ ∃ c ∈ P.behind.head?, isWhiteSpace c = true) := by
  have hno : ∀ c ∈ P.behind.head?, c ∉ asciiBlanks := P.no_blank
  rw [P.dropWhile_eq isWhiteSpace_of_mem_asciiBlanks, BeginsInAscii, P.takeWhile_eq]
  cases hbehind : P.behind with
  | nil => exact .inl ⟨by simpa using P.isBlank, rfl⟩
  | cons c rest =>
    rw [hbehind] at hno
    cases hc : isWhiteSpace c with
    | false => exact .inl ⟨by simpa [hc] using P.isBlank, by simp [hc]⟩
    | true =>
      refine .inr ⟨?_, c, rfl, hc⟩
      intro hascii
      apply hno c rfl
      apply hascii c
      simp [hc]

theorem neg_le_value : -2 ^ 63 ≤ P.value := by
  unfold value
  omega

end Parts

/-- The least integer is the only one whose low bits are lost without it. -/
theorem ofInt_max_eq_iff {v : Int} (hv : -2 ^ 63 ≤ v) :
    Int32.ofInt (max v (-(2 ^ 63 - 1))) = Int32.ofInt v ↔ v ≠ -2 ^ 63 := by
  constructor
  · rintro h rfl
    revert h
    decide
  · intro hne
    have hmax : max v (-(2 ^ 63 - 1)) = v := by omega
    rw [hmax]

/-- Every text has exactly one number by the rules of `strtol`. The low 32 bits of a leading integer
are those of this number, unless it is the least one or white space outside ASCII comes first. In
any case they are those of the number behind all white space, with the next for the least one. -/
theorem low32_eq_iff (hradix : radix ≤ 16) (s : String) :
    (∀ text, ∃! v, ∃ P : Parts radix text, P.value = v) ∧
    (∀ P : Parts radix s.toList, low32 radix s = Int32.ofInt P.value ↔
      P.value ≠ -2 ^ 63 ∧ (BeginsInAscii s.toList ∨ low32 radix s = 0)) ∧
    ∀ P : Parts radix (s.toList.dropWhile isWhiteSpace),
      low32 radix s = Int32.ofInt (max P.value (-(2 ^ 63 - 1))) := by
  refine ⟨?_, ?_, ?_⟩
  · intro text
    obtain ⟨P⟩ := Parts.nonempty radix text
    refine ⟨P.value, ⟨P, rfl⟩, ?_⟩
    rintro _ ⟨Q, rfl⟩
    exact Q.value_unique hradix P
  · intro P
    rcases P.begins_cases with ⟨hascii, hdrop⟩ | ⟨hascii, c, hc, hblank⟩
    · have hlow : low32 radix s = Int32.ofInt (max P.value (-(2 ^ 63 - 1))) := by
        rw [low32, ofText, hdrop, P.ofUnpadded_behind hradix]
      rw [hlow, ofInt_max_eq_iff P.neg_le_value]
      exact ⟨fun hne => ⟨hne, .inl hascii⟩, fun h => h.1⟩
    · rw [P.value_of_blank hradix hc hblank]
      constructor
      · intro hzero
        exact ⟨by decide, .inr hzero⟩
      · rintro ⟨_, habsurd | hzero⟩
        · exact absurd habsurd hascii
        · exact hzero
  · intro P
    rcases P.begins_cases with ⟨_, hdrop⟩ | ⟨hascii, _⟩
    · have hvalue := P.ofUnpadded_behind hradix
      rw [← hdrop, List.dropWhile_idempotent] at hvalue
      rw [low32, ofText, hvalue]
    · exact absurd (beginsInAscii_dropWhile _) hascii

/-- A text that has all parts, with digits in either case. -/
def mixedParts : Parts 16 "\t-7fFg".toList where
  blanks := ['\t']
  sign := ['-']
  factor := -1
  digits := ['7', 'f', 'F']
  values := [7, 15, 15]
  rest := ['g']
  text_eq := rfl
  isBlank := by simp [asciiBlanks]
  isSign := .minus
  isDigit := by decide
  value_lt := by decide
  no_blank := by rintro _ ⟨⟩; decide
  no_sign := nofun
  no_digit := by rintro _ ⟨⟩; decide

theorem low32_eq_iff_mixed : 16 ≤ 16 ∧ mixedParts.value = -2047 ∧
    BeginsInAscii "\t-7fFg".toList ∧ low32 16 "\t-7fFg" = Int32.ofInt mixedParts.value := by
  have hvalue : mixedParts.value = -2047 := by decide
  have hascii : BeginsInAscii "\t-7fFg".toList := by
    have hblanks : "\t-7fFg".toList.takeWhile isWhiteSpace = ['\t'] := by decide
    rw [BeginsInAscii, hblanks]
    exact mixedParts.isBlank
  have hleast : mixedParts.value ≠ -2 ^ 63 := by
    rw [hvalue]
    decide
  obtain ⟨_, hagree, _⟩ := low32_eq_iff (show 16 ≤ 16 by decide) "\t-7fFg"
  exact ⟨by decide, hvalue, hascii, (hagree mixedParts).mpr ⟨hleast, .inl hascii⟩⟩

/-- The least integer in decimal. -/
def leastParts : Parts 10 "-9223372036854775808".toList where
  blanks := []
  sign := ['-']
  factor := -1
  digits := "9223372036854775808".toList
  values := [9, 2, 2, 3, 3, 7, 2, 0, 3, 6, 8, 5, 4, 7, 7, 5, 8, 0, 8]
  rest := []
  text_eq := rfl
  isBlank := nofun
  isSign := .minus
  isDigit := by decide
  value_lt := by decide
  no_blank := by rintro _ ⟨⟩; decide
  no_sign := nofun
  no_digit := nofun

/-- A digit behind a no-break space, which is no white space of ASCII. -/
def wideParts : Parts 10 "\u00a07".toList where
  blanks := []
  sign := []
  factor := 1
  digits := []
  values := []
  rest := ['\u00a0', '7']
  text_eq := rfl
  isBlank := nofun
  isSign := .missing
  isDigit := .nil
  value_lt := nofun
  no_blank := by rintro _ ⟨⟩; decide
  no_sign := by rintro _ _ ⟨⟩; decide
  no_digit := by rintro _ ⟨⟩; decide

/-- The least integer is read as the next one, and the no-break space is skipped. -/
theorem least_and_wide_blank_differ :
    (leastParts.value = -2 ^ 63 ∧ Int32.ofInt leastParts.value = 0 ∧
      low32 10 "-9223372036854775808" = 1) ∧
    wideParts.value = 0 ∧ Int32.ofInt wideParts.value = 0 ∧ low32 10 "\u00a07" = 7 := by
  decide +kernel

end DeviceTwin.LeadingInteger
