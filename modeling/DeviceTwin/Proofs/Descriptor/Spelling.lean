import DeviceTwin.Descriptor.Reading
import DeviceTwin.Proofs.Binary64
import DeviceTwin.Proofs.Text.Numeral

/-!
Spellings of codes and sizes. Decimal and hexadecimal strings always agree; a number agrees with
them as long as it is below `2 ^ 31`, from where on numbers are held and strings are cut.
-/
namespace DeviceTwin.Descriptor

/-- A hexadecimal numeral behind its mark, in either case. -/
def IsMarkedNumeral (n : Nat) (cs : List Char) : Prop :=
  ∃ mark rest, cs = '0' :: mark :: rest ∧ (mark = 'x' ∨ mark = 'X') ∧ IsNumeral 16 n rest

variable {n : Nat} {s : String}

/-- A decimal numeral has no mark. -/
theorem hexDigits?_of_isNumeral (h : IsNumeral 10 n s.toList) : hexDigits? s = none := by
  have hspecial := (h.not_special (by decide) (by decide)).2
  unfold hexDigits?
  generalize s.toList = cs at *
  split
  · exact absurd (hspecial 'x' (by simp)).2 (by decide)
  · exact absurd (hspecial 'X' (by simp)).2 (by decide)
  · rfl

theorem codeOfText_of_isNumeral (h : IsNumeral 10 n s.toList)
    (hn : n ≤ LeadingInteger.magnitudeMax) : codeOfText s = Int32.ofInt n := by
  rw [codeOfText, hexDigits?_of_isNumeral h]
  exact LeadingInteger.low32_of_isNumeral h (by decide) (by decide) hn

theorem codeOfText_of_isMarkedNumeral (h : IsMarkedNumeral n s.toList)
    (hn : n ≤ LeadingInteger.magnitudeMax) : codeOfText s = Int32.ofInt n := by
  obtain ⟨mark, rest, hs, hmark, hnumeral⟩ := h
  have hdigits : hexDigits? s = some (String.ofList rest) := by
    rw [hexDigits?, hs]
    rcases hmark with rfl | rfl <;> rfl
  rw [codeOfText, hdigits]
  exact LeadingInteger.low32_of_isNumeral (by rwa [String.toList_ofList]) (by decide) (by decide) hn

/-- What is held within 32 bits is what is cut to them, unless it takes the sign bit. -/
theorem ofIntClamp_eq_ofInt_iff (hn : n < 2 ^ 32) :
    Int32.ofIntClamp n = Int32.ofInt n ↔ n < 2 ^ 31 := by
  have hmin : Int32.minValue.toInt = -2 ^ 31 := rfl
  have hmax : Int32.maxValue.toInt = 2 ^ 31 - 1 := rfl
  have hlow : Int32.minValue.toInt ≤ n := by omega
  by_cases hhigh : n ≤ Int32.maxValue.toInt
  · rw [Int32.ofIntClamp, dif_pos hlow, dif_pos hhigh, Int32.ofIntLE_eq_ofInt]
    exact iff_of_true rfl (by omega)
  · rw [Int32.ofIntClamp, dif_pos hlow, dif_neg hhigh, ← Int32.toInt_inj, Int32.toInt_ofInt, hmax]
    have hsize : Int32.size = 2 ^ 32 := rfl
    rw [hsize, Int.bmod_def]
    omega

/-- A number that is an integer is held within 32 bits. -/
theorem integerOf_num {number : Number} (ofText : String → Int32) (hn : n < 2 ^ 53)
    (h : number.toBinary64 = .ofInt n) : integerOf ofText (.num number) = .ok (.ofIntClamp n) := by
  rw [integerOf, h, Binary64.toInt32, Binary64.truncate_ofInt (by omega)]

theorem takeEntry_edt {value : Json} {code : Int32} (h : readCode value = .ok code)
    (entry : StateEntry) : takeEntry entry "edt" value = { record := { entry with code } } := by
  simp only [takeEntry, h]
  rfl

theorem takeMember_size {value : Json} {size : Int32} (h : readSize value = .ok size)
    (scope : Scope) (below : Option Application) (active : List String) (o : Outline) :
    takeMember scope below active o "size" value =
      { record := { o with attributes := { o.attributes with size := some size } } } := by
  have hkeyword : Keyword.ofName? "size" = some .size := rfl
  simp only [takeMember, hkeyword, takeKeyword, h]
  rfl

/-- A code below `2 ^ 32` is the same whether it is spelled in decimal or in hexadecimal, with any
zeros and letters. As a number it is the same below `2 ^ 31`, and from there on it is the greatest
code instead. A size is a number or a decimal numeral, and the same holds for it. -/
theorem spellings_agree_iff {number : Number} {decimal hex : String} (hn : n < 2 ^ 32)
    (hnumber : number.toBinary64 = .ofInt n) (hdecimal : IsNumeral 10 n decimal.toList)
    (hhex : IsMarkedNumeral n hex.toList) :
    (∀ entry,
      takeEntry entry "edt" (.str decimal) = { record := { entry with code := .ofInt n } } ∧
      takeEntry entry "edt" (.str hex) = { record := { entry with code := .ofInt n } } ∧
      takeEntry entry "edt" (.num number) = { record := { entry with code := .ofIntClamp n } }) ∧
    (∀ scope below active o,
      takeMember scope below active o "size" (.str decimal) =
        { record := { o with attributes := { o.attributes with size := some (.ofInt n) } } } ∧
      takeMember scope below active o "size" (.num number) =
        { record := { o with attributes := { o.attributes with size := some (.ofIntClamp n) } } }) ∧
    (Int32.ofIntClamp n = Int32.ofInt n ↔ n < 2 ^ 31) := by
  have hmax : n ≤ LeadingInteger.magnitudeMax := by
    have hmagnitude : LeadingInteger.magnitudeMax = 2 ^ 63 - 1 := rfl
    omega
  have hcode : readCode (.str decimal) = .ok (.ofInt n) :=
    congrArg Except.ok (codeOfText_of_isNumeral hdecimal hmax)
  have hmarked : readCode (.str hex) = .ok (.ofInt n) :=
    congrArg Except.ok (codeOfText_of_isMarkedNumeral hhex hmax)
  have hsize : readSize (.str decimal) = .ok (.ofInt n) :=
    congrArg Except.ok (LeadingInteger.low32_of_isNumeral hdecimal (by decide) (by decide) hmax)
  have hheld := fun ofText => integerOf_num ofText (show n < 2 ^ 53 by omega) hnumber
  exact ⟨fun entry => ⟨takeEntry_edt hcode entry, takeEntry_edt hmarked entry,
      takeEntry_edt (hheld _) entry⟩,
    fun scope below active o => ⟨takeMember_size hsize scope below active o,
      takeMember_size (hheld _) scope below active o⟩,
    ofIntClamp_eq_ofInt_iff hn⟩

/-- The greatest code that needs no sign bit, with zeros and both cases. -/
theorem spellings_agree_iff_greatest :
    2147483647 < 2 ^ 32 ∧ (Number.int 2147483647).toBinary64 = .ofInt (2147483647 : Nat) ∧
    IsNumeral 10 2147483647 "002147483647".toList ∧
    IsMarkedNumeral 2147483647 "0X07fffFFFf".toList ∧
    (∀ entry,
      takeEntry entry "edt" (.str "002147483647") = takeEntry entry "edt" (.int 2147483647) ∧
      takeEntry entry "edt" (.str "0X07fffFFFf") = takeEntry entry "edt" (.int 2147483647)) ∧
    ∀ scope below active o, takeMember scope below active o "size" (.str "002147483647") =
      takeMember scope below active o "size" (.int 2147483647) := by
  have hnumber : (Number.int 2147483647).toBinary64 = .ofInt (2147483647 : Nat) := rfl
  have hdecimal : IsNumeral 10 2147483647 "002147483647".toList := ⟨2, by decide⟩
  have hhex : IsMarkedNumeral 2147483647 "0X07fffFFFf".toList :=
    ⟨'X', _, rfl, .inr rfl, 1, by decide⟩
  obtain ⟨hcodes, hsizes, hagree⟩ := spellings_agree_iff (by decide) hnumber hdecimal hhex
  rw [hagree.mpr (by decide)] at hcodes hsizes
  refine ⟨by decide, hnumber, hdecimal, hhex, fun entry => ?_, fun scope below active o => ?_⟩
  · obtain ⟨hread, hmarked, hheld⟩ := hcodes entry
    exact ⟨hread.trans hheld.symm, hmarked.trans hheld.symm⟩
  · obtain ⟨hread, hheld⟩ := hsizes scope below active o
    exact hread.trans hheld.symm

/-- With the sign bit, a number is another code than its numerals. -/
theorem large_number_differs :
    (takeEntry {} "edt" (.int 4294967295)).record.code = 2147483647 ∧
    (takeEntry {} "edt" (.str "4294967295")).record.code = -1 ∧
    (takeEntry {} "edt" (.str "0xFFFFFFFF")).record.code = -1 := by decide +kernel

end DeviceTwin.Descriptor
