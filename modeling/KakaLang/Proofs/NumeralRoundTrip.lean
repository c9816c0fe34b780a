import KakaLang.Proofs.NumeralText
import KakaLang.Syntax.Parser
import KakaLang.Syntax.Printer
import KakaLang.Token.Scan

/-!
Numerals in source text. The digits printed for a number are read back as the same number; infinity
comes back from a numeral that is too large for any other value and not-a-number from one that is no
numeral. Conversely no numeral of a source text denotes a negative number.
-/

namespace KakaLang.Number

open Text

theorem toDigits_isAsciiDigit (n : ℕ) : ∀ c ∈ Nat.toDigits 10 n, isAsciiDigit c = true := by
  intro c hc
  have hdigit := Nat.isDigit_of_mem_toDigits (by decide) (by decide) hc
  rw [Char.isDigit_iff_toNat] at hdigit
  exact isAsciiDigit_iff.mpr hdigit

namespace Decimal

theorem digitChars_isAsciiDigit (d : Decimal) : ∀ c ∈ d.digitChars, isAsciiDigit c = true :=
  toDigits_isAsciiDigit d.digits

theorem ofDigitChars_digitChars (d : Decimal) : Nat.ofDigitChars 10 d.digitChars 0 = d.digits :=
  Nat.ofDigitChars_ten_toDigits

/-- The digits before the point, of which there is at least one, and those after it. -/
theorem positional_eq (d : Decimal) :
    ∃ whole fraction : List Char, whole ≠ [] ∧
      (∀ c ∈ whole ++ fraction, isAsciiDigit c = true) ∧
      (Nat.ofDigitChars 10 (whole ++ fraction) 0 : ℚ) * 10 ^ (-fraction.length : ℤ) = d.value ∧
      (d.positional = whole ++ '.' :: fraction ∨ d.positional = whole ∧ fraction = []) := by
  have hdigits := d.digitChars_isAsciiDigit
  have hvalue := d.ofDigitChars_digitChars
  have hne : d.digitChars ≠ [] := Nat.toDigits_ne_nil
  have hzero : isAsciiDigit '0' = true := rfl
  rw [positional, Decimal.value]
  by_cases hexponent : 0 ≤ d.exponent
  · refine ⟨d.digitChars ++ List.replicate d.exponent.toNat '0', [], by simp [hne], ?_, ?_, ?_⟩
    · intro c hc
      simp only [List.append_nil, List.mem_append, List.mem_replicate] at hc
      rcases hc with hc | ⟨-, rfl⟩
      · exact hdigits c hc
      · exact hzero
    · have hcast : (10 : ℚ) ^ d.exponent = 10 ^ d.exponent.toNat := by
        rw [← zpow_natCast, Int.toNat_of_nonneg hexponent]
      rw [List.append_nil, Nat.ofDigitChars_append, Nat.ofDigitChars_replicate_zero, hvalue, hcast]
      push_cast
      simp [mul_comm]
    · simp [hexponent]
  · set places := (-d.exponent).toNat with hplaces
    have hexponent' : (-(places : ℤ)) = d.exponent := by omega
    by_cases hlong : places < d.digitChars.length
    · -- The point stands among the digits.
      refine ⟨d.digitChars.take (d.digitChars.length - places),
        d.digitChars.drop (d.digitChars.length - places), ?_, ?_, ?_, ?_⟩
      · intro hnil
        have := congrArg List.length hnil
        simp only [List.length_take, List.length_nil] at this
        omega
      · rw [List.take_append_drop]
        exact hdigits
      · have hlength : (d.digitChars.drop (d.digitChars.length - places)).length = places := by
          rw [List.length_drop]
          omega
        rw [List.take_append_drop, hvalue, hlength, hexponent']
      · simp [hexponent, hlong]
    · -- The point stands before the digits, with zeros after it.
      refine ⟨['0'], List.replicate (places - d.digitChars.length) '0' ++ d.digitChars, by simp,
        ?_, ?_, ?_⟩
      · intro c hc
        simp only [List.mem_append, List.mem_singleton, List.mem_replicate] at hc
        rcases hc with rfl | ⟨-, rfl⟩ | hc
        · exact hzero
        · exact hzero
        · exact hdigits c hc
      · have hlength :
            (List.replicate (places - d.digitChars.length) '0' ++ d.digitChars).length = places := by
          simp only [List.length_append, List.length_replicate]
          omega
        rw [hlength, hexponent', Nat.ofDigitChars_append, Nat.ofDigitChars_append,
          Nat.ofDigitChars_replicate_zero]
        simp [Nat.ofDigitChars_cons, hvalue]
      · simp [hexponent, hlong]

end Decimal

/-- A text that starts with a digit and goes on with digits and points. -/
def IsPlainText (text : List Char) : Prop :=
  ∃ c cs, text = c :: cs ∧ isAsciiDigit c = true ∧ ∀ x ∈ cs, isPlain x = true

theorem IsPlainText.of_digits {whole fraction text : List Char} (hne : whole ≠ [])
    (hdigits : ∀ c ∈ whole ++ fraction, isAsciiDigit c = true)
    (htext : text = whole ++ '.' :: fraction ∨ text = whole ∧ fraction = []) :
    IsPlainText text := by
  obtain ⟨c, cs, rfl⟩ := List.exists_cons_of_ne_nil hne
  have hplain : ∀ x ∈ c :: cs ++ fraction, isPlain x = true := by
    intro x hx
    simp [isPlain, hdigits x hx]
  rcases htext with rfl | ⟨rfl, -⟩
  · refine ⟨c, cs ++ '.' :: fraction, rfl, hdigits c (by simp), ?_⟩
    intro x hx
    rcases List.mem_append.mp hx with hx | hx
    · exact hplain x (by simp [hx])
    · rcases List.mem_cons.mp hx with rfl | hx
      · rfl
      · exact hplain x (by simp [hx])
  · exact ⟨c, cs, rfl, hdigits c (by simp), fun x hx => hplain x (by simp [hx])⟩

theorem asciiDigit_of_isPlain {c : Char} (h : isPlain c = true) : asciiDigit c = c := by
  have hrange := isPlain_iff.mp h
  have hother : isBengaliDigit c = false := by
    simp only [isBengaliDigit, Bool.and_eq_false_iff, decide_eq_false_iff_not]
    omega
  simp [asciiDigit, hother]

theorem IsPlainText.asciiDigits_eq {text : List Char} (h : IsPlainText text) :
    asciiDigits text = text := by
  have hsame : ∀ x ∈ text, asciiDigit x = id x := by
    obtain ⟨c, cs, rfl, hc, hcs⟩ := h
    intro x hx
    rcases List.mem_cons.mp hx with rfl | hx
    · exact asciiDigit_of_isPlain (by simp [isPlain, hc])
    · exact asciiDigit_of_isPlain (hcs x hx)
  rw [asciiDigits, List.map_congr_left hsame, List.map_id]

/-- Plain text needs no other reading than as a decimal without a sign. -/
theorem IsPlainText.ofChars?_eq {text : List Char} (h : IsPlainText text) :
    Numeral.ofChars? text = Numeral.unsigned? false text := by
  obtain ⟨c, cs, rfl, hc, hcs⟩ := h
  exact Numeral.ofChars?_of_isPlain hc hcs

theorem isAsciiDigit_asciiDigit {c : Char} (h : isDigit c = true) :
    isAsciiDigit (asciiDigit c) = true := by
  rw [asciiDigit]
  by_cases hbengali : isBengaliDigit c = true
  · simp only [isBengaliDigit, Bool.and_eq_true, decide_eq_true_eq] at hbengali
    have hvalid : Nat.isValidChar (c.toNat - 0x9E6 + 0x30) := Or.inl (by omega)
    rw [if_pos (by simp [isBengaliDigit]; omega), isAsciiDigit_iff, Char.ofNat, dif_pos hvalid]
    change 48 ≤ c.toNat - 0x9E6 + 0x30 ∧ c.toNat - 0x9E6 + 0x30 ≤ 57
    omega
  · simpa [isDigit, hbengali] using h

/-- A numeral of a source text is plain once its digits are in one script. -/
theorem isPlainText_asciiDigits {c : Char} {cs : List Char} (hc : isDigit c = true)
    (hcs : ∀ x ∈ cs, Scan.isNumeralPart x = true) : IsPlainText (asciiDigits (c :: cs)) := by
  refine ⟨asciiDigit c, asciiDigits cs, rfl, isAsciiDigit_asciiDigit hc, ?_⟩
  intro x hx
  obtain ⟨y, hy, rfl⟩ := List.mem_map.mp hx
  have hpart := hcs y hy
  simp only [Scan.isNumeralPart, Bool.or_eq_true, decide_eq_true_eq] at hpart
  rcases hpart with hdigit | rfl
  · simp [isPlain, isAsciiDigit_asciiDigit hdigit]
  · rfl

theorem Numeral.isNegative_of_unsigned? {text : List Char} {n : Numeral}
    (h : Numeral.unsigned? false text = some n) : isNegative n.value = false := by
  rw [Numeral.unsigned?] at h
  -- With or without a point, only a decimal without a sign can come out.
  split at h
  split at h
  split at h
  · cases h
  · obtain ⟨exponent, -, rfl⟩ := Option.map_eq_some_iff.mp h
    exact isNegative_ofDecimal _ _

/-- No numeral of a source text denotes a negative number. -/
theorem isNegative_numeralValue {c : Char} {cs : List Char} (hc : isDigit c = true)
    (hcs : ∀ x ∈ cs, Scan.isNumeralPart x = true) :
    isNegative (Parser.numeralValue (String.ofList (c :: cs))) = false := by
  have hplain := isPlainText_asciiDigits hc hcs
  rw [Parser.numeralValue, read?, String.toList_ofList, String.toList_ofList, hplain.ofChars?_eq]
  cases h : Numeral.unsigned? false (asciiDigits (c :: cs)) with
  | none => decide
  | some n => exact Numeral.isNegative_of_unsigned? h

theorem numeralValue_positional {d : Decimal} {word : ℕ} (hpos : 0 < word)
    (hfinite : word < infinityWord) (h : (Interval.ofWord word).Contains d.value) :
    Parser.numeralValue (String.ofList d.positional) = ofWord false word := by
  obtain ⟨whole, fraction, hne, hdigits, hvalue, htext⟩ := d.positional_eq
  have hplain := IsPlainText.of_digits hne hdigits htext
  have hwhole : ∀ c ∈ whole, isAsciiDigit c = true := fun c hc => hdigits c (by simp [hc])
  have hread : Numeral.unsigned? false d.positional =
      some (.decimal false (whole ++ fraction) (-fraction.length)) := by
    rcases htext with htext | ⟨htext, rfl⟩
    · rw [htext]
      exact Numeral.unsigned?_point hwhole (fun c hc => hdigits c (by simp [hc])) hne
    · rw [htext, Numeral.unsigned?_whole hwhole hne]
      simp
  rw [← hvalue] at h
  rw [Parser.numeralValue, read?, String.toList_ofList, String.toList_ofList,
    hplain.asciiDigits_eq, hplain.ofChars?_eq, hread]
  exact ofDecimal_eq hpos hfinite hdigits h

/-- The digits of a finite number in source text are read back as its magnitude. -/
theorem numeralValue_sourceDigits {word : ℕ} (hfinite : word < infinityWord) :
    Parser.numeralValue (sourceDigits word) = ofWord false word := by
  rw [sourceDigits]
  by_cases hzero : word = 0
  · subst hzero
    decide +kernel
  · rw [if_neg hzero]
    have hpos : 0 < word := Nat.pos_of_ne_zero hzero
    exact numeralValue_positional hpos hfinite (shortest_contains hpos hfinite)

theorem numeralValue_powerOfTen {n : ℕ} (hn : n ≤ 309) :
    Parser.numeralValue (String.ofList ('1' :: List.replicate n '0')) =
      ofWord false (nearestWord (10 ^ n) 1) := by
  have hdigits : ∀ c ∈ '1' :: List.replicate n '0', isAsciiDigit c = true := by
    intro c hc
    simp only [List.mem_cons, List.mem_replicate] at hc
    rcases hc with rfl | ⟨-, rfl⟩ <;> rfl
  have hplain : IsPlainText ('1' :: List.replicate n '0') :=
    IsPlainText.of_digits (List.cons_ne_nil _ _) (by simpa using hdigits) (Or.inr ⟨rfl, rfl⟩)
  have hvalue : decimalValue ('1' :: List.replicate n '0') = 10 ^ n := by
    rw [decimalValue_eq, Nat.ofDigitChars_cons, Nat.ofDigitChars_replicate_zero]
    simp
  have hdrop : ('1' :: List.replicate n '0').dropWhile (· = '0') =
      '1' :: List.replicate n '0' := List.dropWhile_cons_of_neg (by decide)
  have htop : ¬ (310 : ℤ) < 0 + (n + 1 : ℕ) := by omega
  have hbottom : ¬ (0 : ℤ) + (n + 1 : ℕ) < -330 := by omega
  have hone : ∀ m : ℕ, tenfold m 0 = m := fun m => Nat.mul_one m
  rw [Parser.numeralValue, read?, String.toList_ofList, String.toList_ofList,
    hplain.asciiDigits_eq, hplain.ofChars?_eq,
    Numeral.unsigned?_whole hdigits (List.cons_ne_nil _ _)]
  simp only [Option.map_some, Option.getD_some, Numeral.value, ofDecimal, hdrop, List.isEmpty_cons,
    Bool.false_eq_true, if_false, List.length_cons, List.length_replicate, htop, hbottom, hvalue,
    nearest, neg_zero, hone]

/-- The power of ten that is written for infinity rounds beyond every finite word. -/
theorem nearestWord_tooLarge : nearestWord (10 ^ 309) 1 = infinityWord := by
  decide +kernel

/-- The number that stands for both zeros is the positive one. -/
def unsignedZero (x : Float) : Float := if magnitude x = 0 then zero false else x

theorem unsignedZero_of_isNegative {x : Float} (h : isNegative x = false) :
    unsignedZero x = x := by
  rw [unsignedZero]
  split
  · rename_i hzero
    rw [zero, ← hzero, ← h, ofWord_magnitude]
  · rfl

/-- A number below zero has no numeral of its own. -/
def IsUnsigned (x : Float) : Prop := isNegative x = true → magnitude x = 0

instance (x : Float) : Decidable (IsUnsigned x) :=
  inferInstanceAs (Decidable (isNegative x = true → magnitude x = 0))

theorem numeralSource_of_isUnsigned {x : Float} (h : IsUnsigned x) :
    numeralSource x =
      if infinityWord < magnitude x then "0.0.0"
      else if magnitude x = infinityWord then String.ofList ('1' :: List.replicate 309 '0')
      else sourceDigits (magnitude x) := by
  have hsign : (isNegative x && magnitude x != 0) = false := by
    cases hx : isNegative x
    · rfl
    · simp [h hx]
  simp only [numeralSource, hsign, Bool.false_eq_true, if_false]

theorem ofWord_of_isUnsigned {x : Float} (h : IsUnsigned x) (hzero : magnitude x ≠ 0) :
    ofWord false (magnitude x) = x := by
  have hpositive : isNegative x = false := by
    cases hx : isNegative x
    · rfl
    · exact absurd (h hx) hzero
  rw [← hpositive, ofWord_magnitude]

/-- A number that is not below zero is read back from its source text. -/
theorem numeralValue_numeralSource {x : Float} (h : IsUnsigned x) :
    Parser.numeralValue (numeralSource x) = unsignedZero x := by
  rw [numeralSource_of_isUnsigned h, unsignedZero]
  by_cases hnan : infinityWord < magnitude x
  · have hzero : magnitude x ≠ 0 := by omega
    rw [if_pos hnan, if_neg hzero, eq_notANumber hnan]
    decide +kernel
  · rw [if_neg hnan]
    by_cases hinfinite : magnitude x = infinityWord
    · have hzero : magnitude x ≠ 0 := by
        rw [hinfinite]
        decide
      rw [if_pos hinfinite, if_neg hzero, numeralValue_powerOfTen le_rfl, nearestWord_tooLarge,
        ← hinfinite, ofWord_of_isUnsigned h hzero]
    · rw [if_neg hinfinite, numeralValue_sourceDigits (by omega)]
      by_cases hzero : magnitude x = 0
      · rw [if_pos hzero, hzero]
        rfl
      · rw [if_neg hzero, ofWord_of_isUnsigned h hzero]

theorem isPlainText_numeralSource {x : Float} (h : IsUnsigned x) :
    IsPlainText (numeralSource x).toList := by
  rw [numeralSource_of_isUnsigned h]
  split
  · have hplain : ['.', '0', '.', '0'].all Text.isPlain = true := by decide
    exact ⟨'0', ['.', '0', '.', '0'], rfl, rfl, List.all_eq_true.mp hplain⟩
  · split
    · rw [String.toList_ofList]
      refine ⟨'1', List.replicate 309 '0', rfl, rfl, ?_⟩
      intro c hc
      rw [List.eq_of_mem_replicate hc]
      rfl
    · rw [sourceDigits]
      split
      · exact ⟨'0', [], rfl, rfl, by simp⟩
      · rw [String.toList_ofList]
        obtain ⟨whole, fraction, hne, hdigits, -, htext⟩ := (shortest (magnitude x)).positional_eq
        exact IsPlainText.of_digits hne hdigits htext

end KakaLang.Number
