import KakaLang.Number.Numeral
import KakaLang.Proofs.Characters
import KakaLang.Proofs.ShortestDecimal
import KakaLang.Proofs.Words

/-!
Reading plain decimals. A text of ASCII digits with at most one point is read as the nearest number
to the rational it denotes; in particular a decimal in the interval of a word is read as that word.
A text of digits and points never denotes a negative number, however many points it has.
-/

namespace KakaLang.Text

theorem decimalValue_eq (digits : List Char) :
    decimalValue digits = Nat.ofDigitChars 10 digits 0 := by
  induction digits using decimalValue.induct with
  | case1 digits h =>
    rw [decimalValue, if_pos h, Nat.ofDigitChars_eq_foldl]
    rfl
  | case2 digits h half ihTake ihDrop =>
    have hlength : digits.length - half = (digits.drop half).length := by rw [List.length_drop]
    rw [decimalValue, if_neg h]
    simp only [show digits.length / 2 = half from rfl, ihTake, ihDrop, hlength, Nat.pow_eq]
    conv_rhs => rw [← List.take_append_drop half digits, Nat.ofDigitChars_append,
      Nat.ofDigitChars_eq_ofDigitChars_zero, Nat.mul_comm]

/-- A character of a plain decimal. -/
def isPlain (c : Char) : Bool := isAsciiDigit c || c = '.'

theorem isPlain_iff {c : Char} :
    isPlain c = true ↔ 48 ≤ c.toNat ∧ c.toNat ≤ 57 ∨ c.toNat = 46 := by
  have hpoint : c = '.' ↔ c.toNat = 46 := by
    rw [← Char.toNat_inj]
    rfl
  simp only [isPlain, Bool.or_eq_true, isAsciiDigit_iff, decide_eq_true_eq, hpoint]

theorem isGap_of_visible {c : Char} (hlow : 0x20 < c.toNat) (hhigh : c.toNat < 0x7F) :
    isGap c = false := by
  simp only [isGap, isBlank, isByteOrderMark, Bool.or_eq_false_iff, Bool.and_eq_false_iff,
    decide_eq_false_iff_not, beq_eq_false_iff_ne]
  omega

theorem isGap_of_isPlain {c : Char} (h : isPlain c = true) : isGap c = false := by
  rw [isPlain_iff] at h
  exact isGap_of_visible (by omega) (by omega)

theorem trim_eq_self {p : Char → Bool} {text : List Char} (h : ∀ c ∈ text, p c = false) :
    trim p text = text := by
  have hdrop : ∀ cs : List Char, (∀ c ∈ cs, p c = false) → cs.dropWhile p = cs := by
    intro cs hcs
    cases cs with
    | nil => rfl
    | cons c cs => rw [List.dropWhile_cons_of_neg (by simp [hcs])]
  rw [trim, hdrop text h, hdrop text.reverse (by simpa using h), List.reverse_reverse]

end KakaLang.Text

namespace KakaLang.Number

open Text

theorem ofMark?_of_isPlain {c : Char} (h : isPlain c = true) : Radix.ofMark? c = none := by
  have hne : ∀ d : Char, isPlain d = false → c ≠ d := by
    rintro d hd rfl
    rw [h] at hd
    cases hd
  simp [Radix.ofMark?, hne 'b' rfl, hne 'B' rfl, hne 'o' rfl, hne 'O' rfl, hne 'x' rfl, hne 'X' rfl]

namespace Numeral

theorem ne_of_isAsciiDigit {c : Char} (hc : isAsciiDigit c = true) {d : Char}
    (hd : isAsciiDigit d = false) : c ≠ d := by
  rintro rfl
  rw [hc] at hd
  cases hd

/-- Neither a sign nor a name starts with a digit. -/
theorem signed?_of_isAsciiDigit {c : Char} (hc : isAsciiDigit c = true) (cs : List Char) :
    signed? (c :: cs) = unsigned? false (c :: cs) := by
  have hsign : splitSign (c :: cs) = (false, c :: cs) := by
    rw [splitSign]
    · rintro rest ⟨⟩
      exact ne_of_isAsciiDigit hc (d := '-') rfl rfl
    · rintro rest ⟨⟩
      exact ne_of_isAsciiDigit hc (d := '+') rfl rfl
  have hname : c :: cs ≠ infinityName := by
    intro h
    exact ne_of_isAsciiDigit hc (d := 'I') rfl (List.cons.inj h).1
  simp [signed?, hsign, hname]

/-- Neither a sign nor a radix mark nor a name starts with a digit and goes on with digits and
points. -/
theorem ofChars?_of_isPlain {c : Char} {cs : List Char} (hc : isAsciiDigit c = true)
    (hcs : ∀ x ∈ cs, isPlain x = true) :
    ofChars? (c :: cs) = unsigned? false (c :: cs) := by
  have hplain : ∀ x ∈ c :: cs, isPlain x = true := by
    intro x hx
    rcases List.mem_cons.mp hx with rfl | hx
    · simp [isPlain, hc]
    · exact hcs x hx
  rw [ofChars?, trim_eq_self fun x hx => isGap_of_isPlain (hplain x hx), trimmed?.eq_def]
  split
  · rename_i h
    cases h
  · rename_i mark rest h
    obtain ⟨rfl, rfl⟩ := List.cons.inj h
    rw [ofMark?_of_isPlain (hcs mark (by simp))]
    exact signed?_of_isAsciiDigit hc _
  · exact signed?_of_isAsciiDigit hc _

theorem splitDigits_append {digits : List Char} (rest : List Char)
    (hdigits : ∀ c ∈ digits, isAsciiDigit c = true)
    (hrest : ∀ c ∈ rest.head?, isAsciiDigit c = false) :
    splitDigits (digits ++ rest) = (digits, rest) := by
  rw [splitDigits, List.span_eq_takeWhile_dropWhile, List.takeWhile_append_of_pos hdigits,
    List.dropWhile_append_of_pos hdigits]
  cases rest with
  | nil => simp
  | cons c rest =>
    have hc : isAsciiDigit c = false := hrest c (by simp)
    simp [hc]

/-- Digits that no point follows are all there is before an exponent. -/
theorem unsigned?_append {whole : List Char} (negative : Bool) (rest : List Char)
    (hwhole : ∀ c ∈ whole, isAsciiDigit c = true) (hrest : ∀ c ∈ rest.head?, isPlain c = false) :
    unsigned? negative (whole ++ rest) =
      if whole = [] then none else (exponent? rest).map (decimal negative whole) := by
  have hdigit : ∀ c ∈ rest.head?, isAsciiDigit c = false := by
    intro c hc
    exact (Bool.or_eq_false_iff.mp (hrest c hc)).1
  have hsplit := splitDigits_append rest hwhole hdigit
  simp only [unsigned?, hsplit]
  split
  · have hpoint := hrest '.' rfl
    cases hpoint
  · simp

/-- With a point there may be digits on either side of it, but not on neither. -/
theorem unsigned?_append_point {whole fraction : List Char} (negative : Bool)
    (rest : List Char) (hwhole : ∀ c ∈ whole, isAsciiDigit c = true)
    (hfraction : ∀ c ∈ fraction, isAsciiDigit c = true)
    (hrest : ∀ c ∈ rest.head?, isAsciiDigit c = false) :
    unsigned? negative (whole ++ '.' :: (fraction ++ rest)) =
      if whole = [] ∧ fraction = [] then none
      else (exponent? rest).map fun exponent =>
        decimal negative (whole ++ fraction) (exponent - fraction.length) := by
  have hsplit := splitDigits_append ('.' :: (fraction ++ rest)) hwhole (by simp [isAsciiDigit])
  have hsplit' := splitDigits_append rest hfraction hrest
  simp [unsigned?, hsplit, hsplit']

theorem unsigned?_whole {negative : Bool} {whole : List Char}
    (hwhole : ∀ c ∈ whole, isAsciiDigit c = true) (hne : whole ≠ []) :
    unsigned? negative whole = some (.decimal negative whole 0) := by
  have hread := unsigned?_append negative [] hwhole (by simp)
  rw [List.append_nil, if_neg hne] at hread
  exact hread

theorem unsigned?_point {negative : Bool} {whole fraction : List Char}
    (hwhole : ∀ c ∈ whole, isAsciiDigit c = true)
    (hfraction : ∀ c ∈ fraction, isAsciiDigit c = true) (hne : whole ≠ []) :
    unsigned? negative (whole ++ '.' :: fraction) =
      some (.decimal negative (whole ++ fraction) (-fraction.length)) := by
  have hread := unsigned?_append_point negative [] hwhole hfraction (by simp)
  rw [List.append_nil, if_neg fun h => hne h.1] at hread
  simpa [exponent?] using hread

end Numeral

/-- The first digit that is not zero decides the size of a number. -/
theorem ofDigitChars_bounds {c : Char} {cs : List Char} (hc : isAsciiDigit c = true)
    (hzero : c ≠ '0') (hcs : ∀ x ∈ cs, isAsciiDigit x = true) :
    10 ^ cs.length ≤ Nat.ofDigitChars 10 (c :: cs) 0 ∧
      Nat.ofDigitChars 10 (c :: cs) 0 < 10 ^ (cs.length + 1) := by
  have hlt : ∀ (cs : List Char), (∀ x ∈ cs, isAsciiDigit x = true) →
      Nat.ofDigitChars 10 cs 0 < 10 ^ cs.length := by
    intro cs hcs
    induction cs with
    | nil => simp
    | cons x cs ih =>
      have hx := isAsciiDigit_iff.mp (hcs x (by simp))
      have ih := ih fun y hy => hcs y (by simp [hy])
      have hdigit : x.toNat - '0'.toNat ≤ 9 := by
        have : '0'.toNat = 48 := rfl
        omega
      rw [Nat.ofDigitChars_cons, Nat.ofDigitChars_eq_ofDigitChars_zero, List.length_cons, pow_succ]
      nlinarith
  have hbounds := isAsciiDigit_iff.mp hc
  have hpos : c.toNat ≠ 48 := by
    intro h
    apply hzero
    rw [← Char.toNat_inj]
    exact h
  have hfirst : '0'.toNat = 48 := rfl
  rw [Nat.ofDigitChars_cons, Nat.ofDigitChars_eq_ofDigitChars_zero, hfirst]
  have hrest := hlt cs hcs
  constructor
  · nlinarith [(by omega : 1 ≤ 10 * 0 + (c.toNat - 48)), Nat.zero_le (Nat.ofDigitChars 10 cs 0)]
  · rw [pow_succ]
    nlinarith [(by omega : 10 * 0 + (c.toNat - 48) ≤ 9)]

theorem ofDigitChars_dropWhile_zero (digits : List Char) :
    Nat.ofDigitChars 10 (digits.dropWhile (· = '0')) 0 = Nat.ofDigitChars 10 digits 0 := by
  induction digits with
  | nil => rfl
  | cons c digits ih =>
    by_cases hc : c = '0'
    · subst hc
      simpa [Nat.ofDigitChars_cons] using ih
    · simp [hc]

theorem ten_zpow_lt_two_zpow : (10 : ℚ) ^ (-330 : ℤ) < 2 ^ (-1075 : ℤ) := by
  have hnat : 2 ^ 1075 < 10 ^ 330 := by decide +kernel
  rw [zpow_neg, zpow_neg, inv_lt_inv₀ (by positivity) (by positivity)]
  exact_mod_cast hnat

theorem two_zpow_lt_ten_zpow : (2 : ℚ) ^ (1024 : ℤ) < 10 ^ (309 : ℤ) := by
  have hnat : 2 ^ 1024 < 10 ^ 309 := by decide +kernel
  exact_mod_cast hnat

/-- Contained numbers are far from the limits at which reading stops to compute. -/
theorem Interval.Spans.ten_bounds {span : Interval} {d : Dyadic} {gap q : ℚ} {word : ℕ}
    (h : span.Spans d gap) (hd : d.IsWord word) (hq : span.Contains q) :
    (10 : ℚ) ^ (-330 : ℤ) < q ∧ q < 10 ^ (309 : ℤ) := by
  constructor
  · have hplace := (h.within hq).le.1
    have hs : (1 : ℚ) ≤ d.significand := by exact_mod_cast hd.pos
    have hhalf : 2 ^ (d.exponent - 1) ≤ q := by
      rw [zpow_neg, ← div_eq_mul_inv, le_div_iff₀ (by positivity)] at hplace
      rw [zpow_sub_one₀ two_ne_zero]
      have hpos : (0 : ℚ) < 2 ^ d.exponent := by positivity
      nlinarith [h.gap_le]
    calc
      (10 : ℚ) ^ (-330 : ℤ) < 2 ^ (-1075 : ℤ) := ten_zpow_lt_two_zpow
      _ ≤ 2 ^ (d.exponent - 1) := zpow_le_zpow_right₀ one_le_two (by
        have := hd.least_le
        rw [leastExponent] at this
        omega)
      _ ≤ q := hhalf
  · calc
      q < 2 ^ (d.exponent + 53) := h.lt_zpow hd hq
      _ ≤ 2 ^ (1024 : ℤ) := zpow_le_zpow_right₀ one_le_two (by linarith [hd.le_greatest])
      _ < 10 ^ (309 : ℤ) := two_zpow_lt_ten_zpow

theorem mem_of_dropWhile_zero {digits cs : List Char} {c : Char}
    (h : digits.dropWhile (· = '0') = c :: cs) : c ≠ '0' ∧ ∀ x ∈ c :: cs, x ∈ digits := by
  constructor
  · have hne : digits.dropWhile (· = '0') ≠ [] := by simp [h]
    have hhead := List.head_dropWhile_not (· = '0') hne
    simpa [h] using hhead
  · intro x hx
    rw [← h] at hx
    exact (List.dropWhile_suffix _).mem hx

/-- The place of the leading digit, read off a bound. -/
theorem length_bounds {value length : ℕ} {k : ℤ} (hleast : 10 ^ length ≤ value)
    (hgreatest : value < 10 ^ (length + 1)) (hlow : (10 : ℚ) ^ (-330 : ℤ) < value * 10 ^ k)
    (hhigh : (value : ℚ) * 10 ^ k < 10 ^ (309 : ℤ)) :
    -330 ≤ k + (length + 1 : ℕ) ∧ k + (length + 1 : ℕ) ≤ 310 := by
  have hten : (0 : ℚ) < 10 ^ k := by positivity
  have hpower : ∀ n : ℕ, (10 : ℚ) ^ n * 10 ^ k = 10 ^ (k + n) := by
    intro n
    rw [add_comm, zpow_add₀ (by norm_num), zpow_natCast]
  have hleast' : ((10 : ℚ) ^ length) ≤ value := by exact_mod_cast hleast
  have hgreatest' : (value : ℚ) < 10 ^ (length + 1) := by exact_mod_cast hgreatest
  have hlength : k + length < 309 := by
    rw [← zpow_lt_zpow_iff_right₀ (by norm_num : (1 : ℚ) < 10), ← hpower]
    exact (mul_le_mul_of_nonneg_right hleast' hten.le).trans_lt hhigh
  have hlength' : -330 < k + (length + 1 : ℕ) := by
    rw [← zpow_lt_zpow_iff_right₀ (by norm_num : (1 : ℚ) < 10), ← hpower]
    exact hlow.trans (mul_lt_mul_of_pos_right hgreatest' hten)
  omega

/-- A decimal in the interval of a word is read as that word. -/
theorem ofDecimal_eq {word : ℕ} (hpos : 0 < word) (hfinite : word < infinityWord)
    {negative : Bool} {digits : List Char} (hdigits : ∀ c ∈ digits, isAsciiDigit c = true) {k : ℤ}
    (hq : (Interval.ofWord word).Contains (Nat.ofDigitChars 10 digits 0 * 10 ^ k)) :
    ofDecimal negative digits k = ofWord negative word := by
  have hd := Dyadic.isWord_ofWord hpos hfinite
  obtain ⟨gap, hspan⟩ := Interval.spans_ofWord hpos hfinite
  rw [← ofDigitChars_dropWhile_zero] at hq
  obtain ⟨hlow, hhigh⟩ := hspan.ten_bounds hd hq
  rw [ofDecimal]
  cases hsignificant : digits.dropWhile (· = '0') with
  | nil =>
    have hpositive := hspan.pos hd hq
    rw [hsignificant] at hpositive
    simp at hpositive
  | cons c cs =>
    rw [hsignificant] at hq hlow hhigh
    obtain ⟨hc, hmem⟩ := mem_of_dropWhile_zero hsignificant
    obtain ⟨hleast, hgreatest⟩ := ofDigitChars_bounds (hdigits c (hmem c (by simp))) hc
      fun x (hx : x ∈ cs) => hdigits x (hmem x (by simp [hx]))
    obtain ⟨hbottom, htop⟩ := length_bounds hleast hgreatest hlow hhigh
    set value := Nat.ofDigitChars 10 (c :: cs) 0 with hvalue
    have hquotient : (tenfold value k : ℚ) / tenfold 1 (-k) = value * 10 ^ k := by
      have h := tenfold_div value 1 (-k)
      rw [neg_neg] at h
      simpa using h
    have hnearest : nearestWord (tenfold value k) (tenfold 1 (-k)) = word := by
      apply nearestWord_eq hpos hfinite (tenfold_pos one_pos _)
      rw [hquotient]
      exact hq
    simp only [List.isEmpty_cons, Bool.false_eq_true, if_false, List.length_cons, not_lt.mpr htop,
      not_lt.mpr hbottom, nearest, decimalValue_eq, ← hvalue, hnearest]

theorem nearestWord_le (num den : ℕ) : nearestWord num den ≤ infinityWord := by
  have hcap : ∀ word : ℕ, (if infinityWord < word then infinityWord else word) ≤ infinityWord := by
    intro word
    split <;> omega
  rw [nearestWord]
  by_cases hnum : num = 0
  · rw [if_pos hnum]
    exact Nat.zero_le _
  · rw [if_neg hnum]
    exact hcap _

/-- What is read without a sign is not negative. -/
theorem isNegative_ofDecimal (digits : List Char) (k : ℤ) :
    isNegative (ofDecimal false digits k) = false := by
  have hzero : isNegative (zero false) = false := isNegative_ofWord (Nat.zero_le _) false
  rw [ofDecimal]
  split
  · exact hzero
  · split
    · exact isNegative_ofWord le_rfl false
    · split
      · exact hzero
      · exact isNegative_ofWord (nearestWord_le _ _) false

end KakaLang.Number
