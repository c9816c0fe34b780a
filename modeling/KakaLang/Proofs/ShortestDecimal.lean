import KakaLang.Proofs.Rounding

/-!
The shortest decimal of a word lies in the interval of the word, so it reads back as that word. The
search over ever finer grids of powers of ten succeeds within seventeen digits: a step of the last
grid is smaller than the interval, so that the two neighbours of the number cannot both miss it.
-/

namespace KakaLang.Number

/-- The rational number that a decimal denotes. -/
def Decimal.value (d : Decimal) : ℚ := d.digits * 10 ^ d.exponent

theorem Decimal.value_reduce (n : ℕ) (k : ℤ) : (Decimal.reduce n k).value = n * 10 ^ k := by
  induction n, k using Decimal.reduce.induct with
  | case1 n k h ih =>
    rw [Decimal.reduce, if_pos h, ih]
    have hten : (10 * (n / 10 : ℕ) : ℚ) = n := by exact_mod_cast (by omega : 10 * (n / 10) = n)
    rw [← hten, zpow_add₀ (by norm_num), zpow_one]
    ring
  | case2 n k h =>
    rw [Decimal.reduce, if_neg h]
    rfl

/-- Digits over a denominator and an end of an interval, brought to one scale. -/
theorem tenfold_mul_eq (n den : ℕ) (k : ℤ) :
    (tenfold (n * den) k : ℚ) = n * 10 ^ k * (den * 10 ^ (-k).toNat) := by
  have hsplit : (10 : ℚ) ^ k * 10 ^ (-k).toNat = 10 ^ k.toNat := by
    rw [← zpow_natCast, ← zpow_natCast, ← zpow_add₀ (by norm_num)]
    congr 1
    omega
  rw [tenfold_eq, ← hsplit]
  push_cast
  ring

theorem tenfold_neg_eq (a : ℕ) {den : ℕ} (hden : 0 < den) (k : ℤ) :
    (tenfold a (-k) : ℚ) = a / den * (den * 10 ^ (-k).toNat) := by
  have hden' : (den : ℚ) ≠ 0 := by exact_mod_cast hden.ne'
  rw [tenfold_eq, ← mul_assoc, div_mul_cancel₀ _ hden']

namespace Interval

variable {span : Interval} {d : Dyadic} {gap : ℚ} {word : ℕ}

theorem holds_iff (hden : 0 < span.den) (n : ℕ) (k : ℤ) :
    span.holds n k = true ↔ span.Contains (n * 10 ^ k) := by
  have hscale : (0 : ℚ) < span.den * 10 ^ (-k).toNat := by
    have : (0 : ℚ) < span.den := by exact_mod_cast hden
    positivity
  have hpoint := tenfold_mul_eq n span.den k
  have hlow := tenfold_neg_eq span.low hden k
  have hhigh := tenfold_neg_eq span.high hden k
  rw [holds, Contains, Within]
  cases span.closed
  · simp only [Bool.false_eq_true, if_false, Bool.and_eq_true, decide_eq_true_eq]
    rw [← Nat.cast_lt (α := ℚ), ← Nat.cast_lt (α := ℚ), hpoint, hlow, hhigh,
      mul_lt_mul_iff_left₀ hscale, mul_lt_mul_iff_left₀ hscale]
  · simp only [if_true, Bool.and_eq_true, decide_eq_true_eq]
    rw [← Nat.cast_le (α := ℚ), ← Nat.cast_le (α := ℚ), hpoint, hlow, hhigh,
      mul_le_mul_iff_left₀ hscale, mul_le_mul_iff_left₀ hscale]

/-- A found point of a grid lies in the interval. -/
theorem contains_of_onGrid? (hden : 0 < span.den) {n : ℕ} {k : ℤ}
    (h : span.onGrid? k = some n) : span.Contains (n * 10 ^ k) := by
  rw [← holds_iff hden]
  rw [onGrid?] at h
  simp only at h
  split at h
  · split at h <;> cases h <;> assumption
  · cases h
    assumption
  · cases h
    assumption
  · cases h

theorem not_contains_of_onGrid? (hden : 0 < span.den) {k : ℤ} (h : span.onGrid? k = none) :
    ¬ span.Contains (span.below k * 10 ^ k) ∧ ¬ span.Contains ((span.below k + 1 : ℕ) * 10 ^ k) := by
  rw [← holds_iff hden, ← holds_iff hden]
  rw [onGrid?] at h
  simp only at h
  split at h
  · split at h <;> cases h
  · cases h
  · cases h
  · simp_all

/-- The middle lies between its two neighbours on a grid. -/
theorem below_bounds (hden : 0 < span.den) (k : ℤ) :
    span.below k * (10 : ℚ) ^ k ≤ span.middle / span.den ∧
      (span.middle : ℚ) / span.den < (span.below k + 1 : ℕ) * 10 ^ k := by
  have hpos : 0 < tenfold span.den k := tenfold_pos hden k
  have hpos' : (0 : ℚ) < tenfold span.den k := by exact_mod_cast hpos
  have hten : (0 : ℚ) < 10 ^ k := by positivity
  have hquotient : (tenfold span.middle (-k) : ℚ) / tenfold span.den k =
      span.middle / span.den / 10 ^ k := by
    rw [tenfold_div, zpow_neg, ← div_eq_mul_inv]
  constructor
  · rw [← le_div_iff₀ hten, ← hquotient, le_div_iff₀ hpos']
    exact_mod_cast Nat.div_mul_le_self _ _
  · rw [← div_lt_iff₀ hten, ← hquotient, div_lt_iff₀ hpos']
    exact_mod_cast Nat.lt_mul_of_div_lt (Nat.lt_succ_self _) hpos

end Interval

theorem decimalWidth_bounds {n : ℕ} (h : 0 < n) :
    10 ^ (Text.decimalWidth n - 1) ≤ n ∧ n < 10 ^ Text.decimalWidth n ∧
      0 < Text.decimalWidth n := by
  induction n using Text.decimalWidth.induct with
  | case1 => omega
  | case2 n hn ih =>
    rw [Text.decimalWidth, if_neg hn, Nat.add_sub_cancel]
    by_cases hsmall : n / 10 = 0
    · have hwidth : Text.decimalWidth (n / 10) = 0 := by rw [hsmall, Text.decimalWidth, if_pos rfl]
      rw [hwidth]
      omega
    · obtain ⟨hlow, hhigh, hpos⟩ := ih (by omega)
      have hstep : 10 ^ Text.decimalWidth (n / 10) =
          10 * 10 ^ (Text.decimalWidth (n / 10) - 1) := by
        rw [← pow_succ']
        congr 1
        omega
      rw [pow_succ]
      omega

namespace Interval

variable {span : Interval}

/-- The top is the decimal exponent of the middle. -/
theorem top_bounds (hden : 0 < span.den) (hmiddle : 0 < span.middle) :
    (10 : ℚ) ^ (span.top - 1) ≤ span.middle / span.den ∧
      (span.middle : ℚ) / span.den < 10 ^ span.top := by
  have hden' : (0 : ℚ) < span.den := by exact_mod_cast hden
  have hmiddle' : (0 : ℚ) < span.middle := by exact_mod_cast hmiddle
  rw [top]
  by_cases hle : span.den ≤ span.middle
  · rw [if_pos hle]
    obtain ⟨hlow, hhigh, hpos⟩ := decimalWidth_bounds (Nat.div_pos hle hden)
    set width := Text.decimalWidth (span.middle / span.den)
    have hcast : ((width : ℤ) - 1) = (width - 1 : ℕ) := by omega
    rw [hcast, zpow_natCast, zpow_natCast, le_div_iff₀ hden', div_lt_iff₀ hden']
    constructor
    · exact_mod_cast (Nat.le_div_iff_mul_le hden).mp hlow
    · exact_mod_cast (Nat.div_lt_iff_lt_mul hden).mp hhigh
  · rw [if_neg hle]
    obtain ⟨hlow, hhigh, hpos⟩ :=
      decimalWidth_bounds (Nat.div_pos (by omega : span.middle ≤ span.den - 1) hmiddle)
    set width := Text.decimalWidth ((span.den - 1) / span.middle)
    have htop : (1 : ℤ) - width = -(width - 1 : ℕ) := by omega
    have hnext : (1 : ℤ) - width - 1 = -(width : ℕ) := by omega
    rw [hnext, htop, zpow_neg, zpow_neg, zpow_natCast, zpow_natCast]
    have hlow' := (Nat.le_div_iff_mul_le hmiddle).mp hlow
    have hhigh' := (Nat.div_lt_iff_lt_mul hmiddle).mp hhigh
    constructor
    · rw [inv_le_comm₀ (by positivity) (by positivity), inv_div, div_le_iff₀ hmiddle']
      exact_mod_cast (by omega : span.den ≤ 10 ^ width * span.middle)
    · rw [lt_inv_comm₀ (by positivity) (by positivity), inv_div, lt_div_iff₀ hmiddle']
      exact_mod_cast (by omega : 10 ^ (width - 1) * span.middle < span.den)

variable {d : Dyadic} {gap : ℚ} {word : ℕ}

/-- With seventeen digits one of the two neighbours of the middle lies in the interval. -/
theorem onGrid?_ne_none (hspan : span.Spans d gap) (hd : d.IsWord word) :
    span.onGrid? (span.top - 17) ≠ none := by
  intro hnone
  have hden := hspan.den_pos
  have hunit : (0 : ℚ) < 2 ^ d.exponent := by positivity
  have hs : (1 : ℚ) ≤ d.significand := by exact_mod_cast hd.pos
  have hgap := hspan.gap_pos
  have hlow : (span.low : ℚ) / span.den < span.middle / span.den := by
    rw [hspan.low_eq, hspan.middle_eq, mul_lt_mul_iff_left₀ hunit]
    linarith
  have hhigh : (span.middle : ℚ) / span.den < span.high / span.den := by
    rw [hspan.high_eq, hspan.middle_eq, mul_lt_mul_iff_left₀ hunit]
    linarith
  have hmiddle : 0 < span.middle := by
    have hpos : (0 : ℚ) < span.middle / span.den := by
      rw [hspan.middle_eq]
      positivity
    by_contra h
    have hzero : span.middle = 0 := by omega
    simp [hzero] at hpos
  obtain ⟨hdown, hup⟩ := not_contains_of_onGrid? hden hnone
  obtain ⟨hbelow, habove⟩ := below_bounds hden (span.top - 17)
  have hdown' := Within.le_low_of_not hdown (hbelow.trans_lt hhigh)
  have hup' := Within.high_le_of_not hup (hlow.trans habove)
  -- Both neighbours miss the interval, so it fits into one step of the grid.
  have hstep : (1 / 2 + gap) * 2 ^ d.exponent ≤ (10 : ℚ) ^ (span.top - 17) := by
    rw [hspan.low_eq] at hdown'
    rw [hspan.high_eq] at hup'
    push_cast at hup'
    linarith
  obtain ⟨htop, -⟩ := top_bounds hden hmiddle
  have hsixteen : (10 : ℚ) ^ (span.top - 1) = 10 ^ 16 * 10 ^ (span.top - 17) := by
    rw [← zpow_natCast, ← zpow_add₀ (by norm_num)]
    congr 1
    push_cast
    ring
  have hdigits : (10 : ℚ) ^ 16 * (1 / 2 + gap) ≤ d.significand := by
    rw [hsixteen, hspan.middle_eq] at htop
    have hall : 10 ^ 16 * (1 / 2 + gap) * 2 ^ d.exponent ≤ d.significand * (2 : ℚ) ^ d.exponent := by
      linarith
    exact (mul_le_mul_iff_left₀ hunit).mp hall
  rcases hspan.gap_eq with ⟨rfl, -⟩ | ⟨rfl, hs, -⟩
  · have hlt : (d.significand : ℚ) < 2 * leadingBit := by exact_mod_cast hd.lt
    norm_num [leadingBit] at hlt hdigits
    linarith
  · rw [hs] at hdigits
    norm_num [leadingBit] at hdigits

/-- A search over grids of which one has a point in the interval ends with such a point. -/
theorem search_contains (hden : 0 < span.den) {grids : ℕ} {k : ℤ} {steps : ℕ}
    (hsteps : steps < grids) (h : span.onGrid? (k - steps) ≠ none) :
    span.Contains (span.search grids k).value := by
  induction grids generalizing k steps with
  | zero => omega
  | succ grids ih =>
    rw [search]
    cases hgrid : span.onGrid? k with
    | some n => exact contains_of_onGrid? hden hgrid
    | none =>
      cases steps with
      | zero => simp [hgrid] at h
      | succ steps =>
        apply ih (by omega : steps < grids)
        have hshift : k - 1 - steps = k - (steps + 1 : ℕ) := by omega
        rw [hshift]
        exact h

end Interval

/-- The shortest decimal of a positive finite word rounds to that word. -/
theorem shortest_contains {word : ℕ} (hpos : 0 < word) (hfinite : word < infinityWord) :
    (Interval.ofWord word).Contains (shortest word).value := by
  have hd := Dyadic.isWord_ofWord hpos hfinite
  obtain ⟨gap, hspan⟩ := Interval.spans_ofWord hpos hfinite
  rw [shortest, Decimal.value_reduce]
  apply Interval.search_contains hspan.den_pos (by decide : 16 < 17)
  have hlast : (Interval.ofWord word).top - 1 - (16 : ℕ) = (Interval.ofWord word).top - 17 := by
    omega
  rw [hlast]
  exact Interval.onGrid?_ne_none hspan hd

end KakaLang.Number
