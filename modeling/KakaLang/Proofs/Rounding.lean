import KakaLang.Number.Shortest
import Mathlib.Algebra.Order.Field.Power
import Mathlib.Data.Rat.Cast.Order
import Mathlib.Tactic.FieldSimp
import Mathlib.Tactic.Linarith
import Mathlib.Tactic.NormNum
import Mathlib.Tactic.Positivity
import Mathlib.Tactic.Ring

/-!
Rounding a quotient to the nearest word. Quotients of naturals are read as rational numbers here,
and so are the ends of the interval of a word. The main statement is that every quotient in the
interval of a word rounds to that word. The only place where the exponent of the quotient differs
from that of the word is just below a power of two, where the significand rounds up and carries.
-/

namespace KakaLang.Number

theorem zpow_toNat_sub (b : ℚ) (hb : b ≠ 0) (k : ℤ) :
    b ^ (-k).toNat / b ^ k.toNat = b ^ (-k) := by
  rw [← zpow_natCast, ← zpow_natCast, ← zpow_sub₀ hb]
  congr 1
  omega

theorem shift_eq (n : ℕ) (k : ℤ) : (shift n k : ℚ) = n * 2 ^ k.toNat := by
  rw [shift, Nat.shiftLeft_eq]
  push_cast
  rfl

theorem tenfold_eq (n : ℕ) (k : ℤ) : (tenfold n k : ℚ) = n * 10 ^ k.toNat := by
  rw [tenfold, Nat.pow_eq]
  push_cast
  rfl

theorem shift_pos {n : ℕ} (h : 0 < n) (k : ℤ) : 0 < shift n k := by
  rw [shift, Nat.shiftLeft_eq]
  positivity

theorem tenfold_pos {n : ℕ} (h : 0 < n) (k : ℤ) : 0 < tenfold n k :=
  Nat.mul_pos h (Nat.pow_pos (by decide))

/-- Shifting either the numerator or the denominator multiplies a quotient by a power of two. -/
theorem shift_div (num den : ℕ) (k : ℤ) :
    (shift num (-k) : ℚ) / shift den k = num / den * 2 ^ (-k) := by
  rw [shift_eq, shift_eq, mul_div_mul_comm, zpow_toNat_sub 2 two_ne_zero]

theorem tenfold_div (num den : ℕ) (k : ℤ) :
    (tenfold num (-k) : ℚ) / tenfold den k = num / den * 10 ^ (-k) := by
  rw [tenfold_eq, tenfold_eq, mul_div_mul_comm, zpow_toNat_sub 10 (by norm_num)]

theorem shift_le_shift_iff {num den : ℕ} (hden : 0 < den) (k : ℤ) :
    shift den k ≤ shift num (-k) ↔ (2 : ℚ) ^ k ≤ num / den := by
  have hshift : (0 : ℚ) < shift den k := by exact_mod_cast shift_pos hden k
  have htwo : (0 : ℚ) < 2 ^ k := by positivity
  rw [← Nat.cast_le (α := ℚ), ← one_le_div hshift, shift_div, zpow_neg, ← div_eq_mul_inv,
    one_le_div htwo]

/-- The logarithm of a positive number, rounded down. -/
theorem log2_bounds {n : ℕ} (h : 0 < n) :
    (2 : ℚ) ^ (n.log2 : ℤ) ≤ n ∧ (n : ℚ) < 2 ^ ((n.log2 : ℤ) + 1) := by
  constructor
  · rw [zpow_natCast]
    exact_mod_cast Nat.log2_self_le h.ne'
  · rw [← Nat.cast_succ, zpow_natCast]
    exact_mod_cast Nat.lt_log2_self

theorem floorLog_bounds {num den : ℕ} (hnum : 0 < num) (hden : 0 < den) :
    (2 : ℚ) ^ floorLog num den ≤ num / den ∧ (num : ℚ) / den < 2 ^ (floorLog num den + 1) := by
  obtain ⟨hnumLow, hnumHigh⟩ := log2_bounds hnum
  obtain ⟨hdenLow, hdenHigh⟩ := log2_bounds hden
  have hden' : (0 : ℚ) < den := by exact_mod_cast hden
  set guess : ℤ := (num.log2 : ℤ) - den.log2 with hguess
  have hhigh : (num : ℚ) / den < 2 ^ (guess + 1) := by
    rw [div_lt_iff₀ hden']
    calc
      (num : ℚ) < 2 ^ ((num.log2 : ℤ) + 1) := hnumHigh
      _ = 2 ^ (guess + 1) * 2 ^ (den.log2 : ℤ) := by
        rw [← zpow_add₀ two_ne_zero]
        congr 1
        omega
      _ ≤ 2 ^ (guess + 1) * den := by gcongr
  have hlow : (2 : ℚ) ^ (guess - 1) ≤ num / den := by
    rw [le_div_iff₀ hden']
    calc
      (2 : ℚ) ^ (guess - 1) * den ≤ 2 ^ (guess - 1) * 2 ^ ((den.log2 : ℤ) + 1) := by gcongr
      _ = 2 ^ (num.log2 : ℤ) := by
        rw [← zpow_add₀ two_ne_zero]
        congr 1
        omega
      _ ≤ num := hnumLow
  rw [floorLog]
  simp only [← hguess, shift_le_shift_iff hden]
  split
  · rename_i h
    exact ⟨h, hhigh⟩
  · rename_i h
    rw [sub_add_cancel]
    exact ⟨hlow, lt_of_not_ge h⟩

/-- The logarithm is the only exponent with its bounds. -/
theorem floorLog_eq {num den : ℕ} (hnum : 0 < num) (hden : 0 < den) {k : ℤ}
    (hlow : (2 : ℚ) ^ k ≤ num / den) (hhigh : (num : ℚ) / den < 2 ^ (k + 1)) :
    floorLog num den = k := by
  obtain ⟨hlow', hhigh'⟩ := floorLog_bounds hnum hden
  have h₁ : k < floorLog num den + 1 :=
    (zpow_lt_zpow_iff_right₀ one_lt_two).mp (hlow.trans_lt hhigh')
  have h₂ : floorLog num den < k + 1 :=
    (zpow_lt_zpow_iff_right₀ one_lt_two).mp (hlow'.trans_lt hhigh)
  omega

/-- Between two ends, which count when the range is closed. -/
def Within (closed : Bool) (low high q : ℚ) : Prop :=
  if closed then low ≤ q ∧ q ≤ high else low < q ∧ q < high

namespace Within

variable {closed : Bool} {low high q : ℚ}

theorem le (h : Within closed low high q) : low ≤ q ∧ q ≤ high := by
  cases closed
  · exact ⟨h.1.le, h.2.le⟩
  · exact h

theorem lt (h : Within closed low high q) (hopen : closed = false) : low < q ∧ q < high := by
  subst hopen
  exact h

theorem of_lt (h : low < q ∧ q < high) : Within closed low high q := by
  cases closed
  · exact h
  · exact ⟨h.1.le, h.2.le⟩

/-- A point at or above the middle of a range is outside only beyond the upper end. -/
theorem high_le_of_not (h : ¬ Within closed low high q) (hlow : low < q) : high ≤ q := by
  by_contra hlt
  exact h (of_lt ⟨hlow, lt_of_not_ge hlt⟩)

theorem le_low_of_not (h : ¬ Within closed low high q) (hhigh : q < high) : q ≤ low := by
  by_contra hlt
  exact h (of_lt ⟨lt_of_not_ge hlt, hhigh⟩)

theorem mul_right {u : ℚ} (hu : 0 < u) (h : Within closed low high q) :
    Within closed (low * u) (high * u) (q * u) := by
  cases closed
  · exact ⟨mul_lt_mul_of_pos_right h.1 hu, mul_lt_mul_of_pos_right h.2 hu⟩
  · exact ⟨mul_le_mul_of_nonneg_right h.1 hu.le, mul_le_mul_of_nonneg_right h.2 hu.le⟩

end Within

theorem roundDiv_eq_of_bounds {num den m : ℕ} (hlow : 2 * m * den ≤ 2 * num + den)
    (hhigh : 2 * num ≤ 2 * m * den + den)
    (hodd : m % 2 = 1 → 2 * m * den < 2 * num + den ∧ 2 * num < 2 * m * den + den)
    (hden : 0 < den) : roundDiv num den = m := by
  have hsplit : den * (num / den) + num % den = num := Nat.div_add_mod num den
  have hrest : num % den < den := Nat.mod_lt num hden
  rw [roundDiv]
  generalize num / den = floor at *
  generalize num % den = rest at *
  subst hsplit
  have hle : m ≤ floor + 1 := by
    by_contra h
    have : (floor + 2) * den ≤ m * den := Nat.mul_le_mul_right den (by omega)
    nlinarith
  have hge : floor ≤ m := by
    by_contra h
    have : (m + 1) * den ≤ floor * den := Nat.mul_le_mul_right den (by omega)
    nlinarith
  -- The number is the floor or the one above it, and the rest tells which.
  obtain rfl | rfl : m = floor ∨ m = floor + 1 := by omega
  · have hhalf : 2 * rest ≤ den := by nlinarith
    by_cases hless : 2 * rest < den
    · simp [hless]
    · have heven : m % 2 = 0 := by
        by_contra h
        have := (hodd (by omega)).2
        nlinarith
      simp [hless, heven, Nat.not_lt.mpr hhalf]
  · have hhalf : den ≤ 2 * rest := by nlinarith
    by_cases hmore : den < 2 * rest
    · simp [hmore, Nat.not_lt.mpr hhalf]
    · have heven : (floor + 1) % 2 = 0 := by
        by_contra h
        have := (hodd (by omega)).1
        nlinarith
      have hfloor : floor % 2 = 1 := by omega
      simp [hmore, Nat.not_lt.mpr hhalf, hfloor]

/-- A quotient within a half of a natural number rounds to it, the half included when the number is
even. -/
theorem roundDiv_eq {num den m : ℕ} (hden : 0 < den)
    (h : Within (m % 2 = 0) (m - 1 / 2) (m + 1 / 2) ((num : ℚ) / den)) :
    roundDiv num den = m := by
  have hden' : (0 : ℚ) < den := by exact_mod_cast hden
  have hscaled := h.mul_right hden'
  rw [div_mul_cancel₀ _ hden'.ne'] at hscaled
  apply roundDiv_eq_of_bounds _ _ _ hden
  · have : (2 * m * den : ℚ) ≤ 2 * num + den := by linarith [hscaled.le.1]
    exact_mod_cast this
  · have : (2 * num : ℚ) ≤ 2 * m * den + den := by linarith [hscaled.le.2]
    exact_mod_cast this
  · intro hodd
    have hstrict := hscaled.lt (by simp [hodd])
    have hlow : (2 * m * den : ℚ) < 2 * num + den := by linarith [hstrict.1]
    have hhigh : (2 * num : ℚ) < 2 * m * den + den := by linarith [hstrict.2]
    exact ⟨by exact_mod_cast hlow, by exact_mod_cast hhigh⟩

/-- What the significand and the exponent of a positive finite word satisfy. -/
structure Dyadic.IsWord (d : Dyadic) (word : ℕ) : Prop where
  pos : 0 < d.significand
  lt : d.significand < 2 * leadingBit
  least_le : leastExponent ≤ d.exponent
  le_greatest : d.exponent ≤ 971
  normal : leastExponent < d.exponent → leadingBit ≤ d.significand
  word_eq : (d.exponent - leastExponent).toNat * leadingBit + d.significand = word

theorem Dyadic.isWord_ofWord {word : ℕ} (hpos : 0 < word) (hfinite : word < infinityWord) :
    (Dyadic.ofWord word).IsWord word := by
  rw [infinityWord] at hfinite
  rw [Dyadic.ofWord]
  by_cases hfield : word / leadingBit = 0
  · simp only [hfield, if_true]
    simp only [leadingBit] at hfield
    constructor <;> simp only [leadingBit, leastExponent] <;> omega
  · simp only [hfield, if_false]
    simp only [leadingBit] at hfield
    constructor <;> simp only [leadingBit, leastExponent] <;> omega

/-- The interval of a word reaches half a place up, and down half a place or, below a power of two,
a quarter. -/
structure Interval.Spans (span : Interval) (d : Dyadic) (gap : ℚ) : Prop where
  den_pos : 0 < span.den
  low_eq : (span.low : ℚ) / span.den = (d.significand - gap) * 2 ^ d.exponent
  middle_eq : (span.middle : ℚ) / span.den = d.significand * 2 ^ d.exponent
  high_eq : (span.high : ℚ) / span.den = (d.significand + 1 / 2) * 2 ^ d.exponent
  closed_eq : span.closed = decide (d.significand % 2 = 0)
  gap_eq : gap = 1 / 2 ∧ (d.significand = leadingBit → d.exponent ≤ leastExponent) ∨
    gap = 1 / 4 ∧ d.significand = leadingBit ∧ leastExponent < d.exponent

theorem Interval.spans_ofWord {word : ℕ} (hpos : 0 < word) (hfinite : word < infinityWord) :
    ∃ gap, (Interval.ofWord word).Spans (Dyadic.ofWord word) gap := by
  have hword := Dyadic.isWord_ofWord hpos hfinite
  have hpos := hword.pos
  set d := Dyadic.ofWord word with hd
  set lower := if d.significand = leadingBit && leastExponent < d.exponent then 1 else 2
    with hlower
  have hle : lower ≤ 4 * d.significand := by
    rw [hlower]
    split <;> omega
  have hquotient : ∀ n : ℕ, (shift n d.exponent : ℚ) / shift 4 (-d.exponent) =
      n / 4 * 2 ^ d.exponent := by
    intro n
    have h := shift_div n 4 (-d.exponent)
    rw [neg_neg] at h
    exact h
  refine ⟨lower / 4, shift_pos (by decide) _, ?_, ?_, ?_, rfl, ?_⟩
  · simp only [Interval.ofWord, ← hd, ← hlower, hquotient]
    push_cast [hle]
    ring
  · simp only [Interval.ofWord, ← hd, hquotient]
    push_cast
    ring
  · simp only [Interval.ofWord, ← hd, hquotient]
    push_cast
    ring
  · by_cases h : d.significand = leadingBit ∧ leastExponent < d.exponent
    · right
      refine ⟨?_, h⟩
      simp [hlower, h.1, h.2]
    · left
      refine ⟨?_, fun hs => not_lt.mp fun he => h ⟨hs, he⟩⟩
      have hbool : (decide (d.significand = leadingBit) && decide (leastExponent < d.exponent)) =
          false := by simpa [not_and] using h
      rw [hlower, hbool]
      norm_num

/-- The interval as a set of rational numbers. -/
def Interval.Contains (span : Interval) (q : ℚ) : Prop :=
  Within span.closed (span.low / span.den) (span.high / span.den) q

namespace Interval.Spans

variable {span : Interval} {d : Dyadic} {gap : ℚ} {word : ℕ} {q : ℚ}

theorem gap_pos (h : span.Spans d gap) : 0 < gap := by
  rcases h.gap_eq with ⟨rfl, -⟩ | ⟨rfl, -⟩ <;> norm_num

theorem gap_le (h : span.Spans d gap) : gap ≤ 1 / 2 := by
  rcases h.gap_eq with ⟨rfl, -⟩ | ⟨rfl, -⟩ <;> norm_num

/-- The place of a contained number in units of the last place of the significand. -/
theorem within (h : span.Spans d gap) (hq : span.Contains q) :
    Within (d.significand % 2 = 0) (d.significand - gap) (d.significand + 1 / 2)
      (q * 2 ^ (-d.exponent)) := by
  have hunit : (0 : ℚ) < 2 ^ (-d.exponent) := by positivity
  have hcancel : (2 : ℚ) ^ d.exponent * 2 ^ (-d.exponent) = 1 := by
    rw [← zpow_add₀ two_ne_zero, add_neg_cancel, zpow_zero]
  have hscaled := Within.mul_right hunit hq
  rw [h.low_eq, h.high_eq, mul_assoc, mul_assoc, hcancel, mul_one, mul_one, h.closed_eq] at hscaled
  exact hscaled

theorem pos (h : span.Spans d gap) (hd : d.IsWord word) (hq : span.Contains q) : 0 < q := by
  have hplace := (h.within hq).le.1
  have hone : (1 : ℚ) ≤ d.significand := by exact_mod_cast hd.pos
  have hpos : 0 < q * 2 ^ (-d.exponent) := by linarith [h.gap_le]
  exact pos_of_mul_pos_left hpos (by positivity)

/-- A contained number lies below the power of two that ends the exponent of the word. -/
theorem lt_zpow (h : span.Spans d gap) (hd : d.IsWord word) (hq : span.Contains q) :
    q < 2 ^ (d.exponent + 53) := by
  have hplace := (h.within hq).le.2
  have hs : (d.significand : ℚ) + 1 ≤ 2 ^ 53 := by exact_mod_cast hd.lt
  have hlt : q * 2 ^ (-d.exponent) < 2 ^ 53 := by linarith
  rw [zpow_neg, ← div_eq_mul_inv, div_lt_iff₀ (by positivity)] at hlt
  rw [add_comm, zpow_add₀ two_ne_zero]
  exact_mod_cast hlt

theorem zpow_le (h : span.Spans d gap) (hd : d.IsWord word) (hq : span.Contains q)
    (he : leastExponent < d.exponent) : (2 : ℚ) ^ (d.exponent + 51) ≤ q := by
  have hplace := (h.within hq).le.1
  have hs : (leadingBit : ℚ) ≤ d.significand := by exact_mod_cast hd.normal he
  have hhalf : (2 : ℚ) ^ (51 : ℤ) ≤ leadingBit - 1 / 2 := by norm_num [leadingBit]
  rw [zpow_neg, ← div_eq_mul_inv] at hplace
  rw [add_comm, zpow_add₀ two_ne_zero, ← le_div_iff₀ (by positivity)]
  linarith [h.gap_le]

/-- Below the power of two that starts the exponent of a word lie only numbers near that power. -/
theorem of_lt_zpow (h : span.Spans d gap) (hd : d.IsWord word) (hq : span.Contains q)
    (he : leastExponent < d.exponent) (hlt : q < 2 ^ (d.exponent + 52)) :
    d.significand = leadingBit ∧ gap = 1 / 4 := by
  have hplace := (h.within hq).le.1
  have hfirst : (2 : ℚ) ^ (52 : ℤ) = leadingBit := by norm_num [leadingBit]
  rw [add_comm, zpow_add₀ two_ne_zero, hfirst, ← div_lt_iff₀ (by positivity), div_eq_mul_inv,
    ← zpow_neg] at hlt
  have hs : (d.significand : ℚ) < leadingBit + 1 := by linarith [h.gap_le]
  have hs' : d.significand < leadingBit + 1 := by exact_mod_cast hs
  have hnormal := hd.normal he
  have heq : d.significand = leadingBit := by omega
  rcases h.gap_eq with ⟨-, hleast⟩ | ⟨hgap, -⟩
  · exact absurd (hleast heq) (not_le.mpr he)
  · exact ⟨heq, hgap⟩

end Interval.Spans

/-- A quotient rounded at its exponent, the word being put together from both. -/
theorem nearestWord_of_round {num den word s : ℕ} {e : ℤ} (hnum : 0 < num)
    (he : max (floorLog num den - 52) leastExponent = e)
    (hs : roundDiv (shift num (-e)) (shift den e) = s)
    (hword : (e - leastExponent).toNat * leadingBit + s = word) (hfinite : word < infinityWord) :
    nearestWord num den = word := by
  have hexponent : (if floorLog num den - 52 < leastExponent then leastExponent
      else floorLog num den - 52) = e := by
    rw [← he]
    split <;> omega
  simp only [nearestWord, if_neg hnum.ne', hexponent, hs, hword, if_neg hfinite.not_gt]

/-- At the exponent of the word a contained quotient rounds to the significand. -/
theorem Interval.Spans.roundDiv_eq {span : Interval} {d : Dyadic} {gap : ℚ} {num den : ℕ}
    (h : span.Spans d gap) (hden : 0 < den) (hq : span.Contains ((num : ℚ) / den)) :
    roundDiv (shift num (-d.exponent)) (shift den d.exponent) = d.significand := by
  have hplace := h.within hq
  apply Number.roundDiv_eq (shift_pos hden _)
  rw [shift_div]
  by_cases heven : d.significand % 2 = 0
  · have hends := hplace.le
    simp only [heven, Within, decide_true, if_true]
    exact ⟨by linarith [h.gap_le], hends.2⟩
  · have hends := hplace.lt (by simp [heven])
    exact Within.of_lt ⟨by linarith [h.gap_le], hends.2⟩

/-- One exponent lower, a quotient just below a power of two rounds up to it. -/
theorem Interval.Spans.roundDiv_eq_carry {span : Interval} {d : Dyadic} {num den : ℕ}
    (h : span.Spans d (1 / 4)) (hden : 0 < den) (hq : span.Contains ((num : ℚ) / den))
    (hs : d.significand = leadingBit) (hlt : (num : ℚ) / den < 2 ^ (d.exponent + 52)) :
    roundDiv (shift num (-(d.exponent - 1))) (shift den (d.exponent - 1)) = 2 * leadingBit := by
  have hplace := (h.within hq).le.1
  have hdouble : ((num : ℚ) / den) * 2 ^ (-(d.exponent - 1)) =
      2 * (num / den * 2 ^ (-d.exponent)) := by
    rw [neg_sub, sub_eq_add_neg, zpow_add₀ two_ne_zero, zpow_one]
    ring
  have hfirst : (2 : ℚ) ^ (52 : ℤ) = leadingBit := by norm_num [leadingBit]
  rw [add_comm, zpow_add₀ two_ne_zero, hfirst, ← div_lt_iff₀ (by positivity), div_eq_mul_inv,
    ← zpow_neg] at hlt
  apply Number.roundDiv_eq (shift_pos hden _)
  rw [shift_div, hdouble, Nat.mul_mod_right]
  rw [hs] at hplace
  refine ⟨?_, ?_⟩ <;> push_cast <;> linarith

/-- Every quotient in the interval of a word rounds to that word. -/
theorem nearestWord_eq {word num den : ℕ} (hpos : 0 < word) (hfinite : word < infinityWord)
    (hden : 0 < den) (hq : (Interval.ofWord word).Contains ((num : ℚ) / den)) :
    nearestWord num den = word := by
  have hd := Dyadic.isWord_ofWord hpos hfinite
  obtain ⟨gap, hspan⟩ := Interval.spans_ofWord hpos hfinite
  set d := Dyadic.ofWord word
  have hnum : 0 < num := by
    have hquotient := hspan.pos hd hq
    by_contra h
    have hzero : num = 0 := by omega
    simp [hzero] at hquotient
  obtain ⟨hlow, -⟩ := floorLog_bounds hnum hden
  have hlog : floorLog num den < d.exponent + 53 :=
    (zpow_lt_zpow_iff_right₀ one_lt_two).mp (hlow.trans_lt (hspan.lt_zpow hd hq))
  have hleast := hd.least_le
  by_cases hcarry : leastExponent < d.exponent ∧ (num : ℚ) / den < 2 ^ (d.exponent + 52)
  · obtain ⟨hs, rfl⟩ := hspan.of_lt_zpow hd hq hcarry.1 hcarry.2
    have hexponent : floorLog num den = d.exponent + 51 := by
      apply floorLog_eq hnum hden (hspan.zpow_le hd hq hcarry.1)
      rw [add_assoc]
      exact hcarry.2
    have hword := hd.word_eq
    have hround := hspan.roundDiv_eq_carry hden hq hs hcarry.2
    apply nearestWord_of_round hnum (by omega) hround _ hfinite
    rw [hs] at hword
    rw [← hword]
    simp only [leadingBit]
    omega
  · have hexponent : max (floorLog num den - 52) leastExponent = d.exponent := by
      by_cases he : leastExponent < d.exponent
      · have hge : (2 : ℚ) ^ (d.exponent + 52) ≤ num / den := not_lt.mp fun h => hcarry ⟨he, h⟩
        have hlog' : floorLog num den = d.exponent + 52 := by
          apply floorLog_eq hnum hden hge
          rw [add_assoc]
          exact hspan.lt_zpow hd hq
        omega
      · omega
    exact nearestWord_of_round hnum hexponent (hspan.roundDiv_eq hden hq) hd.word_eq hfinite

end KakaLang.Number
