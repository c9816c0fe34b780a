import KakaLang.Proofs.NumeralGrammar
import KakaLang.Proofs.Rendering
import Mathlib.Data.Nat.Digits.Defs

/-!
Digits of a radix, rounded one by one. As long as the digits read so far make an integer of at most
53 bits, nothing is rounded. The digit that makes it longer is the last one that counts: from there
on a number is so coarse that one more digit is less than half a step of it, and is rounded away. So
the number is that of the digits up to there with zeros after them, and it differs from the integer
rounded once just when those digits lie halfway between two numbers, go down to an even one, and
something else than zeros was dropped.
-/

namespace KakaLang.Number

open Text

theorem div_mod_of_lt {q r den : ℕ} (h : r < den) :
    (q * den + r) / den = q ∧ (q * den + r) % den = r := by
  have hpos : 0 < den := by omega
  constructor
  · rw [Nat.add_comm, Nat.add_mul_div_right _ _ hpos, Nat.div_eq_of_lt h, Nat.zero_add]
  · rw [Nat.add_comm, Nat.add_mul_mod_self_right, Nat.mod_eq_of_lt h]

/-- A quotient with its rest rounds by comparing the rest with a half. -/
theorem roundDiv_add {q r den : ℕ} (h : r < den) :
    roundDiv (q * den + r) den =
      if 2 * r < den then q else if den < 2 * r then q + 1 else q + q % 2 := by
  obtain ⟨hfloor, hrest⟩ := div_mod_of_lt h
  rw [roundDiv, hfloor, hrest]

theorem roundDiv_of_lt {q r den : ℕ} (h : 2 * r < den) : roundDiv (q * den + r) den = q := by
  rw [roundDiv_add (by omega), if_pos h]

/-- An integer of more than 53 bits halfway between two numbers of which the lower one is even. -/
def TiesDown (n : ℕ) : Prop :=
  ∃ s e, n = (2 * s + 1) * 2 ^ e ∧ s % 2 = 0 ∧ 2 ^ 52 ≤ s ∧ s < 2 ^ 53

theorem log2_eq {n k : ℕ} (hlow : 2 ^ k ≤ n) (hhigh : n < 2 ^ (k + 1)) : n.log2 = k := by
  have hpos : n ≠ 0 := by
    have := Nat.two_pow_pos k
    omega
  exact (Nat.log2_eq_iff hpos).mpr ⟨hlow, hhigh⟩

/-- The word of an integer of at least 53 bits, as if words went on beyond infinity. -/
def longWord (n : ℕ) : ℕ :=
  (n.log2 - 52 + 1074) * leadingBit + roundDiv n (2 ^ (n.log2 - 52))

theorem floorLog_one {n : ℕ} (h : 0 < n) : floorLog n 1 = n.log2 := by
  obtain ⟨hlow, hhigh⟩ := log2_bounds h
  exact floorLog_eq h one_pos (by simpa using hlow) (by simpa using hhigh)

theorem nearestWord_long {n : ℕ} (h : 2 ^ 52 ≤ n) :
    nearestWord n 1 = min infinityWord (longWord n) := by
  have hpos : 0 < n := lt_of_lt_of_le (Nat.two_pow_pos 52) h
  have hlog : 52 ≤ n.log2 := (Nat.le_log2 hpos.ne').mpr h
  have hexponent : (n.log2 : ℤ) - 52 = (n.log2 - 52 : ℕ) := by omega
  have hnum : shift n (-(n.log2 - 52 : ℕ)) = n := by
    rw [shift, Int.toNat_neg_natCast]
    rfl
  have hden : shift 1 (n.log2 - 52 : ℕ) = 2 ^ (n.log2 - 52) := by
    rw [shift, Int.toNat_natCast, Nat.one_shiftLeft]
  have hplace : (((n.log2 - 52 : ℕ) : ℤ) - leastExponent).toNat = n.log2 - 52 + 1074 := by
    rw [leastExponent]
    omega
  have hleast : ¬ ((n.log2 - 52 : ℕ) : ℤ) < leastExponent := by
    rw [leastExponent]
    omega
  rw [nearestWord, if_neg hpos.ne']
  simp only [floorLog_one hpos, hexponent, if_neg hleast, hnum, hden, hplace]
  rw [← longWord]
  by_cases hcap : infinityWord < longWord n
  · rw [if_pos hcap, Nat.min_eq_left hcap.le]
  · rw [if_neg hcap, Nat.min_eq_right (Nat.not_lt.mp hcap)]

/-- The leading bit of an integer of a given length, shifted up with less than a step added. -/
theorem log2_shifted {s k e r : ℕ} (hs : 2 ^ k ≤ s) (hs' : s < 2 ^ (k + 1)) (hr : r < 2 ^ e) :
    (s * 2 ^ e + r).log2 = k + e := by
  apply log2_eq
  · rw [pow_add]
    exact le_trans (Nat.mul_le_mul_right _ hs) (Nat.le_add_right _ _)
  · calc
      s * 2 ^ e + r < (s + 1) * 2 ^ e := by rw [Nat.add_mul]; omega
      _ ≤ 2 ^ (k + 1) * 2 ^ e := Nat.mul_le_mul_right _ hs'
      _ = 2 ^ (k + e + 1) := by rw [← pow_add]; congr 1; omega

/-- Near an integer of at most 53 bits with zeros after them, rounding gives those bits. A carry
into one bit more does no harm. -/
theorem longWord_of_near {s e r : ℕ} (hs : 2 ^ 52 ≤ s) (hs' : s ≤ 2 ^ 53) (hr : 2 * r < 2 ^ e) :
    longWord (s * 2 ^ e + r) = (e + 1074) * leadingBit + s := by
  by_cases hcarry : s = 2 ^ 53
  · have hlog : (s * 2 ^ e + r).log2 = 53 + e := log2_shifted hcarry.ge (by omega) (by omega)
    have hdouble : s * 2 ^ e = 2 ^ 52 * 2 ^ (e + 1) := by
      rw [hcarry, ← pow_add, ← pow_add]
      congr 1
      omega
    have hround : roundDiv (s * 2 ^ e + r) (2 ^ (e + 1)) = 2 ^ 52 := by
      rw [hdouble]
      apply roundDiv_of_lt
      rw [pow_succ]
      omega
    have hplace : 53 + e - 52 = e + 1 := by omega
    rw [longWord, hlog, hplace, hround, hcarry, leadingBit]
    omega
  · have hlog : (s * 2 ^ e + r).log2 = 52 + e := log2_shifted hs (by omega) (by omega)
    rw [longWord, hlog, Nat.add_sub_cancel_left, roundDiv_of_lt hr]

/-- A word is put together from its significand and its exponent and taken apart again. -/
theorem Dyadic.ofWord_eq {s : ℕ} {e : ℤ} (hs : leadingBit ≤ s) (hs' : s < 2 * leadingBit)
    (he : leastExponent ≤ e) :
    Dyadic.ofWord ((e - leastExponent).toNat * leadingBit + s) = ⟨s, e⟩ := by
  set k := (e - leastExponent).toNat with hk
  have hfield : (k * leadingBit + s) / leadingBit = k + 1 := by
    rw [leadingBit] at *
    omega
  have hfraction : (k * leadingBit + s) % leadingBit = s - leadingBit := by
    rw [leadingBit] at *
    omega
  have hexponent : leastExponent + ((k + 1 - 1 : ℕ) : ℤ) = e := by omega
  have hsignificand : leadingBit + (s - leadingBit) = s := by omega
  simp only [Dyadic.ofWord, hfield, hfraction, Nat.succ_ne_zero, if_false, hexponent, hsignificand]

/-- The integer that a finite word stands for. -/
theorem toNat?_ofWord {s n : ℕ} {e : ℤ} (hs : leadingBit ≤ s) (hs' : s < 2 * leadingBit)
    (he : leastExponent ≤ e)
    (hfinite : (e - leastExponent).toNat * leadingBit + s < infinityWord)
    (hn : shift n (-e) = shift s e) :
    toNat? (ofWord false ((e - leastExponent).toNat * leadingBit + s)) = some n := by
  rw [toNat?, magnitude_ofWord hfinite.le, isNegative_ofWord hfinite.le,
    if_neg (Nat.not_le.mpr hfinite), Dyadic.ofWord_eq hs hs' he]
  simp only [shift, Nat.shiftLeft_eq, Nat.one_mul] at hn ⊢
  by_cases hsign : 0 ≤ e
  · have hneg : (-e).toNat = 0 := by omega
    rw [hneg, pow_zero, Nat.mul_one] at hn
    simp [hneg, hn, Nat.mod_one]
  · have hpos : e.toNat = 0 := by omega
    rw [hpos, pow_zero, Nat.mul_one] at hn
    simp [hpos, ← hn]

/-- The same for an integer of 53 bits and zeros after them, a carry included. -/
theorem toNat?_ofWord_long {s e : ℕ} (hs : 2 ^ 52 ≤ s) (hs' : s ≤ 2 ^ 53)
    (hfinite : (e + 1074) * leadingBit + s < infinityWord) :
    toNat? (ofWord false ((e + 1074) * leadingBit + s)) = some (s * 2 ^ e) := by
  have hbit : leadingBit = 2 ^ 52 := by decide
  have hcast (k : ℕ) : ((k : ℤ) - leastExponent).toNat = k + 1074 := by
    rw [leastExponent]
    omega
  have hleast (k : ℕ) : leastExponent ≤ (k : ℤ) := by
    rw [leastExponent]
    omega
  have hshift (s n k : ℕ) (h : n = s * 2 ^ k) : shift n (-(k : ℤ)) = shift s k := by
    rw [shift, shift, Int.toNat_neg_natCast, Int.toNat_natCast, Nat.shiftLeft_zero,
      Nat.shiftLeft_eq, h]
  by_cases hcarry : s = 2 ^ 53
  · have hword : (e + 1074) * leadingBit + s =
        (((e + 1 : ℕ) : ℤ) - leastExponent).toNat * leadingBit + leadingBit := by
      rw [hcast, hcarry, hbit]
      omega
    have hvalue : s * 2 ^ e = leadingBit * 2 ^ (e + 1) := by
      rw [hcarry, hbit, ← pow_add, ← pow_add]
      congr 1
      omega
    rw [hword] at hfinite ⊢
    exact toNat?_ofWord le_rfl (by rw [hbit]; decide) (hleast _) hfinite (hshift _ _ _ hvalue)
  · have hword : (e + 1074) * leadingBit + s =
        ((e : ℤ) - leastExponent).toNat * leadingBit + s := by rw [hcast]
    rw [hword] at hfinite ⊢
    exact toNat?_ofWord (by omega) (by omega) (hleast e) hfinite (hshift _ _ _ rfl)

/-- An integer of at most 53 bits, shifted up to have all 53 of them. -/
theorem significand_bounds {n : ℕ} (hzero : n ≠ 0) (hlog : n.log2 ≤ 52) :
    leadingBit ≤ n * 2 ^ (52 - n.log2) ∧ n * 2 ^ (52 - n.log2) < 2 * leadingBit := by
  have hbit : leadingBit = 2 ^ n.log2 * 2 ^ (52 - n.log2) := by
    rw [← pow_add, Nat.add_sub_cancel' hlog]
    decide
  have hdouble : 2 * leadingBit = 2 ^ (n.log2 + 1) * 2 ^ (52 - n.log2) := by
    rw [hbit, pow_succ]
    ring
  constructor
  · rw [hbit]
    exact Nat.mul_le_mul_right _ (Nat.log2_self_le hzero)
  · rw [hdouble]
    exact Nat.mul_lt_mul_of_pos_right Nat.lt_log2_self (Nat.two_pow_pos _)

/-- Integers of at most 53 bits are numbers. -/
theorem toNat?_nearest {n : ℕ} (h : n < 2 ^ 53) : toNat? (nearest false n 1) = some n := by
  by_cases hzero : n = 0
  · subst hzero
    decide +kernel
  have hpos : 0 < n := Nat.pos_of_ne_zero hzero
  have hlog : n.log2 ≤ 52 := by
    have := (Nat.log2_lt hzero).mpr h
    omega
  set e : ℤ := (n.log2 : ℤ) - 52 with he
  have hleast : leastExponent ≤ e := by
    rw [leastExponent]
    omega
  have hden : shift 1 e = 1 := by
    have : e.toNat = 0 := by omega
    rw [shift, this]
    rfl
  have hnum : shift n (-e) = n * 2 ^ (52 - n.log2) := by
    have : (-e).toNat = 52 - n.log2 := by omega
    rw [shift, this, Nat.shiftLeft_eq]
  have hround : roundDiv (shift n (-e)) (shift 1 e) = shift n (-e) := by
    have hexact : roundDiv (shift n (-e) * 1 + 0) 1 = shift n (-e) := roundDiv_of_lt (by decide)
    rwa [Nat.mul_one, Nat.add_zero, ← hden] at hexact
  obtain ⟨hlow, hhigh⟩ := significand_bounds hzero hlog
  rw [← hnum] at hlow hhigh
  have hfinite : (e - leastExponent).toNat * leadingBit + shift n (-e) < infinityWord := by
    have hplace : (e - leastExponent).toNat ≤ 1074 := by
      rw [leastExponent]
      omega
    have hword := Nat.mul_le_mul_right leadingBit hplace
    rw [leadingBit] at hword hhigh ⊢
    rw [infinityWord]
    omega
  have hexponent : max (floorLog n 1 - 52) leastExponent = e := by
    rw [floorLog_one hpos]
    exact max_eq_left hleast
  rw [nearest, nearestWord_of_round hpos hexponent hround rfl hfinite]
  refine toNat?_ofWord hlow hhigh hleast hfinite ?_
  have : e.toNat = 0 := by omega
  rw [shift, shift, this]
  rfl

/-- Before the digits are too many, one more of them is rounded once with all the others. -/
theorem appendDigit_of_lt {n : ℕ} (h : n < 2 ^ 53) (base digit : ℕ) :
    appendDigit base (nearest false n 1) digit = nearest false (n * base + digit) 1 := by
  rw [appendDigit, toNat?_nearest h]

/-- An integer of more than 53 bits as the first 53 of them and what is rounded. -/
theorem exists_leading {n : ℕ} (h : 2 ^ 53 ≤ n) :
    ∃ i q t, n = q * 2 ^ (i + 1) + t ∧ t < 2 ^ (i + 1) ∧ 2 ^ 52 ≤ q ∧ q < 2 ^ 53 := by
  have hzero : n ≠ 0 := by
    have := Nat.two_pow_pos 53
    omega
  have hlog : 53 ≤ n.log2 := (Nat.le_log2 hzero).mpr h
  obtain ⟨i, hi⟩ := Nat.exists_eq_add_of_le hlog
  have hpower := Nat.two_pow_pos (i + 1)
  refine ⟨i, n / 2 ^ (i + 1), n % 2 ^ (i + 1), ?_, Nat.mod_lt _ hpower, ?_, ?_⟩
  · rw [Nat.mul_comm, Nat.div_add_mod]
  · rw [Nat.le_div_iff_mul_le hpower, ← pow_add]
    have hsum : 52 + (i + 1) = n.log2 := by omega
    rw [hsum]
    exact Nat.log2_self_le hzero
  · rw [Nat.div_lt_iff_lt_mul hpower, ← pow_add]
    have hsum : 53 + (i + 1) = n.log2 + 1 := by omega
    rw [hsum]
    exact Nat.lt_log2_self

/-- More digits after the leading bits make a difference only to a tie that goes down. -/
theorem roundDiv_more {i q t m r : ℕ} (ht : t < 2 ^ (i + 1)) (hr : r < 2 ^ m) :
    roundDiv ((q * 2 ^ (i + 1) + t) * 2 ^ m + r) (2 ^ (i + 1 + m)) =
      if t = 2 ^ i ∧ q % 2 = 0 ∧ r ≠ 0 then q + 1
      else roundDiv (q * 2 ^ (i + 1) + t) (2 ^ (i + 1)) := by
  have hdouble : 2 ^ (i + 1) = 2 * 2 ^ i := by rw [pow_succ, Nat.mul_comm]
  have hscaled : 2 ^ (i + 1 + m) = 2 * (2 ^ i * 2 ^ m) := by rw [pow_add, hdouble, Nat.mul_assoc]
  have hnum : (q * 2 ^ (i + 1) + t) * 2 ^ m + r = q * 2 ^ (i + 1 + m) + (t * 2 ^ m + r) := by
    rw [pow_add]
    ring
  have hbound (u v : ℕ) (h : u < v) : u * 2 ^ m + r < v * 2 ^ m := by
    calc
      u * 2 ^ m + r < (u + 1) * 2 ^ m := by rw [Nat.add_mul]; omega
      _ ≤ v * 2 ^ m := Nat.mul_le_mul_right _ h
  have hrest : t * 2 ^ m + r < 2 ^ (i + 1 + m) := by
    rw [pow_add]
    exact hbound t _ ht
  rw [hnum, roundDiv_add hrest, roundDiv_add ht, hscaled, hdouble]
  -- What was there before is below a half, a half or above, and one more digit only moves a half.
  rcases Nat.lt_trichotomy t (2 ^ i) with hless | rfl | hmore
  · have hless' := hbound t _ hless
    simp [show 2 * (t * 2 ^ m + r) < 2 * (2 ^ i * 2 ^ m) by omega,
      show 2 * t < 2 * 2 ^ i by omega, hless.ne]
  · by_cases hzero : r = 0
    · simp [hzero]
    · have hmore' : 2 * (2 ^ i * 2 ^ m) < 2 * (2 ^ i * 2 ^ m + r) := by omega
      rw [if_neg hmore'.le.not_gt, if_pos hmore', if_neg (lt_irrefl _), if_neg (lt_irrefl _)]
      rcases Nat.mod_two_eq_zero_or_one q with heven | hodd
      · rw [if_pos ⟨rfl, heven, hzero⟩]
      · rw [if_neg (by omega), hodd]
  · have hmore' : 2 ^ i * 2 ^ m < t * 2 ^ m := Nat.mul_lt_mul_of_pos_right hmore (Nat.two_pow_pos m)
    simp [show ¬ 2 * (t * 2 ^ m + r) < 2 * (2 ^ i * 2 ^ m) by omega,
      show ¬ 2 * t < 2 * 2 ^ i by omega, show 2 * (2 ^ i * 2 ^ m) < 2 * (t * 2 ^ m + r) by omega,
      show 2 * 2 ^ i < 2 * t by omega, hmore.ne']

theorem roundDiv_tie {i q : ℕ} (heven : q % 2 = 0) :
    roundDiv (q * 2 ^ (i + 1) + 2 ^ i) (2 ^ (i + 1)) = q := by
  have hdouble : 2 ^ (i + 1) = 2 * 2 ^ i := by rw [pow_succ, Nat.mul_comm]
  have hpower := Nat.two_pow_pos i
  rw [roundDiv_add (by omega), hdouble, if_neg (lt_irrefl _), if_neg (lt_irrefl _), heven,
    Nat.add_zero]

section Leading

variable {i q t : ℕ} (hq : 2 ^ 52 ≤ q) (hq' : q < 2 ^ 53) (ht : t < 2 ^ (i + 1))

include hq hq' ht

theorem log2_leading : (q * 2 ^ (i + 1) + t).log2 = 52 + (i + 1) := log2_shifted hq hq' ht

theorem longWord_leading :
    longWord (q * 2 ^ (i + 1) + t) =
      (i + 1 + 1074) * leadingBit + roundDiv (q * 2 ^ (i + 1) + t) (2 ^ (i + 1)) := by
  rw [longWord, log2_leading hq hq' ht, Nat.add_sub_cancel_left]

theorem tiesDown_leading : TiesDown (q * 2 ^ (i + 1) + t) ↔ t = 2 ^ i ∧ q % 2 = 0 := by
  have hpower := Nat.two_pow_pos i
  constructor
  · rintro ⟨s, e, hn, heven, hs, hs'⟩
    have hlog := log2_leading hq hq' ht
    have hlog' : ((2 * s + 1) * 2 ^ e + 0).log2 = 53 + e :=
      log2_shifted (by omega) (by omega) (Nat.two_pow_pos e)
    rw [Nat.add_zero, ← hn, hlog] at hlog'
    obtain rfl : e = i := by omega
    have hsplit : (2 * s + 1) * 2 ^ e = s * 2 ^ (e + 1) + 2 ^ e := by
      rw [pow_succ]
      ring
    have hhalf : 2 ^ e < 2 ^ (e + 1) := by
      rw [pow_succ]
      omega
    obtain ⟨hfloor, hrest⟩ := div_mod_of_lt ht
    obtain ⟨hfloor', hrest'⟩ := div_mod_of_lt hhalf
    rw [hn, hsplit, hfloor'] at hfloor
    rw [hn, hsplit, hrest'] at hrest
    exact ⟨hrest.symm, hfloor ▸ heven⟩
  · rintro ⟨rfl, heven⟩
    refine ⟨q, i, ?_, heven, hq, hq'⟩
    rw [pow_succ]
    ring

theorem roundDiv_leading :
    2 ^ 52 ≤ roundDiv (q * 2 ^ (i + 1) + t) (2 ^ (i + 1)) ∧
      roundDiv (q * 2 ^ (i + 1) + t) (2 ^ (i + 1)) ≤ 2 ^ 53 := by
  rw [roundDiv_add ht]
  split
  · omega
  · split <;> omega

theorem log2_more {m r : ℕ} (hr : r < 2 ^ m) :
    ((q * 2 ^ (i + 1) + t) * 2 ^ m + r).log2 = 52 + (i + 1 + m) := by
  have hlog := log2_leading hq hq' ht
  have hzero : q * 2 ^ (i + 1) + t ≠ 0 := by
    intro hzero
    rw [hzero, Nat.log2_zero] at hlog
    omega
  rw [log2_shifted (Nat.log2_self_le hzero) Nat.lt_log2_self hr, hlog, Nat.add_assoc]

/-- The bits after the first 53 count only where they break a tie. -/
theorem longWord_more {m r : ℕ} (hr : r < 2 ^ m) :
    longWord ((q * 2 ^ (i + 1) + t) * 2 ^ m + r) =
      longWord (q * 2 ^ (i + 1) + t) + m * leadingBit +
        if t = 2 ^ i ∧ q % 2 = 0 ∧ r ≠ 0 then 1 else 0 := by
  rw [longWord, log2_more hq hq' ht hr, Nat.add_sub_cancel_left, roundDiv_more ht hr,
    longWord_leading hq hq' ht]
  split
  · rename_i htie
    obtain ⟨rfl, heven, -⟩ := htie
    rw [roundDiv_tie heven]
    ring
  · ring

end Leading

theorem longWord_zeros {n : ℕ} (h : 2 ^ 53 ≤ n) (m : ℕ) :
    longWord (n * 2 ^ m) = longWord n + m * leadingBit := by
  obtain ⟨i, q, t, rfl, ht, hq, hq'⟩ := exists_leading h
  simpa using longWord_more hq hq' ht (Nat.two_pow_pos m)

/-- With at least one bit rounded already, a digit is less than half a step. -/
theorem nearestWord_digit {s i k digit : ℕ} (hs : 2 ^ 52 ≤ s) (hs' : s ≤ 2 ^ 53)
    (hdigit : digit < 2 ^ k) :
    nearestWord (s * 2 ^ (i + 1) * 2 ^ k + digit) 1 =
      min infinityWord ((i + 1 + 1074) * leadingBit + s + k * leadingBit) := by
  have hnear : 2 * digit < 2 ^ (i + 1 + k) := by
    calc
      2 * digit < 2 * 2 ^ k := by omega
      _ ≤ 2 ^ (i + 1) * 2 ^ k := Nat.mul_le_mul_right _ (Nat.le_self_pow (Nat.succ_ne_zero i) 2)
      _ = 2 ^ (i + 1 + k) := (pow_add 2 (i + 1) k).symm
  have hlong : 2 ^ 52 ≤ s * 2 ^ (i + 1 + k) + digit :=
    calc
      2 ^ 52 ≤ s := hs
      _ ≤ s * 2 ^ (i + 1 + k) := Nat.le_mul_of_pos_right s (Nat.two_pow_pos _)
      _ ≤ s * 2 ^ (i + 1 + k) + digit := Nat.le_add_right _ _
  have hword : (i + 1 + k + 1074) * leadingBit + s =
      (i + 1 + 1074) * leadingBit + s + k * leadingBit := by ring
  rw [Nat.mul_assoc, ← pow_add, nearestWord_long hlong, longWord_of_near hs hs' hnear, hword]

/-- Beyond 53 bits a digit of a radix that is a power of two counts as zero. -/
theorem appendDigit_of_le {n k digit : ℕ} (h : 2 ^ 53 ≤ n) (hdigit : digit < 2 ^ k) :
    appendDigit (2 ^ k) (nearest false n 1) digit = nearest false (n * 2 ^ k) 1 := by
  have hlong : 2 ^ 52 ≤ n := le_trans (by decide) h
  have hzeros : nearestWord (n * 2 ^ k) 1 = min infinityWord (longWord n + k * leadingBit) := by
    have hle : n ≤ n * 2 ^ k := Nat.le_mul_of_pos_right n (Nat.two_pow_pos k)
    rw [nearestWord_long (hlong.trans hle), longWord_zeros h]
  rw [appendDigit, nearest, nearest, hzeros, nearestWord_long hlong]
  by_cases hfinite : longWord n < infinityWord
  · rw [Nat.min_eq_right hfinite.le]
    obtain ⟨i, q, t, rfl, ht, hq, hq'⟩ := exists_leading h
    obtain ⟨hlow, hhigh⟩ := roundDiv_leading hq hq' ht
    rw [longWord_leading hq hq' ht] at hfinite ⊢
    -- What is multiplied is the rounded integer, at most 53 bits with zeros after them.
    rw [toNat?_ofWord_long hlow hhigh hfinite]
    dsimp only
    rw [nearest, nearestWord_digit hlow hhigh hdigit]
  · rw [Nat.min_eq_left (by omega), Nat.min_eq_left (by omega)]
    have hnone : toNat? (ofWord false infinityWord) = none := by decide +kernel
    rw [hnone]

namespace Radix

/-- How many bits a digit has. -/
def bits : Radix → ℕ
  | .binary => 1
  | .octal => 3
  | .hexadecimal => 4

theorem base_eq (radix : Radix) : radix.base = 2 ^ radix.bits := by
  cases radix <;> rfl

/-- The value of a digit; other characters count as zero. -/
def digitOf (radix : Radix) (c : Char) : ℕ := (digitValue? radix.base c).getD 0

/-- The integer that digits denote, the first one counting most. -/
def integer (radix : Radix) (text : List Char) : ℕ :=
  Nat.ofDigits radix.base (text.map radix.digitOf).reverse

variable (radix : Radix)

theorem digitOf_lt (c : Char) : radix.digitOf c < 2 ^ radix.bits := by
  rw [← base_eq, digitOf]
  cases h : digitValue? radix.base c with
  | none => cases radix <;> decide
  | some value => exact (digitValue?_eq_some_iff.mp h).1

theorem integer_append (front back : List Char) :
    radix.integer (front ++ back) =
      radix.integer front * radix.base ^ back.length + radix.integer back := by
  rw [integer, List.map_append, List.reverse_append, Nat.ofDigits_append, List.length_reverse,
    List.length_map, Nat.mul_comm, Nat.add_comm]
  rfl

theorem integer_concat (front : List Char) (c : Char) :
    radix.integer (front ++ [c]) = radix.integer front * radix.base + radix.digitOf c := by
  rw [integer_append, List.length_singleton, pow_one]
  simp [integer]

theorem integer_lt (text : List Char) : radix.integer text < radix.base ^ text.length := by
  induction text using List.reverseRecOn with
  | nil => simp [integer]
  | append_singleton front c ih =>
    have hdigit : radix.digitOf c < radix.base := radix.base_eq ▸ radix.digitOf_lt c
    rw [integer_concat, List.length_append, List.length_singleton, pow_succ]
    calc
      radix.integer front * radix.base + radix.digitOf c
        < (radix.integer front + 1) * radix.base := by rw [Nat.add_mul]; omega
      _ ≤ radix.base ^ front.length * radix.base := Nat.mul_le_mul_right _ ih

theorem integer_le_append (front back : List Char) :
    radix.integer front ≤ radix.integer (front ++ back) := by
  have hpos : 0 < radix.base ^ back.length := by
    rw [base_eq]
    positivity
  rw [integer_append]
  exact le_trans (Nat.le_mul_of_pos_right _ hpos) (Nat.le_add_right _ _)

/-- One digit after the other, with a rounding for each. -/
def fold (x : Float) (text : List Char) : Float :=
  (text.map radix.digitOf).foldl (appendDigit radix.base) x

theorem fold_append (x : Float) (front back : List Char) :
    radix.fold x (front ++ back) = radix.fold (radix.fold x front) back := by
  rw [fold, List.map_append, List.foldl_append]
  rfl

/-- Nothing is lost before the last digit as long as the integer before it has at most 53 bits. -/
theorem fold_of_lt {text : List Char} (h : radix.integer text.dropLast < 2 ^ 53) :
    radix.fold (zero false) text = nearest false (radix.integer text) 1 := by
  induction text using List.reverseRecOn with
  | nil => rfl
  | append_singleton front c ih =>
    rw [List.dropLast_concat] at h
    have hfront : radix.integer front.dropLast < 2 ^ 53 := by
      refine lt_of_le_of_lt ?_ h
      obtain ⟨back, hback⟩ := List.dropLast_prefix front
      conv_rhs => rw [← hback]
      exact radix.integer_le_append _ _
    rw [fold_append, ih hfront, integer_concat]
    exact appendDigit_of_lt h _ _

/-- Once the integer has more than 53 bits, every digit counts as zero. -/
theorem fold_of_le {n : ℕ} (h : 2 ^ 53 ≤ n) (text : List Char) :
    radix.fold (nearest false n 1) text = nearest false (n * radix.base ^ text.length) 1 := by
  induction text generalizing n with
  | nil => simp [fold]
  | cons c text ih =>
    have hmore : 2 ^ 53 ≤ n * 2 ^ radix.bits :=
      le_trans h (Nat.le_mul_of_pos_right n (Nat.two_pow_pos _))
    have hstep : appendDigit radix.base (nearest false n 1) (radix.digitOf c) =
        nearest false (n * radix.base) 1 := by
      rw [base_eq]
      exact appendDigit_of_le h (radix.digitOf_lt c)
    have hcons : radix.fold (nearest false n 1) (c :: text) =
        radix.fold (nearest false (n * radix.base) 1) text := congrArg (radix.fold · text) hstep
    rw [hcons, ih (radix.base_eq ▸ hmore), List.length_cons, pow_succ, Nat.mul_assoc,
      Nat.mul_comm radix.base]

/-- The digits up to the one that makes the integer longer than 53 bits, and those after it. -/
theorem exists_kept (text : List Char) :
    ∃ kept dropped, text = kept ++ dropped ∧ radix.integer kept.dropLast < 2 ^ 53 ∧
      (dropped = [] ∨ 2 ^ 53 ≤ radix.integer kept) := by
  induction text using List.reverseRecOn with
  | nil => exact ⟨[], [], rfl, by simp [integer], .inl rfl⟩
  | append_singleton front c ih =>
    obtain ⟨kept, dropped, rfl, hkept, hdropped⟩ := ih
    by_cases hlong : 2 ^ 53 ≤ radix.integer kept
    · exact ⟨kept, dropped ++ [c], List.append_assoc _ _ _, hkept, .inr hlong⟩
    · obtain rfl := hdropped.resolve_right hlong
      refine ⟨kept ++ [c], [], by simp, ?_, .inl rfl⟩
      rw [List.dropLast_concat]
      exact Nat.not_le.mp hlong

theorem isGap_of_isDigit {c : Char} (h : radix.isDigit c = true) : isGap c = false := by
  rw [← isSome_digitValue?_iff, Option.isSome_iff_exists] at h
  obtain ⟨value, hvalue⟩ := h
  rw [digitValue?_eq_some_iff] at hvalue
  exact isGap_of_visible (by omega) (by omega)

/-- Digits after a radix mark are folded. -/
theorem read?_marked {mark : Char} {text : List Char} (hmark : radix.isMark mark = true)
    (hne : text ≠ []) (hdigits : ∀ c ∈ text, radix.isDigit c = true) :
    read? (String.ofList ('0' :: mark :: text)) = some (radix.fold (zero false) text) := by
  have hgap : ∀ c ∈ '0' :: mark :: text, isGap c = false := by
    refine List.forall_mem_cons.mpr ⟨by decide, List.forall_mem_cons.mpr ⟨?_, ?_⟩⟩
    · rcases isMark_cases hmark with rfl | rfl | rfl | rfl | rfl | rfl <;> decide
    · exact fun c hc => radix.isGap_of_isDigit (hdigits c hc)
  have hvalue : ∀ c ∈ text, digitValue? radix.base c = some (radix.digitOf c) := by
    intro c hc
    obtain ⟨value, hvalue⟩ :=
      Option.isSome_iff_exists.mp (radix.isSome_digitValue?_iff.mpr (hdigits c hc))
    rw [digitOf, hvalue]
    rfl
  have hmarked : Numeral.trimmed? ('0' :: mark :: text) = Numeral.marked? radix text := by
    rw [Numeral.trimmed?, ofMark?_eq_some_iff.mpr hmark]
  rw [read?, String.toList_ofList, Numeral.ofChars?, trim_eq_self hgap, hmarked, Numeral.marked?,
    if_neg (by simpa using hne), Value.mapM_eq_some hvalue]
  rfl

end Radix

theorem nearest_inj {num num' den den' : ℕ} :
    nearest false num den = nearest false num' den' ↔
      nearestWord num den = nearestWord num' den' := by
  constructor
  · intro h
    rw [← magnitude_ofWord (nearestWord_le num den) false, ← nearest, h, nearest,
      magnitude_ofWord (nearestWord_le num' den')]
  · intro h
    rw [nearest, nearest, h]

/-- What comes after an integer of more than 53 bits makes the number one larger just when it breaks
a tie that would go down, unless all of it is too large. -/
theorem nearestWord_more {n m r : ℕ} (hn : 2 ^ 53 ≤ n) (hr : r < 2 ^ m) :
    (TiesDown n ∧ r ≠ 0 ∧ n * 2 ^ m + r < 2 ^ 1024 →
      nearestWord (n * 2 ^ m + r) 1 = nearestWord (n * 2 ^ m) 1 + 1) ∧
    (¬ (TiesDown n ∧ r ≠ 0 ∧ n * 2 ^ m + r < 2 ^ 1024) →
      nearestWord (n * 2 ^ m + r) 1 = nearestWord (n * 2 ^ m) 1) := by
  have hlong : 2 ^ 52 ≤ n * 2 ^ m :=
    le_trans (by omega) (Nat.le_mul_of_pos_right n (Nat.two_pow_pos m))
  rw [nearestWord_long hlong, nearestWord_long (le_trans hlong (Nat.le_add_right _ r)),
    longWord_zeros hn]
  obtain ⟨i, q, t, rfl, ht, hq, hq'⟩ := exists_leading hn
  have hbit : leadingBit = 2 ^ 52 ∧ infinityWord = 2047 * 2 ^ 52 := by decide
  have hfinite : (q * 2 ^ (i + 1) + t) * 2 ^ m + r < 2 ^ 1024 ↔ i + 1 + m < 972 := by
    rw [← Nat.log2_lt (by omega), log2_more hq hq' ht hr]
    omega
  rw [longWord_more hq hq' ht hr, tiesDown_leading hq hq' ht, hfinite]
  by_cases htie : t = 2 ^ i ∧ q % 2 = 0 ∧ r ≠ 0
  · rw [if_pos htie]
    obtain ⟨rfl, heven, hzero⟩ := htie
    rw [longWord_leading hq hq' ht, roundDiv_tie heven, hbit.1, hbit.2]
    -- Only the exponents are left to compare, and no power with a variable in it.
    clear hfinite hlong hn ht hr hbit
    constructor
    · rintro ⟨-, -, hsmall⟩
      rw [Nat.min_eq_right (by omega), Nat.min_eq_right (by omega)]
    · intro hnot
      have hlarge : 972 ≤ i + 1 + m := by
        by_contra hsmall
        exact hnot ⟨⟨rfl, heven⟩, hzero, by omega⟩
      rw [Nat.min_eq_left (by omega), Nat.min_eq_left (by omega)]
  · rw [if_neg htie]
    constructor
    · rintro ⟨⟨hhalf, heven⟩, hzero, -⟩
      exact absurd ⟨hhalf, heven, hzero⟩ htie
    · intro _
      rw [Nat.add_zero]

/-- The first digits are a tie that goes down, not all of the others are zeros, and the integer is
not too large for a number. -/
def Radix.LosesTie (radix : Radix) (kept dropped : List Char) : Prop :=
  TiesDown (radix.integer kept) ∧ radix.integer dropped ≠ 0 ∧
    radix.integer (kept ++ dropped) < 2 ^ 1024

/-- Zeros for the digits after the first 53 bits make no difference, or one step down. -/
theorem Radix.nearestWord_append {radix : Radix} {kept dropped : List Char}
    (h : dropped = [] ∨ 2 ^ 53 ≤ radix.integer kept) :
    (radix.LosesTie kept dropped →
      nearestWord (radix.integer (kept ++ dropped)) 1 =
        nearestWord (radix.integer kept * radix.base ^ dropped.length) 1 + 1) ∧
    (¬ radix.LosesTie kept dropped →
      nearestWord (radix.integer (kept ++ dropped)) 1 =
        nearestWord (radix.integer kept * radix.base ^ dropped.length) 1) := by
  rw [LosesTie, integer_append]
  rcases h with rfl | hlong
  · exact ⟨fun hlost => absurd rfl hlost.2.1, fun _ => rfl⟩
  · have hrest := radix.integer_lt dropped
    rw [base_eq, ← pow_mul] at hrest ⊢
    exact nearestWord_more hlong hrest

/-- An integer with a radix mark is the integer of its digits up to the one that makes it longer
than 53 bits, with zeros for the digits after that, rounded once. This is the integer itself rounded
once unless a tie is lost, and then it is the number one below. -/
theorem marked_digits_rounded_early {radix : Radix} {mark : Char} {text : List Char}
    (hmark : radix.isMark mark = true) (hne : text ≠ [])
    (hdigits : ∀ c ∈ text, radix.isDigit c = true) :
    ∃ kept dropped, text = kept ++ dropped ∧ radix.integer kept.dropLast < 2 ^ 53 ∧
      (dropped = [] ∨ 2 ^ 53 ≤ radix.integer kept) ∧
      read? (String.ofList ('0' :: mark :: text)) =
        some (nearest false (radix.integer kept * radix.base ^ dropped.length) 1) ∧
      (read? (String.ofList ('0' :: mark :: text)) = some (nearest false (radix.integer text) 1) ↔
        ¬ radix.LosesTie kept dropped) ∧
      (radix.LosesTie kept dropped →
        read? (String.ofList ('0' :: mark :: text)) =
          some (ofWord false (nearestWord (radix.integer text) 1 - 1))) := by
  obtain ⟨kept, dropped, rfl, hkept, hdropped⟩ := radix.exists_kept text
  obtain ⟨hlost, hgood⟩ := Radix.nearestWord_append hdropped
  have hread : read? (String.ofList ('0' :: mark :: (kept ++ dropped))) =
      some (nearest false (radix.integer kept * radix.base ^ dropped.length) 1) := by
    rw [radix.read?_marked hmark hne hdigits, radix.fold_append, radix.fold_of_lt hkept]
    rcases hdropped with rfl | hlong
    · rw [List.length_nil, pow_zero, Nat.mul_one]
      rfl
    · rw [radix.fold_of_le hlong]
  refine ⟨kept, dropped, rfl, hkept, hdropped, hread, ?_, ?_⟩
  · rw [hread, Option.some.injEq, nearest_inj]
    constructor
    · intro heq hloses
      have hstep := hlost hloses
      omega
    · exact fun hkeeps => (hgood hkeeps).symm
  · intro hloses
    rw [hread, hlost hloses, Nat.add_sub_cancel]
    rfl

/-- Here the last digit breaks a tie at the one before it, but comes too late to count. -/
theorem marked_digits_rounded_early_long :
    ∃ kept dropped, "200000000000011".toList = kept ++ dropped ∧
      Radix.hexadecimal.LosesTie kept dropped ∧
      read? (String.ofList ('0' :: 'x' :: "200000000000011".toList)) =
        some (nearest false (Radix.hexadecimal.integer kept * 16 ^ dropped.length) 1) := by
  have hmark : Radix.hexadecimal.isMark 'x' = true := by decide
  have hne : "200000000000011".toList ≠ [] := by decide
  have hdigits : ∀ c ∈ "200000000000011".toList, Radix.hexadecimal.isDigit c = true := by
    simp [Radix.isDigit]
  have hwrong : read? (String.ofList ('0' :: 'x' :: "200000000000011".toList)) ≠
      some (nearest false (Radix.hexadecimal.integer "200000000000011".toList) 1) := by
    decide +kernel
  obtain ⟨kept, dropped, htext, -, -, hread, hright, -⟩ :=
    marked_digits_rounded_early hmark hne hdigits
  exact ⟨kept, dropped, htext, by_contra fun hkeeps => hwrong (hright.mpr hkeeps), hread⟩

/-- The integer is `2 ^ 57 + 17`, next to which the numbers lie 32 apart. -/
theorem marked_digits_not_rounded_once :
    read? "0x200000000000011" = some (nearest false (2 ^ 57) 1) ∧
      read? "0x200000000000011" ≠
        some (nearest false (Radix.hexadecimal.integer "200000000000011".toList) 1) := by
  decide +kernel

end KakaLang.Number
