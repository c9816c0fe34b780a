import KakaLang.Number.Binary
import Mathlib

/-!
Numbers and their words. A number that is not not-a-number is its sign and its word, and there is
only one not-a-number, so that words may stand for numbers in everything that follows.
-/

namespace KakaLang.Number

open Float.Model Float.Model.UnpackedFloat

theorem toBits_ofBits {bits : UInt64} (h : Format.binary64.Valid bits.toBitVec) :
    (Float.ofBits bits).toBits = bits := by
  simp only [Float.toBits, Float.ofBits, Float.Model.ofBits, Float.Model.pack,
    pack_unpack_of_valid h]

theorem unpackExponent_eq_ones {bits : UInt64} :
    @unpackExponent .binary64 bits.toBitVec = -1#11 ↔ bits.toNat / 2 ^ 52 % 2 ^ 11 = 2047 := by
  have hones : (-1#11 : BitVec 11).toNat = 2047 := rfl
  rw [← BitVec.toNat_inj, hones]
  simp [unpackExponent, BitVec.extractLsb, BitVec.extractLsb'_toNat, Nat.shiftRight_eq_div_pow]

theorem unpackMantissa_eq_zero {bits : UInt64} :
    @unpackMantissa .binary64 bits.toBitVec = 0#52 ↔ bits.toNat % 2 ^ 52 = 0 := by
  rw [← BitVec.toNat_inj]
  simp [unpackMantissa, BitVec.extractLsb, BitVec.extractLsb'_toNat]

/-- An exponent of ones with a fraction is what lies above infinity. -/
theorem infinityWord_lt_iff {bits : UInt64} :
    infinityWord < bits.toNat % signBit ↔
      @unpackExponent .binary64 bits.toBitVec = -1#11 ∧
        @unpackMantissa .binary64 bits.toBitVec ≠ 0#52 := by
  rw [ne_eq, unpackExponent_eq_ones, unpackMantissa_eq_zero, infinityWord, signBit]
  omega

theorem valid_of_word {bits : UInt64} (h : bits.toNat % signBit ≤ infinityWord) :
    Format.binary64.Valid bits.toBitVec := by
  constructor
  intro hexponent hfraction
  have hword := infinityWord_lt_iff.mpr ⟨hexponent, hfraction⟩
  omega

/-- Every number is given by its sign and its word. -/
theorem ofWord_magnitude (x : Float) : ofWord (isNegative x) (magnitude x) = x := by
  have hbits : (if isNegative x then magnitude x + signBit else magnitude x) = x.toBits.toNat := by
    have hlt := x.toBits.toNat_lt
    rw [isNegative, magnitude, signBit]
    by_cases hsign : 0x8000000000000000 ≤ x.toBits.toNat
    · rw [decide_eq_true hsign, if_pos rfl]
      omega
    · rw [decide_eq_false hsign, if_neg Bool.false_ne_true]
      omega
  rw [ofWord, hbits, UInt64.ofNat_toNat, Float.ofBits_toBits]

theorem toBits_ofWord {word : Nat} (h : word ≤ infinityWord) (negative : Bool) :
    (ofWord negative word).toBits.toNat = if negative then word + signBit else word := by
  have hword : word < signBit := Nat.lt_of_le_of_lt h (by decide)
  have hnat : (UInt64.ofNat (if negative then word + signBit else word)).toNat =
      if negative then word + signBit else word := by
    apply UInt64.toNat_ofNat_of_lt
    rw [signBit, UInt64.size] at *
    cases negative <;> simp only [Bool.false_eq_true, if_true, if_false] <;> omega
  rw [ofWord, toBits_ofBits, hnat]
  apply valid_of_word
  rw [hnat]
  cases negative
  · simpa [Nat.mod_eq_of_lt hword] using h
  · simpa [Nat.add_mod_right, Nat.mod_eq_of_lt hword] using h

theorem magnitude_ofWord {word : Nat} (h : word ≤ infinityWord) (negative : Bool) :
    magnitude (ofWord negative word) = word := by
  have hword : word < signBit := Nat.lt_of_le_of_lt h (by decide)
  rw [magnitude, toBits_ofWord h]
  cases negative <;> simp [Nat.mod_eq_of_lt hword]

theorem isNegative_ofWord {word : Nat} (h : word ≤ infinityWord) (negative : Bool) :
    isNegative (ofWord negative word) = negative := by
  have hword : word < signBit := Nat.lt_of_le_of_lt h (by decide)
  rw [isNegative, toBits_ofWord h]
  cases negative <;> simp [hword]

/-- There is only one not-a-number. -/
theorem eq_notANumber {x : Float} (h : infinityWord < magnitude x) : x = notANumber := by
  obtain ⟨hexponent, hfraction⟩ := infinityWord_lt_iff.mp h
  have hbits : x.toBits.toBitVec = packedNaN .binary64 :=
    x.toModel.valid.eq_packedNaN hexponent hfraction
  calc
    x = Float.ofBits x.toBits := x.ofBits_toBits.symm
    _ = Float.ofBits (UInt64.ofBitVec (packedNaN .binary64)) := by rw [← hbits]
    _ = notANumber := by decide

theorem isNaN_iff {x : Float} : x.isNaN = true ↔ infinityWord < magnitude x := by
  have hnan : notANumber = Float.nan := by decide
  rw [Float.isNaN_eq_decide_eq_nan, decide_eq_true_eq, ← hnan]
  constructor
  · rintro rfl
    decide
  · exact eq_notANumber

end KakaLang.Number
