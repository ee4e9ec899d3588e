import Mathlib
import Slang.Number.Nearest

/-!
# Doubles and their bits

A magnitude is made from its bits and is read off its bits again. In between it is packed and
unpacked once, because not every word of 64 bits is kept as it is: all of those that are no number
become one. A magnitude is none of these.

* `toBits_ofBits` — a magnitude keeps its bits.
* `ofFloat_ofMagnitude` — the number that a magnitude is made from is the number that is read off.
* `IsDouble m e` — the one form in which a finite double has its mantissa and its exponent.
* `bitsOf m e` — the bits of that double.

Principal result: `ofBits_of_lt` — bits below those of the infinity are the bits of exactly the
double that is read off them.
-/

set_option autoImplicit false

namespace Slang.Number

theorem pow2_eq (n : Nat) : pow2 n = 2 ^ n := rfl

theorem pow10_eq (n : Nat) : pow10 n = 10 ^ n := rfl

variable {bits m : Nat} {e : Int}

/-! ## The bits of a magnitude -/

section Packing

open Float.Model (Format)
open Float.Model.UnpackedFloat

/-- A magnitude is a number. -/
theorem not_isNaNBits (h : bits ≤ infiniteBits) :
    @isNaNBits Format.binary64 bits.toUInt64.toBitVec = false := by
  have hexponent : (@unpackExponent Format.binary64 bits.toUInt64.toBitVec).toNat =
      bits % 2 ^ 64 / 2 ^ 52 % 2 ^ 11 := by
    rw [unpackExponent_def, BitVec.extractLsb'_toNat, Nat.shiftRight_eq_div_pow]
    rfl
  have hmantissa : (@unpackMantissa Format.binary64 bits.toUInt64.toBitVec).toNat =
      bits % 2 ^ 64 % 2 ^ 52 := by
    rw [unpackMantissa_def, BitVec.extractLsb'_toNat]
    rfl
  simp only [infiniteBits, pow2_eq] at h
  -- Only the bits of the infinity have the last exponent, and their mantissa is zero.
  refine decide_eq_false fun ⟨hlast, hrest⟩ => hrest ?_
  rw [hlast, BitVec.neg_one_eq_allOnes, BitVec.toNat_allOnes] at hexponent
  have htop : 2 ^ 11 - 1 = bits % 2 ^ 64 / 2 ^ 52 % 2 ^ 11 := hexponent
  apply BitVec.eq_of_toNat_eq
  rw [hmantissa, BitVec.toNat_zero]
  omega

/-- A magnitude keeps its bits. -/
theorem toBits_ofBits (h : bits ≤ infiniteBits) :
    (Float.ofBits bits.toUInt64).toBits.toNat = bits := by
  show (UInt64.ofBitVec (pack Format.binary64 (unpack Format.binary64
    bits.toUInt64.toBitVec))).toNat = bits
  rw [pack_unpack, not_isNaNBits h, if_neg Bool.false_ne_true]
  show bits % 2 ^ 64 = bits
  simp only [infiniteBits, pow2_eq] at h
  omega

end Packing

/-! ## Reading a magnitude -/

/-- The double of a magnitude denotes what its bits denote. -/
theorem ofFloat_ofMagnitude (h : bits ≤ infiniteBits) :
    Exact.ofFloat (ofMagnitude false bits) = Exact.ofBits bits := by
  show Exact.ofBits (Float.ofBits bits.toUInt64).toBits.toNat = Exact.ofBits bits
  rw [toBits_ofBits h]

/-- The mantissa and the exponent of a finite double. The mantissa has all its 53 bits, unless the
exponent is the least one. -/
structure IsDouble (m : Nat) (e : Int) : Prop where
  mantissa_lt : m < 2 ^ 53
  least : -1074 ≤ e
  greatest : e ≤ 971
  normal : e = -1074 ∨ 2 ^ 52 ≤ m

/-- The bits of a double. The leading bit of the mantissa is not among them: it is carried into the
exponent. -/
def bitsOf (m : Nat) (e : Int) : Nat := (e + 1074).toNat * pow2 52 + m

theorem IsDouble.bitsOf_lt (h : IsDouble m e) : bitsOf m e < infiniteBits := by
  obtain ⟨hm, hleast, hgreatest, -⟩ := h
  simp only [bitsOf, infiniteBits, pow2_eq]
  omega

/-- The bits tell the mantissa and the exponent. -/
theorem IsDouble.bitsOf_inj {m' : Nat} {e' : Int} (h : IsDouble m e) (h' : IsDouble m' e')
    (heq : bitsOf m e = bitsOf m' e') : m = m' ∧ e = e' := by
  obtain ⟨hm, hleast, -, hnormal⟩ := h
  obtain ⟨hm', hleast', -, hnormal'⟩ := h'
  simp only [bitsOf, pow2_eq] at heq
  omega

/-- **What the bits of a magnitude denote.** They are the bits of the double that is read off. -/
theorem ofBits_of_lt (h : bits < infiniteBits) :
    ∃ m e, IsDouble m e ∧ Exact.ofBits bits = .finite false m e ∧ bits = bitsOf m e := by
  simp only [infiniteBits, pow2_eq] at h
  have hsign : decide (pow2 63 ≤ bits) = false := by
    rw [decide_eq_false_iff_not, pow2_eq]
    omega
  have hfield : bits / 2 ^ 52 % 2 ^ 11 = bits / 2 ^ 52 := by omega
  have hlast : bits / 2 ^ 52 ≠ 2047 := by omega
  simp only [Exact.ofBits, hsign]
  simp only [bitsOf, pow2_eq, hfield, if_neg hlast]
  split
  case isTrue hzero =>
    refine ⟨bits % 2 ^ 52, -1074, ⟨by omega, by omega, by omega, .inl rfl⟩, rfl, ?_⟩
    omega
  case isFalse hzero =>
    refine ⟨2 ^ 52 + bits % 2 ^ 52, (bits / 2 ^ 52 : Nat) - 1075,
      ⟨by omega, by omega, by omega, .inr (by omega)⟩, rfl, ?_⟩
    omega

end Slang.Number
