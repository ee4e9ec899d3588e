import Slang.Number.Shortest

/-!
# The nearest double

Every number that is not a double already becomes one by rounding to nearest, a half to the even
neighbour. The exact number is a quotient of natural numbers, so the rounding is a question about
natural numbers too.

* `roundDiv` — a quotient rounded to a natural number.
* `log2Ratio` — the place of the leading bit of a quotient.
* `magnitude?` — the bits of the double nearest to a quotient; a quotient beyond all doubles has
  none.
* `ofInt?`, `quotient?` — the doubles nearest to a whole number and to a quotient of two.
* `ofScaled` — the double nearest to a decimal, infinite beyond all doubles.
* `Exact.compareInt` — a whole number and a double compared without rounding either.
-/

set_option autoImplicit false

namespace Slang.Number

/-- The natural number nearest to a quotient; of two equally near, the even one. -/
def roundDiv (num den : Nat) : Nat :=
  let below := num / den
  let rest := num % den
  if 2 * rest < den then below
  else if den < 2 * rest then below + 1
  else if below % 2 = 0 then below else below + 1

/-- The exponent of the leading bit of a positive quotient. -/
def log2Ratio (num den : Nat) : Int :=
  let guess : Int := (Nat.log2 num : Int) - (Nat.log2 den : Int)
  if den * pow2 guess.toNat ≤ num * pow2 (-guess).toNat then guess else guess - 1

/-- The exponent of the last bit that a double can have next to a leading bit at `top`. -/
def lastBit (top : Int) : Int := if top - 52 < -1074 then -1074 else top - 52

/-- The bits of the positive infinity; the bits of a finite magnitude are fewer. -/
def infiniteBits : Nat := 2047 * pow2 52

/-- The bits of the double nearest to a quotient. A carry out of the mantissa raises the exponent by
itself. -/
def magnitude? (num den : Nat) : Option Nat :=
  if num = 0 then some 0
  else
    let unit := lastBit (log2Ratio num den)
    let mantissa := roundDiv (num * pow2 (-unit).toNat) (den * pow2 unit.toNat)
    let bits := (unit + 1074).toNat * pow2 52 + mantissa
    if bits < infiniteBits then some bits else none

/-- The double of a sign and the bits of a magnitude. -/
def ofMagnitude (negative : Bool) (bits : Nat) : Float :=
  Float.ofBits (if negative then pow2 63 + bits else bits).toUInt64

/-- The double nearest to a whole number. -/
def ofInt? (n : Int) : Option Float :=
  (magnitude? n.natAbs 1).map (ofMagnitude (decide (n < 0)))

/-- The double nearest to a quotient of whole numbers. A zero is negative under a negative divisor.
-/
def quotient? (m n : Int) : Option Float :=
  (magnitude? m.natAbs n.natAbs).map (ofMagnitude (decide (m < 0) != decide (n < 0)))

/-- The bits of the double nearest to `coefficient * 10 ^ exponent`. Both guards spare the
arithmetic of exponents that are out of reach: no finite double has 400 digits before the point,
and no positive one has 400 zeros behind it. -/
def scaledBits (coefficient : Nat) (exponent : Int) : Nat :=
  if coefficient = 0 then 0
  else if 400 < exponent then infiniteBits
  else if exponent + (Nat.log2 coefficient : Int) < -400 then 0
  else
    (magnitude? (coefficient * pow10 exponent.toNat) (pow10 (-exponent).toNat)).getD infiniteBits

/-- The double nearest to `coefficient * 10 ^ exponent`, with a sign. -/
def ofScaled (negative : Bool) (coefficient : Nat) (exponent : Int) : Float :=
  ofMagnitude negative (scaledBits coefficient exponent)

/-- How two whole numbers lie to each other. -/
def orderInt (m n : Int) : Ordering := if m < n then .lt else if m = n then .eq else .gt

namespace Exact

/-- Whether a double is a whole number. -/
def isWhole : Exact → Bool
  | finite _ mantissa exponent => (whole? mantissa exponent).isSome
  | _ => false

/-- How a whole number lies to a double; a NaN has no place in the order. -/
def compareInt (n : Int) : Exact → Option Ordering
  | nan => none
  | infinite negative => some (if negative then .gt else .lt)
  | finite negative mantissa exponent =>
    let value : Int := (mantissa * pow2 exponent.toNat : Nat)
    let scaled : Int := n * (pow2 (-exponent).toNat : Nat)
    some (orderInt scaled (if negative then -value else value))

end Exact

/-! ## Laws -/

/-- **The rounded quotient is within half a unit of the exact one.** -/
theorem roundDiv_near (num den : Nat) (h : 0 < den) :
    2 * (roundDiv num den * den) ≤ 2 * num + den ∧
      2 * num ≤ 2 * (roundDiv num den * den) + den := by
  have hsum : den * (num / den) + num % den = num := Nat.div_add_mod num den
  have hrest : num % den < den := Nat.mod_lt _ h
  have hbelow : num / den * den = den * (num / den) := Nat.mul_comm ..
  have habove : (num / den + 1) * den = den * (num / den) + den := by
    rw [Nat.add_mul, hbelow, Nat.one_mul]
  simp only [roundDiv]
  split
  · omega
  · split
    · omega
    · split <;> omega

/-- **A half goes to the even neighbour.** -/
theorem roundDiv_half (num den : Nat) (h : 2 * (num % den) = den) : roundDiv num den % 2 = 0 := by
  simp only [roundDiv, h, Nat.lt_irrefl, if_false]
  split <;> omega

end Slang.Number
