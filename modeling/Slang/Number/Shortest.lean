/-!
# Exact doubles and their shortest decimals

A finite double is a natural number times a power of two, so everything about its decimal text is
a question about natural numbers. No floating-point operation is used here beyond reading the bits.

* `Exact`, `Exact.ofFloat` — sign, mantissa and binary exponent read off the 64 bits.
* `Exact.whole?` — the magnitude as a natural number, where it is one.
* `Window` — the reals that round to the double, its own value and both ends in one unit.
* `Window.hit?` — the point of a decimal grid that lies in the window, the nearer of two, a tie
  going to the even one.
* `Digits`, `Exact.shortest` — the hit on the coarsest grid that has one, hence the fewest digits
  that read back as the same double.
-/

set_option autoImplicit false

namespace Slang.Number

/-- A power of two. -/
def pow2 (n : Nat) : Nat := Nat.pow 2 n

/-- A power of ten. -/
def pow10 (n : Nat) : Nat := Nat.pow 10 n

/-- What the 64 bits of a double denote. A finite magnitude is `mantissa * 2 ^ exponent`. -/
inductive Exact where
  | nan
  | infinite (negative : Bool)
  | finite (negative : Bool) (mantissa : Nat) (exponent : Int)
  deriving DecidableEq, Repr

/-- A decimal `coefficient * 10 ^ exponent`. -/
structure Digits where
  coefficient : Nat
  exponent : Int
  deriving DecidableEq, Repr

namespace Digits

/-- The decimal digits of a natural number. -/
def chars (n : Nat) : List Char := Nat.toDigits 10 n

/-- Move trailing zeros from the coefficient to the exponent, at most `fuel` of them. -/
def trim : Nat → Digits → Digits
  | 0, d => d
  | fuel + 1, d =>
    if d.coefficient ≠ 0 ∧ d.coefficient % 10 = 0 then
      trim fuel ⟨d.coefficient / 10, d.exponent + 1⟩
    else d

end Digits

/-- The reals that round to a double run from `lower` to `upper`, and `value` is the double itself,
all in units of `2 ^ unit`. The ends belong to the window when `closed` holds. -/
structure Window where
  lower : Nat
  value : Nat
  upper : Nat
  unit : Int
  closed : Bool
  deriving DecidableEq, Repr

namespace Window

/-- `2 ^ unit / 10 ^ grid` as a quotient of natural numbers. -/
def ratio (w : Window) (grid : Int) : Nat × Nat :=
  (pow2 w.unit.toNat * pow10 (-grid).toNat, pow2 (-w.unit).toNat * pow10 grid.toNat)

/-- The decimal exponent of the leading digit of the value. -/
def leading (w : Window) : Int :=
  let num := w.value * pow2 w.unit.toNat
  let den := pow2 (-w.unit).toNat
  let guess : Int := (Digits.chars num).length - (Digits.chars den).length
  if den * pow10 guess.toNat ≤ num * pow10 (-guess).toNat then guess else guess - 1

/-- The multiple of `10 ^ grid` in the window that is nearest to the value, if there is one. Of two
equally near, the even multiple. -/
def hit? (w : Window) (grid : Int) : Option Nat :=
  let (a, b) := w.ratio grid
  let below := w.value * a / b
  let above := below + 1
  let inside (x y : Nat) : Bool := if w.closed then x ≤ y else x < y
  let lowHit := inside (w.lower * a) (below * b)
  let highHit := inside (above * b) (w.upper * a)
  match lowHit, highHit with
  | true, true =>
    let down := w.value * a - below * b
    let up := above * b - w.value * a
    if down < up then some below
    else if up < down then some above
    else some (if below % 2 = 0 then below else above)
  | true, false => some below
  | false, true => some above
  | false, false => none

/-- The first hit on the grids of one, two, … significant digits. Seventeen always suffice. -/
def digits (w : Window) : Digits :=
  let top := w.leading
  let tries := (List.range 17).filterMap fun (n : Nat) =>
    let grid := top - n
    (w.hit? grid).map (⟨·, grid⟩)
  match tries with
  | d :: _ => Digits.trim 17 d
  | [] => ⟨w.value, 0⟩

end Window

namespace Exact

/-- Read a double from its bits: one sign bit, eleven exponent bits, fifty-two fraction bits. -/
def ofBits (bits : Nat) : Exact :=
  let negative := decide (pow2 63 ≤ bits)
  let field : Nat := bits / pow2 52 % pow2 11
  let fraction := bits % pow2 52
  if field = 2047 then (if fraction = 0 then .infinite negative else .nan)
  else if field = 0 then .finite negative fraction (-1074)
  else .finite negative (pow2 52 + fraction) ((field : Int) - 1075)

/-- Read a double. -/
def ofFloat (x : Float) : Exact := ofBits x.toBits.toNat

/-- The window of a finite magnitude. The gap below a power of two is half as wide as the gap
above it, unless the next smaller double has the same exponent. -/
def window (mantissa : Nat) (exponent : Int) : Window :=
  let gap := if mantissa = pow2 52 ∧ -1074 < exponent then 1 else 2
  ⟨4 * mantissa - gap, 4 * mantissa, 4 * mantissa + 2, exponent - 2, decide (mantissa % 2 = 0)⟩

/-- The fewest digits that read back as this magnitude. -/
def shortest (mantissa : Nat) (exponent : Int) : Digits :=
  if mantissa = 0 then ⟨0, 0⟩ else (window mantissa exponent).digits

/-- The magnitude as a natural number, where it is whole. -/
def whole? (mantissa : Nat) (exponent : Int) : Option Nat :=
  if 0 ≤ exponent then some (mantissa * pow2 exponent.toNat)
  else
    let scale := pow2 (-exponent).toNat
    if mantissa % scale = 0 then some (mantissa / scale) else none

end Exact

end Slang.Number
