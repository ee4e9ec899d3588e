import Slang.Number.Layout
import Slang.Number.Numeral
import Slang.Ty

/-!
# Run-time payloads

A value carries a type tag and, apart from it, a payload. Tag and payload usually agree, but a
variable may be declared at two types on two paths, and then a value of the other type is found
under its name. So every operation is defined on payloads alone, as far as it makes sense:

* truth values count as one and zero in arithmetic and in comparisons with numbers;
* two truth values under `+`, `-`, `*` and negation give a `whole` number, which is exact and has
  no bounds; next to a double it is rounded to one, but a comparison never rounds;
* texts can be joined, compared with each other, and repeated a whole number of times;
* a text under the NUMERIC tag is shown as the number that it spells;
* everything else is `Undefined`.

Principal definitions: `Payload`, `Undefined`, `Payload.truthy`, `Payload.order`, `Payload.same`,
`Payload.add?`, `Payload.sub?`, `Payload.mul?`, `Payload.div?`, `Payload.neg?`, and the texts
`Payload.shown`, `Payload.numeral` and `Payload.display`.
-/

set_option autoImplicit false

namespace Slang

/-- What a value holds. -/
inductive Payload where
  | number (x : Float)
  | truth (b : Bool)
  | text (s : String)
  | whole (n : Int)
  deriving Repr

/-- Why an operation has no result: operands that do not go together, a whole number too large for
its use, a text that spells no number, a whole number with too many digits to be written, or a text
too long to be held. -/
inductive Undefined where
  | mismatch
  | tooLarge
  | notANumeral
  | tooManyDigits
  | tooLong
  deriving DecidableEq, Repr

namespace Payload

/-- The payload kind that belongs to a type. -/
def hasKind : Payload → Ty → Bool
  | .number _, .numeric => true
  | .truth _, .boolean => true
  | .text _, .string => true
  | _, _ => false

/-- Zero, the empty text and FALSE are false; a NaN is true. -/
def truthy : Payload → Bool
  | .number x => x != 0
  | .truth b => b
  | .text s => s != ""
  | .whole n => n != 0

/-! ## Quantities -/

/-- A payload as a number: exact for truth values and whole numbers. -/
inductive Quantity where
  | real (x : Float)
  | exact (n : Int)

/-- The result of an operation that may be undefined for one reason only. -/
def orElse {α : Type} (reason : Undefined) : Option α → Except Undefined α
  | some a => .ok a
  | none => .error reason

namespace Quantity

/-- A quantity rounded to a double. -/
def toFloat : Quantity → Except Undefined Float
  | real x => .ok x
  | exact n => orElse .tooLarge (Number.ofInt? n)

/-- How two quantities lie to each other; next to a NaN they do not. -/
def order : Quantity → Quantity → Option Ordering
  | exact m, exact n => some (Number.orderInt m n)
  | exact m, real y => (Number.Exact.ofFloat y).compareInt m
  | real x, exact n => ((Number.Exact.ofFloat x).compareInt n).map Ordering.swap
  | real x, real y =>
    if x < y then some .lt else if x == y then some .eq else if y < x then some .gt else none

end Quantity

/-- The quantity of a payload; a text has none. -/
def quantity? : Payload → Option Quantity
  | .number x => some (.real x)
  | .truth b => some (.exact (if b then 1 else 0))
  | .whole n => some (.exact n)
  | .text _ => none

/-! ## Arithmetic -/

/-- Combine two quantities: exactly if both are exact, as doubles otherwise. -/
def combine (exact : Int → Int → Int) (real : Float → Float → Float) :
    Quantity → Quantity → Except Undefined Payload
  | .exact m, .exact n => .ok (.whole (exact m n))
  | a, b => do
    let x ← a.toFloat
    let y ← b.toFloat
    return .number (real x y)

/-- `combine` on payloads that are quantities. -/
def combine? (exact : Int → Int → Int) (real : Float → Float → Float) (a b : Payload) :
    Except Undefined Payload :=
  match a.quantity?, b.quantity? with
  | some x, some y => combine exact real x y
  | _, _ => .error .mismatch

/-- The end of the range of counts and lengths. -/
def countEnd : Nat := Number.pow2 63

/-- The length that no text reaches. -/
def lengthEnd : Nat := Number.pow2 33

/-- A text written `n` times; a negative count gives the empty text. -/
def repeated (s : String) (n : Int) : Except Undefined Payload :=
  if n < -(countEnd : Int) ∨ (countEnd : Int) ≤ n then .error .tooLarge
  else if s = "" ∨ n ≤ 0 then .ok (.text "")
  else
    let length := s.length * n.toNat
    if countEnd ≤ length then .error .tooLarge
    else if lengthEnd ≤ length then .error .tooLong
    else .ok (.text (Nat.repeat (fun text => text ++ s) n.toNat ""))

/-- Sum, or one text after the other. -/
def add? : Payload → Payload → Except Undefined Payload
  | .text s, .text t => .ok (.text (s ++ t))
  | a, b => combine? (· + ·) (· + ·) a b

/-- Difference. -/
def sub? (a b : Payload) : Except Undefined Payload := combine? (· - ·) (· - ·) a b

/-- Product, or a repeated text. -/
def mul? (a b : Payload) : Except Undefined Payload :=
  match a, b, a.quantity?, b.quantity? with
  | .text s, _, _, some (.exact n) => repeated s n
  | _, .text s, some (.exact n), _ => repeated s n
  | _, _, some x, some y => combine (· * ·) (· * ·) x y
  | _, _, _, _ => .error .mismatch

/-- Division of doubles: a zero divisor gives an infinity of the sign of the quotient, and zero by
zero is no number. -/
def divide (x y : Float) : Float := x / y

/-- The quotient of two quantities. Two exact ones are divided before they are rounded, unless the
divisor is zero. -/
def Quantity.quotient : Quantity → Quantity → Except Undefined Float
  | .exact m, .exact n =>
    if n = 0 then do
      let x ← (exact m).toFloat
      return divide x 0
    else orElse .tooLarge (Number.quotient? m n)
  | a, b => do
    let x ← a.toFloat
    let y ← b.toFloat
    return divide x y

/-- Quotient, always a double. -/
def div? (a b : Payload) : Except Undefined Payload :=
  match a.quantity?, b.quantity? with
  | some x, some y => (x.quotient y).map .number
  | _, _ => .error .mismatch

/-- The value with the opposite sign. -/
def neg? (a : Payload) : Except Undefined Payload :=
  match a.quantity? with
  | some (.real x) => .ok (.number (-x))
  | some (.exact n) => .ok (.whole (-n))
  | none => .error .mismatch

/-! ## Comparison -/

/-- How two texts lie to each other, by their code points. -/
def orderText (s t : String) : Ordering := if s < t then .lt else if s = t then .eq else .gt

/-- How two payloads lie to each other: quantities by their value, texts by code points. -/
def order : Payload → Payload → Except Undefined (Option Ordering)
  | .text s, .text t => .ok (some (orderText s t))
  | a, b =>
    match a.quantity?, b.quantity? with
    | some x, some y => .ok (x.order y)
    | _, _ => .error .mismatch

/-- Equality; a text and a number differ. -/
def same (a b : Payload) : Bool :=
  match a.order b with
  | .ok (some .eq) => true
  | _ => false

/-! ## Texts -/

/-- The payload as it is, whatever its tag says. -/
def shown : Payload → String
  | .number x => Number.literal x
  | .truth b => if b then "True" else "False"
  | .text s => s
  | .whole n => toString n

/-- A text as a NUMERIC value: the whole number that it spells, or else the double. -/
def numeralOfText (s : String) : Except Undefined String := do
  let x ← orElse .notANumeral (Number.readFloat? s)
  if (Number.Exact.ofFloat x).isWhole then
    let n ← orElse .notANumeral (Number.readInt? s)
    return toString n
  else return Number.literal x

/-- The payload as a NUMERIC value. A whole number is shown if it fits a double. -/
def numeral : Payload → Except Undefined String
  | .number x => .ok (Number.display x)
  | .truth b => .ok (if b then "1" else "0")
  | .text s => numeralOfText s
  | .whole n =>
    match Number.ofInt? n with
    | some _ => .ok (toString n)
    | none => .error .tooLarge

/-- The payload as a BOOLEAN value. -/
def verdict (p : Payload) : String := if p.truthy then "TRUE" else "FALSE"

/-- The payload as a STRING value. -/
def plainText : Payload → Except Undefined String
  | .whole n => orElse .tooManyDigits (Number.writeInt? n)
  | p => .ok p.shown

/-- The payload under a type tag; without one it is taken for a text. -/
def display (p : Payload) : Tag → Except Undefined String
  | some .numeric => p.numeral
  | some .boolean => .ok p.verdict
  | some .string | none => p.plainText

end Payload

end Slang
