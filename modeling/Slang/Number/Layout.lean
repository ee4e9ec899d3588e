import Slang.Number.Shortest

/-!
# Number texts

* `Layout` — how a shortest decimal is laid out: which exponents are written positionally, whether
  a whole number keeps its `.0`, the exponent mark and its width, and the words for the rest.
* `Layout.spell` — the text of a double in a layout.
* `literal` — the layout that always shows a double as a double (`1.0`, `1e+16`, `inf`).
* `display` — the text of a NUMERIC value: a whole number as all its digits, anything else as the
  `literal` text, and `NaN`, `Infinity`, `-Infinity`.
-/

set_option autoImplicit false

namespace Slang.Number

/-- The decisions that turn digits into text. -/
structure Layout where
  /-- Least exponent of the leading digit that is written positionally. -/
  leastPositional : Int
  /-- Least exponent of the leading digit that is too large for that. -/
  endPositional : Int
  /-- What follows the digits of a whole number. -/
  wholeTail : String
  /-- Least number of exponent digits. -/
  exponentWidth : Nat
  nan : String
  infinite : String

namespace Layout

/-- Put `zeros` zeros in front. -/
def padded (width : Nat) (cs : List Char) : List Char :=
  List.replicate (width - cs.length) '0' ++ cs

/-- Digits with a point, for a leading digit of exponent `lead`. -/
def positional (l : Layout) (cs : List Char) (lead : Int) : String :=
  if lead < 0 then
    String.ofList ('0' :: '.' :: (List.replicate (-lead - 1).toNat '0' ++ cs))
  else
    let size := lead.toNat + 1
    if cs.length ≤ size then
      String.ofList (cs ++ List.replicate (size - cs.length) '0') ++ l.wholeTail
    else
      String.ofList (cs.take size ++ '.' :: cs.drop size)

/-- One digit, a point if more follow, and a signed exponent. -/
def scientific (l : Layout) (cs : List Char) (lead : Int) : String :=
  let fraction := if cs.length ≤ 1 then [] else '.' :: cs.drop 1
  let sign := if lead < 0 then '-' else '+'
  String.ofList
    (cs.take 1 ++ fraction ++ 'e' :: sign :: padded l.exponentWidth (Digits.chars lead.natAbs))

/-- The text of a decimal. -/
def spellDigits (l : Layout) (d : Digits) : String :=
  let cs := Digits.chars d.coefficient
  let lead := d.exponent + cs.length - 1
  if l.leastPositional ≤ lead ∧ lead < l.endPositional then l.positional cs lead
  else l.scientific cs lead

/-- A minus sign for negative values. -/
def signed (negative : Bool) (text : String) : String := if negative then "-" ++ text else text

/-- The text of a double. -/
def spell (l : Layout) (x : Float) : String :=
  match Exact.ofFloat x with
  | .nan => l.nan
  | .infinite negative => signed negative l.infinite
  | .finite negative mantissa exponent =>
    signed negative (l.spellDigits (Exact.shortest mantissa exponent))

end Layout

/-- Positional from `10 ^ -4` up to `10 ^ 16`, a whole number marked by `.0`, exponents of two
digits or more. -/
def literalLayout : Layout := ⟨-4, 16, ".0", 2, "nan", "inf"⟩

/-- The text that always shows a double as a double. -/
def literal (x : Float) : String := literalLayout.spell x

/-- The text of a NUMERIC value. The sign of a zero is not shown. -/
def display (x : Float) : String :=
  match Exact.ofFloat x with
  | .nan => "NaN"
  | .infinite negative => Layout.signed negative "Infinity"
  | .finite negative mantissa exponent =>
    match Exact.whole? mantissa exponent with
    | some n => Layout.signed (negative && n ≠ 0) (toString n)
    | none => Layout.signed negative (literalLayout.spellDigits (Exact.shortest mantissa exponent))

end Slang.Number
