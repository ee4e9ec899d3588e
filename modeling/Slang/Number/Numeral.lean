import Slang.Number.Nearest
import Slang.Text.Blank
import Slang.Text.Digit

/-!
# Numerals

Reading numbers from texts. A numeral may have blanks around it, a sign, digits of any script, and
single underscores between digits.

* `natOfDigits`, `ofDecimal` — plain digits, with or without a fraction.
* `plain?`, `ungroup?` — a numeral in ASCII, and without its underscores.
* `readInt?` — a whole number of at most `digitLimit` digits.
* `readFloat?` — a double: a decimal with an optional exponent, an infinity or a NaN.
-/

set_option autoImplicit false

namespace Slang.Number

/-! ## Digits -/

/-- The ASCII digits. -/
def isDigit (c : Char) : Bool := '0' ≤ c && c ≤ '9'

/-- The natural number that a list of decimal digits spells. -/
def natOfDigits (cs : List Char) : Nat :=
  cs.foldl (fun n c => 10 * n + (c.toNat - '0'.toNat)) 0

/-- The double nearest to `whole.fraction`; too large a number is infinite. -/
def ofDecimal (whole fraction : List Char) : Float :=
  ofScaled false (natOfDigits (whole ++ fraction)) (-(fraction.length : Int))

/-- The natural number that a list of characters spells, if it is a digit or more. -/
def digits? (cs : List Char) : Option Nat :=
  if cs.isEmpty || !cs.all isDigit then none else some (natOfDigits cs)

/-! ## Spelling -/

/-- The ASCII character that a character of a numeral stands for. -/
def plainChar? (c : Char) : Option Char :=
  if c.toNat < 127 then some c
  else if Text.isWideBlank c then some ' '
  else (Text.digitValue? c).map fun d => Char.ofNat ('0'.toNat + d)

/-- Drop the underscores, each of which has to stand between two digits. -/
def ungroup? : List Char → Option (List Char)
  | [] => some []
  | '_' :: _ => none
  | c :: '_' :: d :: rest =>
    if isDigit c && isDigit d then (ungroup? (d :: rest)).map (c :: ·) else none
  | c :: rest => (ungroup? rest).map (c :: ·)

/-- A numeral in ASCII, without underscores and without the blanks around it. -/
def plain? (s : String) : Option (List Char) := do
  let cs ← s.toList.mapM plainChar?
  let cs ← ungroup? cs
  return Text.trim cs

/-- Split off a sign; also whether it is a minus. -/
def splitSign : List Char → Bool × List Char
  | '-' :: rest => (true, rest)
  | '+' :: rest => (false, rest)
  | cs => (false, cs)

/-- A natural number with a sign. -/
def withSign (negative : Bool) (n : Nat) : Int := if negative then -(n : Int) else n

/-! ## Numbers -/

/-- The most digits that a whole number may be read from or written with. -/
def digitLimit : Nat := 4300

/-- The whole number that a numeral spells. Leading zeros count as digits. -/
def readInt? (s : String) : Option Int := do
  let cs ← plain? s
  let (negative, ds) := splitSign cs
  let n ← digits? ds
  if digitLimit < ds.length then none else some (withSign negative n)

/-- The exponent of a decimal, zero if there is none. -/
def exponent? : List Char → Option Int
  | [] => some 0
  | c :: rest =>
    if c = 'e' || c = 'E' then
      let (negative, ds) := splitSign rest
      (digits? ds).map (withSign negative)
    else none

/-- The digits behind a point, and what follows them. -/
def fractionOf : List Char → List Char × List Char
  | '.' :: rest => (rest.takeWhile isDigit, rest.dropWhile isDigit)
  | cs => ([], cs)

/-- Digits, perhaps a point among them, and perhaps an exponent. -/
def decimal? (negative : Bool) (cs : List Char) : Option Float :=
  let whole := cs.takeWhile isDigit
  let (fraction, rest) := fractionOf (cs.dropWhile isDigit)
  if whole.isEmpty && fraction.isEmpty then none
  else
    (exponent? rest).map fun e =>
      ofScaled negative (natOfDigits (whole ++ fraction)) (e - (fraction.length : Int))

/-- The words for the values that are no decimals, in any case. -/
def word? (negative : Bool) (cs : List Char) : Option Float :=
  let lower := String.ofList (cs.map Char.toLower)
  if lower = "inf" || lower = "infinity" then some (ofMagnitude negative infiniteBits)
  else if lower = "nan" then some (Float.ofBits 0x7ff8000000000000)
  else none

/-- The double that a numeral spells; too large a decimal is infinite. -/
def readFloat? (s : String) : Option Float := do
  let cs ← plain? s
  let (negative, body) := splitSign cs
  match word? negative body with
  | some x => some x
  | none => decimal? negative body

/-- Whether a whole number has more than so many decimal digits. -/
def exceeds (most : Nat) (n : Int) : Bool := decide (pow10 most ≤ n.natAbs)

/-- A whole number in decimal, unless it has too many digits. -/
def writeInt? (n : Int) : Option String := if exceeds digitLimit n then none else some (toString n)

end Slang.Number
