import Slang.Text.Printable

/-!
# Quoted texts

Diagnostic output shows a text between quotation marks: apostrophes, or double quotes for a text
that has an apostrophe and no double quote.

* `mark` — which quotation mark a text takes.
* `codePoint` — a character by its number, in the shortest of three forms.
* `escape` — a character inside the marks; the backslash, the mark itself and whatever is not
  printable are escaped, everything else stands for itself.
* `quote` — the whole text.
-/

set_option autoImplicit false

namespace Slang.Text

/-- The quotation mark for a text. -/
def mark (cs : List Char) : Char :=
  if cs.contains '\'' && !cs.contains '"' then '"' else '\''

/-- A number in hexadecimal, with zeros in front up to a width. -/
def hexadecimal (width n : Nat) : List Char :=
  let ds := Nat.toDigits 16 n
  List.replicate (width - ds.length) '0' ++ ds

/-- A character by its number: two, four or eight hexadecimal digits behind a letter. -/
def codePoint (c : Char) : List Char :=
  if c.toNat ≤ 0xff then '\\' :: 'x' :: hexadecimal 2 c.toNat
  else if c.toNat ≤ 0xffff then '\\' :: 'u' :: hexadecimal 4 c.toNat
  else '\\' :: 'U' :: hexadecimal 8 c.toNat

/-- The characters that stand for `c` between two marks `q`. -/
def escape (q c : Char) : List Char :=
  if c = '\\' ∨ c = q then ['\\', c]
  else if c = '\t' then ['\\', 't']
  else if c = '\n' then ['\\', 'n']
  else if c = '\r' then ['\\', 'r']
  else if isPrintable c then [c]
  else codePoint c

/-- The text between its marks. -/
def quote (s : String) : String :=
  let cs := s.toList
  let q := mark cs
  String.ofList (q :: cs.flatMap (escape q) ++ [q])

end Slang.Text
