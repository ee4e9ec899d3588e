/-!
# Blanks

* `isBlank` — the six blank characters of ASCII that may surround a numeral.
* `isWideBlank` — the blank characters of Unicode 14 beyond ASCII.
* `trim` — a text without the blanks around it.
-/

set_option autoImplicit false

namespace Slang.Text

/-- Space, tab, line feed, vertical tab, form feed and carriage return. -/
def isBlank (c : Char) : Bool := c = ' ' || (9 ≤ c.toNat && c.toNat ≤ 13)

/-- Closed ranges of the blank code points beyond ASCII, ascending and apart. -/
def wideBlanks : List (Nat × Nat) :=
  [(0x85, 0x85), (0xa0, 0xa0), (0x1680, 0x1680), (0x2000, 0x200a), (0x2028, 0x2029),
    (0x202f, 0x202f), (0x205f, 0x205f), (0x3000, 0x3000)]

/-- Whether a character is a blank beyond ASCII. -/
def isWideBlank (c : Char) : Bool := wideBlanks.any fun r => r.1 ≤ c.toNat && c.toNat ≤ r.2

/-- Drop the blanks at both ends. -/
def trim (cs : List Char) : List Char :=
  ((cs.dropWhile isBlank).reverse.dropWhile isBlank).reverse

end Slang.Text
