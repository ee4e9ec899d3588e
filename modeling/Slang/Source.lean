/-!
# Source texts

* `normalize` — every line break character becomes a space, so offsets do not move.
* `slice` — the part of a text between two offsets; an offset below zero counts from the end.
* `lineColumn` — line and column of an offset, both counted from one.
* `unifyNewlines` — the three line endings of files become one.
* `decode` — the text of a file.
-/

set_option autoImplicit false

namespace Slang.Source

/-- The character that a line break is read as. -/
def flatten (c : Char) : Char := if c = '\r' ∨ c = '\n' then ' ' else c

/-- Replace each carriage return and each line feed by one space. -/
def normalize (source : List Char) : List Char := source.map flatten

/-- The number of characters before an offset in a text of so many; one below zero counts from the
end. -/
def offset (size : Nat) (i : Int) : Nat := if i < 0 then (i + size).toNat else i.toNat

/-- The part of a text between two offsets. -/
def slice (cs : List Char) (start stop : Int) : List Char :=
  (cs.take (offset cs.length stop)).drop (offset cs.length start)

/-- A place in a text, lines and columns counted from one. -/
structure Place where
  line : Nat
  column : Int
  deriving DecidableEq, Repr

/-- The number of characters after the last line feed. -/
def sinceBreak (cs : List Char) : Nat := (cs.reverse.takeWhile (· ≠ '\n')).length

/-- The place of an offset. Offsets past the end are counted on in the last line, and offsets below
zero stand in the line that they are found in, with their columns counted down. -/
def lineColumn (source : List Char) (position : Int) : Place :=
  let before := source.take (offset source.length position)
  let lineStart := before.length - sinceBreak before
  ⟨before.count '\n' + 1, position - lineStart + 1⟩

/-- Turn `CR LF` and a lone `CR` into `LF`. -/
def unifyNewlines : List Char → List Char
  | '\r' :: '\n' :: rest => '\n' :: unifyNewlines rest
  | '\r' :: rest => '\n' :: unifyNewlines rest
  | c :: rest => c :: unifyNewlines rest
  | [] => []

/-- Read the bytes of a file as UTF-8 text with unified line endings. -/
def decode (bytes : ByteArray) : Option String :=
  (String.fromUTF8? bytes).map fun s => String.ofList (unifyNewlines s.toList)

end Slang.Source
