import Slang.Token.Scan

/-!
# Scanning from offsets below zero

An offset below zero counts from the end of a text. Reading from there goes on at the start of the
text once its end is reached, and stops for good at the end. A token is then cut out of the text
between its two offsets, and nothing lies between an offset from the end and one from the start
unless the token went round the whole text.

* `ScanStop` — a compile error, an offset before the start of the text, or digits that were cut
  away.
* `onward` — what is read from an offset on.
* `cutWord`, `cutNumber`, `cutString`, `cutSymbol` — the four forms of tokens.
* `scanAt` — the first token at or after any offset.
-/

set_option autoImplicit false

namespace Slang.Token

/-- Why no token is found. -/
inductive ScanStop where
  | error (e : CompileError)
  | outOfText
  | notANumeral
  deriving DecidableEq, Repr

/-- A token and the offset just behind it. -/
abbrev Scanned := Except ScanStop (Int × Token)

/-- What is read from an offset below zero on. -/
def onward (source : List Char) (pos : Int) : List Char :=
  (source ++ source).drop (pos + source.length).toNat

/-- A word; what was cut out decides whether it is a reserved one. -/
def cutWord (source : List Char) (start : Int) (cs : List Char) : Scanned :=
  let stop := start + (word cs).size
  let found := word (Source.slice source start stop)
  .ok (stop, ⟨found.kind, some found.value, start⟩)

/-- A number; what was cut out has to be one. -/
def cutNumber (source : List Char) (start : Int) (cs : List Char) : Scanned :=
  let stop := start + (number cs).size
  match Number.readFloat? (String.ofList (Source.slice source start stop)) with
  | some x => .ok (stop, ⟨.number, some (.number x), start⟩)
  | none => .error .notANumeral

/-- A string literal whose opening quote is at `start`. -/
def cutString (source : List Char) (start : Int) (rest : List Char) : Scanned :=
  let body := rest.takeWhile (· ≠ '"')
  let stop := start + 1 + body.length
  if body.length < rest.length then
    let text := String.ofList (Source.slice source (start + 1) stop)
    .ok (stop + 1, ⟨.stringLiteral, some (.text text), start⟩)
  else .error (.error ⟨.unterminatedString, start⟩)

/-- The symbol with this spelling. -/
def spelled? (cs : List Char) : Option Symbol := Symbol.all.find? fun s => s.spelling.toList = cs

/-- A symbol: what is cut out as two characters, or else the one that was read. -/
def cutSymbol (source : List Char) (start : Int) (c : Char) : Scanned :=
  let token (s : Symbol) : Token := ⟨.symbol s, some (.text s.spelling), start⟩
  let pair :=
    if start + 1 < source.length then spelled? (Source.slice source start (start + 2)) else none
  match pair, spelled? [c] with
  | some s, _ => .ok (start + 2, token s)
  | none, some s => .ok (start + 1, token s)
  | none, none => .error (.error ⟨.unknownOperator c, start⟩)

/-- The first token at or after an offset below zero. -/
def scanBackward (source : List Char) (pos : Int) : Scanned :=
  if pos + source.length < 0 ∨ source = [] then .error .outOfText
  else
    let cs := onward source pos
    let start := pos + (cs.takeWhile isBlank).length
    match cs.dropWhile isBlank with
    | [] => .ok (start, atEnd start)
    | c :: rest =>
      if isLetter c then cutWord source start (c :: rest)
      else if Number.isDigit c then cutNumber source start (c :: rest)
      else if c = '"' then cutString source start rest
      else if isSpecial c then cutSymbol source start c
      else .error (.error ⟨.unexpectedCharacter c, start⟩)

/-- The first token at or after an offset. -/
def scanAt (source : List Char) (pos : Int) : Scanned :=
  if pos < 0 then scanBackward source pos
  else
    match scan source pos.toNat with
    | .ok (stop, t) => .ok (stop, t)
    | .error e => .error (.error e)

end Slang.Token
