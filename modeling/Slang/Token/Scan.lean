import Slang.Error
import Slang.Source
import Slang.Trace

/-!
# Scanning

A text is read as tokens between blanks, each the longest one that starts at its place.

* `Lexeme`, `Lexeme.first` — what a non-empty text starts with: a word, a number, a string literal
  or a symbol, together with its length.
* `scan` — the first token at or after an offset.
* `TokenReport`, `tokenize` — the stream of all tokens, which ends with the end of the input or
  with an error. The stream walks the text one character at a time and passes over the characters
  of the token it has just reported.
* `Cursor` — the same scanner as a cursor that is moved by each token it yields.
-/

set_option autoImplicit false

namespace Slang

namespace Token

/-! ## Character classes -/

/-- Blanks separate tokens and mean nothing else. -/
def isBlank (c : Char) : Bool := c = ' ' || c = '\t'

/-- The ASCII letters. -/
def isLetter (c : Char) : Bool := ('a' ≤ c && c ≤ 'z') || ('A' ≤ c && c ≤ 'Z')

/-- What may follow the first letter of a word. -/
def isWordPart (c : Char) : Bool := isLetter c || Number.isDigit c || c = '_'

/-- The characters that start a symbol; two of them are no symbol by themselves. -/
def isSpecial (c : Char) : Bool := "+-*/();,=<>!&|".toList.contains c

/-! ## One token -/

/-- What a text starts with: a kind, a payload and a number of characters. -/
structure Lexeme where
  kind : Kind
  value : Payload
  size : Nat
  deriving Repr

/-- The longest word at the start of a text; a reserved word if it is one as a whole. -/
def word (cs : List Char) : Lexeme :=
  let letters := cs.takeWhile isWordPart
  let spelling := String.ofList letters
  let kind := ((Keyword.ofSpelling? spelling).map Kind.keyword).getD .identifier
  ⟨kind, .text spelling, letters.length⟩

/-- The digits after a point, where a point and a digit follow. -/
def fraction : List Char → List Char
  | '.' :: d :: rest => if Number.isDigit d then d :: rest.takeWhile Number.isDigit else []
  | _ => []

/-- The longest number at the start of a text. A point belongs to it only before a digit. -/
def number (cs : List Char) : Lexeme :=
  let whole := cs.takeWhile Number.isDigit
  let part := fraction (cs.drop whole.length)
  let size := if part.isEmpty then whole.length else whole.length + 1 + part.length
  ⟨.number, .number (Number.ofDecimal whole part), size⟩

/-- The string literal whose opening quote has been read: everything up to the next quote. -/
def stringBody (cs : List Char) : Except CompileError.Cause Lexeme :=
  let body := cs.takeWhile (· ≠ '"')
  if body.length < cs.length then
    .ok ⟨.stringLiteral, .text (String.ofList body), body.length + 2⟩
  else .error .unterminatedString

/-- The symbol at the start of a text, one of two characters before one of a single character. -/
def symbol? (cs : List Char) : Option Symbol :=
  Symbol.all.find? fun s => s.spelling.toList.isPrefixOf cs

/-- The token at the start of the text `c :: rest`. -/
def Lexeme.first (c : Char) (rest : List Char) : Except CompileError.Cause Lexeme :=
  if isLetter c then .ok (word (c :: rest))
  else if Number.isDigit c then .ok (number (c :: rest))
  else if c = '"' then stringBody rest
  else if isSpecial c then
    match symbol? (c :: rest) with
    | some s => .ok ⟨.symbol s, .text s.spelling, s.spelling.length⟩
    | none => .error (.unknownOperator c)
  else .error (.unexpectedCharacter c)

/-- The end of the input at an offset. -/
def atEnd (pos : Int) : Token := ⟨.endOfInput, none, pos⟩

/-- A lexeme at an offset. -/
def Lexeme.toToken (l : Lexeme) (pos : Nat) : Token := ⟨l.kind, some l.value, pos⟩

/-- The first token at or after an offset, and the offset just behind it. -/
def scan (source : List Char) (pos : Nat) : Except CompileError (Nat × Token) :=
  let blanks := (source.drop pos).takeWhile isBlank
  let start := pos + blanks.length
  match source.drop start with
  | [] => .ok (start, atEnd start)
  | c :: rest =>
    match Lexeme.first c rest with
    | .ok l => .ok (start + l.size, l.toToken start)
    | .error cause => .error ⟨cause, some start⟩

end Token

/-! ## All tokens -/

/-- A token and the offset just behind it. -/
structure TokenReport where
  token : Token
  stop : Nat
  deriving Repr

namespace TokenReport

/-- What the report says. -/
def message (r : TokenReport) : String :=
  match r.token.kind with
  | .endOfInput => "Reached end of input."
  | .identifier => "Found identifier: " ++ r.token.valueText ++ "."
  | .number => "Found numeric literal: " ++ r.token.lexeme ++ "."
  | .stringLiteral => "Found string literal."
  | .keyword _ => "Found keyword: " ++ r.token.valueText ++ "."
  | _ => "Found symbol: " ++ r.token.valueText ++ "."

end TokenReport

namespace Token

/-- Report the tokens of a text that starts at offset `pos`, after passing over `skip` characters.
-/
def tokensFrom : (pos skip : Nat) → List Char → Trace TokenReport (Except CompileError Unit)
  | pos, _, [] => .emit ⟨atEnd pos, pos⟩ fun _ => .done (.ok ())
  | pos, skip + 1, _ :: rest => tokensFrom (pos + 1) skip rest
  | pos, 0, c :: rest =>
    if isBlank c then tokensFrom (pos + 1) 0 rest
    else
      match Lexeme.first c rest with
      | .error cause => .done (.error ⟨cause, some pos⟩)
      | .ok l =>
        .emit ⟨l.toToken pos, pos + l.size⟩ fun _ => tokensFrom (pos + 1) (l.size - 1) rest

/-- The stream of all tokens of a text, the end of the input included. -/
def tokenize (source : List Char) : Trace TokenReport (Except CompileError Unit) :=
  tokensFrom 0 0 source

/-- All tokens of a text, or the error that stops them. -/
def all (source : List Char) : Except CompileError (List Token) :=
  match (tokenize source).collect with
  | (reports, .ok ()) => .ok (reports.toList.map (·.token))
  | (_, .error e) => .error e

/-! ## A cursor -/

/-- A text and an offset into it. -/
structure Cursor where
  source : List Char
  pos : Nat
  deriving Repr

/-- A cursor at the start of a text. -/
def Cursor.start (source : List Char) : Cursor := ⟨source, 0⟩

/-- The next token; the cursor moves behind it, and stays where it is on an error. -/
def Cursor.next (c : Cursor) : Except CompileError Token × Cursor :=
  match scan c.source c.pos with
  | .ok (pos, t) => (.ok t, { c with pos })
  | .error e => (.error e, c)

end Token

end Slang
