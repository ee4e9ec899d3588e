import Slang.Payload
import Slang.Text.Quoted

/-!
# Tokens

* `Keyword`, `Symbol` — the fifteen reserved words and the eighteen operators and separators, each
  with its spelling.
* `Token.Kind` — what a token is; `Kind.name` and `Kind.spelling` are its two texts.
* `Token` — a kind, a payload and the offset of its first character.
* `Token.lexeme?` — the token as it would be written, which a NUMBER without a number is not;
  `Token.lexeme` — the same for tokens that were read from a text.
* `Token.same` — equality, numbers compared as numbers.
-/

set_option autoImplicit false

namespace Slang

/-- The reserved words. -/
inductive Keyword where
  | print | if_ | then_ | else_ | endif | while_ | wend
  | numeric | string | boolean | true_ | false_ | function | end_ | return_
  deriving DecidableEq, Repr

namespace Keyword

/-- Every reserved word. -/
def all : List Keyword :=
  [print, if_, then_, else_, endif, while_, wend, numeric, string, boolean, true_, false_,
    function, end_, return_]

/-- How the word is written. -/
def spelling : Keyword → String
  | print => "PRINT"
  | if_ => "IF"
  | then_ => "THEN"
  | else_ => "ELSE"
  | endif => "ENDIF"
  | while_ => "WHILE"
  | wend => "WEND"
  | numeric => "NUMERIC"
  | string => "STRING"
  | boolean => "BOOLEAN"
  | true_ => "TRUE"
  | false_ => "FALSE"
  | function => "FUNCTION"
  | end_ => "END"
  | return_ => "RETURN"

/-- The reserved word with this spelling. -/
def ofSpelling? (word : String) : Option Keyword := all.find? (·.spelling = word)

/-- The type that a word names. -/
def ty? : Keyword → Option Ty
  | numeric => some .numeric
  | string => some .string
  | boolean => some .boolean
  | _ => none

end Keyword

/-- Operators and separators. -/
inductive Symbol where
  | plus | minus | times | slash | assign
  | eq | ne | gt | ge | lt | le | and | or | not
  | semicolon | comma | leftParen | rightParen
  deriving DecidableEq, Repr

namespace Symbol

/-- Every symbol, those of two characters first. -/
def all : List Symbol :=
  [eq, ne, ge, le, and, or, plus, minus, times, slash, leftParen, rightParen, semicolon, comma,
    assign, lt, gt, not]

/-- How the symbol is written. -/
def spelling : Symbol → String
  | plus => "+"
  | minus => "-"
  | times => "*"
  | slash => "/"
  | assign => "="
  | eq => "=="
  | ne => "<>"
  | gt => ">"
  | ge => ">="
  | lt => "<"
  | le => "<="
  | and => "&&"
  | or => "||"
  | not => "!"
  | semicolon => ";"
  | comma => ","
  | leftParen => "("
  | rightParen => ")"

end Symbol

namespace Token

/-- What a token is. No text produces an `illegal` token. -/
inductive Kind where
  | symbol (s : Symbol)
  | keyword (k : Keyword)
  | number
  | stringLiteral
  | identifier
  | endOfInput
  | illegal
  deriving DecidableEq, Repr

namespace Kind

/-- Every kind. -/
def all : List Kind :=
  Symbol.all.map symbol ++ Keyword.all.map keyword ++
    [number, stringLiteral, identifier, endOfInput, illegal]

/-- The name of the kind. -/
def name : Kind → String
  | symbol .plus => "PLUS"
  | symbol .minus => "MINUS"
  | symbol .times => "MULTIPLY"
  | symbol .slash => "DIVIDE"
  | symbol .assign => "ASSIGN"
  | symbol .eq => "EQ"
  | symbol .ne => "NEQ"
  | symbol .gt => "GT"
  | symbol .ge => "GTE"
  | symbol .lt => "LT"
  | symbol .le => "LTE"
  | symbol .and => "AND"
  | symbol .or => "OR"
  | symbol .not => "NOT"
  | symbol .semicolon => "SEMICOLON"
  | symbol .comma => "COMMA"
  | symbol .leftParen => "LPAREN"
  | symbol .rightParen => "RPAREN"
  | keyword .numeric => "VAR_NUMERIC"
  | keyword .string => "VAR_STRING"
  | keyword .boolean => "VAR_BOOLEAN"
  | keyword k => k.spelling
  | number => "NUMBER"
  | stringLiteral => "STRING_LITERAL"
  | identifier => "IDENTIFIER"
  | endOfInput => "END_OF_INPUT"
  | illegal => "ILLEGAL"

/-- The kind with this name. -/
def ofName? (n : String) : Option Kind := all.find? (·.name = n)

/-- The kind as a message asks for it. -/
def wanted : Kind → String
  | endOfInput => "end of input"
  | identifier => "identifier"
  | number => "number"
  | symbol s => "'" ++ s.spelling ++ "'"
  | keyword k => "'" ++ k.spelling ++ "'"
  | stringLiteral => "'STRING_LITERAL'"
  | illegal => "'ILLEGAL'"

/-- The type that a token of this kind names. -/
def ty? : Kind → Option Ty
  | keyword k => k.ty?
  | _ => none

end Kind

end Token

/-- A token: the payload is the number of a number, the text between the quotes of a string
literal, nothing at the end of the input, and the spelling otherwise. -/
structure Token where
  kind : Token.Kind
  value : Option Payload
  pos : Int
  deriving Repr

namespace Token

/-- The payload as text. -/
def valueText (t : Token) : String :=
  match t.value with
  | some p => p.shown
  | none => "None"

/-- The token as it would be written. -/
def lexeme? (t : Token) : Except Undefined String :=
  match t.kind, t.value with
  | .stringLiteral, _ => .ok ("\"" ++ t.valueText ++ "\"")
  | .number, some p => p.numeral
  | .number, none => .error .mismatch
  | .endOfInput, _ => .ok "<end of input>"
  | _, _ => .ok t.valueText

/-- The token as it would be written. Of a text, every token can be. -/
def lexeme (t : Token) : String :=
  match t.lexeme? with
  | .ok text => text
  | .error _ => t.valueText

/-- Equality of payloads: a number equals itself unless it is a NaN. -/
def sameValue : Option Payload → Option Payload → Bool
  | none, none => true
  | some p, some q => p.same q
  | _, _ => false

/-- Equality of tokens. -/
def same (a b : Token) : Bool := a.kind = b.kind && sameValue a.value b.value && a.pos = b.pos

/-- The payload as diagnostic output shows it. -/
def valueQuoted (t : Token) : String :=
  match t.value with
  | some (.text s) => Text.quote s
  | some p => p.shown
  | none => "None"

/-- The token as diagnostic output shows it. -/
def inspect (t : Token) : String :=
  "Token(" ++ t.kind.name ++ ", " ++ t.valueQuoted ++ ", pos " ++ toString t.pos ++ ")"

end Token

end Slang
