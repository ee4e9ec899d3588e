import Slang.Binding
import Slang.Operator

/-!
# Compile errors

A compile error is a cause and the offset it is about, where one is known. Everything else that is
shown of it, its kind, its message and the identifier it names, follows from the cause.

* `CompileError.Cause` — every way in which a text can fail to be a program.
* `CompileError.Kind` — the five categories.
* `Cause.kind`, `Cause.message`, `Cause.symbol` — what is shown of a cause.
* `CompileError.text` — the whole line.
-/

set_option autoImplicit false

namespace Slang

namespace CompileError

/-- The categories of compile errors. -/
inductive Kind where
  | lexical | syntactic | undeclared | mismatch | duplicate
  deriving DecidableEq, Repr

/-- The name of a category. -/
def Kind.name : Kind → String
  | .lexical => "LEXICAL"
  | .syntactic => "SYNTAX"
  | .undeclared => "UNDECLARED_SYMBOL"
  | .mismatch => "TYPE_MISMATCH"
  | .duplicate => "DUPLICATE_FUNCTION"

/-- The category at the head of a message. -/
def Kind.title : Kind → String
  | .lexical => "Lexical"
  | .syntactic => "Syntax"
  | .undeclared => "Undeclared symbol"
  | .mismatch => "Type mismatch"
  | .duplicate => "Duplicate function"

/-- Statements that have a condition. -/
inductive Conditional where
  | if_ | while_
  deriving DecidableEq, Repr

/-- The keyword of a conditional statement. -/
def Conditional.spelling : Conditional → String
  | .if_ => "IF"
  | .while_ => "WHILE"

/-- Why a text is not a program. -/
inductive Cause where
  | unexpectedCharacter (c : Char)
  | unterminatedString
  | unknownOperator (c : Char)
  | duplicateFunction (name : Name)
  | expected (wanted : List Token.Kind) (lexeme : String)
  | notAnOperand (lexeme : String)
  | notAStatement (lexeme : String)
  | nestedFunction
  | malformedHeader (name : String)
  | tooDeep
  | undefinedFunction (name : String)
  | undefinedSymbol (name : Name)
  | operandsDiffer (op : Operator) (left right : Tag)
  | notAddable (ty : Tag)
  | notArithmetic (op : Operator) (ty : Tag)
  | incomparable (op : Operator) (left right : Tag)
  | unordered (ty : Tag)
  | notLogical (op : Operator) (left right : Tag)
  | notNegatable (ty : Tag)
  | notSigned (op : Operator) (ty : Tag)
  | argumentCount (callee : Name) (wanted given : Nat)
  | argumentType (index : Nat) (callee : Name) (formal actual : Tag)
  | conditionType (statement : Conditional) (ty : Tag)
  | assignedType (target : String) (declared value : Tag)
  | returnedType (function : Name) (declared value : Tag)
  deriving DecidableEq, Repr

namespace Cause

/-- The category of a cause. -/
def kind : Cause → Kind
  | unexpectedCharacter _ | unterminatedString | unknownOperator _ => .lexical
  | duplicateFunction _ => .duplicate
  | expected _ _ | notAnOperand _ | notAStatement _ | nestedFunction | malformedHeader _
  | tooDeep => .syntactic
  | undefinedFunction _ | undefinedSymbol _ => .undeclared
  | _ => .mismatch

/-- The identifier that a cause names as the offender. -/
def symbol : Cause → Option String
  | duplicateFunction name | undefinedSymbol name => name
  | undefinedFunction name => some name
  | assignedType target _ _ => some target
  | _ => none

/-- A text between apostrophes. -/
def quoted (s : String) : String := "'" ++ s ++ "'"

/-- The wording of a cause. -/
def message : Cause → String
  | unexpectedCharacter c => "Unexpected character " ++ quoted (String.singleton c)
  | unterminatedString => "Unterminated string literal"
  | unknownOperator c => "Unknown operator " ++ quoted (String.singleton c)
  | duplicateFunction name => "Function " ++ quoted (Name.shown name) ++ " is already declared."
  | expected wanted lexeme =>
    "Expected " ++ " or ".intercalate (wanted.map Token.Kind.wanted) ++ ", got " ++ quoted lexeme ++
      "."
  | notAnOperand lexeme => "Unexpected " ++ quoted lexeme ++ " in expression."
  | notAStatement lexeme => "Unexpected " ++ quoted lexeme ++ " at the start of a statement."
  | nestedFunction =>
    "FUNCTION declarations are only allowed at the top level of a program made of functions."
  | malformedHeader name => "Malformed header for function " ++ quoted name ++ "."
  | tooDeep => "Expression nested too deeply."
  | undefinedFunction name => quoted name ++ " - undefined function."
  | undefinedSymbol name => quoted (Name.shown name) ++ " - undefined symbol."
  | operandsDiffer op left right =>
    "operands of " ++ quoted op.spelling ++ " have different types: " ++ Tag.name left ++ " and " ++
      Tag.name right ++ "."
  | notAddable ty => "'+' expects NUMERIC or STRING operands, got " ++ Tag.name ty ++ "."
  | notArithmetic op ty =>
    quoted op.spelling ++ " expects NUMERIC operands, got " ++ Tag.name ty ++ "."
  | incomparable op left right =>
    "cannot compare " ++ Tag.name left ++ " with " ++ Tag.name right ++ " using " ++
      quoted op.spelling ++ "."
  | unordered ty => "only == and <> are supported for " ++ Tag.name ty ++ " operands."
  | notLogical op left right =>
    quoted op.spelling ++ " expects BOOLEAN operands, got " ++ Tag.name left ++ " and " ++
      Tag.name right ++ "."
  | notNegatable ty => "'!' expects a BOOLEAN operand, got " ++ Tag.name ty ++ "."
  | notSigned op ty =>
    "unary " ++ quoted op.spelling ++ " expects a NUMERIC operand, got " ++ Tag.name ty ++ "."
  | argumentCount callee wanted given =>
    "function " ++ quoted (Name.shown callee) ++ " expects " ++ toString wanted ++
      " argument(s), got " ++ toString given ++ "."
  | argumentType index callee formal actual =>
    "argument " ++ toString index ++ " of " ++ quoted (Name.shown callee) ++ " must be " ++
      Tag.name formal ++ ", got " ++ Tag.name actual ++ "."
  | conditionType statement ty =>
    statement.spelling ++ " condition must be BOOLEAN, got " ++ Tag.name ty ++ "."
  | assignedType target declared value =>
    "cannot assign " ++ Tag.name value ++ " to " ++ Tag.name declared ++ " variable " ++
      quoted target ++ "."
  | returnedType function declared value =>
    "function " ++ quoted (Name.shown function) ++ " must return " ++ Tag.name declared ++
      ", got " ++ Tag.name value ++ "."

end Cause

end CompileError

/-- A cause and the offset it is about. Only a tree that was not read from a text has errors without
an offset. -/
structure CompileError where
  cause : CompileError.Cause
  position : Option Int
  deriving DecidableEq, Repr

namespace CompileError

/-- The category of the error. -/
def kind (e : CompileError) : Kind := e.cause.kind

/-- The wording of the error. -/
def message (e : CompileError) : String := e.cause.message

/-- The identifier that the error names. -/
def symbol (e : CompileError) : Option String := e.cause.symbol

/-- The offset at the head of the line. -/
def place (e : CompileError) : String :=
  match e.position with
  | some pos => "Position " ++ toString pos ++ ": "
  | none => ""

/-- The whole line. -/
def text (e : CompileError) : String := e.place ++ e.kind.title ++ " error: " ++ e.message

end CompileError

end Slang
