import Slang.Name

/-!
# Value types and function signatures

* `Ty` — the three value types of the language.
* `Tag` — a type, where one is set; an unset type reads `NONE`.
* `Prototype` — what a call needs to know of a function: name, return type, formal types.
* `Prototype.header` — the signature as it would be written.
-/

set_option autoImplicit false

namespace Slang

/-- The three value types. -/
inductive Ty where
  | numeric
  | boolean
  | string
  deriving DecidableEq, Repr

namespace Ty

/-- The keyword that names the type. -/
def name : Ty → String
  | .numeric => "NUMERIC"
  | .boolean => "BOOLEAN"
  | .string => "STRING"

end Ty

/-- A type, where one is set. Whatever comes from a source text has its type set. -/
abbrev Tag := Option Ty

namespace Tag

/-- The name of a type that may be unset. -/
def name : Tag → String
  | some t => t.name
  | none => "NONE"

/-- Only NUMERIC operands may be compared with `<`, `<=`, `>` and `>=`. -/
def ordered (t : Tag) : Bool := t == some .numeric

/-- There are no conversions: a value fits a place of exactly its own type. -/
def assignable (target value : Tag) : Bool := target == value

end Tag

/-- The signature of a function. -/
structure Prototype where
  name : Name
  returns : Tag
  formals : List Tag
  deriving DecidableEq, Repr

namespace Prototype

/-- The number of formal parameters. -/
def arity (p : Prototype) : Nat := p.formals.length

/-- A function header from its return type, its name and the texts of its parameters. -/
def headerOf (returns : Tag) (name : Name) (params : List String) : String :=
  "FUNCTION " ++ Tag.name returns ++ " " ++ Name.shown name ++ "(" ++ ", ".intercalate params ++ ")"

/-- The signature as a header with types for parameters. -/
def header (p : Prototype) : String := headerOf p.returns p.name (p.formals.map Tag.name)

end Prototype

end Slang
