import Slang.Token

/-!
# Operators of expressions

* `Operator` — the thirteen operators, each with the `symbol` that writes it.
* `Operator.multiplicative?`, `additive?`, `relational?`, `connective?` — the levels of the grammar.
* `Operator.arithmetic`, `compare`, `connect`, `signed` — what an operator means in a node of each
  kind. A node that the parser builds only has operators of its own kind, but the meaning is total:
  each kind of node takes the operators it does not tell apart for its last one.
-/

set_option autoImplicit false

namespace Slang

/-- The operators. -/
inductive Operator where
  | add | sub | mul | div
  | eq | ne | gt | ge | lt | le
  | and | or | not
  deriving DecidableEq, Repr

namespace Operator

/-- Every operator. -/
def all : List Operator := [add, sub, mul, div, eq, ne, gt, ge, lt, le, and, or, not]

/-- The symbol that writes the operator. -/
def symbol : Operator → Symbol
  | add => .plus
  | sub => .minus
  | mul => .times
  | div => .slash
  | eq => .eq
  | ne => .ne
  | gt => .gt
  | ge => .ge
  | lt => .lt
  | le => .le
  | and => .and
  | or => .or
  | not => .not

/-- The spelling of the operator. -/
def spelling (op : Operator) : String := op.symbol.spelling

/-- The operator with this spelling. -/
def ofSpelling? (s : String) : Option Operator := all.find? (·.spelling = s)

/-! ## Levels -/

/-- A multiplicative operator. -/
def multiplicative? : Symbol → Option Operator
  | .times => some mul
  | .slash => some div
  | _ => none

/-- An additive operator. -/
def additive? : Symbol → Option Operator
  | .plus => some add
  | .minus => some sub
  | _ => none

/-- A comparison. -/
def relational? : Symbol → Option Operator
  | .eq => some eq
  | .ne => some ne
  | .gt => some gt
  | .ge => some ge
  | .lt => some lt
  | .le => some le
  | _ => none

/-- A connective. -/
def connective? : Symbol → Option Operator
  | .and => some and
  | .or => some or
  | _ => none

/-! ## Meaning -/

/-- In an arithmetic node: sum, difference, product, and else the quotient. -/
def arithmetic : Operator → Payload → Payload → Except Undefined Payload
  | add => Payload.add?
  | sub => Payload.sub?
  | mul => Payload.mul?
  | _ => Payload.div?

/-- Whether a comparison asks for an order, and not only for equality. -/
def needsOrder : Operator → Bool
  | eq | ne => false
  | _ => true

/-- Whether an order that is asked for is the one that was found: greater, at least, less, and else
at most. Next to a NaN no order is found, and none holds. -/
def ordered : Operator → Option Ordering → Bool
  | _, none => false
  | gt, some o => o == .gt
  | ge, some o => o != .lt
  | lt, some o => o == .lt
  | _, some o => o != .gt

/-- In a comparison. Any two payloads are equal or not; an order they need not have. -/
def compare : Operator → Payload → Payload → Except Undefined Bool
  | eq, a, b => .ok (a.same b)
  | ne, a, b => .ok (!a.same b)
  | op, a, b => (a.order b).map op.ordered

/-- Between two truth values that are both known: both, and else either. -/
def connect : Operator → Bool → Bool → Bool
  | and, a, b => a && b
  | _, a, b => a || b

/-- Before an operand: a plus sign keeps whatever it stands before, and else the sign changes. -/
def signed : Operator → Payload → Except Undefined Payload
  | add, a => .ok a
  | _, a => a.neg?

end Operator

end Slang
