import Slang.Error
import Slang.Tree

/-!
# Type checking

An expression is checked bottom-up and left to right against the types of the declared variables.
The check returns the tree with the types it has found recorded on the nodes, also when it fails:
what was settled before the failure stays recorded.

* `Operator.arithmeticRule`, `compareRule`, `connectRule`, `signRule`, `notRule` — what the
  operands of a node have to be.
* `Expr.check` — the check; `Expr.checkArgs` — the arguments of a call, each followed at once by
  the comparison with its formal.
-/

set_option autoImplicit false

namespace Slang

/-! ## Operand rules -/

namespace Operator

/-- Operands of one type; NUMERIC, or STRING under `+`. -/
def arithmeticRule (op : Operator) (left right : Tag) : Except CompileError.Cause Tag :=
  if left ≠ right then .error (.operandsDiffer op left right)
  else
    match op, left with
    | _, some .numeric => .ok (some .numeric)
    | .add, some .string => .ok (some .string)
    | .add, t => .error (.notAddable t)
    | op, t => .error (.notArithmetic op t)

/-- Operands of one type; NUMERIC if an order is asked for. -/
def compareRule (op : Operator) (left right : Tag) : Except CompileError.Cause Tag :=
  if left ≠ right then .error (.incomparable op left right)
  else if op.needsOrder && !Tag.ordered left then .error (.unordered left)
  else .ok (some .boolean)

/-- Two BOOLEAN operands. -/
def connectRule (op : Operator) (left right : Tag) : Except CompileError.Cause Tag :=
  if left = some .boolean ∧ right = some .boolean then .ok (some .boolean)
  else .error (.notLogical op left right)

/-- A NUMERIC operand. -/
def signRule (op : Operator) (operand : Tag) : Except CompileError.Cause Tag :=
  if operand = some .numeric then .ok (some .numeric) else .error (.notSigned op operand)

/-- A BOOLEAN operand. -/
def notRule (operand : Tag) : Except CompileError.Cause Tag :=
  if operand = some .boolean then .ok (some .boolean) else .error (.notNegatable operand)

end Operator

/-! ## The check -/

/-- A checked tree: its nodes with the types found, and its own type or the first violated rule. -/
abbrev Checked := Expr × Except CompileError Tag

namespace Expr

/-- Settle a node of one operand. -/
def settle₁ (pos : Option Int) (old : Tag) (build : Tag → Expr → Expr)
    (rule : Tag → Except CompileError.Cause Tag) : Checked → Checked
  | (e, .error err) => (build old e, .error err)
  | (e, .ok t) =>
    match rule t with
    | .error cause => (build old e, .error ⟨cause, pos⟩)
    | .ok u => (build u e, .ok u)

/-- Settle a node of two operands; the right one is left alone if the left one fails. -/
def settle₂ (pos : Option Int) (old : Tag) (build : Tag → Expr → Expr → Expr) (right : Expr)
    (rule : Tag → Tag → Except CompileError.Cause Tag) : Checked → Checked → Checked
  | (l, .error err), _ => (build old l right, .error err)
  | (l, .ok s), r => settle₁ pos old (fun t r => build t l r) (rule s) r

/-- Check a variable: it must have been declared. -/
def checkVar (table : Table) (v : Variable) : Checked :=
  match table.lookup v.name with
  | some b => (.var { v with ty := b.ty }, .ok b.ty)
  | none => (.var v, .error ⟨.undefinedSymbol v.name, v.mark.pos⟩)

mutual

/-- Check an expression against the declared variables. -/
def check (table : Table) : Expr → Checked
  | number m x => (number m x, .ok (some .numeric))
  | truth m b => (truth m b, .ok (some .boolean))
  | text m s => (text m s, .ok (some .string))
  | var v => checkVar table v
  | arith m t op l r =>
    settle₂ m.pos t (arith m · op) r op.arithmeticRule (check table l) (check table r)
  | compare m t op l r =>
    settle₂ m.pos t (compare m · op) r op.compareRule (check table l) (check table r)
  | logic m t op l r =>
    settle₂ m.pos t (logic m · op) r op.connectRule (check table l) (check table r)
  | not m t e => settle₁ m.pos t (not m) Operator.notRule (check table e)
  | sign m t op e => settle₁ m.pos t (sign m · op) op.signRule (check table e)
  | call m t f p args =>
    if args.length = p.arity then
      match checkArgs table f 1 args p.formals with
      | (args, .error err) => (call m t f p args, .error err)
      | (args, .ok ()) => (call m p.returns f p args, .ok p.returns)
    else (call m t f p args, .error ⟨.argumentCount f p.arity args.length, m.pos⟩)

/-- Check the arguments of a call from the one with number `index` on. -/
def checkArgs (table : Table) (callee : Name) (index : Nat) :
    List Expr → List Tag → List Expr × Except CompileError Unit
  | arg :: args, formal :: formals =>
    match check table arg with
    | (arg, .error err) => (arg :: args, .error err)
    | (arg, .ok actual) =>
      if actual = formal then
        match checkArgs table callee (index + 1) args formals with
        | (args, outcome) => (arg :: args, outcome)
      else
        (arg :: args, .error ⟨.argumentType index callee formal actual, arg.mark.pos⟩)
  | args, _ => (args, .ok ())

end

end Expr

end Slang
