import Slang.Exec.Report
import Slang.Tree

/-!
# Evaluation of expressions

Operands and arguments are evaluated from left to right, both operands of `&&` and `||` always.
The evaluator knows functions only through `Invoke`: how to run the function of a name on a list of
values. It reads the table of its activation and never changes it.

* `Evaluation` — a stream of reports that ends in a value or a failure.
* `eval`, `evalAll` — the value of an expression, and of a list of them.
-/

set_option autoImplicit false

namespace Slang

/-- A stream of reports that ends in a value or a failure. -/
abbrev Evaluation := ExceptT Failure (Trace ExecReport)

/-- How to run the function of a name; the result is missing if the function returns no value. -/
abbrev Invoke := Name → List Binding → Evaluation (Option Binding)

namespace Expr

variable {α : Type}

/-- The result of an operation, which may be undefined. -/
def defined : Except Undefined α → Evaluation α
  | .ok a => return a
  | .error reason => throw (.undefined reason)

/-- The payload of an operand; operations have no other operands. -/
def operand (b : Binding) : Except Undefined Payload := Payload.orElse .mismatch b.value

/-- The value of a variable, under its name. -/
def read (table : Table) (name : Name) : Evaluation Binding :=
  match table.lookup name with
  | some ⟨n, t, some p⟩ => return ⟨n, t, some p⟩
  | _ => throw (.fault (.unassigned name))

mutual

/-- The value of an expression. Arithmetic keeps the tag of the left operand. -/
def eval (invoke : Invoke) (table : Table) : Expr → Evaluation Binding
  | number _ x => return .result (some .numeric) (.number x)
  | truth _ b => return .result (some .boolean) (.truth b)
  | text _ s => return .result (some .string) (.text s)
  | var v => read table v.name
  | arith _ _ op l r => do
    let a ← eval invoke table l
    let b ← eval invoke table r
    let p ← defined (do op.arithmetic (← operand a) (← operand b))
    return .result a.ty p
  | compare _ _ op l r => do
    let a ← eval invoke table l
    let b ← eval invoke table r
    let v ← defined (do op.compare (← operand a) (← operand b))
    return .result (some .boolean) (.truth v)
  | logic _ _ op l r => do
    let a ← eval invoke table l
    let b ← eval invoke table r
    return .result (some .boolean) (.truth (op.connect a.truthy b.truthy))
  | not _ _ e => do
    let a ← eval invoke table e
    return .result (some .boolean) (.truth (!a.truthy))
  | sign _ _ op e => do
    let a ← eval invoke table e
    let p ← defined (do op.signed (← operand a))
    return .result (some .numeric) p
  | call _ _ callee _ args => do
    let actuals ← evalAll invoke table args
    match ← invoke callee actuals with
    | some b => return b
    | none => throw (.fault (.noReturnValue callee))

/-- The values of a list of expressions. -/
def evalAll (invoke : Invoke) (table : Table) : List Expr → Evaluation (List Binding)
  | [] => return []
  | e :: rest => do
    let b ← eval invoke table e
    let bs ← evalAll invoke table rest
    return b :: bs

end

end Expr

end Slang
