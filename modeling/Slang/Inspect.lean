import Slang.Tree
import Slang.Text.Quoted

/-!
# Diagnostic texts of program trees

One line for a node, with the operands of expressions spelled out and the blocks of statements left
out. Texts are quoted, numbers are shown as doubles, and a list stands between brackets.
-/

set_option autoImplicit false

namespace Slang

/-- A name between quotation marks, unless it is missing. -/
def Name.quoted : Name → String
  | some s => Text.quote s
  | none => Name.shown none

/-- A list of texts between brackets. -/
def bracketed (xs : List String) : String := "[" ++ ", ".intercalate xs ++ "]"

namespace Expr

/-- An operator between two operands. -/
def between (title left spelling right : String) : String :=
  title ++ "(" ++ left ++ " " ++ spelling ++ " " ++ right ++ ")"

mutual

/-- The diagnostic text of an expression. -/
def inspect : Expr → String
  | number _ x => "NumericConstant(" ++ Number.literal x ++ ")"
  | truth _ b => "BooleanConstant(" ++ (Payload.truth b).shown ++ ")"
  | text _ s => "StringLiteral(" ++ Text.quote s ++ ")"
  | var v => "Variable(" ++ Name.shown v.name ++ ")"
  | arith _ _ op l r => between "BinaryExpression" (inspect l) op.spelling (inspect r)
  | compare _ _ op l r => between "RelationalExpression" (inspect l) op.spelling (inspect r)
  | logic _ _ op l r => between "LogicalExpression" (inspect l) op.spelling (inspect r)
  | not _ _ e => "LogicalNot(" ++ inspect e ++ ")"
  | sign _ _ op e => "UnaryExpression(" ++ op.spelling ++ inspect e ++ ")"
  | call _ _ callee _ args =>
    "CallExpression(" ++ Name.shown callee ++ ", " ++ bracketed (inspects args) ++ ")"

/-- The diagnostic texts of a list of expressions. -/
def inspects : List Expr → List String
  | [] => []
  | e :: rest => inspect e :: inspects rest

end

end Expr

/-- The diagnostic text of a statement. -/
def Stmt.inspect : Stmt → String
  | print _ e => "PrintStatement(" ++ e.inspect ++ ")"
  | declare _ b => "VariableDeclaration(" ++ b.nameText ++ ": " ++ Tag.name b.ty ++ ")"
  | assign _ v e => "AssignmentStatement(" ++ Name.shown v.name ++ " = " ++ e.inspect ++ ")"
  | ifThen _ c .. | ifElse _ c .. => "IfStatement(" ++ c.inspect ++ ")"
  | whileDo _ c .. => "WhileStatement(" ++ c.inspect ++ ")"
  | ret _ (some e) _ => "ReturnStatement(" ++ e.inspect ++ ")"
  | ret _ none _ => "ReturnStatement(None)"

/-- The diagnostic text of the body of a function. -/
def Procedure.inspectBody (p : Procedure) : String :=
  "Statements(Body, " ++ bracketed (p.body.map Stmt.inspect) ++ ")"

/-- The diagnostic text of a program. -/
def Program.inspect (p : Program) : String :=
  "Module(" ++ bracketed (p.names.map Name.quoted) ++ ")"

end Slang
