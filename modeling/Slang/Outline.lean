import Slang.Tree

/-!
# The displayed tree

* `Outline` — what is shown of a node: kind, label, mark, type and children.
* `Expr.outline`, `Stmt.outline`, `Procedure.outline`, `Program.outline` — the views.
* `Outline.lines`, `Outline.render` — one line per node, in pre-order, each indented by one block
  of four characters per ancestor and one connector.
-/

set_option autoImplicit false

namespace Slang

/-- What a node of the displayed tree stands for. -/
inductive NodeKind where
  | number | truth | text | variable | arith | compare | logic | not | sign | call
  | block | print | declaration | assignment | branch | loop | return_ | procedure | program
  deriving DecidableEq, Repr

/-- A node of the displayed tree. -/
inductive Outline where
  | node (kind : NodeKind) (label : String) (mark : Mark) (ty : Tag)
      (children : List Outline)
  deriving Repr

namespace Outline

/-- The text of a node. -/
def label : Outline → String
  | node _ l .. => l

/-- The mark of a node. -/
def mark : Outline → Mark
  | node _ _ m .. => m

/-- The nodes below a node. -/
def children : Outline → List Outline
  | node _ _ _ _ cs => cs

/-- What stands directly before a label. -/
def connector (last : Bool) : String := if last then "└── " else "├── "

/-- What stands below a node, before its descendants. -/
def extension (last : Bool) : String := if last then "    " else "│   "

mutual

/-- The lines of a node and its descendants, behind `indent`. -/
def lines (indent : String) (last : Bool) : Outline → List String
  | node _ label _ _ children =>
    (indent ++ connector last ++ label) :: linesBelow (indent ++ extension last) children

/-- The lines of the children of a node. -/
def linesBelow (indent : String) : List Outline → List String
  | [] => []
  | c :: rest => lines indent rest.isEmpty c ++ linesBelow indent rest

end

/-- The tree as text. -/
def render (o : Outline) : String := "\n".intercalate (o.lines "" true)

end Outline

namespace Expr

/-- The label of a node. -/
def label : Expr → String
  | number _ x => "NUMBER : " ++ Number.display x
  | truth _ b => "BOOLEAN : " ++ (Payload.truth b).verdict
  | text _ s => "STRING : \"" ++ s ++ "\""
  | var v => "Variable : " ++ Name.shown v.name ++ " : " ++ Tag.name v.ty
  | arith _ _ op .. => "Binary operator : " ++ op.spelling
  | compare _ _ op .. => "Relational operator : " ++ op.spelling
  | logic _ _ op .. => "Logical operator : " ++ op.spelling
  | not .. => "Logical operator : !"
  | sign _ _ op _ => "Unary operator : " ++ op.spelling
  | call _ _ callee p _ => "Call : " ++ Name.shown callee ++ " : " ++ Tag.name p.returns

/-- What a node stands for. -/
def kind : Expr → NodeKind
  | number .. => .number
  | truth .. => .truth
  | text .. => .text
  | var .. => .variable
  | arith .. => .arith
  | compare .. => .compare
  | logic .. => .logic
  | not .. => .not
  | sign .. => .sign
  | call .. => .call

mutual

/-- The displayed tree of an expression. -/
def outline : Expr → Outline
  | arith m t op l r => .node .arith (label (arith m t op l r)) m t [outline l, outline r]
  | compare m t op l r => .node .compare (label (compare m t op l r)) m t [outline l, outline r]
  | logic m t op l r => .node .logic (label (logic m t op l r)) m t [outline l, outline r]
  | not m t e => .node .not (label (not m t e)) m t [outline e]
  | sign m t op e => .node .sign (label (sign m t op e)) m t [outline e]
  | call m t f p args => .node .call (label (call m t f p args)) m t (outlines args)
  | e => .node e.kind e.label e.mark e.ty? []

/-- The displayed trees of a list of expressions. -/
def outlines : List Expr → List Outline
  | [] => []
  | e :: rest => outline e :: outlines rest

end

end Expr

namespace Stmt

/-- The label of the branch that is taken on TRUE. -/
def thenTitle : String := "Then Branch"

/-- The label of the branch that is taken on FALSE. -/
def elseTitle : String := "Else Branch"

/-- The label of the body of a loop or a function. -/
def bodyTitle : String := "Body"

/-- The label of a statement. -/
def label : Stmt → String
  | print .. => "Print Statement"
  | declare _ b => "Declaration : " ++ b.nameText ++ " : " ++ Tag.name b.ty
  | assign .. => "Assignment"
  | ifThen .. | ifElse .. => "If Statement"
  | whileDo .. => "While Statement"
  | ret .. => "Return Statement"

/-- A node for a block. -/
def blockNode (title : String) (m : Mark) (children : List Outline) : Outline :=
  .node .block title m none children

mutual

/-- The displayed tree of a statement. -/
def outline : Stmt → Outline
  | print m e => .node .print (label (print m e)) m none [e.outline]
  | declare m b => .node .declaration (label (declare m b)) m none []
  | assign m v e =>
    .node .assignment (label (assign m v e)) m none [(Expr.var v).outline, e.outline]
  | ifThen m c tm ts =>
    .node .branch (label (ifThen m c tm ts)) m none
      [c.outline, blockNode thenTitle tm (outlines ts)]
  | ifElse m c tm ts em es =>
    .node .branch (label (ifElse m c tm ts em es)) m none
      [c.outline, blockNode thenTitle tm (outlines ts), blockNode elseTitle em (outlines es)]
  | whileDo m c bm bs =>
    .node .loop (label (whileDo m c bm bs)) m none
      [c.outline, blockNode bodyTitle bm (outlines bs)]
  | ret m (some e) t => .node .return_ (label (ret m (some e) t)) m none [e.outline]
  | ret m none t => .node .return_ (label (ret m none t)) m none []

/-- The displayed trees of a list of statements. -/
def outlines : List Stmt → List Outline
  | [] => []
  | s :: rest => outline s :: outlines rest

end

theorem outlines_eq (body : List Stmt) : outlines body = body.map outline := by
  induction body with
  | nil => rfl
  | cons st rest ih => rw [outlines, ih, List.map_cons]

end Stmt

namespace Procedure

/-- The header of a function with the names of its formals. -/
def label (p : Procedure) : String :=
  Prototype.headerOf p.returns p.name (p.formals.map fun b => Tag.name b.ty ++ " " ++ b.nameText)

/-- The displayed tree of a function. -/
def outline (p : Procedure) : Outline :=
  .node .procedure p.label p.mark p.returns
    [Stmt.blockNode Stmt.bodyTitle p.bodyMark (Stmt.outlines p.body)]

end Procedure

/-- The displayed tree of a program: all its functions, also those that a later one replaces. -/
def Program.outline (p : Program) : Outline :=
  .node .program "Module" (.ofPos (some 0)) none (p.procedures.map Procedure.outline)

end Slang
