import Slang.Binding
import Slang.Operator

/-!
# Program trees

* `Mark` — where a node comes from and the number it has in the displayed tree.
* `Expr` — expressions; every node that is not a literal records the type the checker gave it.
* `Stmt` — statements, with their blocks as lists.
* `Procedure`, `Program` — a function with its formals and body, and all functions of a program
  with the signatures that were registered for it.
* `Program.find?` — the function of a name; of two functions with one name, the later.
-/

set_option autoImplicit false

namespace Slang

/-- The offset of a node in the source and its number in the displayed tree, where it has them. -/
structure Mark where
  pos : Option Int
  id : Option Nat
  deriving DecidableEq, Repr

/-- A node that has no number yet. -/
def Mark.ofPos (pos : Option Int) : Mark := ⟨pos, none⟩

/-- A reference to a variable or a formal parameter. -/
structure Variable where
  mark : Mark
  ty : Tag
  name : Name
  deriving DecidableEq, Repr

/-- Expressions. -/
inductive Expr where
  | number (mark : Mark) (value : Float)
  | truth (mark : Mark) (value : Bool)
  | text (mark : Mark) (value : String)
  | var (v : Variable)
  | arith (mark : Mark) (ty : Tag) (op : Operator) (left right : Expr)
  | compare (mark : Mark) (ty : Tag) (op : Operator) (left right : Expr)
  | logic (mark : Mark) (ty : Tag) (op : Operator) (left right : Expr)
  | not (mark : Mark) (ty : Tag) (operand : Expr)
  | sign (mark : Mark) (ty : Tag) (op : Operator) (operand : Expr)
  | call (mark : Mark) (ty : Tag) (callee : Name) (prototype : Prototype)
      (args : List Expr)
  deriving Repr

namespace Expr

/-- The mark of a node. -/
def mark : Expr → Mark
  | number m _ | truth m _ | text m _ => m
  | var v => v.mark
  | arith m .. | compare m .. | logic m .. | not m .. | sign m .. | call m .. => m

/-- The recorded type of a node; a literal has the type of its value. -/
def ty? : Expr → Tag
  | number .. => some .numeric
  | truth .. => some .boolean
  | text .. => some .string
  | var v => v.ty
  | arith _ t .. | compare _ t .. | logic _ t .. | not _ t .. | sign _ t .. | call _ t .. => t

end Expr

/-- Statements. A block is a mark and the list of its statements. -/
inductive Stmt where
  | print (mark : Mark) (value : Expr)
  | declare (mark : Mark) (binding : Binding)
  | assign (mark : Mark) (target : Variable) (value : Expr)
  | ifThen (mark : Mark) (condition : Expr) (thenMark : Mark) (thenBody : List Stmt)
  | ifElse (mark : Mark) (condition : Expr) (thenMark : Mark) (thenBody : List Stmt)
      (elseMark : Mark) (elseBody : List Stmt)
  | whileDo (mark : Mark) (condition : Expr) (bodyMark : Mark) (body : List Stmt)
  | ret (mark : Mark) (value : Option Expr) (ty : Tag)
  deriving Repr

/-- The mark of a statement. -/
def Stmt.mark : Stmt → Mark
  | print m _ | declare m _ | assign m .. | ifThen m .. | ifElse m .. | whileDo m .. | ret m .. => m

/-- A function: its signature, its formals in order and its body. -/
structure Procedure where
  mark : Mark
  prototype : Prototype
  formals : List Binding
  bodyMark : Mark
  body : List Stmt
  deriving Repr

namespace Procedure

/-- The name of the function. -/
def name (p : Procedure) : Name := p.prototype.name

/-- The return type of the function. -/
def returns (p : Procedure) : Tag := p.prototype.returns

/-- A function whose signature is that of its formals, with nothing numbered. -/
def ofParts (name : Name) (returns : Tag) (formals : List Binding) (pos : Option Int)
    (body : List Stmt) : Procedure :=
  ⟨.ofPos pos, ⟨name, returns, formals.map (·.ty)⟩, formals, .ofPos pos, body⟩

end Procedure

/-- The name of the function that a run starts with. -/
def entryPoint : Name := some "MAIN"

/-- All functions of a program in order, and the registered signatures. -/
structure Program where
  procedures : List Procedure
  prototypes : Registry Name Prototype
  deriving Repr

namespace Program

/-- The function of a name. -/
def find? (p : Program) (name : Name) : Option Procedure :=
  p.procedures.findRev? (·.name = name)

/-- The functions by name: a later function replaces an earlier one of its name, in its place. -/
def linked (p : Program) : Registry Name Procedure :=
  .ofList (p.procedures.map fun q => (q.name, q))

/-- The names of the functions. -/
def names (p : Program) : List Name := p.linked.keys

/-- A program of these functions, each registered with its own signature. -/
def ofProcedures (ps : List Procedure) : Program :=
  ⟨ps, .ofList (ps.map fun q => (q.name, q.prototype))⟩

end Program

end Slang
