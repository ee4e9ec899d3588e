import Slang.Payload
import Slang.Registry

/-!
# Bindings and symbol tables

* `Binding` — a name, a type and perhaps a payload. A declared variable has no payload yet, and the
  result of an expression need not have a name.
* `Table` — the bindings of one procedure. There is one flat table per activation, the last write
  to a name wins, and an overwritten binding keeps its place.
* `Table.declare` stores a binding under its own name, `Table.assign` under the target's.
-/

set_option autoImplicit false

namespace Slang

/-- A value with its type tag, perhaps under a name. -/
structure Binding where
  name : Name
  ty : Tag
  value : Option Payload
  deriving Repr

namespace Binding

/-- The nameless result of an expression. -/
def result (ty : Tag) (p : Payload) : Binding := ⟨none, ty, some p⟩

/-- A variable without a value. -/
def declared (name : String) (ty : Ty) : Binding := ⟨some name, some ty, none⟩

/-- The same value under another name. -/
def renamed (b : Binding) (name : Name) : Binding := { b with name }

/-- Whether the value counts as true; a missing one does not. -/
def truthy (b : Binding) : Bool := b.value.any Payload.truthy

/-- The text of the value under its tag. -/
def display (b : Binding) : Except Undefined String :=
  match b.value with
  | some p => p.display b.ty
  | none => .ok "NULL"

/-- The name in a message. -/
def nameText (b : Binding) : String := Name.shown b.name

/-- The three lines that describe a binding. -/
def describe (b : Binding) : Except Undefined String := do
  let value ← b.display
  return "Name: " ++ b.nameText ++ "\nType: " ++ Tag.name b.ty ++ "\nValue: " ++ value

end Binding

/-- The bindings of one procedure, by name. -/
abbrev Table := Registry Name Binding

namespace Table

/-- No bindings. -/
def empty : Table := Registry.empty

/-- The binding of a variable. -/
def lookup (t : Table) (name : Name) : Option Binding := t.get? name

/-- Store a binding under its own name. -/
def declare (t : Table) (b : Binding) : Table := t.insert b.name b

/-- Store a value under the target's name. -/
def assign (t : Table) (target : Name) (b : Binding) : Table :=
  t.insert target (b.renamed target)

/-- The description of every binding in order. -/
def describe (t : Table) : Except Undefined String :=
  t.values.foldlM (fun text b => do
    let lines ← b.describe
    return text ++ lines ++ "\n") "Symbol Table:\n"

end Table

end Slang
