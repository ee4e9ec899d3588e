import Slang.Grammar.Expression

/-!
# Statements

```text
statement   ::= declaration | print | assignment | branch | loop | return
declaration ::= ('NUMERIC' | 'STRING' | 'BOOLEAN') IDENTIFIER ';'
print       ::= 'PRINT' logical ';'
assignment  ::= IDENTIFIER '=' logical ';'
branch      ::= 'IF' logical 'THEN' statement* ('ELSE' statement*)? 'ENDIF'
loop        ::= 'WHILE' logical statement* 'WEND'
return      ::= 'RETURN' logical? ';'
```

Every statement is a node of the displayed tree that is opened before its first token is consumed
and completed after its last. Names are declared in the order of the text, and the latest
declaration of a name counts.

* `Scope` — the function that a statement belongs to and the functions it may call.
* `declaration`, `printStatement`, `assignment`, `branch`, `loop`, `returnStatement` — the forms.
* `block` — a titled list of statements up to a token that ends a block.
-/

set_option autoImplicit false

namespace Slang.Grammar

/-- The function whose body is being read, and the functions that it may call. -/
structure Scope where
  known : Signatures
  owner : Prototype
  deriving Repr

/-- The tokens at which a block ends. A missing terminator is found by whatever opened the block. -/
def endsBlock : Token.Kind → Bool
  | .keyword .else_ | .keyword .endif | .keyword .wend | .keyword .end_ | .endOfInput => true
  | _ => false

/-- A type, a name and a semicolon. -/
def declaration : Reader Stmt := do
  let id ← begin "Declaration"
  let typeToken ← advance "Variable type"
  let nameToken ← expect [.identifier]
  let _ ← expectSymbol .semicolon
  let b := Binding.declared nameToken.valueText (typeToken.kind.ty?.getD .numeric)
  modify fun s => { s with table := s.table.declare b }
  let statement := Stmt.declare ⟨typeToken.pos, some id⟩ b
  relabel id statement.label
  finish id
  return statement

/-- PRINT and an expression. -/
def printStatement (scope : Scope) (frames : Nat) : Reader Stmt := do
  let id ← begin "Print Statement"
  let t ← expectKeyword .print
  let (e, _) ← expression scope.known frames
  let _ ← expectSymbol .semicolon
  finish id
  return .print ⟨t.pos, some id⟩ e

/-- A declared name, `=` and an expression of its type. -/
def assignment (scope : Scope) (frames : Nat) : Reader Stmt := do
  let id ← begin "Assignment"
  let nameToken ← expect [.identifier]
  let name := nameToken.valueText
  match (← get).table.lookup (some name) with
  | none => fail (.undefinedSymbol (some name)) nameToken.pos
  | some declared =>
    let targetId ← freshId
    let target : Variable := ⟨⟨nameToken.pos, some targetId⟩, declared.ty, some name⟩
    announce id (Expr.var target).outline
    let assignToken ← expectSymbol .assign
    let (e, ty) ← expression scope.known frames
    if ty ≠ declared.ty then fail (.assignedType name declared.ty ty) assignToken.pos
    let _ ← expectSymbol .semicolon
    finish id
    return .assign ⟨nameToken.pos, some id⟩ target e

/-- RETURN, perhaps with an expression of the function's return type. -/
def returnStatement (scope : Scope) (frames : Nat) : Reader Stmt := do
  let id ← begin "Return Statement"
  let t ← expectKeyword .return_
  let value ←
    if (← current).kind = .symbol .semicolon then pure none
    else do
      let (e, ty) ← expression scope.known frames
      if ty ≠ scope.owner.returns then
        fail (.returnedType scope.owner.name scope.owner.returns ty) t.pos
      pure (some e)
  let _ ← expectSymbol .semicolon
  finish id
  return .ret ⟨t.pos, some id⟩ value scope.owner.returns

/-- The condition of a statement, a node of its own. -/
def condition (scope : Scope) (statement : CompileError.Conditional) (frames : Nat) :
    Reader Expr := do
  let id ← begin "Condition"
  let start := (← current).pos
  let (e, ty) ← expression scope.known frames
  if ty ≠ some .boolean then fail (.conditionType statement ty) start
  finish id
  return e

mutual

/-- A titled block. -/
def block (scope : Scope) (title : String) : Nat → Reader (Mark × List Stmt)
  | 0 => tooDeep
  | n + 1 => do
    let id ← begin title
    let pos := (← current).pos
    let body ← many (fun k => !endsBlock k) (statement scope n) (← remaining) []
    finish id
    return (⟨pos, some id⟩, body)

/-- A statement of any form, told by its first token. -/
def statement (scope : Scope) : Nat → Reader Stmt
  | 0 => tooDeep
  | n + 1 => do
    let t ← current
    match t.kind with
    | .keyword .numeric | .keyword .string | .keyword .boolean => declaration
    | .keyword .print => printStatement scope n
    | .identifier => assignment scope n
    | .keyword .if_ => branch scope n
    | .keyword .while_ => loop scope n
    | .keyword .return_ => returnStatement scope n
    | .keyword .function => reject .nestedFunction t.pos
    | _ => reject (.notAStatement t.lexeme) t.pos

/-- IF with one branch or two. -/
def branch (scope : Scope) : Nat → Reader Stmt
  | 0 => tooDeep
  | n + 1 => do
    let id ← begin "If Statement"
    let t ← expectKeyword .if_
    let c ← condition scope .if_ n
    let _ ← expectKeyword .then_
    let (thenMark, thenBody) ← block scope Stmt.thenTitle n
    let other ← accept fun k => if k = .keyword .else_ then some () else none
    match other with
    | some _ =>
      let (elseMark, elseBody) ← block scope Stmt.elseTitle n
      let _ ← expectKeyword .endif
      finish id
      return .ifElse ⟨t.pos, some id⟩ c thenMark thenBody elseMark elseBody
    | none =>
      let _ ← expect [.keyword .else_, .keyword .endif]
      finish id
      return .ifThen ⟨t.pos, some id⟩ c thenMark thenBody

/-- WHILE and a body. -/
def loop (scope : Scope) : Nat → Reader Stmt
  | 0 => tooDeep
  | n + 1 => do
    let id ← begin "While Statement"
    let t ← expectKeyword .while_
    let c ← condition scope .while_ n
    let (bodyMark, body) ← block scope Stmt.bodyTitle n
    let _ ← expectKeyword .wend
    finish id
    return .whileDo ⟨t.pos, some id⟩ c bodyMark body

end

end Slang.Grammar
