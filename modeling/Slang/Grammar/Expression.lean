import Slang.Grammar.Reader
import Slang.Typing

/-!
# Expressions

```text
logical    ::= comparison (('&&' | '||') logical)?
comparison ::= sum (('==' | '<>' | '<' | '<=' | '>' | '>=') comparison)?
sum        ::= term (('+' | '-') sum)?
term       ::= factor (('*' | '/') term)?
factor     ::= NUMBER | STRING | TRUE | FALSE | '(' logical ')' | ('+' | '-' | '!') factor
             | IDENTIFIER | IDENTIFIER '(' (logical (',' logical)*)? ')'
```

Every level of operators calls itself on the right, so operators of one level group to the right.
An identifier is a call exactly if it names a function.

The first argument of every level is the number of frames that are left: each level takes one, and
a text that needs more is nested too deeply.

* `factor`, `identifier`, `term`, `sum`, `comparison`, `logical` — the levels.
* `Expr.enumerate` — number the nodes of a tree in pre-order.
* `expression` — parse, check and announce an expression.
-/

set_option autoImplicit false

namespace Slang

namespace Expr

mutual

/-- Number the nodes of a tree in pre-order from `next` on; also the first number left over. -/
def enumerate (next : Nat) : Expr → Expr × Nat
  | number m x => (number { m with id := some next } x, next + 1)
  | truth m b => (truth { m with id := some next } b, next + 1)
  | text m s => (text { m with id := some next } s, next + 1)
  | var v => (var { v with mark := { v.mark with id := some next } }, next + 1)
  | arith m t op l r =>
    let (l, n) := enumerate (next + 1) l
    let (r, n) := enumerate n r
    (arith { m with id := some next } t op l r, n)
  | compare m t op l r =>
    let (l, n) := enumerate (next + 1) l
    let (r, n) := enumerate n r
    (compare { m with id := some next } t op l r, n)
  | logic m t op l r =>
    let (l, n) := enumerate (next + 1) l
    let (r, n) := enumerate n r
    (logic { m with id := some next } t op l r, n)
  | not m t e =>
    let (e, n) := enumerate (next + 1) e
    (not { m with id := some next } t e, n)
  | sign m t op e =>
    let (e, n) := enumerate (next + 1) e
    (sign { m with id := some next } t op e, n)
  | call m t f p args =>
    let (args, n) := enumerateAll (next + 1) args
    (call { m with id := some next } t f p args, n)

/-- Number the nodes of a list of trees. -/
def enumerateAll (next : Nat) : List Expr → List Expr × Nat
  | [] => ([], next)
  | e :: rest =>
    let (e, n) := enumerate next e
    let (rest, n) := enumerateAll n rest
    (e :: rest, n)

end

end Expr

namespace Grammar

/-- The signatures that calls refer to. -/
abbrev Signatures := Registry Name Prototype

/-- The number of a number token. -/
def numberOf (t : Token) : Float :=
  match t.value with
  | some (.number x) => x
  | _ => 0

/-- Pick an operator of one level. -/
def operator {β : Type} (pick : Symbol → Option β) : Token.Kind → Option β
  | .symbol s => pick s
  | _ => none

/-- An operand, perhaps followed by an operator and the same level again. -/
def chain {β : Type} (operand : Reader Expr) (pick : Symbol → Option β) (again : Reader Expr)
    (build : Mark → β → Expr → Expr → Expr) : Reader Expr := do
  let left ← operand
  match ← accept (operator pick) with
  | some (op, t) =>
    let right ← again
    return build (.ofPos t.pos) op left right
  | none => return left

mutual

/-- Operands. -/
def factor (known : Signatures) : Nat → Reader Expr
  | 0 => tooDeep
  | n + 1 => do
    let t ← current
    match t.kind with
    | .number =>
      let _ ← advance ("Numeric literal " ++ t.lexeme)
      return .number (.ofPos t.pos) (numberOf t)
    | .stringLiteral =>
      let _ ← advance "String literal"
      return .text (.ofPos t.pos) t.valueText
    | .keyword .true_ =>
      let _ ← advance ("Boolean literal " ++ t.valueText)
      return .truth (.ofPos t.pos) true
    | .keyword .false_ =>
      let _ ← advance ("Boolean literal " ++ t.valueText)
      return .truth (.ofPos t.pos) false
    | .symbol .leftParen =>
      let _ ← advance "Opening parenthesis"
      let e ← logical known n
      let _ ← expectSymbol .rightParen
      return e
    | .symbol .plus =>
      let _ ← advance ("Unary " ++ t.valueText)
      let e ← factor known n
      return .sign (.ofPos t.pos) none .add e
    | .symbol .minus =>
      let _ ← advance ("Unary " ++ t.valueText)
      let e ← factor known n
      return .sign (.ofPos t.pos) none .sub e
    | .symbol .not =>
      let _ ← advance "Logical not"
      let e ← factor known n
      return .not (.ofPos t.pos) none e
    | .identifier => identifier known n
    | _ => reject (.notAnOperand t.lexeme) t.pos

/-- A variable, or a call of a function. -/
def identifier (known : Signatures) : Nat → Reader Expr
  | 0 => tooDeep
  | n + 1 => do
    let t ← expect [.identifier]
    let name := t.valueText
    match known.get? (some name) with
    | none =>
      if (← current).kind = .symbol .leftParen then fail (.undefinedFunction name) t.pos
      else return .var ⟨.ofPos t.pos, none, some name⟩
    | some p =>
      let _ ← expectSymbol .leftParen
      if ← acceptSymbol .rightParen then return .call (.ofPos t.pos) none (some name) p []
      else
        let args ← separated (logical known n) (← remaining) []
        let _ ← expectSymbol .rightParen
        return .call (.ofPos t.pos) none (some name) p args

/-- Products and quotients. -/
def term (known : Signatures) : Nat → Reader Expr
  | 0 => tooDeep
  | n + 1 =>
    chain (factor known n) Operator.multiplicative? (term known n) fun m op l r =>
      .arith m none op l r

/-- Sums and differences. -/
def sum (known : Signatures) : Nat → Reader Expr
  | 0 => tooDeep
  | n + 1 =>
    chain (term known n) Operator.additive? (sum known n) fun m op l r => .arith m none op l r

/-- Comparisons. -/
def comparison (known : Signatures) : Nat → Reader Expr
  | 0 => tooDeep
  | n + 1 =>
    chain (sum known n) Operator.relational? (comparison known n)
      fun m op l r => .compare m none op l r

/-- Connectives: whole expressions. -/
def logical (known : Signatures) : Nat → Reader Expr
  | 0 => tooDeep
  | n + 1 =>
    chain (comparison known n) Operator.connective? (logical known n)
      fun m op l r => .logic m none op l r

end

/-- Parse an expression, check it against the declared names, number it and announce it. -/
def expression (known : Signatures) (frames : Nat) : Reader (Expr × Tag) := do
  let parsed ← logical known frames
  let s ← get
  match parsed.check s.table with
  | (_, .error e) => throw (.error e)
  | (checked, .ok ty) =>
    let (e, nextId) := checked.enumerate s.nextId
    set { s with nextId }
    announce s.parent e.outline
    return (e, ty)

end Grammar

end Slang
