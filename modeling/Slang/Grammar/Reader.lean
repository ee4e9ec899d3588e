import Slang.Error
import Slang.Outline
import Slang.Trace

/-!
# Reading tokens

The parser looks at one token at a time, never moves back, and reports every step: tokens it
consumes, and the growth of the displayed tree.

* `TreeEvent`, `ParseReport` — a node is added, relabelled or completed; a report is an event or
  just a look at a token.
* `Reader` — a computation on the remaining tokens (`State`) that emits reports and may stop
  (`Stop`): at a compile error, or because the tokens ran out without an end of input.
* `current`, `advance`, `accept`, `expect` — the four ways to look at tokens.
* `many`, `separated` — items as long as they go on, and items between commas.
* `begin`, `finish`, `addLeaf`, `relabel`, `announce` — the four events, and a whole subtree.
-/

set_option autoImplicit false

namespace Slang

/-- A change of the displayed tree. A node added as complete is never opened. -/
inductive TreeEvent where
  | add (parent id : Nat) (label : String) (complete : Bool)
  | update (id : Nat) (label : String)
  | complete (id : Nat)
  deriving DecidableEq, Repr

/-- A step of the parser: the index of the current token, the token, an event and a message. -/
structure ParseReport where
  index : Nat
  token : Token
  event : Option TreeEvent
  message : String
  deriving Repr

namespace Grammar

/-- Why the parser stopped. -/
inductive Stop where
  | error (e : CompileError)
  | outOfTokens
  deriving DecidableEq, Repr

/-- Where the parser is: the index of the current token, the tokens from there on, the next free
node number, the numbers of the open nodes from the innermost out, and the declared names. -/
structure State where
  index : Nat
  rest : List Token
  nextId : Nat
  parents : List Nat
  table : Table
  deriving Repr

/-- The start of a token list. Number zero is the root of the displayed tree. -/
def State.start (tokens : List Token) : State := ⟨0, tokens, 1, [0], Table.empty⟩

/-- The innermost open node. -/
def State.parent (s : State) : Nat := s.parents.headD 0

/-- A computation that reads tokens. -/
abbrev Reader := StateT State (ExceptT Stop (Trace ParseReport))

variable {α : Type}

/-- Emit a report. -/
def tell (r : ParseReport) : Reader Unit := fun s => .emit r fun _ => .done (.ok ((), s))

/-- Stop at a compile error. -/
def fail (cause : CompileError.Cause) (position : Int) : Reader α :=
  throw (.error ⟨cause, position⟩)

/-! ## Tokens -/

/-- The current token. -/
def current : Reader Token := do
  match (← get).rest with
  | t :: _ => return t
  | [] => throw .outOfTokens

/-- Report a step at the current token. -/
def report (message : String) (event : Option TreeEvent) : Reader Unit := do
  let t ← current
  tell ⟨(← get).index, t, event, message⟩

/-- Step behind the current token. The end of the input stays current for ever. -/
def step (s : State) : State :=
  match s.rest with
  | t :: rest => if t.kind = .endOfInput then s else { s with index := s.index + 1, rest }
  | [] => s

/-- Consume the current token. -/
def advance (message : String) : Reader Token := do
  let t ← current
  report message none
  modify step
  return t

/-- Consume the current token if it is what `pick` picks. -/
def accept {β : Type} (pick : Token.Kind → Option β) : Reader (Option (β × Token)) := do
  let t ← current
  match pick t.kind with
  | some b =>
    let t ← advance ("Matched " ++ t.lexeme)
    return some (b, t)
  | none => return none

/-- Consume the current token if it is the symbol `s`. -/
def acceptSymbol (s : Symbol) : Reader Bool := do
  let found ← accept fun k => if k = .symbol s then some () else none
  return found.isSome

/-- Report a cause and stop at it. -/
def reject (cause : CompileError.Cause) (position : Int) : Reader α := do
  report cause.message none
  fail cause position

/-- Consume the current token, which has to be of one of these kinds. -/
def expect (kinds : List Token.Kind) : Reader Token := do
  let t ← current
  if t.kind ∈ kinds then advance ("Consumed " ++ t.lexeme)
  else reject (.expected kinds t.lexeme) t.pos

/-- Consume the current token, which has to be this keyword. -/
def expectKeyword (k : Keyword) : Reader Token := expect [.keyword k]

/-- Consume the current token, which has to be this symbol. -/
def expectSymbol (s : Symbol) : Reader Token := expect [.symbol s]

/-- Consume the current token, which has to name a type. -/
def expectType : Reader Ty := do
  let t ← expect [.keyword .numeric, .keyword .string, .keyword .boolean]
  return t.kind.ty?.getD .numeric

/-- Stop because the text is nested more deeply than the parser can follow. -/
def tooDeep : Reader α := do
  let t ← current
  fail .tooDeep t.pos

/-! ## Repetition -/

/-- Items as long as one begins at the current token, behind those that were read before, the latest
first. The number bounds them; each takes a token. -/
def many (begins : Token.Kind → Bool) (item : Reader α) : Nat → List α → Reader (List α)
  | 0, before => do
    if begins (← current).kind then throw .outOfTokens else return before.reverse
  | n + 1, before => do
    if begins (← current).kind then
      let a ← item
      many begins item n (a :: before)
    else return before.reverse

/-- One item or more between commas, behind those that were read before, the latest first. The
number bounds them; each takes a token. -/
def separated (item : Reader α) : Nat → List α → Reader (List α)
  | 0, _ => throw .outOfTokens
  | n + 1, before => do
    let a ← item
    if ← acceptSymbol .comma then separated item n (a :: before)
    else return (a :: before).reverse

/-- The number of tokens that are left. -/
def remaining : Reader Nat := return (← get).rest.length

/-! ## Tree events -/

/-- Take the next node number. -/
def freshId : Reader Nat := modifyGet fun s => (s.nextId, { s with nextId := s.nextId + 1 })

/-- Report a new node. -/
def reportAdd (parent id : Nat) (label : String) (complete : Bool) : Reader Unit :=
  report ("AST: added " ++ label) (some (.add parent id label complete))

/-- Add a node below the innermost open one and leave it open. -/
def begin (label : String) : Reader Nat := do
  let parent := (← get).parent
  let id ← freshId
  reportAdd parent id label false
  modify fun s => { s with parents := id :: s.parents }
  return id

/-- The open nodes without one of them: the innermost one is popped, and any other one is taken out
from where it is, nearest to the root first. -/
def removeOpen (id : Nat) (parents : List Nat) : List Nat :=
  if parents.head? = some id then parents.tail else (parents.reverse.erase id).reverse

/-- Complete an open node. -/
def finish (id : Nat) : Reader Unit := do
  modify fun s => { s with parents := removeOpen id s.parents }
  report "AST: completed node" (some (.complete id))

/-- Add a complete node without children. -/
def addLeaf (parent : Nat) (label : String) : Reader Unit := do
  let id ← freshId
  reportAdd parent id label true

/-- Change the label of an open node. -/
def relabel (id : Nat) (label : String) : Reader Unit :=
  report ("AST: updated " ++ label) (some (.update id label))

mutual

/-- Report a numbered tree node by node: a leaf is complete at once, any other node after its
children. -/
def announce (parent : Nat) : Outline → Reader Unit
  | .node _ label mark _ children => do
    let id := mark.id.getD 0
    reportAdd parent id label children.isEmpty
    announceAll id children
    if !children.isEmpty then report ("AST: completed " ++ label) (some (.complete id))

/-- Report a list of numbered trees. -/
def announceAll (parent : Nat) : List Outline → Reader Unit
  | [] => return ()
  | o :: rest => do
    announce parent o
    announceAll parent rest

end

end Grammar

end Slang
