import Slang.Grammar.Statement

/-!
# Programs

```text
program  ::= function function* | statement*
function ::= 'FUNCTION' type IDENTIFIER '(' (formal (',' formal)*)? ')' statement* 'END'
formal   ::= type IDENTIFIER
```

A program without functions is a script: its statements are the body of a function MAIN.

A text may be nested as deeply as the parser has frames: a block takes three, a parenthesis five, an
argument six, an operator one.

* `function`, `script`, `program` — the forms.
* `Program.parse` — the stream of parse reports, which ends in a program or a reason to stop.
-/

set_option autoImplicit false

namespace Slang

namespace Grammar

/-- A typed name. -/
def formal : Reader Binding := do
  let ty ← expectType
  let name ← expect [.identifier]
  return .declared name.valueText ty

/-- Add the formals of a function to the displayed tree and to the declared names. -/
def declareFormals (parent : Nat) : List Binding → Reader Unit
  | [] => return ()
  | b :: rest => do
    modify fun s => { s with table := s.table.declare b }
    addLeaf parent ("Formal : " ++ b.nameText ++ " : " ++ Tag.name b.ty)
    declareFormals parent rest

/-- A function. Its header has been registered before, or it is malformed. -/
def function (known : Signatures) (frames : Nat) : Reader Procedure := do
  let functionToken ← expectKeyword .function
  let _ ← expectType
  let nameToken ← expect [.identifier]
  let name := nameToken.valueText
  let id ← begin ("FUNCTION " ++ name)
  let _ ← expectSymbol .leftParen
  let params ←
    if (← current).kind = .symbol .rightParen then pure []
    else do separated formal (← remaining) []
  let _ ← expectSymbol .rightParen
  match known.get? (some name) with
  | none => fail (.malformedHeader name) functionToken.pos
  | some p =>
    modify fun s => { s with table := Table.empty }
    declareFormals id params
    let (bodyMark, body) ← block ⟨known, p⟩ Stmt.bodyTitle frames
    let _ ← expectKeyword .end_
    let pos := functionToken.pos
    let procedure : Procedure := ⟨⟨pos, some id⟩, p, params, { bodyMark with pos }, body⟩
    relabel id procedure.label
    finish id
    return procedure

/-- The signature of the function that a script is the body of. -/
def scriptPrototype : Prototype := ⟨entryPoint, some .numeric, []⟩

/-- A bare list of statements. -/
def script (known : Signatures) (frames : Nat) : Reader Program := do
  let known := known.insert entryPoint scriptPrototype
  let id ← begin scriptPrototype.header
  modify fun s => { s with table := Table.empty }
  let (bodyMark, body) ← block ⟨known, scriptPrototype⟩ Stmt.bodyTitle frames
  let _ ← expect [.endOfInput]
  finish id
  return ⟨[⟨⟨some 0, some id⟩, scriptPrototype, [], { bodyMark with pos := some 0 }, body⟩], known⟩

/-- A whole program. -/
def program (known : Signatures) (frames : Nat) : Reader Program := do
  if (← current).kind = .keyword .function then
    let ps ← many (· = .keyword .function) (function known frames) (← remaining) []
    let _ ← expect [.keyword .function, .endOfInput]
    return ⟨ps, known⟩
  else script known frames

end Grammar

namespace Program

/-- Parse a token list in so many frames, with these signatures registered in order. -/
def parse (frames : Nat) (tokens : List Token) (prototypes : List Prototype) :
    Trace ParseReport (Except Grammar.Stop Program) :=
  (fun r => r.map (·.1)) <$>
    (Grammar.program (.ofList (prototypes.map fun p => (p.name, p))) frames).run (.start tokens)

end Program

end Slang
