import Slang.Exec.Eval

/-!
# Execution of statements and programs

* `Exec` — a computation on the table of one activation; the table survives a failure.
* `Flow` — whether a statement lets its successor run or ends the activation with a value.
* `Stmt.exec`, `Stmt.execAll` — statements and blocks; a loop is `rounds`, bounded by a budget.
* `Procedure.exec` — bind the actuals to the formals and run the body.
* `Program.invoke` — run a function by name in a fresh table, within a number of activations.
* `Limits` — how far a run may go.
* `Program.run` — run MAIN; a program without MAIN does nothing.
-/

set_option autoImplicit false

namespace Slang

/-- A computation on the table of one activation. -/
abbrev Exec := ExceptT Failure (StateT Table (Trace ExecReport))

/-- What a statement says about its successors. A bare RETURN ends the activation with a binding
that has no value. -/
inductive Flow where
  | next
  | returned (b : Binding)
  deriving Repr

/-- How far a run may go: the number of nested activations, and the rounds of a single loop. -/
structure Limits where
  activations : Nat
  rounds : Nat
  deriving DecidableEq, Repr

/-- An activation: the running function, its depth, how to call other functions, and the limits of
the run. -/
structure Activation where
  procedure : Name
  depth : Nat
  invoke : Invoke
  limits : Limits

namespace Activation

/-- Report a step of the activation. -/
def report (act : Activation) (node : Option Nat) (message : String) (printed : Option PrintEvent) :
    Exec Unit := fun table =>
  .emit ⟨act.procedure, act.depth, node, printed, message⟩ fun _ => .done (.ok (), table)

/-- Report a step that prints nothing. -/
def step (act : Activation) (m : Mark) (message : String) : Exec Unit :=
  act.report m.id message none

/-- Evaluate an expression in the table of the activation. -/
def value (act : Activation) (e : Expr) : Exec Binding := fun table => do
  let r ← (e.eval act.invoke table).run
  return (r, table)

end Activation

/-- Go round a loop as long as `test` holds and `body` does not return. -/
def rounds (test : Exec Bool) (body : Exec Flow) : Nat → Exec Flow
  | 0 => throw .outOfRounds
  | n + 1 => do
    if ← test then
      match ← body with
      | .next => rounds test body n
      | .returned b => return .returned b
    else return .next

namespace Stmt

mutual

/-- Execute a statement. -/
def exec (act : Activation) : Stmt → Exec Flow
  | print m e => do
    let b ← act.value e
    match PrintEvent.ofBinding b with
    | .error reason => throw (.undefined reason)
    | .ok event =>
      act.report m.id ("PRINT >> " ++ event.text) (some event)
      return .next
  | declare m b => do
    act.step m ("Declaring " ++ Tag.name b.ty ++ " " ++ b.nameText ++ ".")
    modify (Table.declare · b)
    return .next
  | assign m target e => do
    act.step m ("Assigning to " ++ Name.shown target.name ++ ".")
    let b ← act.value e
    modify (Table.assign · target.name b)
    return .next
  | ifThen m c _ thenBody => do
    act.step m "Evaluating IF condition."
    let b ← act.value c
    if b.truthy then execAll act thenBody else return .next
  | ifElse m c _ thenBody _ elseBody => do
    act.step m "Evaluating IF condition."
    let b ← act.value c
    if b.truthy then execAll act thenBody else execAll act elseBody
  | whileDo m c _ body =>
    rounds
      (do
        act.step m "Evaluating WHILE condition."
        let b ← act.value c
        return b.truthy)
      (execAll act body) act.limits.rounds
  | ret m (some e) _ => do
    act.step m "Returning."
    let b ← act.value e
    return .returned b
  | ret m none ty => do
    act.step m "Returning."
    return .returned ⟨none, ty, none⟩

/-- Execute statements in order up to the first that returns. -/
def execAll (act : Activation) : List Stmt → Exec Flow
  | [] => return .next
  | s :: rest => do
    match ← exec act s with
    | .next => execAll act rest
    | .returned b => return .returned b

end

end Stmt

namespace Procedure

/-- Bind actuals to formals by position. Superfluous actuals are dropped, and a formal without an
actual stays unbound. -/
def bind (formals actuals : List Binding) (table : Table) : Table :=
  (formals.zip actuals).foldl (fun t fa => t.assign fa.1.name fa.2) table

/-- Run a function on a list of actuals. The result is missing if no value is returned. -/
def exec (act : Activation) (p : Procedure) (actuals : List Binding) : Exec (Option Binding) := do
  modify (bind p.formals actuals)
  act.step p.mark ("Entering " ++ Name.shown p.name ++ " at depth " ++ toString act.depth ++ ".")
  match ← Stmt.execAll act p.body with
  | .returned b => return if b.value.isSome then some b else none
  | .next => return none

end Procedure

namespace Program

/-- Run the function of a name in a fresh table, with `room` activations left. -/
def invoke (program : Program) (limits : Limits) : (room depth : Nat) → Invoke
  | 0, _, callee, _ =>
    match program.find? callee with
    | some _ => throw (.fault .stackExhausted)
    | none => throw (.unknownProcedure callee)
  | room + 1, depth, callee, actuals =>
    match program.find? callee with
    | some p => do
      let act : Activation := ⟨callee, depth, invoke program limits room (depth + 1), limits⟩
      let (r, _) ← (p.exec act actuals).run Table.empty
      ExceptT.mk (pure r)
    | none => throw (.unknownProcedure callee)

/-- Run MAIN on a list of actuals. The stream ends in the outcome and the table of MAIN. -/
def run (program : Program) (limits : Limits) (actuals : List Binding) :
    Trace ExecReport (Except Failure (Option Binding) × Table) :=
  match program.find? entryPoint, limits.activations with
  | none, _ => .done (.ok none, Table.empty)
  | some _, 0 => .done (.error (.fault .stackExhausted), Table.empty)
  | some p, room + 1 =>
    (p.exec ⟨entryPoint, 1, program.invoke limits room 2, limits⟩ actuals).run
      Table.empty

end Program

end Slang
