import Slang.Grammar.Program
import Slang.Host
import Slang.Source
import Slang.Token.Header

/-!
# From source texts to outcomes

* `Program.ofTokens` — the program that a token list spells.
* `Program.compile` — normalise, tokenize, register the signatures, parse.
* `Execution`, `Program.execute` — a whole run: what was printed and how it ended.
* `Outcome`, `Outcome.ofSource` — compile and run a text in some room; `Host.outcome` — on an entry
  of a host.
-/

set_option autoImplicit false

namespace Slang

namespace Program

/-- The program that a token list spells, with these signatures registered. -/
def ofTokens (frames : Nat) (tokens : List Token) (prototypes : List Prototype) :
    Except Grammar.Stop Program :=
  (parse frames tokens prototypes).value

/-- The tokens of a source text. -/
def tokensOf (source : String) : Except Grammar.Stop (List Token) :=
  (Token.all (Source.normalize source.toList)).mapError .error

/-- The signatures that the functions of a token list announce. -/
def prototypesOf (tokens : List Token) : Except Grammar.Stop (List Prototype) :=
  (Prototype.all tokens).mapError .error

/-- The program that a source text spells, if the parser has so many frames. -/
def compile (frames : Nat) (source : String) : Except Grammar.Stop Program := do
  let tokens ← tokensOf source
  let prototypes ← prototypesOf tokens
  ofTokens frames tokens prototypes

end Program

/-- A whole run: the printed values in order, the outcome, and the table of MAIN. -/
structure Execution where
  events : List PrintEvent
  result : Except Failure (Option Binding)
  table : Table

/-- Run MAIN to its end. -/
def Program.execute (program : Program) (limits : Limits) (actuals : List Binding) : Execution :=
  let (events, result, table) := (program.run limits actuals).foldl
    (fun events r => match r.printed with
      | some e => events.push e
      | none => events)
    #[]
  ⟨events.toList, result, table⟩

/-- What becomes of a source text. -/
inductive Outcome where
  | rejected (reason : Grammar.Stop)
  | failed (program : Program) (events : List PrintEvent) (failure : Failure)
  | finished (program : Program) (events : List PrintEvent) (value : Option Binding)

namespace Outcome

/-- Compile and run a source text. The stack is set up after the text has been compiled. -/
def ofSource (room : Room) (source : String) : Outcome :=
  match Program.compile room.frames source with
  | .error reason => .rejected reason
  | .ok program =>
    match room.limits with
    | .error reason => .failed program [] (.noStack reason)
    | .ok limits =>
      let run := program.execute limits []
      match run.result with
      | .error failure => .failed program run.events failure
      | .ok value => .finished program run.events value

/-- The printed values. -/
def events : Outcome → List PrintEvent
  | rejected _ => []
  | failed _ es _ | finished _ es _ => es

/-- The printed texts. -/
def lines (o : Outcome) : List String := o.events.map PrintEvent.text

end Outcome

/-- What becomes of a source text that enters a host in this way. -/
def Host.outcome (h : Host) (e : Entry) (stack : Stack) (source : String) : Outcome :=
  .ofSource (h.room e stack) source

end Slang
