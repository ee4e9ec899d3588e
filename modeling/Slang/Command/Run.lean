import Slang.Command.Arguments
import Slang.Compile

/-!
# Running a file from the command line

The command line runs the four phases one after the other and writes what it is asked to. Its
output is a stream of lines, so that a program that runs for ever still shows what it prints.

* `Line` — a line for the standard output or for the error output.
* `Ending` — an exit code, or a run that got stuck.
* `narrate` — the reports of a phase as error output, if they are asked for.
* `conclude`, `runProgram` — run a program and report how it ends.
* `perform` — compile and run a source text in some room; `performOn` — on a host.
* `FileError`, `textOf` — the text of the file that is asked for, if it can be read.
-/

set_option autoImplicit false

namespace Slang.Command

/-- A line of output. -/
inductive Line where
  | out (text : String)
  | err (text : String)
  deriving DecidableEq, Repr

/-- How a run of the command line ends. -/
inductive Ending where
  | exit (code : Nat)
  | stuck (failure : Failure)
  | unfinished
  deriving DecidableEq, Repr

/-- Write lines and go on. -/
def write : List Line → Trace Line Unit
  | [] => .done ()
  | l :: rest => .emit l fun _ => write rest

/-- Replace every report of a stream by lines. -/
def retell {ρ α : Type} (f : ρ → List Line) : Trace ρ α → Trace Line α
  | .done a => .done a
  | .emit r next =>
    match f r with
    | [] => retell f (next ())
    | l :: rest => .emit l fun _ => (write rest).bind fun _ => retell f (next ())

/-- The reports of a phase as error output, if they are asked for. -/
def narrate {ρ α : Type} (o : Options) (phase : String) (message : ρ → String) :
    Trace ρ α → Trace Line α :=
  retell fun r => if o.trace then [.err ("[" ++ phase ++ "] " ++ message r)] else []

/-- The error of a source text with its place in it, if it has one. -/
def describe (source : String) (e : CompileError) : String :=
  match e.position with
  | some pos =>
    let place := Source.lineColumn source.toList pos
    "Line " ++ toString place.line ++ ", column " ++ toString place.column ++ ": " ++ e.text
  | none => e.text

/-- Report that the source text is no program. -/
def reject (source : String) : Grammar.Stop → Trace Line Ending
  | .error e => do
    write [.out ("Compilation failed. " ++ describe source e)]
    return .exit 1
  | .outOfTokens => return .unfinished

/-- The registered signatures and the tree of every function. -/
def symbolLines (prototypes : List Prototype) (program : Program) : List Line :=
  prototypes.map (fun p => .out p.header) ++
    program.linked.values.flatMap fun q =>
      [.out ("\n" ++ Name.shown q.name ++ ":"), .out q.outline.render]

/-- What is shown of a step of the run: the printed text, or the report if it is asked for. -/
def runLines (o : Options) (r : ExecReport) : List Line :=
  match r.printed with
  | some e => [.out e.text]
  | none => if o.trace then [.err ("[4] " ++ r.message)] else []

/-- Report how a run has ended. -/
def conclude : Except Failure (Option Binding) → Trace Line Ending
  | .ok none => return .exit 0
  | .ok (some b) =>
    match b.display with
    | .error reason => return .stuck (.undefined reason)
    | .ok text => do
      write [.err ("MAIN returned " ++ text)]
      return .exit 0
  | .error (.fault f) => do
    write [.out ("Execution failed. " ++ f.text)]
    return .exit 2
  | .error failure => return .stuck failure

/-- Run a program, if its stack can be set up. -/
def runProgram (room : Room) (o : Options) (program : Program) : Trace Line Ending :=
  match room.limits with
  | .error reason => return .stuck (.noStack reason)
  | .ok limits => do
    let (result, _) ← retell (runLines o) (program.run limits [])
    conclude result

/-- Compile and run a source text in some room. -/
def perform (room : Room) (o : Options) (source : String) : Trace Line Ending := do
  let tokenStream := Token.tokenize (Source.normalize source.toList)
  match ← narrate o "1" TokenReport.message tokenStream with
  | .error e => reject source (.error e)
  | .ok () =>
    let tokens := tokenStream.collect.1.toList.map (·.token)
    let headers := Prototype.collect tokens
    match ← narrate o "2" PrototypeReport.message headers with
    | .error e => reject source (.error e)
    | .ok () =>
      let prototypes := headers.collect.1.toList.filterMap (·.prototype)
      match ← narrate o "3" ParseReport.message (Program.parse room.frames tokens prototypes) with
      | .error reason => reject source reason
      | .ok program =>
        write (if o.symbols then symbolLines prototypes program else [])
        runProgram room o program

/-- Compile and run a source text on a host, with the stack that is asked for. -/
def performOn (h : Host) (o : Options) (source : String) : Trace Line Ending :=
  perform (h.room .command o.stack) o source

/-- Why a file cannot be run. -/
inductive FileError where
  | missing
  | undecodable
  deriving DecidableEq, Repr

/-- The text of a file, if it can be read. -/
def textOf : Option ByteArray → Except FileError String
  | none => .error .missing
  | some bytes =>
    match Source.decode bytes with
    | some text => .ok text
    | none => .error .undecodable

end Slang.Command
