import Slang.Compile

/-!
# Sessions

A session walks a source text through the four phases, one report at a time, and keeps what the
phases produce. Phases can be begun in any order and left half-way; a step that does not fit the
state is refused and changes nothing.

Collecting and parsing read the tokens of the session, and parsing the signatures that were being
collected when it was begun. A phase that is under way when the tokens are changed has lost its
place, and is not followed any further: as they can be changed again before each of its ticks, it
need never come to an end, and so there is no stream of reports for it.

* `Phase` — not begun, begun but untouched, half-way, over, or without its place.
* `Session` — the source, the products of the phases, and the phases themselves.
* `Stage` — what the session does with the reports and the end of one phase; the four stages are
  `tokenization`, `collection`, `parsing` and `execution`.
* `Session.tick` — one report; `Session.drain` — all that are left.
* `Session.compile` — the first three phases of a source, one after the other.
-/

set_option autoImplicit false

namespace Slang

/-- How far a phase has come. Nothing of a phase runs before its first tick. -/
inductive Phase (ρ α : Type) where
  | idle
  | pending
  | running (rest : Unit → Trace ρ α)
  | over
  | lost

/-- A phase under way loses its place when what it reads is changed. -/
def Phase.disturb {ρ α : Type} : Phase ρ α → Phase ρ α
  | .running _ => .lost
  | p => p

/-- The state of a session. The signatures that parsing was begun with are those of the session,
unless others have been captured. -/
structure Session where
  fileName : Name
  source : String
  normalized : String
  tokens : Array Token
  prototypes : Array Prototype
  captured : Option (Array Prototype)
  program : Option Program
  events : Array PrintEvent
  result : Option Binding
  tokenizing : Phase TokenReport (Except CompileError Unit)
  collecting : Phase PrototypeReport (Except CompileError Unit)
  parsing : Phase ParseReport (Except Grammar.Stop Program)
  executing : Phase ExecReport (Except Failure (Option Binding) × Table)

/-- Why a step of a session did not succeed. The last reason stands for whatever comes of reading on
in tokens that have been changed. -/
inductive Refusal where
  | notBegun (phase : String)
  | noProgram
  | compile (reason : Grammar.Stop)
  | run (failure : Failure)
  | placeLost

/-- The wording of a step that does not fit the state. -/
def Refusal.message : Refusal → String
  | notBegun phase => phase ++ " generator not initialized."
  | noProgram => "No module available for execution."
  | compile _ | run _ | placeLost => ""

/-- A phase as the session sees it: where it is kept, what it runs on, and what becomes of its
reports and its end. A tick after the end finds no value there. -/
structure Stage (ρ α : Type) where
  title : String
  phase : Session → Phase ρ α
  store : Phase ρ α → Session → Session
  start : Session → Trace ρ α
  absorb : ρ → Session → Session
  conclude : α → Session → Except Refusal Unit × Session
  late : Session → Session

namespace Session

variable {ρ α : Type}

/-- A session in which nothing has happened. -/
def fresh : Session :=
  ⟨some "", "", "", #[], #[], none, none, #[], none, .idle, .idle, .idle, .idle⟩

/-- The tokens are changed under the phases that read them. -/
def disturb (s : Session) : Session :=
  { s with collecting := s.collecting.disturb, parsing := s.parsing.disturb }

/-! ## Stages -/

/-- Reading tokens. -/
def tokenization : Stage TokenReport (Except CompileError Unit) where
  title := "Tokenization"
  phase s := s.tokenizing
  store p s := { s with tokenizing := p }
  start s := Token.tokenize s.normalized.toList
  absorb r s := { s.disturb with tokens := s.tokens.push r.token }
  conclude r s := (r.mapError (Refusal.compile ∘ .error), s)
  late s := s

/-- Collecting signatures. -/
def collection : Stage PrototypeReport (Except CompileError Unit) where
  title := "Prototype"
  phase s := s.collecting
  store p s := { s with collecting := p }
  start s := Prototype.collect s.tokens.toList
  absorb r s :=
    match r.prototype with
    | some p => { s with prototypes := s.prototypes.push p }
    | none => s
  conclude r s := (r.mapError (Refusal.compile ∘ .error), s)
  late s := s

/-- Parsing, in so many frames. -/
def parsingStage (frames : Nat) : Stage ParseReport (Except Grammar.Stop Program) where
  title := "Parsing"
  phase s := s.parsing
  store p s := { s with parsing := p }
  start s := Program.parse frames s.tokens.toList (s.captured.getD s.prototypes).toList
  absorb _ s := s
  conclude r s :=
    match r with
    | .ok p => (.ok (), { s with program := some p })
    | .error reason => (.error (.compile reason), s)
  late s := { s with program := none }

/-- Execution. -/
def execution : Stage ExecReport (Except Failure (Option Binding) × Table) where
  title := "Execution"
  phase s := s.executing
  store p s := { s with executing := p }
  start _ := .done (.ok none, Table.empty)
  absorb r s :=
    match r.printed with
    | some e => { s with events := s.events.push e }
    | none => s
  conclude r s :=
    match r.1 with
    | .ok v => (.ok (), { s with result := v })
    | .error failure => (.error (.run failure), s)
  late s := { s with result := none }

/-! ## Steps -/

/-- Begin to read the tokens of a source. -/
def beginTokenization (source : String) (fileName : Name) (s : Session) : Session :=
  { s.disturb with
    fileName, source, normalized := String.ofList (Source.normalize source.toList), tokens := #[],
    tokenizing := .pending }

/-- Begin to collect the signatures of the tokens, in a list of their own. -/
def beginPrototypes (s : Session) : Session :=
  { s with
    prototypes := #[], captured := some (s.captured.getD s.prototypes), collecting := .pending }

/-- Begin to parse the tokens. -/
def beginParsing (s : Session) : Session :=
  { s with captured := none, program := none, parsing := .pending }

/-- Begin to run the program within some limits. From here on the run does not look at the session
any more. -/
def beginExecution (limits : Limits) (s : Session) : Except Refusal Unit × Session :=
  match s.program with
  | none => (.error .noProgram, s)
  | some p =>
    (.ok (),
      { s with events := #[], result := none, executing := .running fun _ => p.run limits [] })

/-- Go on with a stream up to its next report, which is the answer, or to its end. -/
def resume (stage : Stage ρ α) (s : Session) : Trace ρ α → Except Refusal (Option ρ) × Session
  | .emit r next => (.ok (some r), stage.absorb r (stage.store (.running next) s))
  | .done a =>
    let (outcome, s) := stage.conclude a (stage.store .over s)
    (outcome.map fun _ => none, s)

/-- One report of a phase, or none at its end and ever after. -/
def tick (stage : Stage ρ α) (s : Session) : Except Refusal (Option ρ) × Session :=
  match stage.phase s with
  | .idle => (.error (.notBegun stage.title), s)
  | .pending => resume stage s (stage.start s)
  | .running rest => resume stage s (rest ())
  | .over => (.ok none, stage.late s)
  | .lost => (.error .placeLost, s)

/-- Take all reports of a stream; also the number of ticks that this stands for. -/
def exhaust (stage : Stage ρ α) (s : Session) (t : Trace ρ α) : Except Refusal Nat × Session :=
  let ((n, s), a) := t.foldl (fun (n, s) r => (n + 1, stage.absorb r s)) (1, s)
  let (outcome, s) := stage.conclude a (stage.store .over s)
  (outcome.map fun _ => n, s)

/-- Tick a phase until it is over; also the number of ticks. -/
def drain (stage : Stage ρ α) (s : Session) : Except Refusal Nat × Session :=
  match stage.phase s with
  | .idle => (.error (.notBegun stage.title), s)
  | .pending => exhaust stage s (stage.start s)
  | .running rest => exhaust stage s (rest ())
  | .over => (.ok 1, stage.late s)
  | .lost => (.error .placeLost, s)

/-- Read the remaining tokens, if reading has begun. -/
def finishTokenization (s : Session) : Except Refusal Unit × Session :=
  match s.tokenizing with
  | .idle => (.ok (), s)
  | _ =>
    let (outcome, s) := drain tokenization s
    (outcome.map fun _ => (), s)

/-- Compile a source in the session, up to the first phase that fails. The parser has so many
frames. -/
def compile (frames : Nat) (source : String) (s : Session) :
    Except Refusal (Option Program) × Session :=
  match drain tokenization (s.beginTokenization source (some "")) with
  | (.error r, s) => (.error r, s)
  | (.ok _, s) =>
    match drain collection s.beginPrototypes with
    | (.error r, s) => (.error r, s)
    | (.ok _, s) =>
      match drain (parsingStage frames) s.beginParsing with
      | (.error r, s) => (.error r, s)
      | (.ok _, s) => (.ok s.program, s)

end Session

end Slang
