import Slang.Token.Scan

/-!
# Function headers

Before any body is read, one pass over the tokens registers the signature of every function, so
that a call may come before the function it names.

* `Header`, `Header.read` — a well-formed header and the signature it announces.
* `PrototypeReport`, `Prototype.collect` — one report per token; a header that repeats a name ends
  the pass with an error, and a malformed one is left for the parser.
-/

set_option autoImplicit false

namespace Slang

/-- A well-formed header: the signature it announces and the offset of the function's name. -/
structure Header where
  prototype : Prototype
  nameAt : Int
  deriving DecidableEq, Repr

namespace Header

/-- The formal types after an opening parenthesis: typed names between commas. They end at the
first place where no comma follows, or, after a comma, where no type follows. -/
def formals : List Token → Option (List Ty × List Token)
  | t :: rest =>
    match t.kind.ty? with
    | none => some ([], t :: rest)
    | some ty =>
      match rest with
      | name :: rest =>
        if name.kind = .identifier then
          match rest with
          | comma :: rest =>
            if comma.kind = .symbol .comma then (formals rest).map fun r => (ty :: r.1, r.2)
            else some ([ty], comma :: rest)
          | [] => some ([ty], [])
        else none
      | [] => none
  | [] => some ([], [])

/-- Read a header behind the token FUNCTION. -/
def read : List Token → Option Header
  | ty :: name :: paren :: rest =>
    match ty.kind.ty? with
    | some returns =>
      if name.kind = .identifier ∧ paren.kind = .symbol .leftParen then
        match formals rest with
        | some (tys, close :: _) =>
          if close.kind = .symbol .rightParen then
            some ⟨⟨some name.valueText, some returns, tys.map some⟩, name.pos⟩
          else none
        | _ => none
      else none
    | none => none
  | _ => none

end Header

/-- A step of the signature pass: the token that was looked at, its index, and the signature it
introduced. -/
structure PrototypeReport where
  index : Nat
  token : Token
  prototype : Option Prototype
  deriving Repr

namespace PrototypeReport

/-- What the report says. -/
def message (r : PrototypeReport) : String :=
  if r.token.kind = .keyword .function then
    match r.prototype with
    | some p => "Registered prototype: " ++ p.header ++ "."
    | none => "Malformed function header, left for the parser."
  else "Irrelevant token: " ++ r.token.lexeme ++ "."

end PrototypeReport

namespace Prototype

/-- The pass over the tokens from `index` on, with the names registered so far. -/
def collectFrom (index : Nat) (seen : List Name) :
    List Token → Trace PrototypeReport (Except CompileError Unit)
  | [] => .done (.ok ())
  | t :: rest =>
    if t.kind = .keyword .function then
      match Header.read rest with
      | none => .emit ⟨index, t, none⟩ fun _ => collectFrom (index + 1) seen rest
      | some ⟨p, nameAt⟩ =>
        if p.name ∈ seen then .done (.error ⟨.duplicateFunction p.name, nameAt⟩)
        else .emit ⟨index, t, some p⟩ fun _ => collectFrom (index + 1) (p.name :: seen) rest
    else .emit ⟨index, t, none⟩ fun _ => collectFrom (index + 1) seen rest

/-- The signature pass over a list of tokens. -/
def collect (tokens : List Token) : Trace PrototypeReport (Except CompileError Unit) :=
  collectFrom 0 [] tokens

/-- All signatures in order, or the error that stops the pass. -/
def all (tokens : List Token) : Except CompileError (List Prototype) :=
  match (collect tokens).collect with
  | (reports, .ok ()) => .ok (reports.toList.filterMap (·.prototype))
  | (_, .error e) => .error e

end Prototype

end Slang
