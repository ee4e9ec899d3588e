import Slang.Binding
import Slang.Trace

/-!
# What a run reports and how it can fail

* `PrintEvent` — the effect of one PRINT.
* `ExecReport` — one executed step: where it happened, and what it printed.
* `Fault` — the three errors of the language; `Fault.text` is the whole line.
* `StackError` — why a stack of the wanted size cannot be had.
* `Failure` — a fault, or one of the ways in which a run gets stuck that is no error of the
  language: an operation that its operands do not have, a function that does not exist, a stack
  that cannot be had, and a loop that outlasts its budget.
-/

set_option autoImplicit false

namespace Slang

/-- The value that a PRINT showed, and the text it was shown as. -/
structure PrintEvent where
  ty : Tag
  value : Option Payload
  text : String
  deriving Repr

namespace PrintEvent

/-- Print a value. A value without a text cannot be printed. -/
def ofBinding (b : Binding) : Except Undefined PrintEvent := do
  let text ← b.display
  return ⟨b.ty, b.value, text⟩

/-- The type and the printed text. -/
def describe (e : PrintEvent) : String := Tag.name e.ty ++ " " ++ e.text

end PrintEvent

/-- One executed step: the running function, the number of its activation counted from MAIN, the
node that is executed, what was printed, and a message. -/
structure ExecReport where
  procedure : Name
  depth : Nat
  node : Option Nat
  printed : Option PrintEvent
  message : String
  deriving Repr

/-- The type and text of what was printed, if anything was. -/
def ExecReport.describePrint (r : ExecReport) : String :=
  match r.printed with
  | some e => e.describe
  | none => ""

/-- The errors of the language. -/
inductive Fault where
  | stackExhausted
  | unassigned (name : Name)
  | noReturnValue (callee : Name)
  deriving DecidableEq, Repr

namespace Fault

/-- The category of a fault. -/
def kind : Fault → String
  | stackExhausted => "STACK_EXHAUSTED"
  | unassigned _ => "UNASSIGNED_VARIABLE"
  | noReturnValue _ => "MISSING_RETURN_VALUE"

/-- The wording of a fault. -/
def message : Fault → String
  | stackExhausted => "Call stack exhausted: the recursion is too deep."
  | unassigned name =>
    "Variable '" ++ Name.shown name ++ "' is read before a value was assigned to it."
  | noReturnValue callee =>
    "Function '" ++ Name.shown callee ++ "' finished without returning a value."

/-- The whole line. -/
def text (f : Fault) : String := "Runtime error (" ++ f.kind ++ "): " ++ f.message

end Fault

/-- Why a stack of the wanted size cannot be had: the size is no number, no machine word, not
positive, or too small for the interpreter itself. -/
inductive StackError where
  | notANumber
  | notAWord
  | notPositive
  | tooLow
  deriving DecidableEq, Repr

/-- Why a run ended before its program did. -/
inductive Failure where
  | fault (f : Fault)
  | undefined (reason : Undefined)
  | unknownProcedure (name : Name)
  | noStack (reason : StackError)
  | outOfRounds
  deriving DecidableEq, Repr

namespace Undefined

/-- What is wrong with an operation that has no result. -/
def complaint : Undefined → String
  | mismatch => "an operation is not defined on its operands"
  | tooLarge => "a whole number is too large"
  | notANumeral => "a text spells no number"
  | tooManyDigits => "a whole number has too many digits"
  | tooLong => "a text is too long"

end Undefined

namespace StackError

/-- What is wrong with the stack that was asked for. -/
def complaint : StackError → String
  | notANumber => "the recursion limit is no number"
  | notAWord => "the recursion limit is out of range"
  | notPositive => "the recursion limit is not positive"
  | tooLow => "the recursion limit is too low"

end StackError

namespace Failure

/-- What is said of a run that did not end by itself. -/
def complaint : Failure → String
  | fault f => f.text
  | undefined reason => reason.complaint
  | unknownProcedure name => "there is no function " ++ Name.shown name
  | noStack reason => reason.complaint
  | outOfRounds => "a loop has gone round too often"

end Failure

end Slang
