import Slang.Exec.Run

/-!
# Hosts

The interpreter runs on the stack of a host. How deeply a text may be nested and how many
activations may be open is a matter of what is left of that stack, and so of who calls: between its
caller and the parser or the run, every way into the interpreter takes some frames of its own.

* `Stack` — the stack that is asked for.
* `Entry` — the ways to compile and to run a text, and the frames that each of them takes.
* `Host` — the stack of a host as a caller finds it, and what fits into how many of its frames.
* `Room` — what is left to the parser and to a run; `Host.room` — what a host leaves to an entry.
-/

set_option autoImplicit false

namespace Slang

/-- The stack that is asked for: the usual one, one of a number of frames, or one of a size that was
left blank. -/
inductive Stack where
  | usual
  | frames (n : Int)
  | blank
  deriving DecidableEq, Repr

/-! ## Entries -/

/-- A way to compile and to run a text: the frames between its caller and the parser, those in use
where the stack of the run is set up, and those between its caller and the run. -/
structure Entry where
  parsing : Nat
  setting : Nat
  running : Nat
  deriving DecidableEq, Repr

namespace Entry

/-- The compiler by itself, with the loop that takes the reports of the parser, and then the
program that it returns, which takes the reports of its run. -/
def library : Entry := ⟨2, 0, 1⟩

/-- A session: the compilation in it, the loop that drains a phase and the tick of the parser; and
then a tick of the run for each call. -/
def session : Entry := ⟨3, 0, 1⟩

/-- A text that is compiled and run in a session of its own, the run being drained as well. -/
def source : Entry := ⟨4, 1, 3⟩

/-- A file whose text is compiled and run in this way. -/
def file : Entry := ⟨5, 2, 4⟩

/-- The command line, which ticks the phases in a loop of its own and the run by itself. -/
def command : Entry := ⟨3, 1, 2⟩

/-- An entry that takes no more frames than another one. -/
instance : LE Entry :=
  ⟨fun e e' => e.parsing ≤ e'.parsing ∧ e.setting ≤ e'.setting ∧ e.running ≤ e'.running⟩

instance (e e' : Entry) : Decidable (e ≤ e') :=
  inferInstanceAs
    (Decidable (e.parsing ≤ e'.parsing ∧ e.setting ≤ e'.setting ∧ e.running ≤ e'.running))

end Entry

/-! ## Hosts -/

/-- The stack of a host as a caller finds it: the frames that it may have unless others are asked
for, and those in use. What a frame is worth is up to the host, and to how the functions of the text
are written: so and so many of them are enough for so deeply nested a text, and for so many open
activations. More frames are never worth less. No host limits the rounds of a loop; there is a
number of them only so that every run comes to an end, and a run that comes to it has not been
followed any further. -/
structure Host where
  limit : Nat
  depth : Nat
  nesting : Nat → Nat
  activations : Nat → Nat
  rounds : Nat
  nesting_mono : ∀ {m n : Nat}, m ≤ n → nesting m ≤ nesting n
  activations_mono : ∀ {m n : Nat}, m ≤ n → activations m ≤ activations n

/-- What is left to the parser and to a run: the frames of the parser, and the limits of the run if
its stack can be set up. -/
structure Room where
  frames : Nat
  limits : Except StackError Limits

namespace Host

/-- How deeply a text may be nested that is compiled on this entry. -/
def frames (h : Host) (e : Entry) : Nat := h.nesting (h.limit - (h.depth + e.parsing))

/-- How far a run goes on this entry, on a stack of so many frames. -/
def limitsOf (h : Host) (e : Entry) (size : Nat) : Limits :=
  ⟨h.activations (size - (h.depth + e.running)), h.rounds⟩

/-- How far a run goes on this entry, on the stack that is asked for. A stack has to have more
frames than are in use where it is set up. -/
def limits (h : Host) (e : Entry) : Stack → Except StackError Limits
  | .usual => .ok (h.limitsOf e h.limit)
  | .blank => .error .notANumber
  | .frames n =>
    if n < -0x80000000 ∨ 0x80000000 ≤ n then .error .notAWord
    else if n < 1 then .error .notPositive
    else if n ≤ h.depth + e.setting then .error .tooLow
    else .ok (h.limitsOf e n.toNat)

/-- What the host leaves to an entry. The stack that is asked for is that of the run only. -/
def room (h : Host) (e : Entry) (stack : Stack) : Room := ⟨h.frames e, h.limits e stack⟩

/-- A host that keeps some frames for itself, on which each level of a text takes one frame and each
activation equally many. -/
def even (limit depth spare each rounds : Nat) : Host where
  limit := limit
  depth := depth
  nesting n := n - spare
  activations n := (n - spare) / each
  rounds := rounds
  nesting_mono h := Nat.sub_le_sub_right h spare
  activations_mono h := Nat.div_le_div_right (Nat.sub_le_sub_right h spare)

end Host

end Slang
