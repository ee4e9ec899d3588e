/-!
# Lazy report streams

A phase of the interpreter is a stream of reports that ends in a value. The tail of a stream is a
function, so nothing after a report is computed before somebody asks for it: a viewer may step
through a program one report at a time, whether or not the program would ever stop.

* `Trace` — a report followed by the rest of the stream, or the final value.
* `Trace.bind` — run one stream after another; with it `Trace ρ` is a lawful monad.
* `Trace.reports`, `Trace.value` — everything a stream says and what it ends in.
* `Trace.collect` — both at once, in one pass that needs no stack.
* `reports_bind`, `value_bind` — reports of a sequence are the reports of its parts in order.
-/

set_option autoImplicit false

namespace Slang

/-- A stream of reports of type `ρ` that ends in a value of type `α`. -/
inductive Trace (ρ α : Type) where
  | done (value : α)
  | emit (report : ρ) (next : Unit → Trace ρ α)

namespace Trace

variable {ρ α β γ σ : Type}

/-- Continue with `f` once the first stream has ended. -/
def bind : Trace ρ α → (α → Trace ρ β) → Trace ρ β
  | .done a, f => f a
  | .emit r next, f => .emit r fun u => (next u).bind f

instance : Monad (Trace ρ) where
  pure := .done
  bind := bind

/-- Every report, first to last. -/
def reports : Trace ρ α → List ρ
  | .done _ => []
  | .emit r next => r :: (next ()).reports

/-- The value the stream ends in. -/
def value : Trace ρ α → α
  | .done a => a
  | .emit _ next => (next ()).value

/-- Fold the reports from the left and keep the final value. -/
def foldl (f : σ → ρ → σ) : σ → Trace ρ α → σ × α
  | s, .done a => (s, a)
  | s, .emit r next => foldl f (f s r) (next ())

/-- Every report together with the final value. -/
def collect (t : Trace ρ α) : Array ρ × α := t.foldl Array.push #[]

/-! ## Laws -/

@[simp] theorem pure_eq (a : α) : (pure a : Trace ρ α) = .done a := rfl

@[simp] theorem bind_done (a : α) (f : α → Trace ρ β) : (Trace.done a >>= f) = f a := rfl

@[simp] theorem bind_emit (r : ρ) (next : Unit → Trace ρ α) (f : α → Trace ρ β) :
    (Trace.emit r next >>= f) = .emit r fun u => next u >>= f := rfl

theorem bind_pure' (t : Trace ρ α) : t.bind .done = t := by
  induction t with
  | done a => rfl
  | emit r next ih => exact congrArg (Trace.emit r) (funext ih)

theorem bind_assoc' (t : Trace ρ α) (f : α → Trace ρ β) (g : β → Trace ρ γ) :
    (t.bind f).bind g = t.bind fun a => (f a).bind g := by
  induction t with
  | done a => rfl
  | emit r next ih => exact congrArg (Trace.emit r) (funext ih)

instance : LawfulMonad (Trace ρ) :=
  LawfulMonad.mk' _ (fun t => bind_pure' t) (fun _ _ => rfl) (fun t f g => bind_assoc' t f g)

@[simp] theorem reports_bind (t : Trace ρ α) (f : α → Trace ρ β) :
    (t >>= f).reports = t.reports ++ (f t.value).reports := by
  induction t with
  | done a => rfl
  | emit r next ih => exact congrArg (r :: ·) (ih ())

@[simp] theorem value_bind (t : Trace ρ α) (f : α → Trace ρ β) :
    (t >>= f).value = (f t.value).value := by
  induction t with
  | done a => rfl
  | emit r next ih => exact ih ()

theorem foldl_eq (f : σ → ρ → σ) (t : Trace ρ α) (s : σ) :
    t.foldl f s = (t.reports.foldl f s, t.value) := by
  induction t generalizing s with
  | done a => rfl
  | emit r next ih => exact ih () (f s r)

/-- The one-pass collection says what the two views say. -/
theorem collect_eq (t : Trace ρ α) : t.collect = (t.reports.toArray, t.value) := by
  simp [collect, foldl_eq]

end Trace

end Slang
