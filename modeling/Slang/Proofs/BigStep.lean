import Slang.Compile
import Slang.Proofs.Moments

/-!
# The meaning of programs

What programs do, as rules and without an evaluator: no rule knows of a stack, of a bound on loops
or of reports that print nothing.

* `Judgement` — what is to be done, and what comes of it: a value or the first failure, and for
  statements also how the activation goes on and the table it has then.
* `BigStep program judgement events` — the judgement holds, and the events are printed in the
  course of it.
* `Flow.result` — what an activation gives to its caller.
* `Program.Means program actuals x` — a run of MAIN as a whole.
* `Exhausted r` — the failures that are none of the language: the stack or the rounds were too few.

Principal result: `BigStep.not_exhausted` — no rule leads to such a failure.
-/

set_option autoImplicit false

namespace Slang

/-- What an activation gives to its caller. A bare RETURN ends it without a value. -/
def Flow.result : Flow → Option Binding
  | .next => none
  | .returned b => if b.value.isSome then some b else none

/-- The result of an operation: a value under a tag, or the reason why there is none. -/
def Expr.produced (ty : Tag) : Except Undefined Payload → Except Failure Binding
  | .ok p => .ok (.result ty p)
  | .error reason => .error (.undefined reason)

/-- Something that is done, and what comes of it. -/
inductive Judgement where
  | value (table : Table) (e : Expr) (result : Except Failure Binding)
  | values (table : Table) (es : List Expr) (result : Except Failure (List Binding))
  | exec (table : Table) (s : Stmt) (flow : Except Failure Flow) (last : Table)
  | block (table : Table) (ss : List Stmt) (flow : Except Failure Flow) (last : Table)
  | loop (table : Table) (c : Expr) (body : List Stmt) (flow : Except Failure Flow) (last : Table)
  | run (p : Procedure) (actuals : List Binding) (result : Except Failure (Option Binding))
      (last : Table)

section Rules

variable (program : Program)

open Slang.Expr in
/-- The rules. -/
inductive BigStep : Judgement → List PrintEvent → Prop
  -- Literals and variables.
  | number {t : Table} {m : Mark} {x : Float} :
      BigStep (.value t (.number m x) (.ok (.result (some .numeric) (.number x)))) []
  | truth {t : Table} {m : Mark} {b : Bool} :
      BigStep (.value t (.truth m b) (.ok (.result (some .boolean) (.truth b)))) []
  | text {t : Table} {m : Mark} {s : String} :
      BigStep (.value t (.text m s) (.ok (.result (some .string) (.text s)))) []
  | var {t : Table} {v : Variable} {n : Name} {ty : Tag} {p : Payload}
      (h : t.lookup v.name = some ⟨n, ty, some p⟩) :
      BigStep (.value t (.var v) (.ok ⟨n, ty, some p⟩)) []
  | unassigned {t : Table} {v : Variable} (h : ∀ b, t.lookup v.name = some b → b.value = none) :
      BigStep (.value t (.var v) (.error (.fault (.unassigned v.name)))) []
  -- Operators. Both operands are there before the operator is looked at, also for `&&` and `||`.
  | operandFails {t : Table} {e : Expr} {f : Failure} {es : List PrintEvent}
      (h : BigStep (.values t e.operands (.error f)) es) :
      BigStep (.value t e (.error f)) es
  | arith {t : Table} {m : Mark} {ty : Tag} {op : Operator} {l r : Expr} {a b : Binding}
      {es : List PrintEvent} (h : BigStep (.values t [l, r] (.ok [a, b])) es) :
      BigStep (.value t (.arith m ty op l r)
          (produced a.ty (do op.arithmetic (← operand a) (← operand b)))) es
  | compare {t : Table} {m : Mark} {ty : Tag} {op : Operator} {l r : Expr} {a b : Binding}
      {es : List PrintEvent} (h : BigStep (.values t [l, r] (.ok [a, b])) es) :
      BigStep (.value t (.compare m ty op l r)
          (produced (some .boolean)
            (.truth <$> (do op.compare (← operand a) (← operand b))))) es
  | logic {t : Table} {m : Mark} {ty : Tag} {op : Operator} {l r : Expr} {a b : Binding}
      {es : List PrintEvent} (h : BigStep (.values t [l, r] (.ok [a, b])) es) :
      BigStep (.value t (.logic m ty op l r)
          (.ok (.result (some .boolean) (.truth (op.connect a.truthy b.truthy))))) es
  | not {t : Table} {m : Mark} {ty : Tag} {e : Expr} {a : Binding} {es : List PrintEvent}
      (h : BigStep (.values t [e] (.ok [a])) es) :
      BigStep (.value t (.not m ty e) (.ok (.result (some .boolean) (.truth (!a.truthy))))) es
  | sign {t : Table} {m : Mark} {ty : Tag} {op : Operator} {e : Expr} {a : Binding}
      {es : List PrintEvent} (h : BigStep (.values t [e] (.ok [a])) es) :
      BigStep (.value t (.sign m ty op e)
          (produced (some .numeric) (do op.signed (← operand a)))) es
  -- Calls. The function is found by its name and runs in a table of its own.
  | unknown {t : Table} {m : Mark} {ty : Tag} {f : Name} {sig : Prototype} {args : List Expr}
      {actuals : List Binding} {es : List PrintEvent}
      (ha : BigStep (.values t args (.ok actuals)) es)
      (hf : program.find? f = none) :
      BigStep (.value t (.call m ty f sig args) (.error (.unknownProcedure f))) es
  | call {t last : Table} {m : Mark} {ty : Tag} {f : Name} {sig : Prototype} {args : List Expr}
      {actuals : List Binding} {p : Procedure} {b : Binding} {es fs : List PrintEvent}
      (ha : BigStep (.values t args (.ok actuals)) es)
      (hf : program.find? f = some p)
      (hr : BigStep (.run p actuals (.ok (some b)) last) fs) :
      BigStep (.value t (.call m ty f sig args) (.ok b)) (es ++ fs)
  | noValue {t last : Table} {m : Mark} {ty : Tag} {f : Name} {sig : Prototype} {args : List Expr}
      {actuals : List Binding} {p : Procedure} {es fs : List PrintEvent}
      (ha : BigStep (.values t args (.ok actuals)) es)
      (hf : program.find? f = some p)
      (hr : BigStep (.run p actuals (.ok none) last) fs) :
      BigStep (.value t (.call m ty f sig args) (.error (.fault (.noReturnValue f)))) (es ++ fs)
  | callFails {t last : Table} {m : Mark} {ty : Tag} {f : Name} {sig : Prototype}
      {args : List Expr} {actuals : List Binding} {p : Procedure} {failure : Failure}
      {es fs : List PrintEvent}
      (ha : BigStep (.values t args (.ok actuals)) es)
      (hf : program.find? f = some p)
      (hr : BigStep (.run p actuals (.error failure) last) fs) :
      BigStep (.value t (.call m ty f sig args) (.error failure)) (es ++ fs)
  | run {p : Procedure} {actuals : List Binding} {flow : Except Failure Flow} {last : Table}
      {es : List PrintEvent}
      (h : BigStep (.block (Procedure.bind p.formals actuals Table.empty) p.body flow last) es) :
      BigStep (.run p actuals (flow.map Flow.result) last) es
  -- Lists of expressions, from left to right up to the first that fails.
  | valuesNil {t : Table} : BigStep (.values t [] (.ok [])) []
  | valuesCons {t : Table} {e : Expr} {rest : List Expr} {b : Binding} {bs : List Binding}
      {es fs : List PrintEvent} (h : BigStep (.value t e (.ok b)) es)
      (hrest : BigStep (.values t rest (.ok bs)) fs) :
      BigStep (.values t (e :: rest) (.ok (b :: bs))) (es ++ fs)
  | headFails {t : Table} {e : Expr} {rest : List Expr} {f : Failure} {es : List PrintEvent}
      (h : BigStep (.value t e (.error f)) es) :
      BigStep (.values t (e :: rest) (.error f)) es
  | tailFails {t : Table} {e : Expr} {rest : List Expr} {b : Binding} {f : Failure}
      {es fs : List PrintEvent} (h : BigStep (.value t e (.ok b)) es)
      (hrest : BigStep (.values t rest (.error f)) fs) :
      BigStep (.values t (e :: rest) (.error f)) (es ++ fs)
  -- Statements. Whatever expression comes first may fail.
  | expressionFails {t : Table} {s : Stmt} {e : Expr} {f : Failure} {es : List PrintEvent}
      (hs : s.first = some e) (h : BigStep (.value t e (.error f)) es) :
      BigStep (.exec t s (.error f) t) es
  | print {t : Table} {m : Mark} {e : Expr} {b : Binding} {event : PrintEvent}
      {es : List PrintEvent} (h : BigStep (.value t e (.ok b)) es)
      (hb : PrintEvent.ofBinding b = .ok event) :
      BigStep (.exec t (.print m e) (.ok .next) t) (es ++ [event])
  | printFails {t : Table} {m : Mark} {e : Expr} {b : Binding} {reason : Undefined}
      {es : List PrintEvent} (h : BigStep (.value t e (.ok b)) es)
      (hb : PrintEvent.ofBinding b = .error reason) :
      BigStep (.exec t (.print m e) (.error (.undefined reason)) t) es
  | declare {t : Table} {m : Mark} {n : Name} {ty : Tag} :
      BigStep (.exec t (.declare m ⟨n, ty, none⟩) (.ok .next) (t.insert n ⟨n, ty, none⟩)) []
  | assign {t : Table} {m : Mark} {v : Variable} {e : Expr} {b : Binding} {es : List PrintEvent}
      (h : BigStep (.value t e (.ok b)) es) :
      BigStep (.exec t (.assign m v e) (.ok .next) (t.assign v.name b)) es
  | branch {t last : Table} {s : Stmt} {c : Expr} {b : Binding} {body : List Stmt}
      {flow : Except Failure Flow} {es fs : List PrintEvent} (hs : s.first = some c)
      (hc : BigStep (.value t c (.ok b)) es) (hb : s.branch b = some body)
      (h : BigStep (.block t body flow last) fs) :
      BigStep (.exec t s flow last) (es ++ fs)
  | skip {t : Table} {m m' : Mark} {c : Expr} {b : Binding} {body : List Stmt}
      {es : List PrintEvent} (hc : BigStep (.value t c (.ok b)) es)
      (hb : b.truthy = false) :
      BigStep (.exec t (.ifThen m c m' body) (.ok .next) t) es
  | whileDo {t last : Table} {m m' : Mark} {c : Expr} {body : List Stmt}
      {flow : Except Failure Flow} {es : List PrintEvent}
      (h : BigStep (.loop t c body flow last) es) :
      BigStep (.exec t (.whileDo m c m' body) flow last) es
  | ret {t : Table} {m : Mark} {e : Expr} {ty : Tag} {b : Binding} {es : List PrintEvent}
      (h : BigStep (.value t e (.ok b)) es) :
      BigStep (.exec t (.ret m (some e) ty) (.ok (.returned b)) t) es
  | leave {t : Table} {m : Mark} {ty : Tag} :
      BigStep (.exec t (.ret m none ty) (.ok (.returned ⟨none, ty, none⟩)) t) []
  -- Loops go round until the condition is false or the body does not run to its end.
  | conditionFails {t : Table} {c : Expr} {body : List Stmt} {f : Failure} {es : List PrintEvent}
      (h : BigStep (.value t c (.error f)) es) :
      BigStep (.loop t c body (.error f) t) es
  | done {t : Table} {c : Expr} {body : List Stmt} {b : Binding} {es : List PrintEvent}
      (hc : BigStep (.value t c (.ok b)) es) (hb : b.truthy = false) :
      BigStep (.loop t c body (.ok .next) t) es
  | again {t next last : Table} {c : Expr} {body : List Stmt} {b : Binding}
      {flow : Except Failure Flow} {es fs gs : List PrintEvent}
      (hc : BigStep (.value t c (.ok b)) es) (hb : b.truthy = true)
      (h : BigStep (.block t body (.ok .next) next) fs)
      (hnext : BigStep (.loop next c body flow last) gs) :
      BigStep (.loop t c body flow last) (es ++ (fs ++ gs))
  | leaveLoop {t last : Table} {c : Expr} {body : List Stmt} {b : Binding}
      {flow : Except Failure Flow} {es fs : List PrintEvent}
      (hc : BigStep (.value t c (.ok b)) es) (hb : b.truthy = true)
      (h : BigStep (.block t body flow last) fs) (hflow : flow ≠ .ok .next) :
      BigStep (.loop t c body flow last) (es ++ fs)
  -- Blocks end with the first statement that does not run to its end.
  | finished {t : Table} : BigStep (.block t [] (.ok .next) t) []
  | followed {t next last : Table} {s : Stmt} {rest : List Stmt} {flow : Except Failure Flow}
      {es fs : List PrintEvent} (h : BigStep (.exec t s (.ok .next) next) es)
      (hrest : BigStep (.block next rest flow last) fs) :
      BigStep (.block t (s :: rest) flow last) (es ++ fs)
  | stopped {t last : Table} {s : Stmt} {rest : List Stmt} {flow : Except Failure Flow}
      {es : List PrintEvent} (h : BigStep (.exec t s flow last) es)
      (hflow : flow ≠ .ok .next) :
      BigStep (.block t (s :: rest) flow last) es

end Rules

/-! ## Whole runs -/

/-- What a run of MAIN means. A program without MAIN does nothing. -/
def Program.Means (program : Program) (actuals : List Binding)
    (x : Execution) : Prop :=
  match program.find? entryPoint with
  | some p => BigStep program (.run p actuals x.result x.table) x.events
  | none => x = ⟨[], .ok none, Table.empty⟩

/-- The stack or the rounds were too few for the run. -/
def Failure.Exhausted : Failure → Prop
  | .fault .stackExhausted | .outOfRounds => True
  | _ => False

/-- A result for want of stack or rounds. -/
def Exhausted {α : Type} : Except Failure α → Prop
  | .ok _ => False
  | .error f => f.Exhausted

/-- The result of a judgement, whatever it is about, is one for want of stack or rounds. -/
def Judgement.Exhausted : Judgement → Prop
  | .value _ _ r => Slang.Exhausted r
  | .values _ _ r => Slang.Exhausted r
  | .exec _ _ r _ | .block _ _ r _ | .loop _ _ _ r _ => Slang.Exhausted r
  | .run _ _ r _ => Slang.Exhausted r

theorem exhausted_produced {ty : Tag} {r : Except Undefined Payload} :
    ¬ Exhausted (Expr.produced ty r) := by
  cases r <;> exact id

theorem exhausted_map {α β : Type} {f : α → β} {r : Except Failure α} :
    Exhausted (r.map f) ↔ Exhausted r := by
  cases r <;> exact Iff.rfl

/-- **No rule lacks anything.** -/
theorem BigStep.not_exhausted {program : Program} {j : Judgement}
    {es : List PrintEvent} (h : BigStep program j es) : ¬ j.Exhausted := by
  induction h with
  | number | truth | text | var | unassigned | logic | not | unknown | call | noValue
  | valuesNil | valuesCons | print | printFails | declare | assign | skip | ret | leave | done
  | finished => exact id
  | arith | compare | sign => exact exhausted_produced
  | run _ ih => exact fun h => ih (exhausted_map.1 h)
  | operandFails _ ih | headFails _ ih | expressionFails _ _ ih | conditionFails _ ih
  | whileDo _ ih | stopped _ _ ih => exact ih
  | callFails _ _ _ _ ih | tailFails _ _ _ ih | branch _ _ _ _ _ ih | again _ _ _ _ _ _ ih
  | leaveLoop _ _ _ _ _ ih | followed _ _ _ ih => exact ih

end Slang
