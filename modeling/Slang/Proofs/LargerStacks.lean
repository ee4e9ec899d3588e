import Slang.Proofs.Acceptance
import Slang.Proofs.Moments

/-!
# Runs on a larger stack

The stack bounds the number of nested activations.  A run that stays within the bound does not
notice it; a run that does not is cut off where it would open the first activation beyond it.

* `Sequential` — relations between evaluations that hold of sequences if they hold of their parts.
  `eval_sequential` — an expression is a sequence of calls.
* `Trace.Within bound cut t t'` — `t` is `t'` as far as `bound` activations go: they are the same,
  or `t` ends where `t'` goes on with a report of the activation behind the bound.
* `TellsWithin`, `DoesWithin` — the same for evaluations and for executions.
* `Attempts program limits actuals d` — the run comes to a point at which it needs an activation
  that is the `d`-th from MAIN on.

Principal results: `run_within` — a run on a smaller stack is a run within its bound;
`exhausted_iff` — a run is exhausted exactly if it attempts an activation beyond its bound.
-/

set_option autoImplicit false

namespace Slang

/-! ## Expressions as sequences -/

/-- A relation between evaluations that sequences inherit from their parts.  The failures here are
those that an expression can raise by itself. -/
structure Sequential (R : {α : Type} → Evaluation α → Evaluation α → Prop) : Prop where
  pure : ∀ {α : Type} (a : α), R (pure a : Evaluation α) (pure a)
  throw : ∀ {α : Type} {f : Failure}, f ≠ .fault .stackExhausted →
    R (throw f : Evaluation α) (throw f)
  bind : ∀ {α β : Type} {x x' : Evaluation α} {f f' : α → Evaluation β}, R x x' →
    (∀ a, R (f a) (f' a)) → R (x >>= f) (x' >>= f')

section Expressions

variable {R : {α : Type} → Evaluation α → Evaluation α → Prop} {invoke invoke' : Invoke}
  {table : Table}

theorem Sequential.defined (hR : Sequential R) {α : Type} :
    ∀ r : Except Undefined α, R (Expr.defined r) (Expr.defined r)
  | .ok a => hR.pure a
  | .error _ => hR.throw nofun

theorem Sequential.read (hR : Sequential R) (name : Name) :
    R (Expr.read table name) (Expr.read table name) := by
  unfold Expr.read
  split
  · exact hR.pure _
  · exact hR.throw nofun

mutual

/-- **An expression is a sequence of calls**: whatever sequences inherit from their parts, an
expression has from the calls that it makes. -/
theorem eval_sequential (hR : Sequential R)
    (h : ∀ callee actuals, R (invoke callee actuals) (invoke' callee actuals)) :
    ∀ e : Expr, R (e.eval invoke table) (e.eval invoke' table)
  | .number .. | .truth .. | .text .. => hR.pure _
  | .var v => hR.read v.name
  | .arith _ _ _ l r | .compare _ _ _ l r => by
    rw [Expr.eval, Expr.eval]
    exact hR.bind (eval_sequential hR h l) fun _ => hR.bind (eval_sequential hR h r) fun _ =>
      hR.bind (hR.defined _) fun _ => hR.pure _
  | .logic _ _ _ l r => by
    rw [Expr.eval, Expr.eval]
    exact hR.bind (eval_sequential hR h l) fun _ => hR.bind (eval_sequential hR h r) fun _ =>
      hR.pure _
  | .not _ _ e => by
    rw [Expr.eval, Expr.eval]
    exact hR.bind (eval_sequential hR h e) fun _ => hR.pure _
  | .sign _ _ _ e => by
    rw [Expr.eval, Expr.eval]
    exact hR.bind (eval_sequential hR h e) fun _ => hR.bind (hR.defined _) fun _ => hR.pure _
  | .call _ _ callee _ args => by
    rw [Expr.eval, Expr.eval]
    refine hR.bind (evalAll_sequential hR h args) fun actuals => ?_
    refine hR.bind (h callee actuals) fun result => ?_
    cases result with
    | some b => exact hR.pure b
    | none => exact hR.throw nofun

theorem evalAll_sequential (hR : Sequential R)
    (h : ∀ callee actuals, R (invoke callee actuals) (invoke' callee actuals)) :
    ∀ es : List Expr, R (Expr.evalAll invoke table es) (Expr.evalAll invoke' table es)
  | [] => hR.pure _
  | e :: rest => by
    rw [Expr.evalAll, Expr.evalAll]
    exact hR.bind (eval_sequential hR h e) fun _ =>
      hR.bind (evalAll_sequential hR h rest) fun _ => hR.pure _

end

end Expressions

/-! ## Streams within a bound -/

variable {α β ω ω' : Type} {bound : Nat}

/-- The first stream is the second one within a bound on activations.  `cut` tells the ends for want
of stack from the others. -/
inductive Trace.Within (bound : Nat) (cut : ω → Prop) (t t' : Trace ExecReport ω) : Prop
  | same (hdepth : ∀ r ∈ t.reports, r.depth ≤ bound) (hcut : ¬ cut t.value)
      (hreports : t'.reports = t.reports) (hvalue : t'.value = t.value)
  | longer {r : ExecReport} {rest : List ExecReport} (hdepth : ∀ r ∈ t.reports, r.depth ≤ bound)
      (hcut : cut t.value) (hreports : t'.reports = t.reports ++ r :: rest)
      (hr : r.depth = bound + 1)

/-- A stream that ends at once, for some other reason. -/
theorem Trace.Within.done {cut : ω → Prop} {v : ω} (h : ¬ cut v) :
    (Trace.done v).Within bound cut (.done v) :=
  .same (fun _ hr => absurd hr List.not_mem_nil) h rfl rfl

/-- A stream that is cut off at once. -/
theorem Trace.Within.cutOff {cut : ω → Prop} {v : ω} {t' : Trace ExecReport ω} {r : ExecReport}
    {rest : List ExecReport} (h : cut v) (ht : t'.reports = r :: rest) (hr : r.depth = bound + 1) :
    (Trace.done v).Within bound cut t' :=
  .longer (fun _ hr => absurd hr List.not_mem_nil) h ht hr

/-- What is cut off stays cut off: the rest of a sequence is run only by the second stream. -/
theorem Trace.Within.bind {cut : ω → Prop} {cut' : ω' → Prop} {t t' : Trace ExecReport ω}
    {f f' : ω → Trace ExecReport ω'} (h : t.Within bound cut t')
    (hf : ∀ a, ¬ cut a → (f a).Within bound cut' (f' a))
    (hstop : ∀ a, cut a → (f a).reports = [] ∧ cut' (f a).value) :
    (t >>= f).Within bound cut' (t' >>= f') := by
  cases h with
  | same hdepth hcut hreports hvalue =>
    have hall : (∀ r ∈ (f t.value).reports, r.depth ≤ bound) →
        ∀ r ∈ (t >>= f).reports, r.depth ≤ bound := by
      intro hrest r hr
      rw [Trace.reports_bind, List.mem_append] at hr
      exact hr.elim (hdepth r) (hrest r)
    cases hf t.value hcut with
    | same hdepth' hcut' hreports' hvalue' =>
      refine .same (hall hdepth') ?_ ?_ ?_
      · rwa [Trace.value_bind]
      · rw [Trace.reports_bind, Trace.reports_bind, hvalue, hreports, hreports']
      · rw [Trace.value_bind, Trace.value_bind, hvalue, hvalue']
    | @longer r rest hdepth' hcut' hreports' hr =>
      have hcut'' : cut' (t >>= f).value := by rwa [Trace.value_bind]
      have hall' : (t' >>= f').reports = (t >>= f).reports ++ r :: rest := by
        rw [Trace.reports_bind, Trace.reports_bind, hvalue, hreports, hreports', List.append_assoc]
      exact .longer (hall hdepth') hcut'' hall' hr
  | @longer r rest hdepth hcut hreports hr =>
    obtain ⟨hnil, hcut'⟩ := hstop t.value hcut
    have hall : (t >>= f).reports = t.reports := by
      rw [Trace.reports_bind, hnil, List.append_nil]
    have hall' : (t' >>= f').reports =
        (t >>= f).reports ++ r :: (rest ++ (f' t'.value).reports) := by
      rw [Trace.reports_bind, hall, hreports, List.append_assoc, List.cons_append]
    have hcut'' : cut' (t >>= f).value := by rwa [Trace.value_bind]
    exact .longer (by rwa [hall]) hcut'' hall' hr

/-- Failing for want of stack. -/
def overflow : Except Failure α := .error (.fault .stackExhausted)

theorem error_eq_overflow {f : Failure} :
    (.error f : Except Failure α) = overflow ↔ f = .fault .stackExhausted := by
  simp [overflow]

/-- An evaluation is another one within a bound. -/
def TellsWithin (bound : Nat) (x x' : Evaluation α) : Prop :=
  Trace.Within bound (· = overflow) x.run x'.run

/-- An execution is another one within a bound, whatever table they start in. -/
def DoesWithin (bound : Nat) (x x' : Exec α) : Prop :=
  ∀ t, Trace.Within bound (·.1 = overflow) (x.run.run t) (x'.run.run t)

theorem tellsWithin_sequential (bound : Nat) : Sequential (TellsWithin bound) where
  pure a := .done nofun
  throw hf := .done fun h => hf (error_eq_overflow.mp h)
  bind h hf := by
    refine Trace.Within.bind h ?_ ?_
    · intro v hv
      cases v with
      | ok a => exact hf a
      | error failure =>
        exact .done fun h => hv (error_eq_overflow.mpr (error_eq_overflow.mp h))
    · rintro v rfl
      exact ⟨rfl, rfl⟩

theorem doesWithin_pure (a : α) : DoesWithin bound (pure a) (pure a) :=
  fun _ => .done nofun

theorem doesWithin_throw {failure : Failure} (hf : failure ≠ .fault .stackExhausted) :
    DoesWithin bound (throw failure : Exec α) (throw failure) :=
  fun _ => .done fun h => hf (error_eq_overflow.mp h)

theorem doesWithin_modify (g : Table → Table) :
    DoesWithin bound (modify g : Exec PUnit) (modify g) :=
  fun _ => .done nofun

theorem DoesWithin.bind {x x' : Exec α} {f f' : α → Exec β} (h : DoesWithin bound x x')
    (hf : ∀ a, DoesWithin bound (f a) (f' a)) : DoesWithin bound (x >>= f) (x' >>= f') := by
  intro t
  refine Trace.Within.bind (h t) ?_ ?_
  · rintro ⟨v, u⟩ hv
    cases v with
    | ok a => exact hf a u
    | error failure =>
      exact .done fun h => hv (error_eq_overflow.mpr (error_eq_overflow.mp h))
  · rintro ⟨v, u⟩ rfl
    exact ⟨rfl, rfl⟩

/-- The reports of a sequence, up to the first failure. -/
theorem reports_exec_bind (x : Exec α) (f : α → Exec β) (t : Table) :
    ((x >>= f).run.run t).reports = (x.run.run t).reports ++
      match endOf x t with
      | (.ok a, t') => ((f a).run.run t').reports
      | (.error _, _) => [] := by
  show Trace.reports (_ >>= _) = _
  rw [Trace.reports_bind]
  show _ ++ Trace.reports (StateT.run (ExceptT.bindCont f (endOf x t).1) (endOf x t).2) = _
  rcases endOf x t with ⟨_ | _, _⟩ <;> rfl

/-! ## Statements and functions -/

/-- Two activations of one depth within the bound, of which the first can go on only up to it. -/
structure Activation.Within (bound : Nat) (act act' : Activation) : Prop where
  depth_le : act.depth ≤ bound
  procedure : act'.procedure = act.procedure
  depth : act'.depth = act.depth
  rounds : act'.limits.rounds = act.limits.rounds
  invoke : ∀ callee actuals,
    TellsWithin bound (act.invoke callee actuals) (act'.invoke callee actuals)

section Statements

variable {act act' : Activation}

theorem report_within (h : act.Within bound act') (node : Option Nat) (message : String)
    (printed : Option PrintEvent) :
    DoesWithin bound (act.report node message printed) (act'.report node message printed) := by
  intro t
  refine .same ?_ nofun ?_ rfl
  · intro r hr
    obtain rfl := List.mem_singleton.mp hr
    exact h.depth_le
  · show [ExecReport.mk act'.procedure act'.depth node printed message] = _
    rw [h.procedure, h.depth]
    rfl

theorem step_within (h : act.Within bound act') (m : Mark) (message : String) :
    DoesWithin bound (act.step m message) (act'.step m message) :=
  report_within h m.id message none

theorem value_within (h : act.Within bound act') (e : Expr) :
    DoesWithin bound (act.value e) (act'.value e) := by
  intro t
  have he : TellsWithin bound (e.eval act.invoke t) (e.eval act'.invoke t) :=
    eval_sequential (tellsWithin_sequential bound) h.invoke e
  refine Trace.Within.bind he ?_ ?_
  · intro v hv
    exact .done hv
  · intro v hv
    exact ⟨rfl, hv⟩

/-- A loop goes round as often on the larger stack, unless it is cut off. -/
theorem rounds_within {test test' : Exec Bool} {body body' : Exec Flow}
    (ht : DoesWithin bound test test') (hb : DoesWithin bound body body') :
    ∀ n, DoesWithin bound (rounds test body n) (rounds test' body' n)
  | 0 => doesWithin_throw nofun
  | n + 1 => by
    refine ht.bind fun go => ?_
    cases go with
    | false => exact doesWithin_pure _
    | true =>
      refine hb.bind fun flow => ?_
      cases flow with
      | next => exact rounds_within ht hb n
      | returned b => exact doesWithin_pure _

mutual

/-- **A statement does the same on the larger stack**, unless one of its calls is cut off. -/
theorem exec_within (h : act.Within bound act') : ∀ s : Stmt,
    DoesWithin bound (s.exec act) (s.exec act')
  | .print m e => by
    rw [Stmt.exec, Stmt.exec]
    refine (value_within h e).bind fun b => ?_
    cases PrintEvent.ofBinding b with
    | error reason => exact doesWithin_throw nofun
    | ok event => exact (report_within h _ _ _).bind fun _ => doesWithin_pure _
  | .declare m b => by
    rw [Stmt.exec, Stmt.exec]
    exact (step_within h _ _).bind fun _ => (doesWithin_modify _).bind fun _ => doesWithin_pure _
  | .assign m v e => by
    rw [Stmt.exec, Stmt.exec]
    refine (step_within h _ _).bind fun _ => (value_within h e).bind fun _ => ?_
    exact (doesWithin_modify _).bind fun _ => doesWithin_pure _
  | .ifThen m c _ thenBody => by
    rw [Stmt.exec, Stmt.exec]
    refine (step_within h _ _).bind fun _ => (value_within h c).bind fun b => ?_
    split
    · exact execAll_within h thenBody
    · exact doesWithin_pure _
  | .ifElse m c _ thenBody _ elseBody => by
    rw [Stmt.exec, Stmt.exec]
    refine (step_within h _ _).bind fun _ => (value_within h c).bind fun b => ?_
    split
    · exact execAll_within h thenBody
    · exact execAll_within h elseBody
  | .whileDo m c _ body => by
    rw [Stmt.exec, Stmt.exec, h.rounds]
    refine rounds_within ?_ (execAll_within h body) _
    exact (step_within h _ _).bind fun _ => (value_within h c).bind fun _ => doesWithin_pure _
  | .ret m (some e) ty => by
    rw [Stmt.exec, Stmt.exec]
    exact (step_within h _ _).bind fun _ => (value_within h e).bind fun _ => doesWithin_pure _
  | .ret m none ty => by
    rw [Stmt.exec, Stmt.exec]
    exact (step_within h _ _).bind fun _ => doesWithin_pure _

theorem execAll_within (h : act.Within bound act') : ∀ ss : List Stmt,
    DoesWithin bound (Stmt.execAll act ss) (Stmt.execAll act' ss)
  | [] => doesWithin_pure _
  | s :: rest => by
    rw [Stmt.execAll, Stmt.execAll]
    refine (exec_within h s).bind fun flow => ?_
    cases flow with
    | next => exact execAll_within h rest
    | returned b => exact doesWithin_pure _

end

theorem procedure_within (h : act.Within bound act') (p : Procedure) (actuals : List Binding) :
    DoesWithin bound (p.exec act actuals) (p.exec act' actuals) := by
  unfold Procedure.exec
  rw [h.depth]
  refine (doesWithin_modify _).bind fun _ => (step_within h _ _).bind fun _ => ?_
  refine (execAll_within h p.body).bind fun flow => ?_
  cases flow <;> exact doesWithin_pure _

/-- The report with which an activation is entered. -/
def Activation.entry (act : Activation) (p : Procedure) : ExecReport :=
  ⟨act.procedure, act.depth, p.mark.id, none,
    "Entering " ++ Name.shown p.name ++ " at depth " ++ toString act.depth ++ "."⟩

/-- An activation reports that it is entered, and then what its body reports. -/
theorem reports_procedure (act : Activation) (p : Procedure) (actuals : List Binding) (t : Table) :
    ((p.exec act actuals).run.run t).reports = act.entry p ::
      ((Stmt.execAll act p.body).run.run (Procedure.bind p.formals actuals t)).reports := by
  unfold Procedure.exec
  rw [reports_exec_bind, endOf_modify]
  dsimp only
  rw [reports_exec_bind, endOf_step]
  dsimp only
  rw [reports_exec_bind]
  refine congrArg (act.entry p :: ·) ?_
  rcases endOf (Stmt.execAll act p.body) (Procedure.bind p.formals actuals t) with
    ⟨_ | _ | _, _⟩ <;> exact List.append_nil _

end Statements

/-! ## Calls and runs -/

section Runs

variable {program : Program} {limits limits' : Limits} {actuals : List Binding}

/-- A call of a function that is not there fails at once. -/
theorem invoke_missing {f : Name} {room depth : Nat} (hf : program.find? f = none) :
    program.invoke limits room depth f actuals = throw (.unknownProcedure f) := by
  cases room <;> simp only [Program.invoke, hf]

/-- A call is what the function does that is found, without its table. -/
theorem run_invoke {f : Name} {p : Procedure} {room depth : Nat} (hf : program.find? f = some p) :
    (program.invoke limits (room + 1) depth f actuals).run =
      (p.exec ⟨f, depth, program.invoke limits room (depth + 1), limits⟩ actuals).run.run
        Table.empty >>= fun v => .done v.1 := by
  unfold Program.invoke
  simp only [hf]
  exact Trace.bind_assoc' _ _ _

/-- **A call does the same on the larger stack**, unless it is cut off.  By induction on the
activations that are left on the smaller one: without any, the call is the first thing beyond the
bound. -/
theorem invoke_within (hrounds : limits'.rounds = limits.rounds) (room : Nat) :
    ∀ (room' depth : Nat), room < room' → depth + room = bound + 1 →
      ∀ (f : Name) (actuals : List Binding),
        TellsWithin bound (program.invoke limits room depth f actuals)
          (program.invoke limits' room' depth f actuals) := by
  induction room with
  | zero =>
    intro room' depth hlt hdepth f actuals
    obtain ⟨k, rfl⟩ : ∃ k, room' = k + 1 := ⟨room' - 1, by omega⟩
    cases hf : program.find? f with
    | none =>
      rw [invoke_missing hf, invoke_missing hf]
      exact (tellsWithin_sequential bound).throw (by simp)
    | some p =>
      have hcut : (program.invoke limits 0 depth f actuals).run = .done overflow := by
        unfold Program.invoke
        simp only [hf]
        rfl
      obtain ⟨rest, hrest⟩ : ∃ rest, (program.invoke limits' (k + 1) depth f actuals).run.reports =
          Activation.entry ⟨f, depth, program.invoke limits' k (depth + 1), limits'⟩ p :: rest := by
        rw [run_invoke hf, Trace.reports_bind, reports_procedure]
        exact ⟨_, rfl⟩
      have hbeyond : depth = bound + 1 := by omega
      unfold TellsWithin
      rw [hcut]
      exact .cutOff rfl hrest hbeyond
  | succ room ih =>
    intro room' depth hlt hdepth f actuals
    obtain ⟨k, rfl⟩ : ∃ k, room' = k + 1 := ⟨room' - 1, by omega⟩
    cases hf : program.find? f with
    | none =>
      rw [invoke_missing hf, invoke_missing hf]
      exact (tellsWithin_sequential bound).throw (by simp)
    | some p =>
      have hact : Activation.Within bound
          ⟨f, depth, program.invoke limits room (depth + 1), limits⟩
          ⟨f, depth, program.invoke limits' k (depth + 1), limits'⟩ :=
        ⟨show depth ≤ bound by omega, rfl, rfl, hrounds,
          ih k (depth + 1) (by omega) (by omega)⟩
      unfold TellsWithin
      rw [run_invoke hf, run_invoke hf]
      refine Trace.Within.bind (procedure_within hact p actuals Table.empty) ?_ ?_
      · intro v hv
        exact .done hv
      · intro v hv
        exact ⟨rfl, hv⟩

/-- **A run on a smaller stack is a run within its bound.** -/
theorem run_within (program : Program) (limits : Limits) (actuals : List Binding) {n n' : Nat}
    (h : n < n') :
    Trace.Within n (·.1 = overflow) (program.run { limits with activations := n } actuals)
      (program.run { limits with activations := n' } actuals) := by
  obtain ⟨k, rfl⟩ : ∃ k, n' = k + 1 := ⟨n' - 1, by omega⟩
  unfold Program.run
  cases hmain : program.find? entryPoint with
  | none => exact .done nofun
  | some main =>
    cases n with
    | zero =>
      have hreports := reports_procedure ⟨entryPoint, 1,
        program.invoke { limits with activations := k + 1 } k 2,
        { limits with activations := k + 1 }⟩ main actuals Table.empty
      exact .cutOff rfl hreports rfl
    | succ room =>
      have hcalls := @invoke_within (room + 1) program { limits with activations := room + 1 }
        { limits with activations := k + 1 } rfl room k 2 (by omega) (by omega)
      have hact : Activation.Within (room + 1)
          ⟨entryPoint, 1, program.invoke { limits with activations := room + 1 } room 2,
            { limits with activations := room + 1 }⟩
          ⟨entryPoint, 1, program.invoke { limits with activations := k + 1 } k 2,
            { limits with activations := k + 1 }⟩ :=
        ⟨show 1 ≤ room + 1 by omega, rfl, rfl, rfl, hcalls⟩
      exact procedure_within hact main actuals Table.empty

/-! ## Attempts to go deeper -/

/-- The run needs an activation that is the `depth`-th from MAIN on: it is to run MAIN, or it has
come to a call whose actuals are there and whose function is found. -/
inductive Attempts (program : Program) (limits : Limits) (actuals : List Binding) : Nat → Prop
  | main {p : Procedure} (hp : program.find? entryPoint = some p) :
      Attempts program limits actuals 1
  | call {fr : Frame} {t : Table} {m : Mark} {ty : Tag} {f : Name} {sig : Prototype}
      {args : List Expr} {given : List Binding} {q : Procedure}
      (h : Reached program limits actuals ⟨fr, t, .eval (.call m ty f sig args)⟩)
      (hargs : fr.values program limits t args = .ok given) (hq : program.find? f = some q) :
      Attempts program limits actuals (fr.depth + 1)

/-- The activations that are open and those that are left are as many as the stack has. -/
theorem depth_of_reached {m : Moment} (h : Reached program limits actuals m) :
    m.frame.depth + m.frame.room = limits.activations := by
  obtain ⟨main, room, _, hroom, hto⟩ := h
  induction hto with
  | refl =>
    rw [hroom]
    exact Nat.add_comm 1 room
  | tail _ hl ih =>
    cases hl with
    | call _ _ =>
      dsimp only at ih ⊢
      omega
    | operand | body | first | next | value | branch | enter | test | round | again => exact ih

/-- **A run is exhausted exactly if it attempts an activation beyond its bound.** -/
theorem exhausted_iff : (program.run limits actuals).value.1 = overflow ↔
    ∃ d, Attempts program limits actuals d ∧ limits.activations < d := by
  unfold overflow
  rw [run_fails_iff]
  constructor
  · rintro (⟨hzero, hmain, _⟩ | ⟨m, hm, hr⟩)
    · obtain ⟨p, hp⟩ := Option.isSome_iff_exists.mp hmain
      exact ⟨1, .main hp, by rw [hzero]; exact Nat.zero_lt_one⟩
    · have hdepth := depth_of_reached hm
      cases hr with
      | exhausted hargs hq =>
        refine ⟨_, .call hm hargs hq, ?_⟩
        dsimp only at hdepth ⊢
        omega
  · rintro ⟨d, hd, hlt⟩
    cases hd with
    | main hp => exact .inl ⟨by omega, by simp [hp], rfl⟩
    | @call fr t m ty f sig args given q h hargs hq =>
      have hdepth := depth_of_reached h
      obtain ⟨p, room, depth⟩ := fr
      dsimp only at hdepth hlt
      obtain rfl : room = 0 := by omega
      exact .inr ⟨_, h, .exhausted hargs hq⟩

/-- **What a larger stack changes.**  A run that does not fail for want of stack has the same
reports and the same end on every larger one, whatever that end is.  A run that does has reported
the beginning of what it reports on a larger one, up to the report with which the first activation
beyond its bound is entered there.  And it fails so exactly if it attempts an activation beyond its
bound; the rounds that its loops have made have no part in that. -/
theorem run_larger_stack (program : Program) (limits : Limits) (actuals : List Binding)
    {n n' : Nat} (h : n ≤ n') :
    let small := program.run { limits with activations := n } actuals
    let large := program.run { limits with activations := n' } actuals
    (small.value.1 ≠ overflow → large.reports = small.reports ∧ large.value = small.value) ∧
    (small.value.1 = overflow → small.reports <+: large.reports) ∧
    (small.value.1 = overflow ↔
      ∃ d, Attempts program { limits with activations := n } actuals d ∧ n < d) ∧
    (n < n' → (small.value.1 = overflow ↔ ∃ r ∈ large.reports, n < r.depth)) := by
  intro small large
  rcases Nat.eq_or_lt_of_le h with rfl | hlt
  · exact ⟨fun _ => ⟨rfl, rfl⟩, fun _ => List.prefix_refl _, exhausted_iff, fun hlt => by omega⟩
  have hwithin : Trace.Within n (·.1 = overflow) small large :=
    run_within program limits actuals hlt
  refine ⟨?_, ?_, exhausted_iff, fun _ => ?_⟩
  · intro hne
    cases hwithin with
    | same _ _ hreports hvalue => exact ⟨hreports, hvalue⟩
    | longer _ hcut _ _ => exact absurd hcut hne
  · intro heq
    cases hwithin with
    | same _ hcut _ _ => exact absurd heq hcut
    | longer _ _ hreports _ => exact ⟨_, hreports.symm⟩
  · cases hwithin with
    | same hdepth hcut hreports _ =>
      refine ⟨fun heq => absurd heq hcut, ?_⟩
      rintro ⟨r, hr, hlt⟩
      have := hdepth r (hreports ▸ hr)
      omega
    | @longer r rest _ hcut hreports hr =>
      refine ⟨fun _ => ⟨r, ?_, by omega⟩, fun _ => hcut⟩
      rw [hreports]
      exact List.mem_append_right _ (List.mem_cons_self ..)

/-- The second call of `F` is the third activation.  Where it is missing the run is cut off behind
the round of its loop. -/
theorem run_larger_stack_third : ∃ program,
    Program.compile 100 ("FUNCTION BOOLEAN F(BOOLEAN b) " ++
      "IF b THEN RETURN F(!b); ENDIF RETURN b; END " ++
      "FUNCTION BOOLEAN MAIN() BOOLEAN b; b = TRUE; WHILE b b = F(b); WEND PRINT b; END") =
        .ok program ∧
    (program.run ⟨2, 9⟩ []).value.1 = overflow ∧
    (program.run ⟨3, 9⟩ []).value.1 ≠ overflow ∧
    (program.run ⟨2, 9⟩ []).reports <+: (program.run ⟨3, 9⟩ []).reports ∧
    (program.run ⟨4, 9⟩ []).reports = (program.run ⟨3, 9⟩ []).reports ∧
    ∃ d, Attempts program ⟨2, 9⟩ [] d ∧ 2 < d := by
  obtain ⟨program, hprogram, hends⟩ : ∃ program, Program.compile 100
      ("FUNCTION BOOLEAN F(BOOLEAN b) IF b THEN RETURN F(!b); ENDIF RETURN b; END " ++
        "FUNCTION BOOLEAN MAIN() BOOLEAN b; b = TRUE; WHILE b b = F(b); WEND PRINT b; END") =
          .ok program ∧
      (failureOf (program.run ⟨2, 9⟩ []).value.1,
        failureOf (program.run ⟨3, 9⟩ []).value.1) =
          (some (.fault .stackExhausted), none) := by
    refine ok_of_toOption ?_
    decide +kernel
  obtain ⟨htwo, hthree⟩ := Prod.mk.inj hends
  have hcut : (program.run ⟨2, 9⟩ []).value.1 = overflow := failureOf_eq_some.mp htwo
  have huncut : (program.run ⟨3, 9⟩ []).value.1 ≠ overflow := by
    intro h
    rw [h] at hthree
    cases hthree
  have hbetween := run_larger_stack program ⟨0, 9⟩ [] (show 2 ≤ 3 by omega)
  have habove := run_larger_stack program ⟨0, 9⟩ [] (show 3 ≤ 4 by omega)
  exact ⟨program, hprogram, hcut, huncut, hbetween.2.1 hcut, (habove.1 huncut).1,
    hbetween.2.2.1.mp hcut⟩

end Runs

end Slang
