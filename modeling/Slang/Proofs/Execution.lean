import Slang.Exec.Run

/-!
# What a run ends in

A run is a stream of reports.  Here the reports are left aside: what remains of an evaluation is a
value or a failure, and what remains of an execution is that together with a table.

* `valueOf`, `endOf` — what an evaluation and an execution end in, with one equation for every way
  to build one.
* `Expr.value`, `Stmt.ending`, `Procedure.ending` — the same for trees.
* `value_arith` and its companions — the meaning of every kind of expression.
* `ending_print` and its companions — the meaning of every kind of statement.
-/

set_option autoImplicit false

namespace Slang

variable {α β : Type}

/-! ## Streams without their reports -/

/-- What an evaluation ends in. -/
def valueOf (x : Evaluation α) : Except Failure α := x.run.value

/-- What an execution ends in. -/
def endOf (x : Exec α) (table : Table) : Except Failure α × Table := (x.run.run table).value

theorem valueOf_pure (a : α) : valueOf (pure a) = .ok a := rfl

theorem valueOf_throw (f : Failure) : valueOf (throw f : Evaluation α) = .error f := rfl

theorem valueOf_bind (x : Evaluation α) (f : α → Evaluation β) :
    valueOf (x >>= f) = valueOf x >>= fun a => valueOf (f a) := by
  show Trace.value (_ >>= _) = _
  rw [Trace.value_bind]
  show Trace.value (ExceptT.bindCont _ (valueOf x)) = _
  cases valueOf x <;> rfl

theorem valueOf_map (f : α → β) (x : Evaluation α) : valueOf (f <$> x) = f <$> valueOf x := by
  rw [map_eq_pure_bind, map_eq_pure_bind, valueOf_bind]
  rfl

theorem valueOf_defined (r : Except Undefined α) :
    valueOf (Expr.defined r) = r.mapError .undefined := by
  cases r <;> rfl

theorem valueOf_lift (x : Trace ExecReport α) :
    valueOf (liftM x : Evaluation α) = .ok x.value := Trace.value_bind _ _

theorem endOf_pure (a : α) (table : Table) : endOf (pure a) table = (.ok a, table) := rfl

theorem endOf_throw (f : Failure) (table : Table) :
    endOf (throw f : Exec α) table = (.error f, table) := rfl

theorem endOf_modify (f : Table → Table) (table : Table) :
    endOf (modify f) table = (.ok ⟨⟩, f table) := rfl

theorem endOf_step (act : Activation) (m : Mark) (message : String) (table : Table) :
    endOf (act.step m message) table = (.ok (), table) := rfl

theorem endOf_report (act : Activation) (node : Option Nat) (message : String)
    (printed : Option PrintEvent) (table : Table) :
    endOf (act.report node message printed) table = (.ok (), table) := rfl

theorem endOf_bind (x : Exec α) (f : α → Exec β) (table : Table) :
    endOf (x >>= f) table =
      match endOf x table with
      | (.ok a, table') => endOf (f a) table'
      | (.error e, table') => (.error e, table') := by
  show Trace.value (_ >>= _) = _
  rw [Trace.value_bind]
  show Trace.value (StateT.run (ExceptT.bindCont f (endOf x table).1) (endOf x table).2) = _
  rcases endOf x table with ⟨_ | _, _⟩ <;> rfl

theorem endOf_map (f : α → β) (x : Exec α) (table : Table) :
    endOf (f <$> x) table =
      match endOf x table with
      | (.ok a, table') => (.ok (f a), table')
      | (.error e, table') => (.error e, table') := by
  rw [map_eq_pure_bind, endOf_bind]
  rfl

/-! ## Expressions -/

namespace Expr

attribute [local simp] eval evalAll valueOf_pure valueOf_throw valueOf_bind valueOf_map
  valueOf_defined

variable (invoke : Invoke) (table : Table)

/-- What an expression is worth. -/
def value (e : Expr) : Except Failure Binding := valueOf (e.eval invoke table)

/-- What a list of expressions is worth, evaluated from left to right. -/
def values (es : List Expr) : Except Failure (List Binding) := valueOf (evalAll invoke table es)

variable {invoke table} {m : Mark} {t : Tag} {op : Operator} {l r e : Expr}

theorem value_arith : (arith m t op l r).value invoke table = do
    let a ← l.value invoke table
    let b ← r.value invoke table
    let p ← (do op.arithmetic (← operand a) (← operand b)).mapError Failure.undefined
    return .result a.ty p := by
  simp [value]

theorem value_compare : (compare m t op l r).value invoke table = do
    let a ← l.value invoke table
    let b ← r.value invoke table
    let v ← (do op.compare (← operand a) (← operand b)).mapError Failure.undefined
    return .result (some .boolean) (.truth v) := by
  simp [value]

theorem value_logic : (logic m t op l r).value invoke table = do
    let a ← l.value invoke table
    let b ← r.value invoke table
    return .result (some .boolean) (.truth (op.connect a.truthy b.truthy)) := by
  simp [value]

theorem value_not : (not m t e).value invoke table = do
    let a ← e.value invoke table
    return .result (some .boolean) (.truth (!a.truthy)) := by
  simp [value]

theorem value_sign : (sign m t op e).value invoke table = do
    let a ← e.value invoke table
    let p ← (do op.signed (← operand a)).mapError Failure.undefined
    return .result (some .numeric) p := by
  simp [value]

theorem value_call {f : Name} {p : Prototype} {args : List Expr} :
    (call m t f p args).value invoke table = (do
      let actuals ← values invoke table args
      match ← valueOf (invoke f actuals) with
      | some b => return b
      | none => throw (.fault (.noReturnValue f))) := by
  simp only [value, eval, valueOf_bind]
  rw [values]
  congr 1
  funext actuals
  congr 1
  funext b
  cases b <;> rfl

section Operands

variable {a b : Binding}

theorem value_arith_ok (hl : l.value invoke table = .ok a) (hr : r.value invoke table = .ok b) :
    (arith m t op l r).value invoke table =
      match (do op.arithmetic (← operand a) (← operand b)) with
      | .ok p => .ok (.result a.ty p)
      | .error reason => .error (.undefined reason) := by
  rw [value_arith, hl, hr]
  show (do
    let p ← (do op.arithmetic (← operand a) (← operand b)).mapError Failure.undefined
    return Binding.result a.ty p) = _
  cases (do op.arithmetic (← operand a) (← operand b)) <;> rfl

theorem value_compare_ok (hl : l.value invoke table = .ok a) (hr : r.value invoke table = .ok b) :
    (compare m t op l r).value invoke table =
      match (do op.compare (← operand a) (← operand b)) with
      | .ok v => .ok (.result (some .boolean) (.truth v))
      | .error reason => .error (.undefined reason) := by
  rw [value_compare, hl, hr]
  show (do
    let v ← (do op.compare (← operand a) (← operand b)).mapError Failure.undefined
    return Binding.result (some .boolean) (.truth v)) = _
  cases (do op.compare (← operand a) (← operand b)) <;> rfl

theorem value_sign_ok (he : e.value invoke table = .ok a) :
    (sign m t op e).value invoke table =
      match (do op.signed (← operand a)) with
      | .ok p => .ok (.result (some .numeric) p)
      | .error reason => .error (.undefined reason) := by
  rw [value_sign, he]
  show (do
    let p ← (do op.signed (← operand a)).mapError Failure.undefined
    return Binding.result (some .numeric) p) = _
  cases (do op.signed (← operand a)) <;> rfl

theorem value_logic_ok (hl : l.value invoke table = .ok a) (hr : r.value invoke table = .ok b) :
    (logic m t op l r).value invoke table =
      .ok (.result (some .boolean) (.truth (op.connect a.truthy b.truthy))) := by
  rw [value_logic, hl, hr]
  rfl

theorem value_not_ok (he : e.value invoke table = .ok a) :
    (not m t e).value invoke table = .ok (.result (some .boolean) (.truth (!a.truthy))) := by
  rw [value_not, he]
  rfl

theorem value_call_ok {f : Name} {p : Prototype} {args : List Expr} {actuals : List Binding}
    (ha : values invoke table args = .ok actuals) :
    (call m t f p args).value invoke table =
      match valueOf (invoke f actuals) with
      | .ok (some b) => .ok b
      | .ok none => .error (.fault (.noReturnValue f))
      | .error failure => .error failure := by
  rw [value_call, ha]
  rcases h : valueOf (invoke f actuals) with _ | _ | _ <;>
    simp only [Bind.bind, Except.bind, h] <;> rfl

end Operands

theorem values_cons {es : List Expr} : values invoke table (e :: es) = do
    let b ← e.value invoke table
    let bs ← values invoke table es
    return b :: bs := by
  simp [values, value]

end Expr

/-! ## Statements -/

theorem endOf_value (act : Activation) (e : Expr) (table : Table) :
    endOf (act.value e) table = (e.value act.invoke table, table) := by
  show Trace.value (_ >>= _) = _
  rw [Trace.value_bind]
  rfl

namespace Stmt

attribute [local simp] exec execAll rounds endOf_pure endOf_throw endOf_modify endOf_step
  endOf_report endOf_bind endOf_map endOf_value

variable (act : Activation) (table : Table)

/-- What a statement ends in. -/
def ending (s : Stmt) : Except Failure Flow × Table := endOf (s.exec act) table

/-- What a list of statements ends in. -/
def endingAll (ss : List Stmt) : Except Failure Flow × Table := endOf (execAll act ss) table

/-- What a loop ends in that may still go round `n` times. -/
def endingLoop (m : Mark) (c : Expr) (body : List Stmt) (n : Nat) : Except Failure Flow × Table :=
  endOf (rounds (do
    act.step m "Evaluating WHILE condition."
    let b ← act.value c
    return b.truthy) (execAll act body) n) table

variable {act table} {m m' : Mark} {e : Expr}

theorem ending_print : (print m e).ending act table =
    match e.value act.invoke table with
    | .error f => (.error f, table)
    | .ok b =>
      match PrintEvent.ofBinding b with
      | .error reason => (.error (.undefined reason), table)
      | .ok _ => (.ok .next, table) := by
  cases he : e.value act.invoke table with
  | error f => simp [ending, he]
  | ok b => cases hb : PrintEvent.ofBinding b <;> simp [ending, he, hb]

theorem ending_declare {b : Binding} :
    (declare m b).ending act table = (.ok .next, table.declare b) := rfl

theorem ending_assign {v : Variable} : (assign m v e).ending act table =
    match e.value act.invoke table with
    | .error f => (.error f, table)
    | .ok b => (.ok .next, table.assign v.name b) := by
  cases he : e.value act.invoke table <;> simp [ending, he]

theorem ending_ifThen {body : List Stmt} : (ifThen m e m' body).ending act table =
    match e.value act.invoke table with
    | .error f => (.error f, table)
    | .ok b => if b.truthy then endingAll act table body else (.ok .next, table) := by
  cases he : e.value act.invoke table with
  | error f => simp [ending, he]
  | ok b => cases hb : b.truthy <;> simp [ending, endingAll, he, hb]

theorem ending_ifElse {m'' : Mark} {body other : List Stmt} :
    (ifElse m e m' body m'' other).ending act table =
      match e.value act.invoke table with
      | .error f => (.error f, table)
      | .ok b => if b.truthy then endingAll act table body else endingAll act table other := by
  cases he : e.value act.invoke table with
  | error f => simp [ending, he]
  | ok b => cases hb : b.truthy <;> simp [ending, endingAll, he, hb]

theorem ending_whileDo {body : List Stmt} : (whileDo m e m' body).ending act table =
    endingLoop act table m e body act.limits.rounds := rfl

theorem ending_ret {ty : Tag} : (ret m (some e) ty).ending act table =
    match e.value act.invoke table with
    | .error f => (.error f, table)
    | .ok b => (.ok (.returned b), table) := by
  cases he : e.value act.invoke table <;> simp [ending, he]

theorem ending_leave {ty : Tag} :
    (ret m none ty).ending act table = (.ok (.returned ⟨none, ty, none⟩), table) := rfl

theorem endingAll_nil : endingAll act table [] = (.ok .next, table) := rfl

theorem endingAll_cons {s : Stmt} {rest : List Stmt} : endingAll act table (s :: rest) =
    match s.ending act table with
    | (.ok .next, table') => endingAll act table' rest
    | (.ok (.returned b), table') => (.ok (.returned b), table')
    | (.error f, table') => (.error f, table') := by
  simp only [endingAll, execAll, endOf_bind, ending]
  rcases endOf (s.exec act) table with ⟨_ | _ | _, _⟩ <;> rfl

theorem endingLoop_zero {body : List Stmt} :
    endingLoop act table m e body 0 = (.error .outOfRounds, table) := rfl

theorem endingLoop_succ {body : List Stmt} {n : Nat} :
    endingLoop act table m e body (n + 1) =
      match e.value act.invoke table with
      | .error f => (.error f, table)
      | .ok b =>
        if b.truthy then
          match endingAll act table body with
          | (.ok .next, table') => endingLoop act table' m e body n
          | (.ok (.returned b), table') => (.ok (.returned b), table')
          | (.error f, table') => (.error f, table')
        else (.ok .next, table) := by
  cases he : e.value act.invoke table with
  | error f => simp [endingLoop, he]
  | ok b =>
    cases hb : b.truthy with
    | false => simp [endingLoop, he, hb]
    | true =>
      rcases hbody : endingAll act table body with ⟨_ | _ | _, _⟩ <;> rw [endingAll] at hbody <;>
        simp [endingLoop, he, hb, hbody]

end Stmt

/-! ## Functions -/

/-- What a function ends in, called in a table of its own. -/
def Procedure.ending (act : Activation) (p : Procedure) (actuals : List Binding) (table : Table) :
    Except Failure (Option Binding) × Table :=
  endOf (p.exec act actuals) table

theorem Procedure.ending_eq {act : Activation} {p : Procedure} {actuals : List Binding}
    {table : Table} : p.ending act actuals table =
      match Stmt.endingAll act (Procedure.bind p.formals actuals table) p.body with
      | (.ok (.returned b), table') => (.ok (if b.value.isSome then some b else none), table')
      | (.ok .next, table') => (.ok none, table')
      | (.error f, table') => (.error f, table') := by
  simp only [Procedure.ending, Procedure.exec, endOf_bind, endOf_modify, endOf_step,
    Stmt.endingAll]
  rcases endOf (Stmt.execAll act p.body) (Procedure.bind p.formals actuals table) with
    ⟨_ | _ | _, _⟩ <;> rfl

namespace Program

variable {program : Program} {limits : Limits} {room depth : Nat} {callee : Name}
  {actuals : List Binding}

/-- A call ends in what the function ends in that the name finds. -/
theorem invoke_succ {p : Procedure} (hp : program.find? callee = some p) :
    valueOf (program.invoke limits (room + 1) depth callee actuals) =
      (p.ending ⟨callee, depth, program.invoke limits room (depth + 1), limits⟩ actuals
        Table.empty).1 := by
  unfold invoke
  simp only [hp]
  rw [valueOf_bind, valueOf_lift]
  rfl

theorem invoke_zero {p : Procedure} (hp : program.find? callee = some p) :
    valueOf (program.invoke limits 0 depth callee actuals) = .error (.fault .stackExhausted) := by
  unfold invoke
  simp only [hp]
  rfl

theorem invoke_unknown (hp : program.find? callee = none) :
    valueOf (program.invoke limits room depth callee actuals) =
      .error (.unknownProcedure callee) := by
  cases room <;> · unfold invoke; simp only [hp]; rfl

end Program

end Slang
