import Slang.Proofs.BigStep

/-!
# What a run prints and ends in

A run is a stream of reports. Here it is judged by what it prints and by what it ends in.

* `Tells x es r` — the evaluation `x` prints the events `es` and ends in `r`.
* `Does x t es r t'` — the execution `x`, started in the table `t`, prints the events `es` and ends
  in `r` and in the table `t'`.
* `Tells.bind`, `Does.bind` — what a sequence does is what its parts do, up to the first failure.
* `Expr.eval_eq` — an expression evaluates its operands in order and then does one thing with them.
* `does_print` to `does_loop_left` — one lemma for each thing that a statement can do. A run does
  only one of them by `Does.unique`.
* `tells_invoke` — a call does what the function does that is found.
-/

set_option autoImplicit false

namespace Slang

variable {α β : Type} {es fs : List PrintEvent} {t t' : Table}

/-- What is printed in the course of a stream. -/
def printed (x : Trace ExecReport α) : List PrintEvent := x.reports.filterMap (·.printed)

theorem printed_bind (x : Trace ExecReport α) (f : α → Trace ExecReport β) :
    printed (x >>= f) = printed x ++ printed (f x.value) := by
  rw [printed, Trace.reports_bind, List.filterMap_append]
  rfl

/-! ## Evaluations -/

/-- The evaluation prints these events and ends in this result. -/
def Tells (x : Evaluation α) (es : List PrintEvent) (r : Except Failure α) : Prop :=
  printed x.run = es ∧ valueOf x = r

section Tells

variable {x : Evaluation α} {f : α → Evaluation β} {a : α} {r : Except Failure β}

theorem exists_tells (x : Evaluation α) : ∃ es r, Tells x es r := ⟨_, _, rfl, rfl⟩

theorem tells_pure {r : Except Failure α} : Tells (pure a) es r ↔ es = [] ∧ r = .ok a := by
  constructor
  · rintro ⟨rfl, rfl⟩
    exact ⟨rfl, rfl⟩
  · rintro ⟨rfl, rfl⟩
    exact ⟨rfl, rfl⟩

theorem tells_throw {failure : Failure} {r : Except Failure α} :
    Tells (throw failure) es r ↔ es = [] ∧ r = .error failure := by
  constructor
  · rintro ⟨rfl, rfl⟩
    exact ⟨rfl, rfl⟩
  · rintro ⟨rfl, rfl⟩
    exact ⟨rfl, rfl⟩

theorem printed_eval_bind : printed (x >>= f).run = printed x.run ++
    match valueOf x with
    | .ok a => printed (f a).run
    | .error _ => [] := by
  show printed (_ >>= _) = _
  rw [printed_bind]
  show _ ++ printed (ExceptT.bindCont _ (valueOf x)) = _
  cases valueOf x <;> rfl

theorem printed_lift (y : Trace ExecReport α) :
    printed (liftM y : Evaluation α).run = printed y := by
  show printed (_ >>= _) = _
  rw [printed_bind]
  exact List.append_nil _

theorem Tells.bind (h : Tells x es (.ok a)) (hf : Tells (f a) fs r) :
    Tells (x >>= f) (es ++ fs) r := by
  obtain ⟨hes, hx⟩ := h
  obtain ⟨hfs, hr⟩ := hf
  constructor
  · rw [printed_eval_bind, hx, hes, ← hfs]
  · rw [valueOf_bind, hx]
    exact hr

theorem Tells.bind_error {failure : Failure} (h : Tells x es (.error failure)) :
    Tells (x >>= f) es (.error failure) := by
  obtain ⟨hes, hx⟩ := h
  constructor
  · rw [printed_eval_bind, hx, hes, List.append_nil]
  · rw [valueOf_bind, hx]
    rfl

/-- Nothing is printed by the second part. -/
theorem Tells.before (h : Tells x es (.ok a)) (hf : Tells (f a) [] r) :
    Tells (x >>= f) es r := by
  have hbind := h.bind hf
  rw [List.append_nil] at hbind
  exact hbind

theorem Tells.unique {r r' : Except Failure α} (h : Tells x es r) (h' : Tells x fs r') :
    es = fs ∧ r = r' :=
  ⟨h.1.symm.trans h'.1, h.2.symm.trans h'.2⟩

/-- **A sequence of evaluations**: the first one fails, or the second one goes on from its value. -/
theorem tells_bind (h : Tells (x >>= f) es r) :
    (∃ failure, Tells x es (.error failure) ∧ r = .error failure) ∨
      ∃ a fs gs, Tells x fs (.ok a) ∧ Tells (f a) gs r ∧ es = fs ++ gs := by
  obtain ⟨fs, v, hx⟩ := exists_tells x
  cases v with
  | error failure =>
    obtain ⟨rfl, rfl⟩ := h.unique hx.bind_error
    exact .inl ⟨failure, hx, rfl⟩
  | ok a =>
    obtain ⟨gs, r', hf⟩ := exists_tells (f a)
    obtain ⟨rfl, rfl⟩ := h.unique (hx.bind hf)
    exact .inr ⟨a, fs, gs, hx, hf, rfl⟩

end Tells

/-! ## Executions -/

/-- The execution prints these events and ends in this result and in this table. -/
def Does (x : Exec α) (t : Table) (es : List PrintEvent) (r : Except Failure α) (t' : Table) :
    Prop :=
  printed (x.run.run t) = es ∧ endOf x t = (r, t')

section Does

variable {x : Exec α} {f : α → Exec β} {a : α} {t'' : Table} {r : Except Failure β}

theorem exists_does (x : Exec α) (t : Table) : ∃ es r t', Does x t es r t' :=
  ⟨_, _, _, rfl, rfl⟩

theorem does_pure : Does (pure a) t [] (.ok a) t := ⟨rfl, rfl⟩

theorem does_throw {failure : Failure} : Does (throw failure : Exec α) t [] (.error failure) t :=
  ⟨rfl, rfl⟩

theorem does_modify (g : Table → Table) : Does (modify g : Exec PUnit) t [] (.ok ⟨⟩) (g t) :=
  ⟨rfl, rfl⟩

theorem does_step {act : Activation} {m : Mark} {message : String} :
    Does (act.step m message) t [] (.ok ()) t := ⟨rfl, rfl⟩

theorem does_report {act : Activation} {node : Option Nat} {message : String}
    {event : PrintEvent} : Does (act.report node message (some event)) t [event] (.ok ()) t :=
  ⟨rfl, rfl⟩

/-- Evaluating in the table of an activation leaves the table as it is. -/
theorem does_value {act : Activation} {e : Expr} {r : Except Failure Binding} :
    Does (act.value e) t es r t' ↔ Tells (e.eval act.invoke t) es r ∧ t' = t := by
  have hprinted : printed ((act.value e).run.run t) = printed (e.eval act.invoke t).run := by
    show printed (_ >>= _) = _
    rw [printed_bind]
    exact List.append_nil _
  unfold Does Tells
  rw [hprinted, endOf_value, Prod.mk.injEq, ← and_assoc]
  exact and_congr_right fun _ => eq_comm

theorem printed_exec_bind : printed ((x >>= f).run.run t) = printed (x.run.run t) ++
    match endOf x t with
    | (.ok a, t') => printed ((f a).run.run t')
    | (.error _, _) => [] := by
  show printed (_ >>= _) = _
  rw [printed_bind]
  show _ ++ printed (StateT.run (ExceptT.bindCont f (endOf x t).1) (endOf x t).2) = _
  rcases endOf x t with ⟨_ | _, _⟩ <;> rfl

theorem Does.bind (h : Does x t es (.ok a) t') (hf : Does (f a) t' fs r t'') :
    Does (x >>= f) t (es ++ fs) r t'' := by
  obtain ⟨hes, hx⟩ := h
  obtain ⟨hfs, hr⟩ := hf
  constructor
  · rw [printed_exec_bind, hx, hes, ← hfs]
  · rw [endOf_bind, hx]
    exact hr

theorem Does.bind_error {failure : Failure} (h : Does x t es (.error failure) t') :
    Does (x >>= f) t es (.error failure) t' := by
  obtain ⟨hes, hx⟩ := h
  constructor
  · rw [printed_exec_bind, hx, hes, List.append_nil]
  · rw [endOf_bind, hx]

/-- Nothing is printed by the first part. -/
theorem Does.after (h : Does x t [] (.ok a) t') (hf : Does (f a) t' fs r t'') :
    Does (x >>= f) t fs r t'' :=
  h.bind hf

/-- Nothing is printed by the second part. -/
theorem Does.before (h : Does x t es (.ok a) t') (hf : Does (f a) t' [] r t'') :
    Does (x >>= f) t es r t'' := by
  have hbind := h.bind hf
  rw [List.append_nil] at hbind
  exact hbind

theorem Does.unique {r r' : Except Failure α} {u : Table} (h : Does x t es r t')
    (h' : Does x t fs r' u) : es = fs ∧ r = r' ∧ t' = u := by
  obtain ⟨rfl, hr⟩ := h
  obtain ⟨rfl, hr'⟩ := h'
  rw [hr] at hr'
  exact ⟨rfl, Prod.mk.inj hr'⟩

end Does

/-! ## Expressions -/

namespace Expr

/-- What an expression does once its operands have values. -/
def finish (invoke : Invoke) (table : Table) : Expr → List Binding → Evaluation Binding
  | number _ x, _ => return .result (some .numeric) (.number x)
  | truth _ b, _ => return .result (some .boolean) (.truth b)
  | text _ s, _ => return .result (some .string) (.text s)
  | var v, _ => read table v.name
  | arith _ _ op _ _, [a, b] => do
    let p ← defined (do op.arithmetic (← operand a) (← operand b))
    return .result a.ty p
  | compare _ _ op _ _, [a, b] => do
    let v ← defined (do op.compare (← operand a) (← operand b))
    return .result (some .boolean) (.truth v)
  | logic _ _ op _ _, [a, b] =>
    return .result (some .boolean) (.truth (op.connect a.truthy b.truthy))
  | not _ _ _, [a] => return .result (some .boolean) (.truth (!a.truthy))
  | sign _ _ op _, [a] => do
    let p ← defined (do op.signed (← operand a))
    return .result (some .numeric) p
  | call _ _ callee _ _, actuals => do
    match ← invoke callee actuals with
    | some b => return b
    | none => throw (.fault (.noReturnValue callee))
  | _, _ => throw (.undefined .mismatch)

/-- **Operands first.** -/
theorem eval_eq (invoke : Invoke) (table : Table) (e : Expr) :
    e.eval invoke table = evalAll invoke table e.operands >>= e.finish invoke table := by
  cases e with
  | call m ty callee sig args =>
    rw [eval]
    rfl
  | number | truth | text | var | arith | compare | logic | not | sign =>
    simp [eval, evalAll, operands, finish]

theorem tells_produced {r : Except Undefined α} {g : α → Payload} {ty : Tag}
    {v : Except Failure Binding} :
    Tells (do let a ← defined r; return .result ty (g a)) es v ↔
      es = [] ∧ v = produced ty (g <$> r) := by
  cases r with
  | ok a => exact tells_pure
  | error reason => exact tells_throw

theorem tells_read {name : Name} {v : Except Failure Binding} (h : Tells (read t name) es v) :
    es = [] ∧ ((∃ n ty p, t.lookup name = some ⟨n, ty, some p⟩ ∧ v = .ok ⟨n, ty, some p⟩) ∨
      (∀ b, t.lookup name = some b → b.value = none) ∧
        v = .error (.fault (.unassigned name))) := by
  unfold read at h
  split at h
  · rename_i n ty p hlookup
    obtain ⟨rfl, rfl⟩ := tells_pure.1 h
    exact ⟨rfl, .inl ⟨n, ty, p, hlookup, rfl⟩⟩
  · rename_i hlookup
    obtain ⟨rfl, rfl⟩ := tells_throw.1 h
    refine ⟨rfl, .inr ⟨?_, rfl⟩⟩
    intro b hb
    obtain ⟨n, ty, value⟩ := b
    cases value with
    | none => rfl
    | some p => exact absurd hb (hlookup n ty p)

theorem tells_unassigned {name : Name} (h : ∀ b, t.lookup name = some b → b.value = none) :
    Tells (read t name) [] (.error (.fault (.unassigned name))) := by
  unfold read
  split
  · rename_i hlookup
    cases h _ hlookup
  · exact tells_throw.2 ⟨rfl, rfl⟩

/-- What an expression is worth, from what it does with its operands. -/
theorem tells_eval {invoke : Invoke} {e : Expr} {bs : List Binding} {r : Except Failure Binding}
    (h : Tells (evalAll invoke t e.operands) es (.ok bs))
    (hr : Tells (e.finish invoke t bs) fs r) : Tells (e.eval invoke t) (es ++ fs) r := by
  rw [eval_eq]
  exact h.bind hr

/-- Operators print nothing. -/
theorem tells_operate {invoke : Invoke} {e : Expr} {bs : List Binding}
    {r : Except Failure Binding} (h : Tells (evalAll invoke t e.operands) es (.ok bs))
    (hr : Tells (e.finish invoke t bs) [] r) : Tells (e.eval invoke t) es r := by
  rw [eval_eq]
  exact h.before hr

/-- As many values as expressions. -/
theorem length_of_tells {invoke : Invoke} : ∀ {xs : List Expr} {es : List PrintEvent}
    {bs : List Binding}, Tells (evalAll invoke t xs) es (.ok bs) → bs.length = xs.length
  | [], _, _, h => by
    obtain ⟨-, hbs⟩ := tells_pure.1 h
    cases hbs
    rfl
  | x :: xs, _, _, h => by
    rcases tells_bind h with ⟨_, _, herror⟩ | ⟨b, _, _, _, hrest, _⟩
    · cases herror
    · rcases tells_bind hrest with ⟨_, _, herror⟩ | ⟨cs, _, _, hcs, hpure, _⟩
      · cases herror
      · obtain ⟨-, hbs⟩ := tells_pure.1 hpure
        cases hbs
        rw [List.length_cons, length_of_tells hcs, List.length_cons]

end Expr

/-! ## Statements and functions -/

/-- A loop that may still go round `n` times. -/
def Stmt.loop (act : Activation) (m : Mark) (c : Expr) (body : List Stmt) (n : Nat) : Exec Flow :=
  rounds (do
    act.step m "Evaluating WHILE condition."
    let b ← act.value c
    return b.truthy) (Stmt.execAll act body) n

section Statements

variable {act : Activation} {m m' : Mark} {s : Stmt} {e c : Expr} {b : Binding}
  {body rest : List Stmt} {failure : Failure} {r : Except Failure Flow} {n : Nat}

/-- The expression of a statement fails. -/
theorem does_first_error (hs : s.first = some e)
    (h : Tells (e.eval act.invoke t) es (.error failure)) :
    Does (s.exec act) t es (.error failure) t := by
  have hvalue := does_value.2 ⟨h, rfl⟩
  cases s with
  | print =>
    cases hs
    rw [Stmt.exec]
    exact hvalue.bind_error
  | assign | ifThen | ifElse | ret =>
    cases hs
    rw [Stmt.exec]
    exact does_step.after hvalue.bind_error
  | declare | whileDo => cases hs

theorem does_print {event : PrintEvent} (h : Tells (e.eval act.invoke t) es (.ok b))
    (hb : PrintEvent.ofBinding b = .ok event) :
    Does (Stmt.exec act (.print m e)) t (es ++ [event]) (.ok .next) t := by
  rw [Stmt.exec]
  refine (does_value.2 ⟨h, rfl⟩).bind ?_
  rw [hb]
  exact does_report.before does_pure

theorem does_print_error {reason : Undefined} (h : Tells (e.eval act.invoke t) es (.ok b))
    (hb : PrintEvent.ofBinding b = .error reason) :
    Does (Stmt.exec act (.print m e)) t es (.error (.undefined reason)) t := by
  rw [Stmt.exec]
  refine (does_value.2 ⟨h, rfl⟩).before ?_
  rw [hb]
  exact does_throw

theorem does_declare : Does (Stmt.exec act (.declare m b)) t [] (.ok .next) (t.declare b) := by
  rw [Stmt.exec]
  exact does_step.after ((does_modify _).after does_pure)

theorem does_assign {v : Variable} (h : Tells (e.eval act.invoke t) es (.ok b)) :
    Does (Stmt.exec act (.assign m v e)) t es (.ok .next) (t.assign v.name b) := by
  rw [Stmt.exec]
  exact does_step.after ((does_value.2 ⟨h, rfl⟩).before ((does_modify _).after does_pure))

/-- The condition of an IF leads to one of its branches. -/
theorem does_branch (hs : s.first = some c) (hc : Tells (c.eval act.invoke t) es (.ok b))
    (hb : s.branch b = some body) (h : Does (Stmt.execAll act body) t fs r t') :
    Does (s.exec act) t (es ++ fs) r t' := by
  have hvalue := does_value.2 ⟨hc, rfl⟩
  cases s with
  | ifThen m c' m' body' =>
    cases hs
    simp only [Stmt.branch, Option.ite_none_right_eq_some, Option.some.injEq] at hb
    obtain ⟨htrue, rfl⟩ := hb
    rw [Stmt.exec]
    refine does_step.after (hvalue.bind ?_)
    rw [if_pos htrue]
    exact h
  | ifElse m c' m' body' m'' other =>
    cases hs
    simp only [Stmt.branch, Option.some.injEq] at hb
    subst hb
    rw [Stmt.exec]
    refine does_step.after (hvalue.bind ?_)
    split
    · rename_i htrue
      rw [if_pos htrue] at h
      exact h
    · rename_i hfalse
      rw [if_neg hfalse] at h
      exact h
  | _ => cases hb

/-- The condition of an IF leads to none. -/
theorem does_skip (hc : Tells (c.eval act.invoke t) es (.ok b)) (hb : b.truthy = false) :
    Does (Stmt.exec act (.ifThen m c m' body)) t es (.ok .next) t := by
  rw [Stmt.exec]
  refine does_step.after ((does_value.2 ⟨hc, rfl⟩).before ?_)
  rw [hb]
  exact does_pure

theorem does_ret {ty : Tag} (h : Tells (e.eval act.invoke t) es (.ok b)) :
    Does (Stmt.exec act (.ret m (some e) ty)) t es (.ok (.returned b)) t := by
  rw [Stmt.exec]
  exact does_step.after ((does_value.2 ⟨h, rfl⟩).before does_pure)

theorem does_leave {ty : Tag} :
    Does (Stmt.exec act (.ret m none ty)) t [] (.ok (.returned ⟨none, ty, none⟩)) t := by
  rw [Stmt.exec]
  exact does_step.after does_pure

theorem does_nil : Does (Stmt.execAll act []) t [] (.ok .next) t := does_pure

/-- The first statement of a block runs to its end. -/
theorem Does.followed {u : Table} (h : Does (s.exec act) t es (.ok .next) u)
    (hrest : Does (Stmt.execAll act rest) u fs r t') :
    Does (Stmt.execAll act (s :: rest)) t (es ++ fs) r t' := by
  rw [Stmt.execAll]
  exact h.bind hrest

/-- The first statement of a block does not run to its end. -/
theorem Does.stopped (h : Does (s.exec act) t es r t') (hr : r ≠ .ok .next) :
    Does (Stmt.execAll act (s :: rest)) t es r t' := by
  rw [Stmt.execAll]
  rcases r with failure | _ | result
  · exact h.bind_error
  · exact absurd rfl hr
  · exact h.before does_pure

/-- The condition of a loop fails. -/
theorem does_loop_error (h : Tells (c.eval act.invoke t) es (.error failure)) :
    Does (Stmt.loop act m c body (n + 1)) t es (.error failure) t :=
  (does_step.after (does_value.2 ⟨h, rfl⟩).bind_error).bind_error

/-- The condition of a loop is tested in every round. -/
theorem does_test (h : Tells (c.eval act.invoke t) es (.ok b)) :
    Does (do act.step m "Evaluating WHILE condition."; let b ← act.value c; return b.truthy) t es
      (.ok b.truthy) t :=
  does_step.after ((does_value.2 ⟨h, rfl⟩).before does_pure)

theorem does_loop_done (h : Tells (c.eval act.invoke t) es (.ok b)) (hb : b.truthy = false) :
    Does (Stmt.loop act m c body (n + 1)) t es (.ok .next) t := by
  refine (does_test h).before ?_
  rw [hb]
  exact does_pure

/-- The body of a loop runs to its end. -/
theorem does_loop_again {u : Table} {gs : List PrintEvent}
    (hc : Tells (c.eval act.invoke t) es (.ok b)) (hb : b.truthy = true)
    (h : Does (Stmt.execAll act body) t fs (.ok .next) u)
    (hnext : Does (Stmt.loop act m c body n) u gs r t') :
    Does (Stmt.loop act m c body (n + 1)) t (es ++ (fs ++ gs)) r t' := by
  refine (does_test hc).bind ?_
  rw [hb]
  exact h.bind hnext

/-- The body of a loop does not run to its end. -/
theorem does_loop_left (hc : Tells (c.eval act.invoke t) es (.ok b)) (hb : b.truthy = true)
    (h : Does (Stmt.execAll act body) t fs r t') (hr : r ≠ .ok .next) :
    Does (Stmt.loop act m c body (n + 1)) t (es ++ fs) r t' := by
  refine (does_test hc).bind ?_
  rw [hb]
  rcases r with failure | _ | result
  · exact h.bind_error
  · exact absurd rfl hr
  · exact h.before does_pure

end Statements

/-- Running a function is executing its body in the table of its actuals. -/
theorem does_run {act : Activation} {p : Procedure} {actuals : List Binding}
    {r : Except Failure (Option Binding)} :
    Does (p.exec act actuals) t es r t' ↔
      ∃ flow, Does (Stmt.execAll act p.body) (Procedure.bind p.formals actuals t) es flow t' ∧
        r = flow.map Flow.result := by
  have hrun : ∀ {flow : Except Failure Flow} {gs : List PrintEvent} {u : Table},
      Does (Stmt.execAll act p.body) (Procedure.bind p.formals actuals t) gs flow u →
        Does (p.exec act actuals) t gs (flow.map Flow.result) u := by
    intro flow gs u h
    refine (does_modify _).after (does_step.after ?_)
    cases flow with
    | error failure => exact h.bind_error
    | ok flow =>
      refine h.before ?_
      cases flow <;> exact does_pure
  constructor
  · intro h
    obtain ⟨gs, flow, u, hbody⟩ := exists_does (Stmt.execAll act p.body)
      (Procedure.bind p.formals actuals t)
    obtain ⟨rfl, rfl, rfl⟩ := h.unique (hrun hbody)
    exact ⟨flow, hbody, rfl⟩
  · rintro ⟨flow, hbody, rfl⟩
    exact hrun hbody

namespace Program

variable {program : Program} {limits : Limits} {room depth : Nat} {f : Name}
  {actuals : List Binding} {r : Except Failure (Option Binding)}

/-- A call runs the function that its name finds in a table of its own, which is then forgotten. -/
theorem tells_invoke {p : Procedure} (hf : program.find? f = some p) :
    Tells (program.invoke limits (room + 1) depth f actuals) es r ↔
      ∃ last, Does (p.exec ⟨f, depth, program.invoke limits room (depth + 1), limits⟩ actuals)
        Table.empty es r last := by
  have hprinted : printed (program.invoke limits (room + 1) depth f actuals).run =
      printed ((p.exec ⟨f, depth, program.invoke limits room (depth + 1), limits⟩ actuals).run.run
        Table.empty) := by
    unfold invoke
    simp only [hf]
    rw [printed_eval_bind, printed_lift, valueOf_lift]
    exact List.append_nil _
  unfold Tells Does
  rw [hprinted, invoke_succ hf, Procedure.ending]
  constructor
  · rintro ⟨hes, hr⟩
    exact ⟨_, hes, Prod.ext hr rfl⟩
  · rintro ⟨last, hes, hr⟩
    rw [hr]
    exact ⟨hes, rfl⟩

/-- A call of a function that is not there. -/
theorem tells_unknown (hf : program.find? f = none) :
    Tells (program.invoke limits room depth f actuals) es r ↔
      es = [] ∧ r = .error (.unknownProcedure f) := by
  cases room with
  | zero | succ =>
    unfold invoke
    simp only [hf]
    exact tells_throw

/-- A call without room for another activation. -/
theorem tells_exhausted {p : Procedure} (hf : program.find? f = some p) :
    Tells (program.invoke limits 0 depth f actuals) es r ↔
      es = [] ∧ r = .error (.fault .stackExhausted) := by
  unfold invoke
  simp only [hf]
  exact tells_throw

end Program

end Slang
