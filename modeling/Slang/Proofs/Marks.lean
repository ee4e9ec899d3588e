import Slang.Proofs.Adequacy

/-!
# Marks do not matter to a run

Every node carries a mark: where it stands in the text and its number in the displayed tree.  A run
shows the numbers in its reports, and that is all it does with marks.

* `Stmt.mapMarks`, `Procedure.mapMarks`, `Program.mapMarks` — other marks on every node, and nothing
  else changed.
* `Outline.mapMarks` — the same on displayed trees.
* `TellsAlike`, `DoesAlike` — two evaluations, or two executions, print the same and end alike.
* `eval_mapInfo`, `exec_mapMarks` — an expression and a statement do the same under other marks, if
  calls do.

Principal results: `execute_mapMarks` — a program does the same under other marks;
`execute_of_find` — so do two programs in which every name finds the same function up to marks.
-/

set_option autoImplicit false

namespace Slang

/-! ## Other marks -/

namespace Stmt

variable (f : Mark → Mark)

mutual

/-- Change the mark of every node of a statement. -/
def mapMarks : Stmt → Stmt
  | print m e => print (f m) (e.mapInfo f id)
  | declare m b => declare (f m) b
  | assign m v e => assign (f m) ⟨f v.mark, v.ty, v.name⟩ (e.mapInfo f id)
  | ifThen m c thenMark thenBody =>
    ifThen (f m) (c.mapInfo f id) (f thenMark) (mapMarksAll thenBody)
  | ifElse m c thenMark thenBody elseMark elseBody =>
    ifElse (f m) (c.mapInfo f id) (f thenMark) (mapMarksAll thenBody) (f elseMark)
      (mapMarksAll elseBody)
  | whileDo m c bodyMark body => whileDo (f m) (c.mapInfo f id) (f bodyMark) (mapMarksAll body)
  | ret m value ty => ret (f m) (value.map (Expr.mapInfo f id)) ty

/-- Change the mark of every node of a list of statements. -/
def mapMarksAll : List Stmt → List Stmt
  | [] => []
  | s :: rest => mapMarks s :: mapMarksAll rest

end

end Stmt

/-- Change the mark of every node of a function. -/
def Procedure.mapMarks (f : Mark → Mark) (p : Procedure) : Procedure :=
  ⟨f p.mark, p.prototype, p.formals, f p.bodyMark, Stmt.mapMarksAll f p.body⟩

/-- Change the mark of every node of a program. -/
def Program.mapMarks (f : Mark → Mark) (p : Program) : Program :=
  ⟨p.procedures.map (Procedure.mapMarks f), p.prototypes⟩

theorem Program.find?_mapMarks (f : Mark → Mark) (p : Program) (name : Name) :
    (p.mapMarks f).find? name = (p.find? name).map (Procedure.mapMarks f) := by
  unfold Program.find? Program.mapMarks
  simp only [List.findRev?_eq_find?_reverse, ← List.map_reverse, List.find?_map]
  rfl

/-! ## Displayed trees -/

namespace Outline

variable (f : Mark → Mark)

mutual

/-- Change the mark of every node of a displayed tree. -/
def mapMarks : Outline → Outline
  | node kind label m ty children => node kind label (f m) ty (mapMarksAll children)

/-- Change the mark of every node of a list of displayed trees. -/
def mapMarksAll : List Outline → List Outline
  | [] => []
  | o :: rest => mapMarks o :: mapMarksAll rest

end

theorem mapMarksAll_eq (os : List Outline) : mapMarksAll f os = os.map (mapMarks f) := by
  induction os with
  | nil => rfl
  | cons o rest ih => rw [mapMarksAll, ih, List.map_cons]

end Outline

section Outlines

variable (f : Mark → Mark)

mutual

/-- Marks have no part in what is displayed of an expression. -/
theorem Expr.outline_mapInfo : ∀ e : Expr, (e.mapInfo f id).outline = e.outline.mapMarks f
  | .number .. | .truth .. | .text .. | .var .. => rfl
  | .arith _ _ _ l r | .compare _ _ _ l r | .logic _ _ _ l r => by
    rw [mapInfo, outline, outline, outline_mapInfo l, outline_mapInfo r]
    rfl
  | .not _ _ e | .sign _ _ _ e => by
    rw [mapInfo, outline, outline, outline_mapInfo e]
    rfl
  | .call _ _ _ _ args => by
    rw [mapInfo, outline, outline, outlines_mapInfoAll args]
    rfl

theorem Expr.outlines_mapInfoAll : ∀ es : List Expr,
    Expr.outlines (Expr.mapInfoAll f id es) = Outline.mapMarksAll f (Expr.outlines es)
  | [] => rfl
  | e :: rest => by
    simp only [mapInfoAll, outlines, Outline.mapMarksAll, outline_mapInfo e,
      outlines_mapInfoAll rest]

end

mutual

theorem Stmt.outline_mapMarks : ∀ s : Stmt, (s.mapMarks f).outline = s.outline.mapMarks f
  | .print _ e | .assign _ _ e => by
    rw [mapMarks, outline, outline, Expr.outline_mapInfo]
    rfl
  | .ret _ (some e) _ => by
    rw [mapMarks, Option.map_some, outline, outline, Expr.outline_mapInfo]
    rfl
  | .declare .. | .ret _ none _ => rfl
  | .ifThen _ _ _ body | .whileDo _ _ _ body => by
    rw [mapMarks, outline, outline, blockNode, outlines_mapMarksAll body, Expr.outline_mapInfo]
    rfl
  | .ifElse _ _ _ thenBody _ elseBody => by
    rw [mapMarks, outline, outline, blockNode, blockNode, outlines_mapMarksAll thenBody,
      outlines_mapMarksAll elseBody, Expr.outline_mapInfo]
    rfl

theorem Stmt.outlines_mapMarksAll : ∀ ss : List Stmt,
    Stmt.outlines (Stmt.mapMarksAll f ss) = Outline.mapMarksAll f (Stmt.outlines ss)
  | [] => rfl
  | s :: rest => by
    simp only [mapMarksAll, outlines, Outline.mapMarksAll, outline_mapMarks s,
      outlines_mapMarksAll rest]

end

theorem Procedure.outline_mapMarks (p : Procedure) :
    (p.mapMarks f).outline = p.outline.mapMarks f := by
  simp only [Procedure.mapMarks, Procedure.outline, Stmt.blockNode, Outline.mapMarks,
    Outline.mapMarksAll, Stmt.outlines_mapMarksAll]
  rfl

/-- **Programs that differ in their marks are displayed as trees that differ in their marks.** -/
theorem Program.outline_mapMarks (p : Program) : p.outline.mapMarks f =
    .node .program "Module" (f (.ofPos (some 0))) none
      ((p.mapMarks f).procedures.map Procedure.outline) := by
  simp only [Program.outline, Outline.mapMarks, Outline.mapMarksAll_eq, Program.mapMarks,
    List.map_map, Function.comp_def, Procedure.outline_mapMarks]

end Outlines

/-! ## Runs that look alike -/

variable {α β : Type}

/-- Two evaluations print the same and end in the same. -/
def TellsAlike (x x' : Evaluation α) : Prop :=
  printed x.run = printed x'.run ∧ valueOf x = valueOf x'

/-- Two executions print the same and end in the same, whatever table they start in. -/
def DoesAlike (x x' : Exec α) : Prop :=
  ∀ t, printed (x.run.run t) = printed (x'.run.run t) ∧ endOf x t = endOf x' t

theorem TellsAlike.refl (x : Evaluation α) : TellsAlike x x := ⟨rfl, rfl⟩

theorem TellsAlike.bind {x x' : Evaluation α} {f f' : α → Evaluation β} (h : TellsAlike x x')
    (hf : ∀ a, TellsAlike (f a) (f' a)) : TellsAlike (x >>= f) (x' >>= f') := by
  constructor
  · rw [printed_eval_bind, printed_eval_bind, h.1, h.2]
    cases valueOf x' with
    | error failure => rfl
    | ok a => exact congrArg _ (hf a).1
  · rw [valueOf_bind, valueOf_bind, h.2]
    cases valueOf x' with
    | error failure => rfl
    | ok a => exact (hf a).2

theorem DoesAlike.refl (x : Exec α) : DoesAlike x x := fun _ => ⟨rfl, rfl⟩

theorem DoesAlike.bind {x x' : Exec α} {f f' : α → Exec β} (h : DoesAlike x x')
    (hf : ∀ a, DoesAlike (f a) (f' a)) : DoesAlike (x >>= f) (x' >>= f') := by
  intro t
  obtain ⟨hprinted, hend⟩ := h t
  constructor
  · rw [printed_exec_bind, printed_exec_bind, hprinted, hend]
    rcases endOf x' t with ⟨failure | a, u⟩
    · rfl
    · exact congrArg _ (hf a u).1
  · rw [endOf_bind, endOf_bind, hend]
    rcases endOf x' t with ⟨failure | a, u⟩
    · rfl
    · exact (hf a u).2

/-! ## Expressions -/

section Eval

variable {invoke invoke' : Invoke} {f : Mark → Mark} {g : Tag → Tag} {table : Table}

mutual

/-- **An expression does the same under other marks and other recorded types**, if calls do. -/
theorem eval_mapInfo (h : ∀ callee actuals,
    TellsAlike (invoke callee actuals) (invoke' callee actuals)) : ∀ e : Expr,
    TellsAlike ((e.mapInfo f g).eval invoke table) (e.eval invoke' table)
  | .number .. | .truth .. | .text .. | .var .. => .refl _
  | .arith _ _ _ l r | .compare _ _ _ l r | .logic _ _ _ l r => by
    rw [Expr.mapInfo, Expr.eval, Expr.eval]
    exact (eval_mapInfo h l).bind fun _ => (eval_mapInfo h r).bind fun _ => .refl _
  | .not _ _ e | .sign _ _ _ e => by
    rw [Expr.mapInfo, Expr.eval, Expr.eval]
    exact (eval_mapInfo h e).bind fun _ => .refl _
  | .call _ _ callee _ args => by
    rw [Expr.mapInfo, Expr.eval, Expr.eval]
    exact (evalAll_mapInfoAll h args).bind fun actuals => (h callee actuals).bind fun _ => .refl _

theorem evalAll_mapInfoAll (h : ∀ callee actuals,
    TellsAlike (invoke callee actuals) (invoke' callee actuals)) : ∀ es : List Expr,
    TellsAlike (Expr.evalAll invoke table (Expr.mapInfoAll f g es)) (Expr.evalAll invoke' table es)
  | [] => .refl _
  | e :: rest => by
    rw [Expr.mapInfoAll, Expr.evalAll, Expr.evalAll]
    exact (eval_mapInfo h e).bind fun _ => (evalAll_mapInfoAll h rest).bind fun _ => .refl _

end

end Eval

/-! ## Statements -/

/-- Two activations have the same limits, and calls do the same in both. -/
structure Activation.Alike (act act' : Activation) : Prop where
  limits : act.limits = act'.limits
  invoke : ∀ callee actuals, TellsAlike (act.invoke callee actuals) (act'.invoke callee actuals)

section Exec

variable {act act' : Activation} {f : Mark → Mark}

theorem step_alike (m m' : Mark) (message message' : String) :
    DoesAlike (act.step m message) (act'.step m' message') := fun _ => ⟨rfl, rfl⟩

theorem value_alike (h : act.Alike act') (e : Expr) :
    DoesAlike (act.value (e.mapInfo f id)) (act'.value e) := by
  intro t
  obtain ⟨hprinted, hvalue⟩ := @eval_mapInfo _ _ f id t h.invoke e
  have hself : ∀ (act : Activation) (e : Expr),
      printed ((act.value e).run.run t) = printed (e.eval act.invoke t).run := by
    intro act e
    show printed (_ >>= _) = _
    rw [printed_bind]
    exact List.append_nil _
  constructor
  · rw [hself, hself, hprinted]
  · rw [endOf_value, endOf_value]
    exact congrArg (·, t) hvalue

theorem rounds_alike {test test' : Exec Bool} {body body' : Exec Flow}
    (ht : DoesAlike test test') (hb : DoesAlike body body') :
    ∀ n, DoesAlike (rounds test body n) (rounds test' body' n)
  | 0 => .refl _
  | n + 1 => by
    refine ht.bind fun go => ?_
    cases go with
    | false => exact .refl _
    | true =>
      refine hb.bind fun flow => ?_
      cases flow with
      | next => exact rounds_alike ht hb n
      | returned b => exact .refl _

mutual

/-- **A statement does the same under other marks**, if calls do. -/
theorem exec_mapMarks (h : act.Alike act') : ∀ s : Stmt,
    DoesAlike ((s.mapMarks f).exec act) (s.exec act')
  | .print m e => by
    rw [Stmt.mapMarks, Stmt.exec, Stmt.exec]
    refine (value_alike h e).bind fun b => ?_
    cases PrintEvent.ofBinding b with
    | error reason => exact .refl _
    | ok event => exact DoesAlike.bind (fun _ => ⟨rfl, rfl⟩) fun _ => .refl _
  | .declare m b => by
    rw [Stmt.mapMarks, Stmt.exec, Stmt.exec]
    exact (step_alike _ _ _ _).bind fun _ => .refl _
  | .assign m v e => by
    rw [Stmt.mapMarks, Stmt.exec, Stmt.exec]
    exact (step_alike _ _ _ _).bind fun _ => (value_alike h e).bind fun _ => .refl _
  | .ifThen m c _ thenBody => by
    rw [Stmt.mapMarks, Stmt.exec, Stmt.exec]
    refine (step_alike _ _ _ _).bind fun _ => (value_alike h c).bind fun b => ?_
    split
    · exact execAll_mapMarksAll h thenBody
    · exact .refl _
  | .ifElse m c _ thenBody _ elseBody => by
    rw [Stmt.mapMarks, Stmt.exec, Stmt.exec]
    refine (step_alike _ _ _ _).bind fun _ => (value_alike h c).bind fun b => ?_
    split
    · exact execAll_mapMarksAll h thenBody
    · exact execAll_mapMarksAll h elseBody
  | .whileDo m c _ body => by
    rw [Stmt.mapMarks, Stmt.exec, Stmt.exec, h.limits]
    refine rounds_alike ?_ (execAll_mapMarksAll h body) _
    exact (step_alike _ _ _ _).bind fun _ => (value_alike h c).bind fun _ => .refl _
  | .ret m (some e) ty => by
    rw [Stmt.mapMarks, Option.map_some, Stmt.exec, Stmt.exec]
    exact (step_alike _ _ _ _).bind fun _ => (value_alike h e).bind fun _ => .refl _
  | .ret m none ty => by
    rw [Stmt.mapMarks, Option.map_none, Stmt.exec, Stmt.exec]
    exact (step_alike _ _ _ _).bind fun _ => .refl _

theorem execAll_mapMarksAll (h : act.Alike act') : ∀ ss : List Stmt,
    DoesAlike (Stmt.execAll act (Stmt.mapMarksAll f ss)) (Stmt.execAll act' ss)
  | [] => .refl _
  | s :: rest => by
    rw [Stmt.mapMarksAll, Stmt.execAll, Stmt.execAll]
    refine (exec_mapMarks h s).bind fun flow => ?_
    cases flow with
    | next => exact execAll_mapMarksAll h rest
    | returned b => exact .refl _

end

/-- A function does the same under other marks, if calls do. -/
theorem procedure_mapMarks (h : act.Alike act') (p : Procedure) (actuals : List Binding) :
    DoesAlike ((p.mapMarks f).exec act actuals) (p.exec act' actuals) := by
  unfold Procedure.exec
  refine DoesAlike.bind (.refl _) fun _ => (step_alike _ _ _ _).bind fun _ => ?_
  exact (execAll_mapMarksAll h p.body).bind fun _ => .refl _

end Exec

/-! ## Programs -/

section Programs

variable {p p' : Program} {limits : Limits} {f : Mark → Mark}

/-- **Calls do the same under other marks**, by induction on the activations that are left. -/
theorem invoke_mapMarks (p : Program) (limits : Limits) : ∀ (room depth : Nat) (callee : Name)
    (actuals : List Binding), TellsAlike ((p.mapMarks f).invoke limits room depth callee actuals)
      (p.invoke limits room depth callee actuals)
  | 0, depth, callee, actuals => by
    unfold Program.invoke
    rw [Program.find?_mapMarks]
    cases p.find? callee <;> exact .refl _
  | room + 1, depth, callee, actuals => by
    unfold Program.invoke
    rw [Program.find?_mapMarks]
    cases p.find? callee with
    | none => exact .refl _
    | some q =>
      have hq := @procedure_mapMarks
        ⟨callee, depth, (p.mapMarks f).invoke limits room (depth + 1), limits⟩
        ⟨callee, depth, p.invoke limits room (depth + 1), limits⟩ f
        ⟨rfl, invoke_mapMarks p limits room (depth + 1)⟩ q actuals Table.empty
      refine TellsAlike.bind ?_ fun r => .refl _
      constructor
      · rw [printed_lift, printed_lift]
        exact hq.1
      · rw [valueOf_lift, valueOf_lift]
        exact congrArg _ hq.2

/-- **A program does the same under other marks.** -/
theorem execute_mapMarks (p : Program) (limits : Limits) (actuals : List Binding) :
    (p.mapMarks f).execute limits actuals = p.execute limits actuals := by
  have hrun : printed ((p.mapMarks f).run limits actuals) = printed (p.run limits actuals) ∧
      ((p.mapMarks f).run limits actuals).value = (p.run limits actuals).value := by
    unfold Program.run
    rw [Program.find?_mapMarks]
    cases p.find? entryPoint with
    | none => exact ⟨rfl, rfl⟩
    | some q =>
      cases limits.activations with
      | zero => exact ⟨rfl, rfl⟩
      | succ room =>
        exact @procedure_mapMarks ⟨entryPoint, 1, (p.mapMarks f).invoke limits room 2, limits⟩
          ⟨entryPoint, 1, p.invoke limits room 2, limits⟩ f
          ⟨rfl, invoke_mapMarks p limits room 2⟩ q actuals Table.empty
  rw [execute_eq, execute_eq, hrun.1, hrun.2]

theorem execute_of_mapMarks (h : p'.mapMarks f = p.mapMarks f) (limits : Limits)
    (actuals : List Binding) : p'.execute limits actuals = p.execute limits actuals := by
  rw [← execute_mapMarks (f := f) p', h, execute_mapMarks]

theorem invoke_congr (h : ∀ name, p.find? name = p'.find? name) : ∀ room depth : Nat,
    p.invoke limits room depth = p'.invoke limits room depth
  | 0, depth => by
    funext callee actuals
    unfold Program.invoke
    rw [h]
  | room + 1, depth => by
    funext callee actuals
    unfold Program.invoke
    rw [h, invoke_congr h room]

/-- A run knows a program by the functions that names find in it. -/
theorem execute_congr (h : ∀ name, p.find? name = p'.find? name) (actuals : List Binding) :
    p.execute limits actuals = p'.execute limits actuals := by
  have hrun : p.run limits actuals = p'.run limits actuals := by
    unfold Program.run
    rw [h]
    simp only [invoke_congr h]
  unfold Program.execute
  rw [hrun]

/-- **Programs in which every name finds the same function up to marks do the same.** -/
theorem execute_of_find (h : ∀ name, (p.find? name).map (Procedure.mapMarks f) =
    (p'.find? name).map (Procedure.mapMarks f)) (limits : Limits) (actuals : List Binding) :
    p.execute limits actuals = p'.execute limits actuals := by
  calc p.execute limits actuals
      = (p.mapMarks f).execute limits actuals := (execute_mapMarks p limits actuals).symm
    _ = (p'.mapMarks f).execute limits actuals := by
        refine execute_congr (fun name => ?_) actuals
        rw [Program.find?_mapMarks, Program.find?_mapMarks, h]
    _ = p'.execute limits actuals := execute_mapMarks p' limits actuals

end Programs

end Slang
