import Slang.Proofs.LargerStacks
import Slang.Proofs.Redrawing

/-!
# The reports of a run nest

A viewer that only sees the reports of a run can tell which activations are open: an activation is
entered above those that are open, and a later report of a smaller depth closes all deeper ones.

* `Opened` — an open activation, which may have announced that it returns.
* `Program.replay` — what a report does to a stack of open activations, if it fits the stack.
* `Nests program d reports` — the reports fit every stack of at least `d` activations, and the
  lowest `d` are afterwards what they were.
* `Passes program f d a b reports` — the same for the reports of the activation at depth `d` itself,
  which runs `f`; before them it has announced its return if `a` says so, and after them if `b`
  does.
* `Continues`, `Concludes` — what a part of a function may report, before its RETURN and up to it.

Principal results: `exec_concludes` — a statement reports nothing behind the announcement of its
return; `invoke_nests` — a call leaves the activations below it as they were; `replay_run` — the
reports of a run can be replayed.
-/

set_option autoImplicit false

namespace Slang

variable {frames : Nat}

/-! ## Numbers of statements -/

namespace Stmt

mutual

/-- The numbers of a statement and of all statements inside it. -/
def ids : Stmt → List (Option Nat)
  | ifThen m _ _ body | whileDo m _ _ body => m.id :: idsAll body
  | ifElse m _ _ body _ other => m.id :: (idsAll body ++ idsAll other)
  | print m _ | declare m _ | assign m _ _ | ret m _ _ => [m.id]

/-- The numbers of a list of statements and of all statements inside them. -/
def idsAll : List Stmt → List (Option Nat)
  | [] => []
  | s :: rest => ids s ++ idsAll rest

end

mutual

/-- Every statement is a node of the displayed tree. -/
theorem ids_outline : ∀ s : Stmt, s.ids ⊆ s.outline.drawing.ids
  | .print .. | .declare .. | .assign .. | .ret _ none _ | .ret _ (some _) _ => by
    simp [ids, outline, Outline.drawing, Drawing.ids]
  | .ifThen _ _ _ body | .whileDo _ _ _ body => by
    have hbody := idsAll_outlines body
    simp only [ids, outline, blockNode, Outline.drawing, Outline.drawings, Drawing.ids,
      Drawing.idsAll, List.append_nil]
    exact List.cons_subset_cons _ fun i hi =>
      List.mem_append_right _ (List.mem_cons_of_mem _ (hbody hi))
  | .ifElse _ _ _ body _ other => by
    have hbody := idsAll_outlines body
    have hother := idsAll_outlines other
    simp only [ids, outline, blockNode, Outline.drawing, Outline.drawings, Drawing.ids,
      Drawing.idsAll, List.append_nil]
    refine List.cons_subset_cons _ fun i hi => List.mem_append_right _ ?_
    rcases List.mem_append.mp hi with hi | hi
    · exact List.mem_append_left _ (List.mem_cons_of_mem _ (hbody hi))
    · exact List.mem_append_right _ (List.mem_cons_of_mem _ (hother hi))

theorem idsAll_outlines : ∀ ss : List Stmt,
    idsAll ss ⊆ Drawing.idsAll (Outline.drawings (outlines ss))
  | [] => List.nil_subset _
  | s :: rest => by
    rw [idsAll, outlines, Outline.drawings, Drawing.idsAll]
    exact List.append_subset.mpr
      ⟨fun _ hi => List.mem_append_left _ (ids_outline s hi),
        fun _ hi => List.mem_append_right _ (idsAll_outlines rest hi)⟩

end

end Stmt

/-- Every statement of the program has a number. -/
def Program.Numbered (program : Program) : Prop :=
  ∀ p ∈ program.procedures, none ∉ Stmt.idsAll p.body

theorem Drawing.mem_idsAll {i : Option Nat} {t : Drawing} : ∀ {ts : List Drawing}, t ∈ ts →
    i ∈ t.ids → i ∈ idsAll ts
  | u :: rest, ht, hi => by
    rw [idsAll, List.mem_append]
    rcases List.mem_cons.mp ht with rfl | ht
    · exact .inl hi
    · exact .inr (mem_idsAll ht hi)

/-- **The parser numbers every statement.** -/
theorem numbered_of_compile {source : String} {program : Program}
    (h : Program.compile frames source = .ok program) : program.Numbered := by
  obtain ⟨tokens, prototypes, s', _, _, hout⟩ := compile_stages h
  obtain ⟨-, n, ts, -, hdraws, hpruned⟩ := Grammar.grows_program _ _ _ hout
  rw [Outline.drawings_eq] at hpruned
  intro p hp hnone
  have hmem : p.outline.drawing ∈ Drawing.pruneAll ts := by
    rw [hpruned, List.map_map]
    exact List.mem_map_of_mem hp
  have hdrawing : none ∈ p.outline.drawing.ids := by
    have hbody := Stmt.idsAll_outlines p.body hnone
    simp only [Procedure.outline, Stmt.blockNode, Outline.drawing, Outline.drawings, Drawing.ids,
      Drawing.idsAll, List.append_nil]
    exact List.mem_cons_of_mem _ (List.mem_cons_of_mem _ hbody)
  have hnumbers := (Drawing.idsAll_pruneAll ts).subset (Drawing.mem_idsAll hmem hdrawing)
  rw [hdraws.ids] at hnumbers
  simp [Drawing.numbers] at hnumbers

/-! ## Replaying reports -/

/-- An activation that has been entered and not been left: the function that it runs, and whether it
has announced that it returns. -/
structure Opened where
  procedure : Name
  returning : Bool
  deriving DecidableEq, Repr

namespace ExecReport

/-- The report says that an activation is entered. -/
def Enters (r : ExecReport) : Prop := "Entering".toList <+: r.message.toList

/-- The report says that an activation returns. -/
def Returns (r : ExecReport) : Prop := r.message = "Returning."

instance (r : ExecReport) : Decidable r.Enters :=
  inferInstanceAs (Decidable (_ <+: _))

instance (r : ExecReport) : Decidable r.Returns :=
  inferInstanceAs (Decidable (_ = _))

/-- The words with which the activation of a report is entered. -/
def entering (r : ExecReport) : String :=
  "Entering " ++ Name.shown r.procedure ++ " at depth " ++ toString r.depth ++ "."

end ExecReport

/-- The lowest activations of a stack, whose first element is the innermost one. -/
def closeTo (depth : Nat) (stack : List Opened) : List Opened := stack.drop (stack.length - depth)

/-- **What a report does to the open activations**, if it fits them.

An activation is entered on the `depth - 1` activations below it, which have to be open; the one at
depth 1 only where none has been entered before.  Every other report closes what is deeper than
itself.  It has to be of the activation that is then the innermost one, which runs the function of
the report and has not announced its return, and to point to a statement of that function. -/
def Program.replay (program : Program) (stack : List Opened) (r : ExecReport) :
    Option (List Opened) := do
  let p ← program.find? r.procedure
  if r.Enters then
    let below := closeTo (r.depth - 1) stack
    if r.depth = below.length + 1 ∧ (r.depth = 1 → stack = []) ∧ r.message = r.entering ∧
        r.node = p.mark.id
    then some (⟨r.procedure, false⟩ :: below) else none
  else
    let act :: below := closeTo r.depth stack | none
    if r.depth = below.length + 1 ∧ act = ⟨r.procedure, false⟩ ∧ r.node.isSome ∧
        r.node ∈ Stmt.idsAll p.body
    then some (⟨r.procedure, r.Returns⟩ :: below) else none

theorem closeTo_append {depth : Nat} {base : List Opened} (h : base.length = depth)
    (closed : List Opened) : closeTo depth (closed ++ base) = base := by
  have hdrop : (closed ++ base).length - depth = closed.length := by
    rw [List.length_append, h, Nat.add_sub_cancel]
  rw [closeTo, hdrop, List.drop_left]

section Replay

variable {program : Program} {p : Procedure} {stack stack' : List Opened} {r : ExecReport}

/-- What is left of a stack after a report is not empty, and an activation at depth 1 is entered
only on an empty one. -/
theorem replay_spec (h : program.replay stack r = some stack') :
    stack' ≠ [] ∧ (r.Enters → r.depth = 1 → stack = []) := by
  unfold Program.replay at h
  rw [Option.bind_eq_bind, Option.bind_eq_some_iff] at h
  obtain ⟨p, _, h⟩ := h
  split at h
  case isTrue henters =>
    obtain ⟨hfits, hstack⟩ := Option.ite_none_right_eq_some.mp h
    obtain rfl := Option.some.inj hstack
    exact ⟨List.cons_ne_nil _ _, fun _ => hfits.2.1⟩
  case isFalse henters =>
    split at h
    · obtain ⟨_, hstack⟩ := Option.ite_none_right_eq_some.mp h
      obtain rfl := Option.some.inj hstack
      exact ⟨List.cons_ne_nil _ _, fun h => absurd h henters⟩
    · cases h

/-- An activation is entered on those below it. -/
theorem replay_entry (hfind : program.find? r.procedure = some p) {closed base : List Opened}
    (hdepth : r.depth = base.length + 1) (hfirst : base = [] → closed = [])
    (hmessage : r.message = r.entering) (hnode : r.node = p.mark.id) :
    program.replay (closed ++ base) r = some (⟨r.procedure, false⟩ :: base) := by
  have henters : r.Enters := by
    unfold ExecReport.Enters
    rw [hmessage]
    simp only [ExecReport.entering, String.toList_append, List.append_assoc]
    exact List.prefix_append "Entering".toList _
  have hbelow : closeTo (r.depth - 1) (closed ++ base) = base := closeTo_append (by omega) closed
  have honly : r.depth = 1 → closed ++ base = [] := by
    intro hone
    have hbase : base = [] := List.eq_nil_of_length_eq_zero (by omega)
    rw [hbase, hfirst hbase, List.append_nil]
  unfold Program.replay
  simp only [hfind, Option.bind_eq_bind, Option.bind_some, if_pos henters, hbelow]
  exact if_pos ⟨hdepth, honly, hmessage, hnode⟩

/-- An activation that has not announced its return goes on. -/
theorem replay_step (hfind : program.find? r.procedure = some p) {closed below : List Opened}
    (hdepth : r.depth = below.length + 1) (hplain : ¬ r.Enters) (hnumber : r.node.isSome)
    (hnode : r.node ∈ Stmt.idsAll p.body) :
    program.replay (closed ++ ⟨r.procedure, false⟩ :: below) r =
      some (⟨r.procedure, r.Returns⟩ :: below) := by
  have hopen : closeTo r.depth (closed ++ ⟨r.procedure, false⟩ :: below) =
      ⟨r.procedure, false⟩ :: below := closeTo_append (by rw [hdepth]; rfl) closed
  unfold Program.replay
  rw [hfind, Option.bind_eq_bind, Option.bind_some, if_neg hplain, hopen]
  exact if_pos ⟨hdepth, rfl, hnumber, hnode⟩

/-- Where an activation is open, none is entered at depth 1. -/
theorem no_entry_of_replay : ∀ {rs : List ExecReport} {stack stack' : List Opened}, stack ≠ [] →
    rs.foldlM program.replay stack = some stack' → ∀ r ∈ rs, r.Enters → r.depth ≠ 1
  | [], _, _, _, _ => fun _ hr => absurd hr List.not_mem_nil
  | r :: rest, stack, stack', hstack, h => by
    rw [List.foldlM_cons, Option.bind_eq_bind, Option.bind_eq_some_iff] at h
    obtain ⟨between, hr, hrest⟩ := h
    obtain ⟨hbetween, honly⟩ := replay_spec hr
    intro q hq henters hdepth
    rcases List.mem_cons.mp hq with rfl | hq
    · exact hstack (honly henters hdepth)
    · exact no_entry_of_replay hbetween hrest q hq henters hdepth

end Replay

/-! ## Nested reports -/

section Nesting

variable {program : Program} {f : Name} {d : Nat} {a b c : Bool} {rs rs' : List ExecReport}

/-- The reports can be replayed above any `d` activations, which stay as they are. -/
def Nests (program : Program) (d : Nat) (rs : List ExecReport) : Prop :=
  ∀ closed base : List Opened, base.length = d →
    ∃ closed', rs.foldlM program.replay (closed ++ base) = some (closed' ++ base)

/-- The reports can be replayed above any activation at depth `d` that runs `f`.  Those below it
stay as they are; it has announced its return before them if `a` says so, and after them if `b`
does. -/
def Passes (program : Program) (f : Name) (d : Nat) (a b : Bool) (rs : List ExecReport) : Prop :=
  ∀ closed below : List Opened, below.length + 1 = d →
    ∃ closed', rs.foldlM program.replay (closed ++ ⟨f, a⟩ :: below) =
      some (closed' ++ ⟨f, b⟩ :: below)

theorem nests_nil : Nests program d [] :=
  fun closed _ _ => ⟨closed, rfl⟩

theorem Nests.append (h : Nests program d rs) (h' : Nests program d rs') :
    Nests program d (rs ++ rs') := by
  intro closed base hbase
  obtain ⟨closed₁, h₁⟩ := h closed base hbase
  obtain ⟨closed₂, h₂⟩ := h' closed₁ base hbase
  refine ⟨closed₂, ?_⟩
  rw [List.foldlM_append, h₁]
  exact h₂

theorem Nests.passes (h : Nests program d rs) : Passes program f d a a rs :=
  fun closed _ hbelow => h closed _ hbelow

theorem Passes.append (h : Passes program f d a b rs) (h' : Passes program f d b c rs') :
    Passes program f d a c (rs ++ rs') := by
  intro closed below hbelow
  obtain ⟨closed₁, h₁⟩ := h closed below hbelow
  obtain ⟨closed₂, h₂⟩ := h' closed₁ below hbelow
  refine ⟨closed₂, ?_⟩
  rw [List.foldlM_append, h₁]
  exact h₂

theorem passes_nil : Passes program f d a a [] :=
  nests_nil.passes

/-- Reports of calls follow one another. -/
theorem nests_sequential (program : Program) (d : Nat) :
    Sequential fun x _ => Nests program d x.run.reports where
  pure _ := nests_nil
  throw _ := nests_nil
  bind {α β x _ g _} h hg := by
    show Nests program d (Trace.reports (_ >>= _))
    rw [Trace.reports_bind]
    refine h.append ?_
    show Nests program d (Trace.reports (ExceptT.bindCont g x.run.value))
    cases x.run.value with
    | ok v => exact hg v
    | error failure => exact nests_nil

end Nesting

/-! ## Statements -/

/-- An activation of a function of the program whose calls are nested in it. -/
structure Activation.Nested (program : Program) (p : Procedure) (act : Activation) : Prop where
  found : program.find? act.procedure = some p
  invoke : ∀ callee actuals, Nests program act.depth (act.invoke callee actuals).run.reports

/-- A part of the activation that announces no return. -/
def Continues (program : Program) (act : Activation) {α : Type} (x : Exec α) : Prop :=
  ∀ t, Passes program act.procedure act.depth false false (x.run.run t).reports

/-- A part of the activation that announces the return, if at all, where it does not let its
successor run. -/
def Concludes (program : Program) (act : Activation) (x : Exec Flow) : Prop :=
  ∀ t, ∃ returning, Passes program act.procedure act.depth false returning (x.run.run t).reports ∧
    ((endOf x t).1 = .ok .next → returning = false)

section Statements

variable {program : Program} {act : Activation} {p : Procedure} {α β : Type}

theorem continues_pure (v : α) : Continues program act (pure v : Exec α) :=
  fun _ => passes_nil

theorem continues_throw (failure : Failure) : Continues program act (throw failure : Exec α) :=
  fun _ => passes_nil

theorem continues_modify (g : Table → Table) : Continues program act (modify g : Exec PUnit) :=
  fun _ => passes_nil

theorem Continues.bind {x : Exec α} {g : α → Exec β} (h : Continues program act x)
    (hg : ∀ v, Continues program act (g v)) : Continues program act (x >>= g) := by
  intro t
  rw [reports_exec_bind]
  refine (h t).append ?_
  rcases endOf x t with ⟨_ | v, t'⟩
  · exact passes_nil
  · exact hg v t'

theorem Continues.concludes {x : Exec Flow} (h : Continues program act x) :
    Concludes program act x :=
  fun t => ⟨false, h t, fun _ => rfl⟩

theorem Continues.concludes_bind {x : Exec α} {g : α → Exec Flow} (h : Continues program act x)
    (hg : ∀ v, Concludes program act (g v)) : Concludes program act (x >>= g) := by
  intro t
  rw [reports_exec_bind, endOf_bind]
  rcases endOf x t with ⟨failure | v, t'⟩
  · exact ⟨false, (h t).append passes_nil, nofun⟩
  · obtain ⟨returning, hpasses, hnext⟩ := hg v t'
    exact ⟨returning, (h t).append hpasses, hnext⟩

/-- What follows a part that may return is run only if it does not, and then it has announced
nothing. -/
theorem Concludes.bind {x : Exec Flow} {g : Flow → Exec Flow} (h : Concludes program act x)
    (hnext : Concludes program act (g .next))
    (hreturned : ∀ b, g (.returned b) = pure (.returned b)) :
    Concludes program act (x >>= g) := by
  intro t
  obtain ⟨returning, hpasses, hopen⟩ := h t
  rw [reports_exec_bind, endOf_bind]
  rcases hx : endOf x t with ⟨failure | ⟨_ | b⟩, t'⟩
  · exact ⟨returning, hpasses.append passes_nil, nofun⟩
  · obtain rfl : returning = false := hopen (by rw [hx])
    obtain ⟨returning', hpasses', hopen'⟩ := hnext t'
    exact ⟨returning', hpasses.append hpasses', hopen'⟩
  · dsimp only
    rw [hreturned]
    exact ⟨returning, hpasses.append passes_nil, nofun⟩

/-- A report of the activation itself. -/
theorem passes_report (hact : act.Nested program p) (hnone : none ∉ Stmt.idsAll p.body)
    {node : Option Nat} (hnode : node ∈ Stmt.idsAll p.body) (printed : Option PrintEvent)
    {message : String} (hplain : ¬ "Entering".toList <+: message.toList) :
    Passes program act.procedure act.depth false (message = "Returning.")
      [⟨act.procedure, act.depth, node, printed, message⟩] := by
  intro closed below hbelow
  have hnumber : node.isSome := by
    cases node with
    | none => exact absurd hnode hnone
    | some i => rfl
  have hstep := @replay_step program p ⟨act.procedure, act.depth, node, printed, message⟩
    hact.found closed below hbelow.symm hplain hnumber hnode
  refine ⟨[], ?_⟩
  rw [List.foldlM_cons, hstep]
  rfl

/-- Messages that announce neither the entry nor the return of an activation, as their first letters
show. -/
def PlainMessage (message : String) : Prop :=
  ∃ x y rest, message.toList = x :: y :: rest ∧ (x ≠ 'E' ∧ x ≠ 'R' ∨ y ≠ 'n' ∧ y ≠ 'e')

theorem PlainMessage.append {start : String} (h : PlainMessage start) (more : String) :
    PlainMessage (start ++ more) := by
  obtain ⟨x, y, rest, hstart, hxy⟩ := h
  refine ⟨x, y, rest ++ more.toList, ?_, hxy⟩
  rw [String.toList_append, hstart]
  rfl

theorem PlainMessage.not_entering {message : String} (h : PlainMessage message) :
    ¬ "Entering".toList <+: message.toList := by
  obtain ⟨x, y, rest, hmessage, hxy⟩ := h
  rintro ⟨more, hmore⟩
  rw [hmessage] at hmore
  obtain rfl : 'E' = x := (List.cons.inj hmore).1
  obtain rfl : 'n' = y := (List.cons.inj (List.cons.inj hmore).2).1
  exact absurd hxy (by decide)

theorem PlainMessage.not_returning {message : String} (h : PlainMessage message) :
    message ≠ "Returning." := by
  rintro rfl
  obtain ⟨x, y, rest, hmessage, hxy⟩ := h
  obtain rfl : 'R' = x := (List.cons.inj hmessage).1
  obtain rfl : 'e' = y := (List.cons.inj (List.cons.inj hmessage).2).1
  exact absurd hxy (by decide)

theorem continues_report (hact : act.Nested program p) (hnone : none ∉ Stmt.idsAll p.body)
    {node : Option Nat} (hnode : node ∈ Stmt.idsAll p.body) {message : String}
    (hplain : PlainMessage message) (printed : Option PrintEvent) :
    Continues program act (act.report node message printed) := by
  intro t
  have hpasses := passes_report hact hnone hnode printed hplain.not_entering
  rwa [decide_eq_false hplain.not_returning] at hpasses

/-- What an expression reports are the reports of its calls. -/
theorem nests_value (hact : act.Nested program p) (e : Expr) (t : Table) :
    Nests program act.depth ((act.value e).run.run t).reports := by
  have heval : Nests program act.depth (e.eval act.invoke t).run.reports :=
    @eval_sequential _ act.invoke act.invoke t (nests_sequential program act.depth) hact.invoke e
  show Nests program act.depth (Trace.reports (_ >>= _))
  rw [Trace.reports_bind]
  exact heval.append nests_nil

theorem continues_value (hact : act.Nested program p) (e : Expr) :
    Continues program act (act.value e) :=
  fun t => (nests_value hact e t).passes

/-- A loop reports nothing behind the announcement of its return. -/
theorem rounds_concludes {test : Exec Bool} {body : Exec Flow} (htest : Continues program act test)
    (hbody : Concludes program act body) : ∀ n, Concludes program act (rounds test body n)
  | 0 => (continues_throw _).concludes
  | n + 1 => by
    refine htest.concludes_bind fun go => ?_
    cases go with
    | false => exact (continues_pure _).concludes
    | true => exact hbody.bind (rounds_concludes htest hbody n) fun _ => rfl

mutual

/-- **A statement reports nothing behind the announcement of its return**, and what it reports comes
from the activation or from its calls. -/
theorem exec_concludes (hact : act.Nested program p) (hnone : none ∉ Stmt.idsAll p.body) :
    ∀ s : Stmt, s.ids ⊆ Stmt.idsAll p.body → Concludes program act (s.exec act)
  | .print m e, hs => by
    have hm : m.id ∈ Stmt.idsAll p.body := hs (List.mem_singleton_self _)
    rw [Stmt.exec]
    refine (continues_value hact e).concludes_bind fun b => ?_
    cases PrintEvent.ofBinding b with
    | error reason => exact (continues_throw _).concludes
    | ok event =>
      have hplain : PlainMessage ("PRINT >> " ++ event.text) := .append ⟨_, _, _, rfl, by decide⟩ _
      exact (continues_report hact hnone hm hplain _).concludes_bind fun _ =>
        (continues_pure _).concludes
  | .declare m b, hs => by
    have hm : m.id ∈ Stmt.idsAll p.body := hs (List.mem_singleton_self _)
    have hplain : PlainMessage "Declaring " := ⟨_, _, _, rfl, by decide⟩
    rw [Stmt.exec]
    refine (continues_report hact hnone hm
      ((((hplain.append _).append _).append _).append _) _).concludes_bind fun _ => ?_
    exact (continues_modify _).concludes_bind fun _ => (continues_pure _).concludes
  | .assign m v e, hs => by
    have hm : m.id ∈ Stmt.idsAll p.body := hs (List.mem_singleton_self _)
    have hplain : PlainMessage "Assigning to " := ⟨_, _, _, rfl, by decide⟩
    rw [Stmt.exec]
    refine (continues_report hact hnone hm
      ((hplain.append _).append _) _).concludes_bind fun _ => ?_
    refine (continues_value hact e).concludes_bind fun _ => ?_
    exact (continues_modify _).concludes_bind fun _ => (continues_pure _).concludes
  | .ifThen m c _ thenBody, hs => by
    have hm : m.id ∈ Stmt.idsAll p.body := hs (List.mem_cons_self ..)
    have hthen := execAll_concludes hact hnone thenBody fun _ hi => hs (List.mem_cons_of_mem _ hi)
    rw [Stmt.exec]
    refine (continues_report hact hnone hm ⟨_, _, _, rfl, by decide⟩ _).concludes_bind fun _ => ?_
    refine (continues_value hact c).concludes_bind fun b => ?_
    split
    · exact hthen
    · exact (continues_pure _).concludes
  | .ifElse m c _ thenBody _ elseBody, hs => by
    have hm : m.id ∈ Stmt.idsAll p.body := hs (List.mem_cons_self ..)
    have hthen := execAll_concludes hact hnone thenBody fun _ hi =>
      hs (List.mem_cons_of_mem _ (List.mem_append_left _ hi))
    have helse := execAll_concludes hact hnone elseBody fun _ hi =>
      hs (List.mem_cons_of_mem _ (List.mem_append_right _ hi))
    rw [Stmt.exec]
    refine (continues_report hact hnone hm ⟨_, _, _, rfl, by decide⟩ _).concludes_bind fun _ => ?_
    refine (continues_value hact c).concludes_bind fun b => ?_
    split
    · exact hthen
    · exact helse
  | .whileDo m c _ body, hs => by
    have hm : m.id ∈ Stmt.idsAll p.body := hs (List.mem_cons_self ..)
    have hbody := execAll_concludes hact hnone body fun _ hi => hs (List.mem_cons_of_mem _ hi)
    rw [Stmt.exec]
    refine rounds_concludes ?_ hbody _
    refine (continues_report hact hnone hm ⟨_, _, _, rfl, by decide⟩ _).bind fun _ => ?_
    exact (continues_value hact c).bind fun _ => continues_pure _
  | .ret m (some e) ty, hs => by
    have hm : m.id ∈ Stmt.idsAll p.body := hs (List.mem_singleton_self _)
    have hreturning := passes_report hact hnone hm none (show ¬ _ <+: "Returning.".toList by decide)
    intro t
    rw [Stmt.exec, reports_exec_bind, endOf_bind, endOf_step]
    dsimp only
    rw [reports_exec_bind, endOf_bind]
    -- the operand is evaluated behind the announcement, so its calls nest in a returning activation
    refine ⟨true, hreturning.append ((nests_value hact e t).passes.append ?_), ?_⟩
    · rcases endOf (act.value e) t with ⟨_ | _, _⟩ <;> exact passes_nil
    · rcases endOf (act.value e) t with ⟨_ | _, _⟩ <;> exact nofun
  | .ret m none ty, hs => by
    have hm : m.id ∈ Stmt.idsAll p.body := hs (List.mem_singleton_self _)
    have hreturning := passes_report hact hnone hm none (show ¬ _ <+: "Returning.".toList by decide)
    intro t
    rw [Stmt.exec, reports_exec_bind, endOf_bind, endOf_step]
    exact ⟨true, hreturning.append passes_nil, nofun⟩

theorem execAll_concludes (hact : act.Nested program p) (hnone : none ∉ Stmt.idsAll p.body) :
    ∀ ss : List Stmt, Stmt.idsAll ss ⊆ Stmt.idsAll p.body →
      Concludes program act (Stmt.execAll act ss)
  | [], _ => (continues_pure _).concludes
  | s :: rest, hss => by
    have hs := exec_concludes hact hnone s fun _ hi => hss (List.mem_append_left _ hi)
    have hrest := execAll_concludes hact hnone rest fun _ hi => hss (List.mem_append_right _ hi)
    rw [Stmt.execAll]
    exact hs.bind hrest fun _ => rfl

end

/-- An activation is replayed on those below it, which stay as they are. -/
theorem replay_procedure (hact : act.Nested program p) (hnone : none ∉ Stmt.idsAll p.body)
    (actuals : List Binding) {closed base : List Opened} (hbase : base.length + 1 = act.depth)
    (hfirst : base = [] → closed = []) :
    ∃ closed', ((p.exec act actuals).run.run Table.empty).reports.foldlM program.replay
      (closed ++ base) = some (closed' ++ base) := by
  have hmessage : (act.entry p).message = (act.entry p).entering := by
    unfold Activation.entry ExecReport.entering
    rw [(find?_spec hact.found).2]
  have hentry : program.replay (closed ++ base) (act.entry p) =
      some (⟨act.procedure, false⟩ :: base) :=
    replay_entry hact.found hbase.symm hfirst hmessage rfl
  obtain ⟨returning, hbody, -⟩ := execAll_concludes hact hnone p.body (List.Subset.refl _)
    (Procedure.bind p.formals actuals Table.empty)
  obtain ⟨closed', hreplay⟩ := hbody [] base hbase
  refine ⟨closed' ++ [⟨act.procedure, returning⟩], ?_⟩
  rw [reports_procedure, List.foldlM_cons, hentry, List.append_assoc]
  exact hreplay

end Statements

/-! ## Runs -/

section Runs

variable {program : Program}

/-- **A call leaves the activations below it as they were.**  By induction on the activations that
are left. -/
theorem invoke_nests (hnumbered : program.Numbered) (limits : Limits) (room : Nat) :
    ∀ d, 0 < d → ∀ (f : Name) (actuals : List Binding),
      Nests program d (program.invoke limits room (d + 1) f actuals).run.reports := by
  induction room with
  | zero =>
    intro d hd f actuals
    unfold Program.invoke
    cases program.find? f <;> exact nests_nil
  | succ room ih =>
    intro d hd f actuals
    cases hf : program.find? f with
    | none =>
      rw [invoke_missing hf]
      exact nests_nil
    | some p =>
      have hact : Activation.Nested program p
          ⟨f, d + 1, program.invoke limits room (d + 1 + 1), limits⟩ :=
        ⟨hf, ih (d + 1) (Nat.succ_pos d)⟩
      have hnone := hnumbered p (find?_spec hf).1
      intro closed base hbase
      have hfirst : base = [] → closed = [] := by
        rintro rfl
        exact absurd hbase (Nat.ne_of_lt hd)
      rw [run_invoke hf, Trace.reports_bind]
      exact (List.append_nil _).symm ▸ replay_procedure hact hnone actuals (by rw [hbase]) hfirst

/-- **The reports of a run can be replayed.** -/
theorem replay_run (hnumbered : program.Numbered) (limits : Limits) (actuals : List Binding) :
    ∃ stack, (program.run limits actuals).reports.foldlM program.replay [] = some stack := by
  unfold Program.run
  split
  case h_1 => exact ⟨[], rfl⟩
  case h_2 => exact ⟨[], rfl⟩
  case h_3 main room hmain hroom =>
    have hact : Activation.Nested program main
        ⟨entryPoint, 1, program.invoke limits room 2, limits⟩ :=
      ⟨hmain, invoke_nests hnumbered limits room 1 Nat.one_pos⟩
    have hnone := hnumbered main (find?_spec hmain).1
    obtain ⟨stack, hstack⟩ := @replay_procedure program _ main hact hnone actuals [] [] rfl
      fun _ => rfl
    exact ⟨_, hstack⟩

/-- A run with a MAIN starts by entering it, if there is room for one activation. -/
theorem reports_run {main : Procedure} (hmain : program.find? entryPoint = some main)
    (limits : Limits) (actuals : List Binding) :
    (limits.activations = 0 ∧ (program.run limits actuals).reports = []) ∨
    ∃ rest, (program.run limits actuals).reports =
      ⟨entryPoint, 1, main.mark.id, none, "Entering MAIN at depth 1."⟩ :: rest := by
  unfold Program.run
  rw [hmain]
  cases limits.activations with
  | zero => exact .inl ⟨rfl, rfl⟩
  | succ room =>
    have hreports := reports_procedure ⟨entryPoint, 1, program.invoke limits room 2, limits⟩ main
      actuals Table.empty
    have hmessage : "Entering " ++ Name.shown entryPoint ++ " at depth " ++ toString 1 ++ "." =
        "Entering MAIN at depth 1." := by decide
    rw [Activation.entry, (find?_spec hmain).2, hmessage] at hreports
    exact .inr ⟨_, hreports⟩

/-- **Reports are well bracketed.**  Whatever has been reported of a run, up to its end or up to a
point where it is cut short, can be replayed: every report fits the activations that are open there.
The first report is that MAIN is entered at depth 1, if there is room for it, and no later one says
that an activation is entered at depth 1. -/
theorem run_brackets {source : String} {program : Program} {main : Procedure}
    (h : Program.compile frames source = .ok program) (hmain : program.find? entryPoint = some main)
    (limits : Limits) (actuals : List Binding) {cut : List ExecReport}
    (hcut : cut <+: (program.run limits actuals).reports) :
    (∃ stack, cut.foldlM program.replay [] = some stack) ∧
    (∀ r ∈ cut.head?, r.Enters ∧ r.procedure = entryPoint ∧ r.depth = 1) ∧
    (∀ r ∈ cut.tail, r.Enters → r.depth ≠ 1) ∧
    (0 < limits.activations → (program.run limits actuals).reports ≠ []) := by
  obtain ⟨more, hmore⟩ := hcut
  have hreplay : ∃ stack, cut.foldlM program.replay [] = some stack := by
    obtain ⟨stack, hstack⟩ := replay_run (numbered_of_compile h) limits actuals
    rw [← hmore, List.foldlM_append, Option.bind_eq_bind, Option.bind_eq_some_iff] at hstack
    obtain ⟨between, hbetween, -⟩ := hstack
    exact ⟨between, hbetween⟩
  refine ⟨hreplay, ?_, ?_, ?_⟩
  · intro r hr
    obtain ⟨rest, rfl⟩ := List.head?_eq_some_iff.mp hr
    rcases reports_run hmain limits actuals with ⟨-, hnil⟩ | ⟨rest', hrun⟩
    · rw [hnil] at hmore
      cases hmore
    · obtain ⟨rfl, -⟩ := List.cons.inj (hmore.trans hrun)
      exact ⟨show _ <+: "Entering MAIN at depth 1.".toList by decide, rfl, rfl⟩
  · cases cut with
    | nil => exact fun _ hr => absurd hr List.not_mem_nil
    | cons first rest =>
      obtain ⟨stack, hstack⟩ := hreplay
      rw [List.foldlM_cons, Option.bind_eq_bind, Option.bind_eq_some_iff] at hstack
      obtain ⟨between, hfirst, hrest⟩ := hstack
      exact no_entry_of_replay (replay_spec hfirst).1 hrest
  · intro hroom hnil
    rcases reports_run hmain limits actuals with ⟨hzero, -⟩ | ⟨rest, hrun⟩
    · omega
    · rw [hrun] at hnil
      cases hnil

/-- Calls in an operand of PRINT and of RETURN; the run is cut short in the second one. -/
theorem run_brackets_operands : ∃ program main,
    Program.compile 100 ("FUNCTION BOOLEAN F(BOOLEAN b) " ++
      "IF b THEN RETURN F(!b); ENDIF RETURN b; END " ++
      "FUNCTION BOOLEAN MAIN() PRINT F(TRUE); RETURN F(FALSE); END") = .ok program ∧
    program.find? entryPoint = some main ∧
    (program.run ⟨9, 9⟩ []).reports.map (fun r => (Name.shown r.procedure, r.depth)) =
      [("MAIN", 1), ("F", 2), ("F", 2), ("F", 2), ("F", 3), ("F", 3), ("F", 3), ("MAIN", 1),
        ("MAIN", 1), ("F", 2), ("F", 2), ("F", 2)] ∧
    ∃ stack, ((program.run ⟨9, 9⟩ []).reports.take 11).foldlM program.replay [] =
      some stack := by
  obtain ⟨program, hprogram, hvalues⟩ : ∃ program, Program.compile 100
      ("FUNCTION BOOLEAN F(BOOLEAN b) IF b THEN RETURN F(!b); ENDIF RETURN b; END " ++
        "FUNCTION BOOLEAN MAIN() PRINT F(TRUE); RETURN F(FALSE); END") = .ok program ∧
      ((program.run ⟨9, 9⟩ []).reports.map fun r => (Name.shown r.procedure, r.depth),
        (program.find? entryPoint).isSome) =
        ([("MAIN", 1), ("F", 2), ("F", 2), ("F", 2), ("F", 3), ("F", 3), ("F", 3), ("MAIN", 1),
          ("MAIN", 1), ("F", 2), ("F", 2), ("F", 2)], true) := by
    refine ok_of_toOption ?_
    decide +kernel
  obtain ⟨hrun, hfound⟩ := Prod.mk.inj hvalues
  obtain ⟨main, hmain⟩ := Option.isSome_iff_exists.mp hfound
  have hbrackets := run_brackets hprogram hmain ⟨9, 9⟩ [] (List.take_prefix 11 _)
  exact ⟨program, main, hprogram, hmain, hrun, hbrackets.1⟩

end Runs

end Slang
