import Mathlib.Data.List.Basic
import Slang.Proofs.PrintedRuns
import Slang.Proofs.RunningCode

/-!
# The evaluator and the rules

The evaluator has a bounded stack and bounded loops, the rules have neither. Where the bounds are
not reached the two agree.

* `SoundCalls` — the calls of an evaluation are as the rules say.
* `sound_value`, `sound_exec`, `sound_loop`, `sound_invoke` — what the evaluator does is derivable,
  unless it runs out of stack or rounds. Calls are by induction on the activations that are left,
  loops by induction on the rounds.
* `Activation.Ample`, `Eventually` — an activation with enough of both, and what holds for all that
  have enough.
* `BigStep.eventually` — what is derivable is done by every activation that has enough.

Principal results: `execute_adequate` — a compiled program means what it ends in;
`Program.Means.unique` — it means only one thing.
-/

set_option autoImplicit false

namespace Slang

variable {program : Program} {frames : Nat} {es : List PrintEvent} {t t' : Table}

/-! ## From runs to rules -/

/-- The calls of an evaluation are as the rules say. -/
structure SoundCalls (program : Program) (invoke : Invoke) : Prop where
  known : ∀ {f : Name} {p : Procedure} {actuals : List Binding} {es : List PrintEvent}
    {r : Except Failure (Option Binding)}, program.find? f = some p →
      Tells (invoke f actuals) es r → ¬ Exhausted r →
        ∃ last, BigStep program (.run p actuals r last) es
  unknown : ∀ {f : Name} {actuals : List Binding} {es : List PrintEvent}
    {r : Except Failure (Option Binding)}, program.find? f = none →
      Tells (invoke f actuals) es r → es = [] ∧ r = .error (.unknownProcedure f)

section Expressions

variable {invoke : Invoke}

theorem sound_values {xs : List Expr}
    (hvalue : ∀ x ∈ xs, ∀ (es : List PrintEvent) (r : Except Failure Binding),
      Tells (x.eval invoke t) es r → ¬ Exhausted r → BigStep program (.value t x r) es) :
    ∀ (es : List PrintEvent) (r : Except Failure (List Binding)),
      Tells (Expr.evalAll invoke t xs) es r → ¬ Exhausted r →
        BigStep program (.values t xs r) es := by
  induction xs with
  | nil =>
    intro es r h _
    obtain ⟨rfl, rfl⟩ := tells_pure.1 h
    exact .valuesNil
  | cons x xs ih =>
    intro es r h hr
    have hx := hvalue x (List.mem_cons_self ..)
    have hxs := ih fun y hy => hvalue y (List.mem_cons_of_mem x hy)
    rcases tells_bind h with ⟨failure, hfails, rfl⟩ | ⟨b, fs, gs, hb, hrest, rfl⟩
    · exact .headFails (hx _ _ hfails hr)
    · rcases tells_bind hrest with ⟨failure, hfails, rfl⟩ | ⟨bs, fs', gs', hbs, hpure, rfl⟩
      · exact .tailFails (hx _ _ hb id) (hxs _ _ hfails hr)
      · obtain ⟨rfl, rfl⟩ := tells_pure.1 hpure
        rw [List.append_nil]
        exact .valuesCons (hx _ _ hb id) (hxs _ _ hbs id)

/-- A call that has its actuals. -/
theorem sound_call (hcalls : SoundCalls program invoke) {m : Mark} {ty : Tag} {f : Name}
    {sig : Prototype} {args : List Expr} {actuals : List Binding} {fs gs : List PrintEvent}
    {r : Except Failure Binding}
    (ha : BigStep program (.values t args (.ok actuals)) fs)
    (h : Tells (Expr.finish invoke t (.call m ty f sig args) actuals) gs r) (hr : ¬ Exhausted r) :
    BigStep program (.value t (.call m ty f sig args) r) (fs ++ gs) := by
  rcases tells_bind h with ⟨failure, hfails, rfl⟩ | ⟨result, es, hs, hresult, hlast, rfl⟩
  · cases hf : program.find? f with
    | none =>
      obtain ⟨rfl, heq⟩ := hcalls.unknown hf hfails
      cases heq
      rw [List.append_nil]
      exact .unknown ha hf
    | some p =>
      obtain ⟨last, hrun⟩ := hcalls.known hf hfails hr
      exact .callFails ha hf hrun
  · cases hf : program.find? f with
    | none =>
      obtain ⟨-, heq⟩ := hcalls.unknown hf hresult
      cases heq
    | some p =>
      obtain ⟨last, hrun⟩ := hcalls.known hf hresult id
      cases result with
      | some b =>
        obtain ⟨rfl, rfl⟩ := tells_pure.1 hlast
        rw [List.append_nil]
        exact .call ha hf hrun
      | none =>
        obtain ⟨rfl, rfl⟩ := tells_throw.1 hlast
        rw [List.append_nil]
        exact .noValue ha hf hrun

/-- What an expression does with the values of its operands. -/
theorem sound_finish (hcalls : SoundCalls program invoke) {e : Expr} {bs : List Binding}
    {fs gs : List PrintEvent} {r : Except Failure Binding}
    (htells : Tells (Expr.evalAll invoke t e.operands) fs (.ok bs))
    (hbs : BigStep program (.values t e.operands (.ok bs)) fs)
    (h : Tells (e.finish invoke t bs) gs r) (hr : ¬ Exhausted r) :
    BigStep program (.value t e r) (fs ++ gs) := by
  have hlength := Expr.length_of_tells htells
  cases e with
  | number m x =>
    obtain ⟨rfl, -⟩ := tells_pure.1 htells
    obtain ⟨rfl, rfl⟩ := tells_pure.1 h
    exact .number
  | truth m b =>
    obtain ⟨rfl, -⟩ := tells_pure.1 htells
    obtain ⟨rfl, rfl⟩ := tells_pure.1 h
    exact .truth
  | text m s =>
    obtain ⟨rfl, -⟩ := tells_pure.1 htells
    obtain ⟨rfl, rfl⟩ := tells_pure.1 h
    exact .text
  | var v =>
    obtain ⟨rfl, -⟩ := tells_pure.1 htells
    obtain ⟨rfl, ⟨n, ty, p, hlookup, rfl⟩ | ⟨hlookup, rfl⟩⟩ := Expr.tells_read h
    · exact .var hlookup
    · exact .unassigned hlookup
  | arith m ty op l r' =>
    obtain ⟨a, b, rfl⟩ := List.length_eq_two.1 hlength
    obtain ⟨rfl, rfl⟩ := (Expr.tells_produced (g := id)).1 h
    rw [List.append_nil, id_map]
    exact .arith hbs
  | compare m ty op l r' =>
    obtain ⟨a, b, rfl⟩ := List.length_eq_two.1 hlength
    obtain ⟨rfl, rfl⟩ := Expr.tells_produced.1 h
    rw [List.append_nil]
    exact .compare hbs
  | logic m ty op l r' =>
    obtain ⟨a, b, rfl⟩ := List.length_eq_two.1 hlength
    obtain ⟨rfl, rfl⟩ := tells_pure.1 h
    rw [List.append_nil]
    exact .logic hbs
  | not m ty e =>
    obtain ⟨a, rfl⟩ := List.length_eq_one_iff.1 hlength
    obtain ⟨rfl, rfl⟩ := tells_pure.1 h
    rw [List.append_nil]
    exact .not hbs
  | sign m ty op e =>
    obtain ⟨a, rfl⟩ := List.length_eq_one_iff.1 hlength
    obtain ⟨rfl, rfl⟩ := (Expr.tells_produced (g := id)).1 h
    rw [List.append_nil, id_map]
    exact .sign hbs
  | call m ty f sig args => exact sound_call hcalls hbs h hr

/-- **What an expression is worth is derivable.** -/
theorem sound_value (hcalls : SoundCalls program invoke) (e : Expr) (es : List PrintEvent)
    (r : Except Failure Binding) (h : Tells (e.eval invoke t) es r) (hr : ¬ Exhausted r) :
    BigStep program (.value t e r) es := by
  have hoperands := sound_values fun x (hx : x ∈ e.operands) => sound_value hcalls x
  rw [Expr.eval_eq] at h
  rcases tells_bind h with ⟨failure, hfails, rfl⟩ | ⟨bs, fs, gs, hbs, hfinish, rfl⟩
  · exact .operandFails (hoperands _ _ hfails hr)
  · exact sound_finish hcalls hbs (hoperands _ _ hbs id) hfinish hr
termination_by sizeOf e
decreasing_by exact sizeOf_operand hx

end Expressions

section Statements

variable {act : Activation}

/-- A statement with an expression: the expression fails, and so does the statement, or it has a
value. -/
theorem sound_first (hcalls : SoundCalls program act.invoke) {s : Stmt} {e : Expr}
    {r : Except Failure Flow} (hs : s.first = some e) (h : Does (s.exec act) t es r t')
    (hr : ¬ Exhausted r) :
    BigStep program (.exec t s r t') es ∨ ∃ b fs,
      Tells (e.eval act.invoke t) fs (.ok b) ∧ BigStep program (.value t e (.ok b)) fs := by
  obtain ⟨fs, v, he⟩ := exists_tells (e.eval act.invoke t)
  cases v with
  | error failure =>
    obtain ⟨rfl, rfl, rfl⟩ := h.unique (does_first_error hs he)
    exact .inl (.expressionFails hs (sound_value hcalls e _ _ he hr))
  | ok b => exact .inr ⟨b, fs, he, sound_value hcalls e _ _ he id⟩

/-- **Loops are derivable**, by induction on the rounds that are left. -/
theorem sound_loop (hcalls : SoundCalls program act.invoke) {m : Mark} {c : Expr}
    {body : List Stmt}
    (hbody : ∀ {t : Table} {es : List PrintEvent} {r : Except Failure Flow} {t' : Table},
      Does (Stmt.execAll act body) t es r t' → ¬ Exhausted r →
        BigStep program (.block t body r t') es) (n : Nat) :
    ∀ {t : Table} {es : List PrintEvent} {r : Except Failure Flow} {t' : Table},
      Does (Stmt.loop act m c body n) t es r t' → ¬ Exhausted r →
        BigStep program (.loop t c body r t') es := by
  induction n with
  | zero =>
    intro t es r t' h hr
    obtain ⟨-, rfl, -⟩ := h.unique does_throw
    exact absurd trivial hr
  | succ n ih =>
    intro t es r t' h hr
    obtain ⟨fs, v, hc⟩ := exists_tells (c.eval act.invoke t)
    cases v with
    | error failure =>
      obtain ⟨rfl, rfl, rfl⟩ := h.unique (does_loop_error hc)
      exact .conditionFails (sound_value hcalls c _ _ hc hr)
    | ok b =>
      have hvalue := sound_value hcalls c _ _ hc id
      cases hb : b.truthy with
      | false =>
        obtain ⟨rfl, rfl, rfl⟩ := h.unique (does_loop_done hc hb)
        exact .done hvalue hb
      | true =>
        obtain ⟨gs, flow, u, hround⟩ := exists_does (Stmt.execAll act body) t
        by_cases hflow : flow = .ok .next
        · subst hflow
          obtain ⟨gs', r', u', hnext⟩ := exists_does (Stmt.loop act m c body n) u
          obtain ⟨rfl, rfl, rfl⟩ := h.unique (does_loop_again hc hb hround hnext)
          exact .again hvalue hb (hbody hround id) (ih hnext hr)
        · obtain ⟨rfl, rfl, rfl⟩ := h.unique (does_loop_left hc hb hround hflow)
          exact .leaveLoop hvalue hb (hbody hround hr) hflow

mutual

/-- **What a statement does is derivable.** -/
theorem sound_exec (hcalls : SoundCalls program act.invoke) : ∀ (s : Stmt) {t : Table}
    {es : List PrintEvent} {r : Except Failure Flow} {t' : Table},
    (∀ b ∈ s.declarations, b.value = none) →
      Does (s.exec act) t es r t' → ¬ Exhausted r → BigStep program (.exec t s r t') es
  | .print m e, t, es, r, t', _, h, hr => by
    rcases sound_first hcalls rfl h hr with hfails | ⟨b, fs, he, hvalue⟩
    · exact hfails
    cases hevent : PrintEvent.ofBinding b with
    | error reason =>
      obtain ⟨rfl, rfl, rfl⟩ := h.unique (does_print_error he hevent)
      exact .printFails hvalue hevent
    | ok event =>
      obtain ⟨rfl, rfl, rfl⟩ := h.unique (does_print he hevent)
      exact .print hvalue hevent
  | .declare m ⟨n, ty, value⟩, t, es, r, t', hd, h, _ => by
    obtain rfl : value = none := hd _ (List.mem_singleton_self _)
    obtain ⟨rfl, rfl, rfl⟩ := h.unique does_declare
    exact .declare
  | .assign m v e, t, es, r, t', _, h, hr => by
    rcases sound_first hcalls rfl h hr with hfails | ⟨b, fs, he, hvalue⟩
    · exact hfails
    obtain ⟨rfl, rfl, rfl⟩ := h.unique (does_assign he)
    exact .assign hvalue
  | .ifThen m c m' body, t, es, r, t', hd, h, hr => by
    rcases sound_first hcalls rfl h hr with hfails | ⟨b, fs, hc, hvalue⟩
    · exact hfails
    cases hb : b.truthy with
    | true =>
      have hbranch : (Stmt.ifThen m c m' body).branch b = some body := if_pos hb
      obtain ⟨gs, r', u, hbody⟩ := exists_does (Stmt.execAll act body) t
      obtain ⟨rfl, rfl, rfl⟩ := h.unique (does_branch rfl hc hbranch hbody)
      exact .branch rfl hvalue hbranch (sound_block hcalls body hd hbody hr)
    | false =>
      obtain ⟨rfl, rfl, rfl⟩ := h.unique (does_skip hc hb)
      exact .skip hvalue hb
  | .ifElse m c m' body m'' other, t, es, r, t', hd, h, hr => by
    rcases sound_first hcalls rfl h hr with hfails | ⟨b, fs, hc, hvalue⟩
    · exact hfails
    have hparts := List.forall_mem_append.1 hd
    cases hb : b.truthy with
    | true =>
      have hbranch : (Stmt.ifElse m c m' body m'' other).branch b = some body :=
        congrArg some (if_pos hb)
      obtain ⟨gs, r', u, hbody⟩ := exists_does (Stmt.execAll act body) t
      obtain ⟨rfl, rfl, rfl⟩ := h.unique (does_branch rfl hc hbranch hbody)
      exact .branch rfl hvalue hbranch (sound_block hcalls body hparts.1 hbody hr)
    | false =>
      have hbranch : (Stmt.ifElse m c m' body m'' other).branch b = some other :=
        congrArg some (if_neg (by simp [hb]))
      obtain ⟨gs, r', u, hother⟩ := exists_does (Stmt.execAll act other) t
      obtain ⟨rfl, rfl, rfl⟩ := h.unique (does_branch rfl hc hbranch hother)
      exact .branch rfl hvalue hbranch (sound_block hcalls other hparts.2 hother hr)
  | .whileDo m c m' body, t, es, r, t', hd, h, hr => by
    rw [Stmt.exec] at h
    exact .whileDo (sound_loop hcalls (sound_block hcalls body hd) _ h hr)
  | .ret m (some e) ty, t, es, r, t', _, h, hr => by
    rcases sound_first hcalls rfl h hr with hfails | ⟨b, fs, he, hvalue⟩
    · exact hfails
    obtain ⟨rfl, rfl, rfl⟩ := h.unique (does_ret he)
    exact .ret hvalue
  | .ret m none ty, t, es, r, t', _, h, _ => by
    obtain ⟨rfl, rfl, rfl⟩ := h.unique does_leave
    exact .leave

theorem sound_block (hcalls : SoundCalls program act.invoke) : ∀ (ss : List Stmt) {t : Table}
    {es : List PrintEvent} {r : Except Failure Flow} {t' : Table},
      (∀ b ∈ Stmt.declarationsAll ss, b.value = none) → Does (Stmt.execAll act ss) t es r t' →
        ¬ Exhausted r → BigStep program (.block t ss r t') es
  | [], t, es, r, t', _, h, _ => by
    obtain ⟨rfl, rfl, rfl⟩ := h.unique does_nil
    exact .finished
  | s :: rest, t, es, r, t', hd, h, hr => by
    have hparts := List.forall_mem_append.1 hd
    obtain ⟨fs, flow, u, hs⟩ := exists_does (s.exec act) t
    by_cases hflow : flow = .ok .next
    · subst hflow
      obtain ⟨gs, r', u', hrest⟩ := exists_does (Stmt.execAll act rest) u
      obtain ⟨rfl, rfl, rfl⟩ := h.unique (hs.followed hrest)
      exact .followed (sound_exec hcalls s hparts.1 hs id)
        (sound_block hcalls rest hparts.2 hrest hr)
    · obtain ⟨rfl, rfl, rfl⟩ := h.unique (hs.stopped hflow)
      exact .stopped (sound_exec hcalls s hparts.1 hs hr) hflow

end

end Statements

/-- **What a function does is derivable.** -/
theorem sound_run {act : Activation} (hcalls : SoundCalls program act.invoke) {p : Procedure}
    (hd : ∀ b ∈ p.declared, b.value = none) {actuals : List Binding}
    {r : Except Failure (Option Binding)}
    (h : Does (p.exec act actuals) Table.empty es r t') (hr : ¬ Exhausted r) :
    BigStep program (.run p actuals r t') es := by
  obtain ⟨flow, hbody, rfl⟩ := does_run.1 h
  have hdeclared := (List.forall_mem_append.1 hd).2
  exact .run (sound_block hcalls p.body hdeclared hbody fun hflow =>
    hr (exhausted_map.2 hflow))

/-- **Calls are derivable**, by induction on the activations that are left. -/
theorem sound_invoke (hc : Consistent program) {limits : Limits} :
    ∀ room depth, SoundCalls program (program.invoke limits room depth) := by
  intro room
  induction room with
  | zero =>
    intro depth
    refine ⟨?_, fun hf => (Program.tells_unknown hf).1⟩
    intro f p actuals es r hf h hr
    obtain ⟨-, rfl⟩ := (Program.tells_exhausted hf).1 h
    exact absurd trivial hr
  | succ room ih =>
    intro depth
    refine ⟨?_, fun hf => (Program.tells_unknown hf).1⟩
    intro f p actuals es r hf h hr
    obtain ⟨last, hrun⟩ := (Program.tells_invoke hf).1 h
    exact ⟨last, sound_run (ih _) (hc.unassigned p (find?_spec hf).1) hrun hr⟩

/-! ## From rules to runs -/

/-- The activation can make `n` more nested calls and its loops can go round more than `n` times. -/
structure Activation.Ample (program : Program) (n : Nat) (act : Activation) : Prop where
  rounds : n < act.limits.rounds
  calls : ∃ room depth, n ≤ room ∧ act.invoke = program.invoke act.limits room depth

theorem Activation.Ample.mono {act : Activation} {n n' : Nat} (h : act.Ample program n)
    (hn : n' ≤ n) : act.Ample program n' := by
  obtain ⟨hrounds, room, depth, hroom, hcalls⟩ := h
  exact ⟨by omega, room, depth, by omega, hcalls⟩

/-- From some bound on it holds of every activation that has as much to go on. -/
def Eventually (program : Program) (P : Activation → Nat → Prop) : Prop :=
  ∃ n, ∀ n', n ≤ n' → ∀ act : Activation, act.Ample program n' → P act n'

section Eventually

variable {P Q : Activation → Nat → Prop}

theorem eventually_of (h : ∀ act n, act.Ample program n → P act n) :
    Eventually program P :=
  ⟨0, fun n _ act => h act n⟩

theorem Eventually.mono (h : Eventually program P)
    (hQ : ∀ act n, act.Ample program n → P act n → Q act n) :
    Eventually program Q := by
  obtain ⟨n, h⟩ := h
  exact ⟨n, fun n' hn act hact => hQ act n' hact (h n' hn act hact)⟩

theorem Eventually.and (h : Eventually program P) (h' : Eventually program Q) :
    Eventually program fun act n => P act n ∧ Q act n := by
  obtain ⟨n, h⟩ := h
  obtain ⟨k, h'⟩ := h'
  refine ⟨max n k, ?_⟩
  intro n' hn act hact
  exact ⟨h n' (by omega) act hact, h' n' (by omega) act hact⟩

/-- One less is enough, too. -/
theorem Eventually.pred (h : Eventually program P) :
    Eventually program fun act n => ∃ k, n = k + 1 ∧ P act k := by
  obtain ⟨n, h⟩ := h
  refine ⟨n + 1, ?_⟩
  intro n' hn act hact
  obtain ⟨k, rfl⟩ : ∃ k, n' = k + 1 := ⟨n' - 1, by omega⟩
  exact ⟨k, rfl, h k (by omega) act (hact.mono (by omega))⟩

/-- A call has one activation less than its caller. -/
theorem Eventually.call {f : Name} {p : Procedure} {actuals : List Binding}
    {r : Except Failure (Option Binding)} (hf : program.find? f = some p)
    (h : Eventually program fun act _ => Does (p.exec act actuals) Table.empty es r t) :
    Eventually program fun act _ => Tells (act.invoke f actuals) es r := by
  obtain ⟨n, h⟩ := h
  refine ⟨n + 1, ?_⟩
  intro n' hn act hact
  obtain ⟨hrounds, room, depth, hroom, hcalls⟩ := hact
  obtain ⟨room, rfl⟩ : ∃ k, room = k + 1 := ⟨room - 1, by omega⟩
  rw [hcalls]
  have hrounds : n < act.limits.rounds := by omega
  exact (Program.tells_invoke hf).2
    ⟨t, h n (Nat.le_refl n) _ ⟨hrounds, room, depth + 1, by omega, rfl⟩⟩

end Eventually

/-- The activation does what the judgement says, its loops within any more than `n` rounds. -/
def Judgement.Done (act : Activation) (n : Nat) (es : List PrintEvent) : Judgement → Prop
  | .value t e r => Tells (e.eval act.invoke t) es r
  | .values t xs r => Tells (Expr.evalAll act.invoke t xs) es r
  | .exec t s r t' => Does (s.exec act) t es r t'
  | .block t ss r t' => Does (Stmt.execAll act ss) t es r t'
  | .loop t c body r t' => ∀ m k, n < k → Does (Stmt.loop act m c body k) t es r t'
  | .run p actuals r t' => Does (p.exec act actuals) Table.empty es r t'

open Slang.Expr in
/-- **Whatever is derivable is done**, by every activation that has enough to go on. -/
theorem BigStep.eventually {j : Judgement} (h : BigStep program j es) :
    Eventually program fun act n => j.Done act n es := by
  -- A function that is called has one activation less, and a loop that goes on one round less:
  -- only there the bound of a premise has to grow.
  induction h with
  | number | truth | text => exact eventually_of fun _ _ _ => tells_pure.2 ⟨rfl, rfl⟩
  | var h =>
    refine eventually_of fun act n _ => ?_
    show Tells (Expr.read _ _) _ _
    unfold Expr.read
    rw [h]
    exact tells_pure.2 ⟨rfl, rfl⟩
  | unassigned h => exact eventually_of fun _ _ _ => tells_unassigned h
  | operandFails _ ih =>
    refine ih.mono fun act n _ h => ?_
    show Tells (eval _ _ _) _ _
    rw [eval_eq]
    exact h.bind_error
  | arith _ ih | sign _ ih =>
    refine ih.mono fun act n _ h => tells_operate h ?_
    exact (tells_produced (g := id)).2 ⟨rfl, by rw [id_map]⟩
  | compare _ ih =>
    exact ih.mono fun act n _ h => tells_operate h (tells_produced.2 ⟨rfl, rfl⟩)
  | logic _ ih | not _ ih =>
    exact ih.mono fun act n _ h => tells_operate h (tells_pure.2 ⟨rfl, rfl⟩)
  | unknown _ hf ih =>
    refine ih.mono fun act n hact h => tells_operate h (Tells.bind_error ?_)
    obtain ⟨room, depth, _, hcalls⟩ := hact.calls
    rw [hcalls]
    exact (Program.tells_unknown hf).2 ⟨rfl, rfl⟩
  | call _ hf _ ih ihrun =>
    refine (ih.and (ihrun.call hf)).mono fun act n _ h => tells_eval h.1 ?_
    exact h.2.before (tells_pure.2 ⟨rfl, rfl⟩)
  | noValue _ hf _ ih ihrun =>
    refine (ih.and (ihrun.call hf)).mono fun act n _ h => tells_eval h.1 ?_
    exact h.2.before (tells_throw.2 ⟨rfl, rfl⟩)
  | callFails _ hf _ ih ihrun =>
    exact (ih.and (ihrun.call hf)).mono fun act n _ h => tells_eval h.1 h.2.bind_error
  | run _ ih => exact ih.mono fun act n _ h => does_run.2 ⟨_, h, rfl⟩
  | valuesNil => exact eventually_of fun _ _ _ => tells_pure.2 ⟨rfl, rfl⟩
  | valuesCons _ _ ih ihrest =>
    refine (ih.and ihrest).mono fun act n _ h => h.1.bind ?_
    exact h.2.before (tells_pure.2 ⟨rfl, rfl⟩)
  | headFails _ ih => exact ih.mono fun act n _ h => h.bind_error
  | tailFails _ _ ih ihrest =>
    exact (ih.and ihrest).mono fun act n _ h => h.1.bind h.2.bind_error
  | expressionFails hs _ ih => exact ih.mono fun act n _ h => does_first_error hs h
  | print _ hb ih =>
    exact ih.mono fun act n hact h => does_print h hb
  | printFails _ hb ih =>
    exact ih.mono fun act n hact h => does_print_error h hb
  | declare => exact eventually_of fun _ _ _ => does_declare
  | assign _ ih => exact ih.mono fun act n _ h => does_assign h
  | branch hs _ hb _ ih ihbody =>
    exact (ih.and ihbody).mono fun act n _ h => does_branch hs h.1 hb h.2
  | skip _ hb ih => exact ih.mono fun act n _ h => does_skip h hb
  | whileDo _ ih =>
    refine ih.mono fun act n hact h => ?_
    show Does (Stmt.exec _ _) _ _ _ _
    rw [Stmt.exec]
    exact h _ _ hact.rounds
  | ret _ ih => exact ih.mono fun act n _ h => does_ret h
  | leave => exact eventually_of fun _ _ _ => does_leave
  | conditionFails _ ih =>
    refine ih.mono fun act n _ h m k hk => ?_
    obtain ⟨k, rfl⟩ := Nat.exists_eq_add_of_lt hk
    exact does_loop_error h
  | done _ hb ih =>
    refine ih.mono fun act n _ h m k hk => ?_
    obtain ⟨k, rfl⟩ := Nat.exists_eq_add_of_lt hk
    exact does_loop_done h hb
  | again _ hb _ _ ih ihbody ihnext =>
    refine (ih.and (ihbody.and ihnext.pred)).mono fun act n _ h m k hk => ?_
    obtain ⟨hvalue, hbody, n, rfl, hnext⟩ := h
    obtain ⟨k, rfl⟩ := Nat.exists_eq_add_of_lt hk
    exact does_loop_again hvalue hb hbody (hnext m _ (by omega))
  | leaveLoop _ hb _ hflow ih ihbody =>
    refine (ih.and ihbody).mono fun act n _ h m k hk => ?_
    obtain ⟨k, rfl⟩ := Nat.exists_eq_add_of_lt hk
    exact does_loop_left h.1 hb h.2 hflow
  | finished => exact eventually_of fun _ _ _ => does_nil
  | followed _ _ ih ihrest => exact (ih.and ihrest).mono fun act n _ h => h.1.followed h.2
  | stopped _ hflow ih => exact ih.mono fun act n _ h => Does.stopped h hflow

/-! ## Whole runs -/

section Runs

variable {limits : Limits} {actuals : List Binding} {x : Execution}

theorem toList_foldl_printed (reports : List ExecReport) (events : Array PrintEvent) :
    (reports.foldl (fun events r => match r.printed with
      | some e => events.push e
      | none => events) events).toList = events.toList ++ reports.filterMap (·.printed) := by
  induction reports generalizing events with
  | nil => simp
  | cons r rest ih =>
    rw [List.foldl_cons, ih]
    cases hr : r.printed with
    | none => simp [hr]
    | some e => simp [hr]

/-- A whole run is what MAIN prints and what it ends in. -/
theorem execute_eq (program : Program) (limits : Limits) (actuals : List Binding) :
    program.execute limits actuals =
      ⟨printed (program.run limits actuals), (program.run limits actuals).value.1,
        (program.run limits actuals).value.2⟩ := by
  unfold Program.execute
  rw [Trace.foldl_eq]
  exact congrArg (fun events => Execution.mk events _ _) (toList_foldl_printed _ #[])

/-- A run of a program without MAIN. -/
theorem execute_without_main (hp : program.find? entryPoint = none) :
    program.execute limits actuals = ⟨[], .ok none, Table.empty⟩ := by
  unfold Program.execute Program.run
  simp only [hp]
  rfl

/-- A run of a program with MAIN, on a stack that has room for it. -/
theorem execute_main {p : Procedure} {room : Nat} (hp : program.find? entryPoint = some p)
    (hroom : limits.activations = room + 1) :
    program.execute limits actuals = x ↔
      Does (p.exec ⟨entryPoint, 1, program.invoke limits room 2, limits⟩ actuals) Table.empty
        x.events x.result x.table := by
  have hrun : program.run limits actuals =
      (p.exec ⟨entryPoint, 1, program.invoke limits room 2, limits⟩ actuals).run.run
        Table.empty := by
    unfold Program.run
    rw [hp, hroom]
    rfl
  rw [execute_eq, hrun]
  obtain ⟨events, result, table⟩ := x
  simp only [Execution.mk.injEq, Does, endOf, Prod.ext_iff]

/-- A run that lacks nothing is derivable. -/
theorem means_of_execute (hc : Consistent program) (h : program.execute limits actuals = x)
    (hx : ¬ Exhausted x.result) : program.Means actuals x := by
  unfold Program.Means
  cases hp : program.find? entryPoint with
  | none => exact h.symm.trans (execute_without_main hp)
  | some p =>
    cases hroom : limits.activations with
    | zero =>
      subst h
      rw [execute_eq] at hx
      unfold Program.run at hx
      rw [hp, hroom] at hx
      exact absurd trivial hx
    | succ room =>
      have hunassigned := hc.unassigned p (find?_spec hp).1
      exact sound_run (sound_invoke hc room 2) hunassigned ((execute_main hp hroom).1 h) hx

/-- What is derivable is run, on every stack that is large enough. -/
theorem execute_of_means (h : program.Means actuals x) :
    ∃ n, ∀ limits : Limits, n ≤ limits.activations → n ≤ limits.rounds →
      program.execute limits actuals = x := by
  unfold Program.Means at h
  cases hp : program.find? entryPoint with
  | none =>
    rw [hp] at h
    refine ⟨0, ?_⟩
    intro limits _ _
    exact (execute_without_main hp).trans h.symm
  | some p =>
    rw [hp] at h
    obtain ⟨n, hrun⟩ := h.eventually
    refine ⟨n + 1, ?_⟩
    intro limits hactivations hrounds
    obtain ⟨room, hroom⟩ : ∃ room, limits.activations = room + 1 :=
      ⟨limits.activations - 1, by omega⟩
    exact (execute_main hp hroom).2
      (hrun n (Nat.le_refl n) _ ⟨hrounds, room, 2, by omega, rfl⟩)

theorem Program.Means.not_exhausted (h : program.Means actuals x) :
    ¬ Exhausted x.result := by
  unfold Program.Means at h
  cases hp : program.find? entryPoint with
  | none =>
    rw [hp] at h
    rw [h]
    exact id
  | some p =>
    rw [hp] at h
    exact h.not_exhausted

/-- **The rules leave no choice.** -/
theorem Program.Means.unique {y : Execution} (hx : program.Means actuals x)
    (hy : program.Means actuals y) : x = y := by
  obtain ⟨n, hx⟩ := execute_of_means hx
  obtain ⟨k, hy⟩ := execute_of_means hy
  let limits : Limits := ⟨max n k, max n k⟩
  calc x = program.execute limits actuals :=
        (hx limits (Nat.le_max_left ..) (Nat.le_max_left ..)).symm
    _ = y := hy limits (Nat.le_max_right ..) (Nat.le_max_right ..)

/-- **The evaluator is adequate.**  What a compiled program means is what it ends in on some stack
and within some rounds, unless it has too few of them, and then it ends so whenever it has more. -/
theorem execute_adequate {source : String} (h : Program.compile frames source = .ok program)
    (actuals : List Binding) (x : Execution) :
    (program.Means actuals x ↔
      ¬ Exhausted x.result ∧ ∃ limits : Limits, program.execute limits actuals = x) ∧
    (program.Means actuals x ↔
      ¬ Exhausted x.result ∧
        ∃ n, ∀ limits : Limits, n ≤ limits.activations → n ≤ limits.rounds →
          program.execute limits actuals = x) := by
  have hc := (compile_sound h).consistent
  have hsome : ¬ Exhausted x.result → ∀ limits : Limits,
      program.execute limits actuals = x → program.Means actuals x := by
    intro hx limits hrun
    exact means_of_execute hc hrun hx
  constructor
  · constructor
    · intro hmeans
      obtain ⟨n, hrun⟩ := execute_of_means hmeans
      exact ⟨hmeans.not_exhausted, ⟨n, n⟩, hrun _ (Nat.le_refl n) (Nat.le_refl n)⟩
    · rintro ⟨hx, limits, hrun⟩
      exact hsome hx limits hrun
  · constructor
    · intro hmeans
      exact ⟨hmeans.not_exhausted, execute_of_means hmeans⟩
    · rintro ⟨hx, n, hrun⟩
      exact hsome hx ⟨n, n⟩ (hrun _ (Nat.le_refl n) (Nat.le_refl n))

/-- The second call gives no value, which ends the run behind what the first one has printed. -/
theorem execute_adequate_failing : ∃ program x,
    Program.compile 100 ("FUNCTION STRING F(BOOLEAN b) IF b THEN RETURN \"yes\"; ENDIF END " ++
      "FUNCTION BOOLEAN MAIN() BOOLEAN b; b = TRUE; WHILE b PRINT F(b); b = FALSE; WEND " ++
      "PRINT F(b); RETURN b; END") = .ok program ∧
    x.events.map (·.text) = ["yes"] ∧
    failureOf x.result = some (.fault (.noReturnValue (some "F"))) ∧
    program.Means [] x := by
  obtain ⟨program, hprogram, hends⟩ : ∃ program,
      Program.compile 100 ("FUNCTION STRING F(BOOLEAN b) IF b THEN RETURN \"yes\"; ENDIF END " ++
        "FUNCTION BOOLEAN MAIN() BOOLEAN b; b = TRUE; WHILE b PRINT F(b); b = FALSE; WEND " ++
        "PRINT F(b); RETURN b; END") = .ok program ∧
      ((program.execute ⟨2, 2⟩ []).events.map (·.text),
        failureOf (program.execute ⟨2, 2⟩ []).result) =
          (["yes"], some (.fault (.noReturnValue (some "F")))) := by
    refine ok_of_toOption ?_
    decide +kernel
  obtain ⟨htexts, hfailure⟩ := Prod.mk.inj hends
  refine ⟨program, _, hprogram, htexts, hfailure, ?_⟩
  refine (execute_adequate hprogram [] _).1.2 ⟨?_, ⟨2, 2⟩, rfl⟩
  rw [failureOf_eq_some.1 hfailure]
  exact id

end Runs

end Slang
