import Slang.Proofs.Execution

/-!
# The moments of a run

A run does one thing inside another: a call runs a function, a function executes a block, a block
its statements, a statement evaluates expressions, and an expression its operands.

* `Frame` — an activation: the function, the activations that may still be nested in it, the depth.
* `Moment` — a task in the table of an activation.
* `Leads m m'` — doing the task of `m` takes doing the task of `m'`; `LeadsTo` is its closure.
* `Reached` — the moments of a run of MAIN.
* `Moment.failure` — how a moment fails, if it does.
* `Raises m f` — the moment fails with `f` by itself: a name without a value, an operation that its
  operands do not have, a function that returns nothing, and the limits of the run.

Principal results: `failure_of_leads` — a failure is passed on to the outermost task;
`fails_iff` — a task fails exactly with what is raised by one of the tasks that it takes.
-/

set_option autoImplicit false

namespace Slang

/-- An activation of a function. -/
structure Frame where
  procedure : Procedure
  room : Nat
  depth : Nat

/-- What is to be done. -/
inductive Task where
  | eval (e : Expr)
  | exec (s : Stmt)
  | block (ss : List Stmt)
  | loop (mark : Mark) (condition : Expr) (body : List Stmt) (left : Nat)
  | run (actuals : List Binding)

/-- Something is to be done in the table of an activation. -/
structure Moment where
  frame : Frame
  table : Table
  task : Task

/-- The operands of an expression in the order in which they are evaluated. -/
def Expr.operands : Expr → List Expr
  | arith _ _ _ l r | compare _ _ _ l r | logic _ _ _ l r => [l, r]
  | not _ _ e | sign _ _ _ e => [e]
  | call _ _ _ _ args => args
  | number .. | truth .. | text .. | var _ => []

/-- The expression that a statement evaluates first. -/
def Stmt.first : Stmt → Option Expr
  | print _ e | assign _ _ e | ifThen _ e _ _ | ifElse _ e _ _ _ _ => some e
  | ret _ value _ => value
  | declare .. | whileDo .. => none

/-- The statements that come next, once the condition of a branch has been evaluated. -/
def Stmt.branch (b : Binding) : Stmt → Option (List Stmt)
  | ifThen _ _ _ body => if b.truthy then some body else none
  | ifElse _ _ _ body _ other => some (if b.truthy then body else other)
  | _ => none

section Moments

variable (program : Program) (limits : Limits)

/-- The activation of a frame. -/
def Frame.act (fr : Frame) : Activation :=
  ⟨fr.procedure.name, fr.depth, program.invoke limits fr.room (fr.depth + 1), limits⟩

/-- What an expression is worth in a frame. -/
abbrev Frame.value (fr : Frame) (table : Table) (e : Expr) : Except Failure Binding :=
  e.value (fr.act program limits).invoke table

/-- What a list of expressions is worth in a frame. -/
abbrev Frame.values (fr : Frame) (table : Table) (es : List Expr) :
    Except Failure (List Binding) :=
  Expr.values (fr.act program limits).invoke table es

/-- Doing one thing takes doing another. -/
inductive Leads : Moment → Moment → Prop
  | operand {fr : Frame} {t : Table} {e a : Expr} {before after : List Expr} {bs : List Binding}
      (he : e.operands = before ++ a :: after) (hb : fr.values program limits t before = .ok bs) :
      Leads ⟨fr, t, .eval e⟩ ⟨fr, t, .eval a⟩
  | call {q p : Procedure} {room depth : Nat} {t : Table} {m : Mark} {ty : Tag} {f : Name}
      {sig : Prototype} {args : List Expr} {actuals : List Binding}
      (ha : Frame.values program limits ⟨p, room + 1, depth⟩ t args = .ok actuals)
      (hq : program.find? f = some q) :
      Leads ⟨⟨p, room + 1, depth⟩, t, .eval (.call m ty f sig args)⟩
        ⟨⟨q, room, depth + 1⟩, Table.empty, .run actuals⟩
  | body {fr : Frame} {t : Table} {actuals : List Binding} :
      Leads ⟨fr, t, .run actuals⟩
        ⟨fr, Procedure.bind fr.procedure.formals actuals t, .block fr.procedure.body⟩
  | first {fr : Frame} {t : Table} {s : Stmt} {rest : List Stmt} :
      Leads ⟨fr, t, .block (s :: rest)⟩ ⟨fr, t, .exec s⟩
  | next {fr : Frame} {t t' : Table} {s : Stmt} {rest : List Stmt}
      (hs : s.ending (fr.act program limits) t = (.ok .next, t')) :
      Leads ⟨fr, t, .block (s :: rest)⟩ ⟨fr, t', .block rest⟩
  | value {fr : Frame} {t : Table} {s : Stmt} {e : Expr} (hs : s.first = some e) :
      Leads ⟨fr, t, .exec s⟩ ⟨fr, t, .eval e⟩
  | branch {fr : Frame} {t : Table} {s : Stmt} {c : Expr} {b : Binding} {body : List Stmt}
      (hs : s.first = some c) (hc : fr.value program limits t c = .ok b)
      (hb : s.branch b = some body) : Leads ⟨fr, t, .exec s⟩ ⟨fr, t, .block body⟩
  | enter {fr : Frame} {t : Table} {m m' : Mark} {c : Expr} {body : List Stmt} :
      Leads ⟨fr, t, .exec (.whileDo m c m' body)⟩ ⟨fr, t, .loop m c body limits.rounds⟩
  | test {fr : Frame} {t : Table} {m : Mark} {c : Expr} {body : List Stmt} {n : Nat} :
      Leads ⟨fr, t, .loop m c body (n + 1)⟩ ⟨fr, t, .eval c⟩
  | round {fr : Frame} {t : Table} {m : Mark} {c : Expr} {body : List Stmt} {n : Nat} {b : Binding}
      (hc : fr.value program limits t c = .ok b) (hb : b.truthy = true) :
      Leads ⟨fr, t, .loop m c body (n + 1)⟩ ⟨fr, t, .block body⟩
  | again {fr : Frame} {t t' : Table} {m : Mark} {c : Expr} {body : List Stmt} {n : Nat}
      {b : Binding} (hc : fr.value program limits t c = .ok b) (hb : b.truthy = true)
      (hbody : Stmt.endingAll (fr.act program limits) t body = (.ok .next, t')) :
      Leads ⟨fr, t, .loop m c body (n + 1)⟩ ⟨fr, t', .loop m c body n⟩

/-- Doing one thing takes doing another, however far inside. -/
inductive LeadsTo (m : Moment) : Moment → Prop
  | refl : LeadsTo m m
  | tail {m' m'' : Moment} (h : LeadsTo m m') (hl : Leads program limits m' m'') : LeadsTo m m''

/-- The moments of a run of MAIN on a list of actuals. -/
def Reached (actuals : List Binding) (m : Moment) : Prop :=
  ∃ main room, program.find? entryPoint = some main ∧ limits.activations = room + 1 ∧
    LeadsTo program limits ⟨⟨main, room, 1⟩, Table.empty, .run actuals⟩ m

/-- The failure that a computation ended with. -/
def failureOf {α : Type} : Except Failure α → Option Failure
  | .ok _ => none
  | .error f => some f

/-- How a moment fails. -/
def Moment.failure (m : Moment) : Option Failure :=
  match m.task with
  | .eval e => failureOf (m.frame.value program limits m.table e)
  | .exec s => failureOf (s.ending (m.frame.act program limits) m.table).1
  | .block ss => failureOf (Stmt.endingAll (m.frame.act program limits) m.table ss).1
  | .loop mark c body n =>
    failureOf (Stmt.endingLoop (m.frame.act program limits) m.table mark c body n).1
  | .run actuals =>
    failureOf (m.frame.procedure.ending (m.frame.act program limits) actuals m.table).1

/-- A moment fails by itself, with everything that it has taken so far well done. -/
inductive Raises : Moment → Failure → Prop
  | unassigned {fr : Frame} {t : Table} {v : Variable}
      (h : ∀ b, t.lookup v.name = some b → b.value = none) :
      Raises ⟨fr, t, .eval (.var v)⟩ (.fault (.unassigned v.name))
  | arith {fr : Frame} {t : Table} {m : Mark} {ty : Tag} {op : Operator} {l r : Expr}
      {a b : Binding} {reason : Undefined} (hl : fr.value program limits t l = .ok a)
      (hr : fr.value program limits t r = .ok b)
      (h : (do op.arithmetic (← Expr.operand a) (← Expr.operand b)) = .error reason) :
      Raises ⟨fr, t, .eval (.arith m ty op l r)⟩ (.undefined reason)
  | compare {fr : Frame} {t : Table} {m : Mark} {ty : Tag} {op : Operator} {l r : Expr}
      {a b : Binding} {reason : Undefined} (hl : fr.value program limits t l = .ok a)
      (hr : fr.value program limits t r = .ok b)
      (h : (do op.compare (← Expr.operand a) (← Expr.operand b)) = .error reason) :
      Raises ⟨fr, t, .eval (.compare m ty op l r)⟩ (.undefined reason)
  | sign {fr : Frame} {t : Table} {m : Mark} {ty : Tag} {op : Operator} {e : Expr} {a : Binding}
      {reason : Undefined} (he : fr.value program limits t e = .ok a)
      (h : (do op.signed (← Expr.operand a)) = .error reason) :
      Raises ⟨fr, t, .eval (.sign m ty op e)⟩ (.undefined reason)
  | print {fr : Frame} {t : Table} {m : Mark} {e : Expr} {b : Binding} {reason : Undefined}
      (he : fr.value program limits t e = .ok b)
      (h : PrintEvent.ofBinding b = .error reason) :
      Raises ⟨fr, t, .exec (.print m e)⟩ (.undefined reason)
  | noValue {fr : Frame} {t : Table} {m : Mark} {ty : Tag} {f : Name} {sig : Prototype}
      {args : List Expr} {actuals : List Binding}
      (ha : fr.values program limits t args = .ok actuals)
      (h : valueOf ((fr.act program limits).invoke f actuals) = .ok none) :
      Raises ⟨fr, t, .eval (.call m ty f sig args)⟩ (.fault (.noReturnValue f))
  | exhausted {p q : Procedure} {depth : Nat} {t : Table} {m : Mark} {ty : Tag} {f : Name}
      {sig : Prototype} {args : List Expr} {actuals : List Binding}
      (ha : Frame.values program limits ⟨p, 0, depth⟩ t args = .ok actuals)
      (hq : program.find? f = some q) :
      Raises ⟨⟨p, 0, depth⟩, t, .eval (.call m ty f sig args)⟩ (.fault .stackExhausted)
  | unknown {fr : Frame} {t : Table} {m : Mark} {ty : Tag} {f : Name} {sig : Prototype}
      {args : List Expr} {actuals : List Binding}
      (ha : fr.values program limits t args = .ok actuals) (hq : program.find? f = none) :
      Raises ⟨fr, t, .eval (.call m ty f sig args)⟩ (.unknownProcedure f)
  | outOfRounds {fr : Frame} {t : Table} {m : Mark} {c : Expr} {body : List Stmt} :
      Raises ⟨fr, t, .loop m c body 0⟩ .outOfRounds

end Moments

variable {program : Program} {limits : Limits}

/-! ## How failures travel -/

theorem failureOf_eq_some {α : Type} {x : Except Failure α} {f : Failure} :
    failureOf x = some f ↔ x = .error f := by
  cases x <;> simp [failureOf]

namespace Expr

variable {invoke : Invoke} {table : Table} {f : Failure} {l r e : Expr} {es : List Expr}

theorem values_cons_ok {bs : List Binding} : values invoke table (e :: es) = .ok bs ↔
    ∃ b cs, e.value invoke table = .ok b ∧ values invoke table es = .ok cs ∧ bs = b :: cs := by
  rw [values_cons]
  cases e.value invoke table with
  | error f => simp [Bind.bind, Except.bind]
  | ok b =>
    cases values invoke table es with
    | error f => simp [Bind.bind, Except.bind]
    | ok cs => simp [Bind.bind, Except.bind, Pure.pure, Except.pure, eq_comm]

theorem values_pair_ok {bs : List Binding} (h : values invoke table [l, r] = .ok bs) :
    ∃ a b, l.value invoke table = .ok a ∧ r.value invoke table = .ok b := by
  obtain ⟨a, _, hl, hrest, _⟩ := values_cons_ok.mp h
  obtain ⟨b, _, hr, _, _⟩ := values_cons_ok.mp hrest
  exact ⟨a, b, hl, hr⟩

theorem values_cons_error : values invoke table (e :: es) = .error f ↔
    e.value invoke table = .error f ∨
      (∃ b, e.value invoke table = .ok b) ∧ values invoke table es = .error f := by
  rw [values_cons]
  cases e.value invoke table with
  | error g => simp [Bind.bind, Except.bind]
  | ok b =>
    cases values invoke table es with
    | error g => simp [Bind.bind, Except.bind]
    | ok cs => simp [Bind.bind, Except.bind, Pure.pure, Except.pure]

theorem values_nil : values invoke table [] = .ok [] := rfl

/-- A list of expressions fails with the first of them that does. -/
theorem values_error : ∀ {es : List Expr}, values invoke table es = .error f ↔
    ∃ before a after bs, es = before ++ a :: after ∧ values invoke table before = .ok bs ∧
      a.value invoke table = .error f
  | [] => by simp [values_nil]
  | e :: es => by
    rw [values_cons_error, values_error]
    constructor
    · rintro (he | ⟨⟨b, hb⟩, before, a, after, bs, rfl, hbs, ha⟩)
      · exact ⟨[], e, es, [], rfl, values_nil, he⟩
      · exact ⟨e :: before, a, after, b :: bs, rfl, values_cons_ok.mpr ⟨b, bs, hb, hbs, rfl⟩, ha⟩
    · rintro ⟨_ | ⟨e', before⟩, a, after, bs, hes, hbs, ha⟩
      · obtain ⟨rfl, rfl⟩ := List.cons.inj hes
        exact .inl ha
      · obtain ⟨rfl, rfl⟩ := List.cons.inj hes
        obtain ⟨b, cs, hb, hcs, _⟩ := values_cons_ok.mp hbs
        exact .inr ⟨⟨b, hb⟩, before, a, after, cs, rfl, hcs, ha⟩

/-- An expression fails with its first operand that does. -/
theorem value_of_operands (h : values invoke table e.operands = .error f) :
    e.value invoke table = .error f := by
  cases e with
  | number | truth | text | var => simp [operands, values_nil] at h
  | arith m t op l r =>
    rw [value_arith]
    rcases values_cons_error.mp h with hl | ⟨⟨a, hl⟩, h⟩
    · rw [hl]
      rfl
    · rcases values_cons_error.mp h with hr | ⟨_, h⟩
      · rw [hl, hr]
        rfl
      · cases h
  | compare m t op l r =>
    rw [value_compare]
    rcases values_cons_error.mp h with hl | ⟨⟨a, hl⟩, h⟩
    · rw [hl]
      rfl
    · rcases values_cons_error.mp h with hr | ⟨_, h⟩
      · rw [hl, hr]
        rfl
      · cases h
  | logic m t op l r =>
    rw [value_logic]
    rcases values_cons_error.mp h with hl | ⟨⟨a, hl⟩, h⟩
    · rw [hl]
      rfl
    · rcases values_cons_error.mp h with hr | ⟨_, h⟩
      · rw [hl, hr]
        rfl
      · cases h
  | not m t e =>
    rw [value_not]
    rcases values_cons_error.mp h with he | ⟨_, h⟩
    · rw [he]
      rfl
    · cases h
  | sign m t op e =>
    rw [value_sign]
    rcases values_cons_error.mp h with he | ⟨_, h⟩
    · rw [he]
      rfl
    · cases h
  | call m t g p args =>
    have h : values invoke table args = .error f := h
    rw [value_call, h]
    rfl

end Expr

theorem find?_spec {f : Name} {q : Procedure} (h : program.find? f = some q) :
    q ∈ program.procedures ∧ q.name = f := by
  unfold Program.find? at h
  rw [List.findRev?_eq_find?_reverse] at h
  exact ⟨List.mem_reverse.mp (List.mem_of_find?_eq_some h), by simpa using List.find?_some h⟩

/-- A call in a frame ends in what the function ends in. -/
theorem Frame.invoke_eq {p q : Procedure} {room depth : Nat} {f : Name} {actuals : List Binding}
    (hq : program.find? f = some q) :
    valueOf ((Frame.act program limits ⟨p, room + 1, depth⟩).invoke f actuals) =
      (q.ending (Frame.act program limits ⟨q, room, depth + 1⟩) actuals Table.empty).1 := by
  rw [Frame.act, Program.invoke_succ hq, Frame.act, (find?_spec hq).2]

theorem exists_end {α : Type} {x : Except Failure α × Table} {f : Failure}
    (h : x.1 = .error f) : ∃ t, x = (.error f, t) := ⟨x.2, Prod.ext h rfl⟩

/-- **A failure is passed on**: whatever takes a task that fails, fails the same way. -/
theorem failure_of_leads {m m' : Moment} {f : Failure} (h : Leads program limits m m')
    (hf : m'.failure program limits = some f) : m.failure program limits = some f := by
  cases h with
  | operand he hb =>
    rw [Moment.failure, failureOf_eq_some] at hf ⊢
    refine Expr.value_of_operands ?_
    rw [he]
    exact Expr.values_error.mpr ⟨_, _, _, _, rfl, hb, hf⟩
  | call ha hq =>
    rw [Moment.failure, failureOf_eq_some] at hf ⊢
    rw [← Frame.invoke_eq hq] at hf
    rw [Frame.value, Expr.value_call]
    rw [Frame.values] at ha
    rw [ha]
    show (valueOf _ >>= _) = _
    rw [hf]
    rfl
  | body =>
    rw [Moment.failure, failureOf_eq_some] at hf ⊢
    obtain ⟨t', ht⟩ := exists_end hf
    rw [Procedure.ending_eq, ht]
  | first =>
    rw [Moment.failure, failureOf_eq_some] at hf ⊢
    obtain ⟨t', ht⟩ := exists_end hf
    rw [Stmt.endingAll_cons, ht]
  | next hs =>
    rw [Moment.failure, failureOf_eq_some] at hf ⊢
    rw [Stmt.endingAll_cons]
    dsimp only at hf ⊢
    rw [hs]
    exact hf
  | @value fr t s e hs =>
    rw [Moment.failure, failureOf_eq_some] at hf ⊢
    dsimp only at hf ⊢
    rw [Frame.value] at hf
    cases s <;> cases hs
    · rw [Stmt.ending_print, hf]
    · rw [Stmt.ending_assign, hf]
    · rw [Stmt.ending_ifThen, hf]
    · rw [Stmt.ending_ifElse, hf]
    · rw [Stmt.ending_ret, hf]
  | @branch fr t s c b body hs hc hb =>
    rw [Moment.failure, failureOf_eq_some] at hf ⊢
    dsimp only at hf ⊢
    rw [Frame.value] at hc
    cases s <;> cases hs
    · cases hb
    · cases hb
    · rw [Stmt.ending_ifThen, hc]
      simp only [Stmt.branch, Option.ite_none_right_eq_some, Option.some.injEq] at hb
      obtain ⟨hb, rfl⟩ := hb
      simp only [hb, if_true]
      exact hf
    · rw [Stmt.ending_ifElse, hc]
      simp only [Stmt.branch, Option.some.injEq] at hb
      subst hb
      dsimp only
      split
      · rename_i hb
        simpa [hb] using hf
      · rename_i hb
        simpa [hb] using hf
    · cases hb
  | enter =>
    rw [Moment.failure, failureOf_eq_some] at hf ⊢
    rw [Stmt.ending_whileDo]
    exact hf
  | test =>
    rw [Moment.failure, failureOf_eq_some] at hf ⊢
    dsimp only at hf ⊢
    rw [Frame.value] at hf
    rw [Stmt.endingLoop_succ, hf]
  | round hc hb =>
    rw [Moment.failure, failureOf_eq_some] at hf ⊢
    dsimp only at hf ⊢
    rw [Frame.value] at hc
    rw [Stmt.endingLoop_succ, hc]
    obtain ⟨t', ht⟩ := exists_end hf
    simp only [hb, if_true, ht]
  | again hc hb hbody =>
    rw [Moment.failure, failureOf_eq_some] at hf ⊢
    dsimp only at hf ⊢
    rw [Frame.value] at hc
    rw [Stmt.endingLoop_succ, hc]
    simp only [hb, if_true, hbody]
    exact hf

theorem failure_of_leadsTo {m m' : Moment} {f : Failure} (h : LeadsTo program limits m m')
    (hf : m'.failure program limits = some f) : m.failure program limits = some f := by
  induction h with
  | refl => exact hf
  | tail _ hl ih => exact ih (failure_of_leads hl hf)

theorem read_error {table : Table} {name : Name} {f : Failure} :
    valueOf (Expr.read table name) = .error f ↔
      f = .fault (.unassigned name) ∧ ∀ b, table.lookup name = some b → b.value = none := by
  unfold Expr.read
  split
  · rename_i n t p h
    simp [valueOf_pure, h]
  · rename_i h
    rw [valueOf_throw, Except.error.injEq, eq_comm]
    refine (and_iff_left ?_).symm
    rintro ⟨n, t, _ | p⟩ hb
    · rfl
    · exact absurd hb (h n t p)

/-- What is raised is how the moment fails. -/
theorem failure_of_raises {m : Moment} {f : Failure} (h : Raises program limits m f) :
    m.failure program limits = some f := by
  cases h with
  | unassigned h =>
    rw [Moment.failure, failureOf_eq_some]
    exact read_error.mpr ⟨rfl, h⟩
  | arith hl hr h =>
    rw [Moment.failure, failureOf_eq_some, Frame.value, Expr.value_arith_ok hl hr, h]
  | compare hl hr h =>
    rw [Moment.failure, failureOf_eq_some, Frame.value, Expr.value_compare_ok hl hr, h]
  | sign he h =>
    rw [Moment.failure, failureOf_eq_some, Frame.value, Expr.value_sign_ok he, h]
  | @print fr t m e b reason he h =>
    rw [Moment.failure, failureOf_eq_some]
    dsimp only
    rw [Stmt.ending_print, show e.value (fr.act program limits).invoke t = .ok b from he]
    dsimp only
    rw [show PrintEvent.ofBinding b = .error reason from h]
  | noValue ha h =>
    rw [Moment.failure, failureOf_eq_some, Frame.value, Expr.value_call_ok ha, h]
  | exhausted ha hq =>
    rw [Moment.failure, failureOf_eq_some, Frame.value, Expr.value_call_ok ha, Frame.act,
      Program.invoke_zero hq]
  | unknown ha hq =>
    rw [Moment.failure, failureOf_eq_some, Frame.value, Expr.value_call_ok ha, Frame.act,
      Program.invoke_unknown hq]
  | outOfRounds => rfl

/-! ## Where failures come from -/

section Origin

variable {fr : Frame} {t : Table} {f : Failure}

/-- An expression fails by itself, or it takes something that fails. -/
theorem eval_fails {e : Expr} (h : fr.value program limits t e = .error f) :
    Raises program limits ⟨fr, t, .eval e⟩ f ∨
      ∃ m', Leads program limits ⟨fr, t, .eval e⟩ m' ∧ m'.failure program limits = some f := by
  rcases hops : fr.values program limits t e.operands with g | bs
  · -- an operand fails, and the expression with it
    have hg : fr.value program limits t e = .error g := Expr.value_of_operands hops
    rw [h] at hg
    cases hg
    obtain ⟨before, a, after, bs, he, hb, ha⟩ := Expr.values_error.mp hops
    exact .inr ⟨_, .operand he hb, failureOf_eq_some.mpr ha⟩
  · cases e with
    | number | truth | text => cases h
    | var v =>
      obtain ⟨rfl, hv⟩ := read_error.mp h
      exact .inl (.unassigned hv)
    | arith m ty op l r =>
      obtain ⟨a, b, hl, hr⟩ := Expr.values_pair_ok hops
      rw [Frame.value, Expr.value_arith_ok hl hr] at h
      split at h
      · cases h
      · rename_i reason hop
        cases h
        exact .inl (.arith hl hr hop)
    | compare m ty op l r =>
      obtain ⟨a, b, hl, hr⟩ := Expr.values_pair_ok hops
      rw [Frame.value, Expr.value_compare_ok hl hr] at h
      split at h
      · cases h
      · rename_i reason hop
        cases h
        exact .inl (.compare hl hr hop)
    | logic m ty op l r =>
      obtain ⟨a, b, hl, hr⟩ := Expr.values_pair_ok hops
      rw [Frame.value, Expr.value_logic_ok hl hr] at h
      cases h
    | not m ty e =>
      obtain ⟨a, _, he, _, rfl⟩ := Expr.values_cons_ok.mp hops
      rw [Frame.value, Expr.value_not_ok he] at h
      cases h
    | sign m ty op e =>
      obtain ⟨a, _, he, _, rfl⟩ := Expr.values_cons_ok.mp hops
      rw [Frame.value, Expr.value_sign_ok he] at h
      split at h
      · cases h
      · rename_i reason hop
        cases h
        exact .inl (.sign he hop)
    | call m ty g sig args =>
      have hargs : fr.values program limits t args = .ok bs := hops
      rw [Frame.value, Expr.value_call_ok hargs] at h
      cases hq : program.find? g with
      | none =>
        rw [Frame.act, Program.invoke_unknown hq] at h
        cases h
        exact .inl (.unknown hargs hq)
      | some q =>
        obtain ⟨p, _ | room, depth⟩ := fr
        · rw [Frame.act, Program.invoke_zero hq] at h
          cases h
          exact .inl (.exhausted hargs hq)
        · split at h
          · cases h
          · rename_i hnone
            cases h
            exact .inl (.noValue hargs hnone)
          · rename_i failure hfail
            cases h
            rw [Frame.invoke_eq hq] at hfail
            exact .inr ⟨_, .call hargs hq, failureOf_eq_some.mpr hfail⟩

/-- A statement fails by itself, or it takes something that fails. -/
theorem exec_fails {s : Stmt} (h : (s.ending (fr.act program limits) t).1 = .error f) :
    Raises program limits ⟨fr, t, .exec s⟩ f ∨
      ∃ m', Leads program limits ⟨fr, t, .exec s⟩ m' ∧ m'.failure program limits = some f := by
  -- either the first expression fails, or it has a value that the statement goes on with
  have hvalue : ∀ e, s.first = some e → fr.value program limits t e = .error f →
      ∃ m', Leads program limits ⟨fr, t, .exec s⟩ m' ∧ m'.failure program limits = some f :=
    fun e hs he => ⟨_, .value hs, failureOf_eq_some.mpr he⟩
  have hbranch : ∀ c b body, s.first = some c → fr.value program limits t c = .ok b →
      s.branch b = some body →
      (Stmt.endingAll (fr.act program limits) t body).1 = .error f →
      ∃ m', Leads program limits ⟨fr, t, .exec s⟩ m' ∧ m'.failure program limits = some f :=
    fun c b body hs hc hb hf => ⟨_, .branch hs hc hb, failureOf_eq_some.mpr hf⟩
  cases s with
  | print m e =>
    rw [Stmt.ending_print] at h
    split at h
    · rename_i g he
      cases h
      exact .inr (hvalue e rfl he)
    · rename_i b he
      split at h
      · rename_i reason hp
        cases h
        exact .inl (.print he hp)
      · cases h
  | declare m b => cases h
  | assign m v e =>
    rw [Stmt.ending_assign] at h
    split at h
    · rename_i g he
      cases h
      exact .inr (hvalue e rfl he)
    · cases h
  | ifThen m c m' body =>
    rw [Stmt.ending_ifThen] at h
    split at h
    · rename_i g hc
      cases h
      exact .inr (hvalue c rfl hc)
    · rename_i b hc
      split at h
      · rename_i hb
        exact .inr (hbranch c b body rfl hc (by simp [Stmt.branch, hb]) h)
      · cases h
  | ifElse m c m' body m'' other =>
    rw [Stmt.ending_ifElse] at h
    split at h
    · rename_i g hc
      cases h
      exact .inr (hvalue c rfl hc)
    · rename_i b hc
      split at h
      · rename_i hb
        exact .inr (hbranch c b body rfl hc (by simp [Stmt.branch, hb]) h)
      · rename_i hb
        exact .inr (hbranch c b other rfl hc (by simp [Stmt.branch, hb]) h)
  | whileDo m c m' body =>
    rw [Stmt.ending_whileDo] at h
    exact .inr ⟨_, .enter, failureOf_eq_some.mpr h⟩
  | ret m value ty =>
    cases value with
    | none => cases h
    | some e =>
      rw [Stmt.ending_ret] at h
      split at h
      · rename_i g he
        cases h
        exact .inr (hvalue e rfl he)
      · cases h

/-- A moment fails by itself, or it takes something that fails. -/
theorem moment_fails {m : Moment} (h : m.failure program limits = some f) :
    Raises program limits m f ∨
      ∃ m', Leads program limits m m' ∧ m'.failure program limits = some f := by
  obtain ⟨fr, t, task⟩ := m
  rw [Moment.failure] at h
  cases task with
  | eval e => exact eval_fails (failureOf_eq_some.mp h)
  | exec s => exact exec_fails (failureOf_eq_some.mp h)
  | block ss =>
    have h := failureOf_eq_some.mp h
    cases ss with
    | nil => cases h
    | cons s rest =>
      dsimp only at h
      rw [Stmt.endingAll_cons] at h
      split at h
      · rename_i t' hs
        exact .inr ⟨_, .next hs, failureOf_eq_some.mpr h⟩
      · cases h
      · rename_i g t' hs
        cases h
        exact .inr ⟨_, .first, failureOf_eq_some.mpr (by dsimp only; rw [hs])⟩
  | loop mark c body n =>
    have h := failureOf_eq_some.mp h
    cases n with
    | zero =>
      cases h
      exact .inl .outOfRounds
    | succ n =>
      dsimp only at h
      rw [Stmt.endingLoop_succ] at h
      split at h
      · rename_i g hc
        cases h
        exact .inr ⟨_, .test, failureOf_eq_some.mpr hc⟩
      · rename_i b hc
        split at h
        · rename_i hb
          split at h
          · rename_i t' hbody
            exact .inr ⟨_, .again hc hb hbody, failureOf_eq_some.mpr h⟩
          · cases h
          · rename_i g t' hbody
            cases h
            exact .inr ⟨_, .round hc hb, failureOf_eq_some.mpr (by dsimp only; rw [hbody])⟩
        · cases h
  | run actuals =>
    have h := failureOf_eq_some.mp h
    dsimp only at h
    rw [Procedure.ending_eq] at h
    split at h
    · cases h
    · cases h
    · rename_i g t' hbody
      cases h
      exact .inr ⟨_, .body, failureOf_eq_some.mpr (by dsimp only; rw [hbody])⟩

end Origin

/-! ## Every task is smaller than the one that takes it -/

/-- The size of a task: whether it starts an activation, the size of its text, the rounds left. -/
noncomputable def Task.size : Task → Nat × Nat × Nat
  | .eval e => (0, sizeOf e, 0)
  | .exec s => (0, sizeOf s, 0)
  | .block ss => (0, sizeOf ss, 0)
  | .loop _ c body n => (0, 1 + sizeOf c + sizeOf body, n)
  | .run _ => (1, 0, 0)

/-- The size of a moment: first of all the activations that are left. -/
noncomputable def Moment.size (m : Moment) : Nat × Nat × Nat × Nat := (m.frame.room, m.task.size)

theorem sizeOf_operand {e a : Expr} (h : a ∈ e.operands) : sizeOf a < sizeOf e := by
  cases e with
  | number | truth | text | var => cases h
  | arith | compare | logic =>
    simp only [Expr.operands, List.mem_cons, List.not_mem_nil, or_false] at h
    rcases h with rfl | rfl <;>
      simp only [Expr.arith.sizeOf_spec, Expr.compare.sizeOf_spec, Expr.logic.sizeOf_spec] <;> omega
  | not | sign =>
    simp only [Expr.operands, List.mem_cons, List.not_mem_nil, or_false] at h
    subst h
    simp only [Expr.not.sizeOf_spec, Expr.sign.sizeOf_spec]
    omega
  | call m t f p args =>
    have : sizeOf a < sizeOf args := List.sizeOf_lt_of_mem h
    simp only [Expr.call.sizeOf_spec]
    omega

theorem size_of_leads {m m' : Moment} (h : Leads program limits m m') :
    WellFoundedRelation.rel m'.size m.size := by
  have hsame : ∀ {room : Nat} {x y : Nat × Nat × Nat}, WellFoundedRelation.rel x y →
      WellFoundedRelation.rel (room, x) (room, y) := fun h => .right _ h
  have htext : ∀ {a b k n : Nat}, a < b → (WellFoundedRelation.rel (0, a, k) (0, b, n) : Prop) :=
    fun h => .right _ (.left _ _ h)
  cases h with
  | operand he _ => exact hsame (htext (sizeOf_operand (by simp [he])))
  | call _ _ => exact .left _ _ (Nat.lt_succ_self _)
  | body => exact hsame (.left _ _ Nat.zero_lt_one)
  | first =>
    refine hsame (htext ?_)
    simp only [List.cons.sizeOf_spec]
    omega
  | next _ =>
    refine hsame (htext ?_)
    simp only [List.cons.sizeOf_spec]
    omega
  | @value _ _ s e hs =>
    refine hsame (htext ?_)
    cases s <;> cases hs <;>
      simp only [Stmt.print.sizeOf_spec, Stmt.assign.sizeOf_spec, Stmt.ifThen.sizeOf_spec,
        Stmt.ifElse.sizeOf_spec, Stmt.ret.sizeOf_spec, Option.some.sizeOf_spec] <;> omega
  | @branch _ _ s c b body hs _ hb =>
    refine hsame (htext ?_)
    cases s <;> cases hs <;> simp only [Stmt.branch, reduceCtorEq] at hb
    · split at hb <;> cases hb
      simp only [Stmt.ifThen.sizeOf_spec]
      omega
    · cases hb
      simp only [Stmt.ifElse.sizeOf_spec]
      split <;> omega
  | @enter _ _ m _ _ _ =>
    refine hsame (htext ?_)
    cases m
    simp only [Stmt.whileDo.sizeOf_spec, Mark.mk.sizeOf_spec]
    omega
  | test => exact hsame (htext (by omega))
  | round _ _ => exact hsame (htext (by omega))
  | again _ _ _ => exact hsame (.right _ (.right _ (Nat.lt_succ_self _)))

theorem LeadsTo.head {m m' m'' : Moment} (h : Leads program limits m m')
    (ht : LeadsTo program limits m' m'') : LeadsTo program limits m m'' := by
  induction ht with
  | refl => exact .tail .refl h
  | tail _ hl ih => exact .tail ih hl

theorem raised_of_failure {f : Failure} (m : Moment) (h : m.failure program limits = some f) :
    ∃ m', LeadsTo program limits m m' ∧ Raises program limits m' f := by
  rcases moment_fails h with hr | ⟨m', hl, hf⟩
  · exact ⟨m, .refl, hr⟩
  · obtain ⟨m'', ht, hr⟩ := raised_of_failure m' hf
    exact ⟨m'', ht.head hl, hr⟩
termination_by m.size
decreasing_by exact size_of_leads hl

/-- **A task fails exactly with what is raised by one of the tasks that it takes.** -/
theorem fails_iff {m : Moment} {f : Failure} : m.failure program limits = some f ↔
    ∃ m', LeadsTo program limits m m' ∧ Raises program limits m' f :=
  ⟨raised_of_failure m, fun ⟨_, ht, hr⟩ => failure_of_leadsTo ht (failure_of_raises hr)⟩

/-! ## Whole runs -/

/-- A run ends in what MAIN ends in, on a stack that has room for it. -/
theorem run_eq {main : Procedure} {room : Nat} (hmain : program.find? entryPoint = some main)
    (hroom : limits.activations = room + 1) (actuals : List Binding) :
    (program.run limits actuals).value =
      main.ending (Frame.act program limits ⟨main, room, 1⟩) actuals Table.empty := by
  unfold Program.run
  rw [hmain, hroom]
  rw [Frame.act, (find?_spec hmain).2]
  rfl

/-- **A run fails exactly with what is raised at one of its moments**, or because its stack has no
room for MAIN. -/
theorem run_fails_iff {actuals : List Binding} {f : Failure} :
    (program.run limits actuals).value.1 = .error f ↔
      (limits.activations = 0 ∧ (program.find? entryPoint).isSome ∧
        f = .fault .stackExhausted) ∨
      ∃ m, Reached program limits actuals m ∧ Raises program limits m f := by
  cases hmain : program.find? entryPoint with
  | none =>
    unfold Program.run
    rw [hmain]
    simp [Trace.value, Reached, hmain]
  | some main =>
    cases hroom : limits.activations with
    | zero =>
      unfold Program.run
      rw [hmain, hroom]
      simp [Trace.value, Reached, hroom, eq_comm]
    | succ room =>
      rw [run_eq hmain hroom, ← failureOf_eq_some]
      have h := @fails_iff program limits ⟨⟨main, room, 1⟩, Table.empty, .run actuals⟩ f
      rw [Moment.failure] at h
      rw [h]
      constructor
      · rintro ⟨m, hto, hr⟩
        exact .inr ⟨m, ⟨main, room, hmain, hroom, hto⟩, hr⟩
      · rintro (⟨h, _⟩ | ⟨m, ⟨main', room', hmain', hroom', hto⟩, hr⟩)
        · cases h
        · rw [hmain] at hmain'
          rw [hroom] at hroom'
          cases hmain'
          cases hroom'
          exact ⟨m, hto, hr⟩

end Slang
