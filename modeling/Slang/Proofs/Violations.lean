import Slang.Proofs.WellTyped

/-!
# The rule that a wrong expression breaks

The checker stops at the first rule that an expression breaks.  Which rule is the first is a matter
of the tree alone, and whether a rule is broken a matter of the declared types.

* `Rule` — a name has to be declared, operands have to suit their operator, a call has to have the
  right number of arguments, and an argument has to have the type of its formal.
* `Expr.rules` — the rules of a tree in the order in which they count.
* `Rule.Obeyed`, `Rule.Violated` — the declared types obey a rule, or violate it with an error.
* `FirstViolated` — of a list of rules one is violated, and all before it are obeyed.

Principal result: `check_first_violation` — the checker gives an expression the type that it has,
and records on every node the type of the node; an expression without a type it rejects with the
error of the first rule that is violated.
-/

set_option autoImplicit false

namespace Slang

/-- What a tree has to obey at one place. -/
inductive Rule where
  | declared (v : Variable)
  | operands (node : Expr)
  | count (mark : Mark) (callee : Name) (prototype : Prototype) (given : Nat)
  | argument (index : Nat) (callee : Name) (formal : Tag) (arg : Expr)

namespace Expr

mutual

/-- The rules of a tree in order: those of the operands from left to right, then that of their
operator; the number of arguments first, then the arguments. -/
def rules : Expr → List Rule
  | number .. | truth .. | text .. => []
  | var v => [.declared v]
  | arith m t op l r => rules l ++ rules r ++ [.operands (arith m t op l r)]
  | compare m t op l r => rules l ++ rules r ++ [.operands (compare m t op l r)]
  | logic m t op l r => rules l ++ rules r ++ [.operands (logic m t op l r)]
  | not m t e => rules e ++ [.operands (not m t e)]
  | sign m t op e => rules e ++ [.operands (sign m t op e)]
  | call m _ f p args => .count m f p args.length :: argumentRules f 1 args p.formals

/-- The rules of the arguments of a call: those of each argument, followed at once by the comparison
with its formal. -/
def argumentRules (callee : Name) (index : Nat) : List Expr → List Tag → List Rule
  | arg :: args, formal :: formals =>
    rules arg ++ .argument index callee formal arg :: argumentRules callee (index + 1) args formals
  | _, _ => []

end

end Expr

variable {Γ : Types}

namespace Rule

/-- The declared types obey a rule. -/
def Obeyed (Γ : Types) : Rule → Prop
  | declared v => ∃ T, Γ v.name = some T
  | operands node => ∃ T, HasType Γ node T
  | count _ _ p given => given = p.formals.length
  | argument _ _ formal arg => HasType Γ arg formal

/-- The declared types violate a rule, with this error.  The types of the operands are known by the
time that their operator counts. -/
inductive Violated (Γ : Types) : Rule → CompileError → Prop
  | undeclared {v : Variable} (h : Γ v.name = none) :
      Violated Γ (.declared v) ⟨.undefinedSymbol v.name, v.mark.pos⟩
  | differ {m : Mark} {t T U : Tag} {op : Operator} {l r : Expr} (hl : HasType Γ l T)
      (hr : HasType Γ r U) (h : T ≠ U) :
      Violated Γ (.operands (.arith m t op l r)) ⟨.operandsDiffer op T U, m.pos⟩
  | notAddable {m : Mark} {t T : Tag} {l r : Expr} (hl : HasType Γ l T) (hr : HasType Γ r T)
      (hn : T ≠ some .numeric) (hs : T ≠ some .string) :
      Violated Γ (.operands (.arith m t .add l r)) ⟨.notAddable T, m.pos⟩
  | notArithmetic {m : Mark} {t T : Tag} {op : Operator} {l r : Expr} (hl : HasType Γ l T)
      (hr : HasType Γ r T) (hop : op ≠ .add) (hn : T ≠ some .numeric) :
      Violated Γ (.operands (.arith m t op l r)) ⟨.notArithmetic op T, m.pos⟩
  | incomparable {m : Mark} {t T U : Tag} {op : Operator} {l r : Expr} (hl : HasType Γ l T)
      (hr : HasType Γ r U) (h : T ≠ U) :
      Violated Γ (.operands (.compare m t op l r)) ⟨.incomparable op T U, m.pos⟩
  | unordered {m : Mark} {t T : Tag} {op : Operator} {l r : Expr} (hl : HasType Γ l T)
      (hr : HasType Γ r T) (heq : op ≠ .eq) (hne : op ≠ .ne) (hn : T ≠ some .numeric) :
      Violated Γ (.operands (.compare m t op l r)) ⟨.unordered T, m.pos⟩
  | notLogical {m : Mark} {t T U : Tag} {op : Operator} {l r : Expr} (hl : HasType Γ l T)
      (hr : HasType Γ r U) (h : ¬ (T = some .boolean ∧ U = some .boolean)) :
      Violated Γ (.operands (.logic m t op l r)) ⟨.notLogical op T U, m.pos⟩
  | notNegatable {m : Mark} {t T : Tag} {e : Expr} (he : HasType Γ e T) (h : T ≠ some .boolean) :
      Violated Γ (.operands (.not m t e)) ⟨.notNegatable T, m.pos⟩
  | notSigned {m : Mark} {t T : Tag} {op : Operator} {e : Expr} (he : HasType Γ e T)
      (h : T ≠ some .numeric) : Violated Γ (.operands (.sign m t op e)) ⟨.notSigned op T, m.pos⟩
  | argumentCount {m : Mark} {f : Name} {p : Prototype} {given : Nat}
      (h : given ≠ p.formals.length) :
      Violated Γ (.count m f p given) ⟨.argumentCount f p.arity given, m.pos⟩
  | argumentType {index : Nat} {f : Name} {formal T : Tag} {arg : Expr} (h : HasType Γ arg T)
      (hne : T ≠ formal) :
      Violated Γ (.argument index f formal arg) ⟨.argumentType index f formal T, arg.mark.pos⟩

end Rule

/-- One of the rules is violated, with this error, and all before it are obeyed. -/
def FirstViolated (Γ : Types) (rules : List Rule) (rule : Rule) (err : CompileError) : Prop :=
  ∃ before after, rules = before ++ rule :: after ∧ (∀ r ∈ before, r.Obeyed Γ) ∧
    rule.Violated Γ err

/-! ## Rules -/

section Rules

variable {rule rule' : Rule} {err err' : CompileError} {rs more : List Rule}

/-- A rule that is violated is not obeyed. -/
theorem Rule.Violated.not_obeyed (h : rule.Violated Γ err) : ¬ rule.Obeyed Γ := by
  cases h with
  | undeclared h =>
    rintro ⟨T, hT⟩
    rw [h] at hT
    cases hT
  | differ hl hr h =>
    rintro ⟨V, hV⟩
    obtain ⟨hl', hr', -⟩ := hasType_arith.mp hV
    exact h ((hl.unique hl').trans (hr'.unique hr))
  | notAddable hl hr hn hs =>
    rintro ⟨V, hV⟩
    obtain ⟨hl', -, hop⟩ := hasType_arith.mp hV
    obtain rfl := hl.unique hl'
    exact hop.elim hn fun h => hs h.2
  | notArithmetic hl hr hop hn =>
    rintro ⟨V, hV⟩
    obtain ⟨hl', -, hop'⟩ := hasType_arith.mp hV
    obtain rfl := hl.unique hl'
    exact hop'.elim hn fun h => hop h.1
  | incomparable hl hr h =>
    rintro ⟨V, hV⟩
    obtain ⟨-, W, hl', hr', -⟩ := hasType_compare.mp hV
    exact h ((hl.unique hl').trans (hr'.unique hr))
  | unordered hl hr heq hne hn =>
    rintro ⟨V, hV⟩
    obtain ⟨-, W, hl', -, hop⟩ := hasType_compare.mp hV
    obtain rfl := hl.unique hl'
    exact hop.elim heq fun h => h.elim hne hn
  | notLogical hl hr h =>
    rintro ⟨V, hV⟩
    obtain ⟨-, hl', hr'⟩ := hasType_logic.mp hV
    exact h ⟨hl.unique hl', hr.unique hr'⟩
  | notNegatable he h =>
    rintro ⟨V, hV⟩
    exact h (he.unique (hasType_not.mp hV).2)
  | notSigned he h =>
    rintro ⟨V, hV⟩
    exact h (he.unique (hasType_sign.mp hV).2)
  | argumentCount h => exact h
  | argumentType h hne => exact fun h' => hne (h.unique h')

/-- A rule is violated in one way only. -/
theorem Rule.Violated.unique (h : rule.Violated Γ err) (h' : rule.Violated Γ err') :
    err = err' := by
  cases h with
  | undeclared h => cases h'; rfl
  | differ hl hr h =>
    cases h' with
    | differ hl' hr' _ => rw [hl.unique hl', hr.unique hr']
    | notAddable hl' hr' _ _ => exact absurd ((hl.unique hl').trans (hr'.unique hr)) h
    | notArithmetic hl' hr' _ _ => exact absurd ((hl.unique hl').trans (hr'.unique hr)) h
  | notAddable hl hr hn hs =>
    cases h' with
    | differ hl' hr' h => exact absurd ((hl'.unique hl).trans (hr.unique hr')) h
    | notAddable hl' _ _ _ => rw [hl.unique hl']
    | notArithmetic _ _ hop _ => exact absurd rfl hop
  | notArithmetic hl hr hop hn =>
    cases h' with
    | differ hl' hr' h => exact absurd ((hl'.unique hl).trans (hr.unique hr')) h
    | notAddable _ _ _ _ => exact absurd rfl hop
    | notArithmetic hl' _ _ _ => rw [hl.unique hl']
  | incomparable hl hr h =>
    cases h' with
    | incomparable hl' hr' _ => rw [hl.unique hl', hr.unique hr']
    | unordered hl' hr' _ _ _ => exact absurd ((hl.unique hl').trans (hr'.unique hr)) h
  | unordered hl hr _ _ _ =>
    cases h' with
    | incomparable hl' hr' h => exact absurd ((hl'.unique hl).trans (hr.unique hr')) h
    | unordered hl' _ _ _ _ => rw [hl.unique hl']
  | notLogical hl hr _ =>
    cases h' with
    | notLogical hl' hr' _ => rw [hl.unique hl', hr.unique hr']
  | notNegatable he _ =>
    cases h' with
    | notNegatable he' _ => rw [he.unique he']
  | notSigned he _ =>
    cases h' with
    | notSigned he' _ => rw [he.unique he']
  | argumentCount _ => cases h'; rfl
  | argumentType h _ =>
    cases h' with
    | argumentType h' _ => rw [h.unique h']

/-- What the error of a violated rule says about the rule. -/
theorem Rule.Violated.error (h : rule.Violated Γ err) :
    (∃ v, rule = .declared v ∧ Γ v.name = none ∧ err.kind = .undeclared ∧ err.symbol = v.name) ∨
      (∀ v, rule ≠ .declared v) ∧ err.kind = .mismatch := by
  cases h with
  | @undeclared v h => exact .inl ⟨v, rfl, h, rfl, rfl⟩
  | _ => exact .inr ⟨nofun, rfl⟩

theorem FirstViolated.append (h : FirstViolated Γ rs rule err) (more : List Rule) :
    FirstViolated Γ (rs ++ more) rule err := by
  obtain ⟨before, after, rfl, hbefore, hrule⟩ := h
  exact ⟨before, after ++ more, by simp, hbefore, hrule⟩

/-- Rules that are obeyed may come before. -/
theorem FirstViolated.after (hrs : ∀ r ∈ rs, r.Obeyed Γ) (h : FirstViolated Γ more rule err) :
    FirstViolated Γ (rs ++ more) rule err := by
  obtain ⟨before, after, rfl, hbefore, hrule⟩ := h
  refine ⟨rs ++ before, after, by simp, ?_, hrule⟩
  intro r hr
  rcases List.mem_append.mp hr with hr | hr
  · exact hrs r hr
  · exact hbefore r hr

theorem Rule.Violated.first (h : rule.Violated Γ err) (more : List Rule) :
    FirstViolated Γ (rule :: more) rule err :=
  ⟨[], more, rfl, by simp, h⟩

/-- **There is one first violation at most.** -/
theorem FirstViolated.unique (h : FirstViolated Γ rs rule err)
    (h' : FirstViolated Γ rs rule' err') : rule = rule' ∧ err = err' := by
  induction rs with
  | nil =>
    obtain ⟨before, after, hsplit, -, -⟩ := h
    simp at hsplit
  | cons r rs ih =>
    obtain ⟨before, after, hsplit, hbefore, hrule⟩ := h
    obtain ⟨before', after', hsplit', hbefore', hrule'⟩ := h'
    cases before with
    | nil =>
      obtain ⟨rfl, rfl⟩ := List.cons.inj hsplit
      cases before' with
      | nil =>
        obtain ⟨rfl, rfl⟩ := List.cons.inj hsplit'
        exact ⟨rfl, hrule.unique hrule'⟩
      | cons u before' =>
        obtain ⟨rfl, -⟩ := List.cons.inj hsplit'
        exact absurd (hbefore' r (List.mem_cons_self ..)) hrule.not_obeyed
    | cons u before =>
      obtain ⟨rfl, hrest⟩ := List.cons.inj hsplit
      cases before' with
      | nil =>
        obtain ⟨rfl, -⟩ := List.cons.inj hsplit'
        exact absurd (hbefore r (List.mem_cons_self ..)) hrule'.not_obeyed
      | cons u' before' =>
        obtain ⟨rfl, hrest'⟩ := List.cons.inj hsplit'
        exact ih ⟨before, after, hrest, fun r hr => hbefore r (List.mem_cons_of_mem _ hr), hrule⟩
          ⟨before', after', hrest', fun r hr => hbefore' r (List.mem_cons_of_mem _ hr), hrule'⟩

end Rules

namespace Expr

mutual

/-- **An expression that has a type obeys all its rules.** -/
theorem rules_of_hasType : ∀ {e : Expr} {T : Tag}, HasType Γ e T → ∀ r ∈ e.rules, r.Obeyed Γ
  | .number .., _, _ | .truth .., _, _ | .text .., _, _ => by simp [rules]
  | .var v, T, h => by
    cases h with | var h =>
    simpa [rules] using ⟨T, h⟩
  | .arith m t op l r, T, h => by
    obtain ⟨hl, hr, -⟩ := hasType_arith.mp h
    simp only [rules, List.forall_mem_append, List.forall_mem_singleton]
    exact ⟨⟨rules_of_hasType hl, rules_of_hasType hr⟩, T, h⟩
  | .compare m t op l r, T, h => by
    obtain ⟨-, U, hl, hr, -⟩ := hasType_compare.mp h
    simp only [rules, List.forall_mem_append, List.forall_mem_singleton]
    exact ⟨⟨rules_of_hasType hl, rules_of_hasType hr⟩, T, h⟩
  | .logic m t op l r, T, h => by
    obtain ⟨-, hl, hr⟩ := hasType_logic.mp h
    simp only [rules, List.forall_mem_append, List.forall_mem_singleton]
    exact ⟨⟨rules_of_hasType hl, rules_of_hasType hr⟩, T, h⟩
  | .not m t e, T, h => by
    obtain ⟨-, he⟩ := hasType_not.mp h
    simp only [rules, List.forall_mem_append, List.forall_mem_singleton]
    exact ⟨rules_of_hasType he, T, h⟩
  | .sign m t op e, T, h => by
    obtain ⟨-, he⟩ := hasType_sign.mp h
    simp only [rules, List.forall_mem_append, List.forall_mem_singleton]
    exact ⟨rules_of_hasType he, T, h⟩
  | .call m t f p args, T, h => by
    obtain ⟨-, hlen, hargs⟩ := hasType_call.mp h
    simp only [rules, List.forall_mem_cons]
    exact ⟨hlen, argumentRules_of_hasType f 1 args p.formals hargs⟩

theorem argumentRules_of_hasType (f : Name) : ∀ (i : Nat) (args : List Expr) (formals : List Tag),
    (∀ a ∈ args.zip formals, HasType Γ a.1 a.2) →
    ∀ r ∈ argumentRules f i args formals, r.Obeyed Γ
  | _, [], _, _ => by simp [argumentRules]
  | _, _ :: _, [], _ => by simp [argumentRules]
  | i, arg :: args, formal :: formals, h => by
    simp only [List.zip_cons_cons, List.forall_mem_cons] at h
    simp only [argumentRules, List.forall_mem_append, List.forall_mem_cons]
    exact ⟨rules_of_hasType h.1, h.1, argumentRules_of_hasType f (i + 1) args formals h.2⟩

end

/-! ## The checker -/

section Checker

variable {table : Table}

theorem hasType_of_check {e e' : Expr} {T : Tag} (h : e.check table = (e', .ok T)) :
    HasType table.types e T := by
  obtain ⟨hrecorded, hty, hbare⟩ := check_ok h
  have htype := hrecorded.hasType hty
  rw [← hasType_mapInfo Mark.place fun _ => none] at htype ⊢
  unfold bare at hbare
  rwa [← hbare]

theorem mark_mapInfo (f : Mark → Mark) (g : Tag → Tag) (e : Expr) :
    (e.mapInfo f g).mark = f e.mark := by
  cases e <;> rfl

/-- A checked node stands where it stood. -/
theorem pos_of_check {e e' : Expr} {T : Tag} (h : e.check table = (e', .ok T)) :
    e'.mark.pos = e.mark.pos := by
  have hbare := congrArg (fun e => e.mark.pos) (check_ok h).2.2
  simpa only [bare, mark_mapInfo, Mark.place] using hbare

section Settle

variable {pos : Option Int} {old : Tag} {e' : Expr} {err : CompileError}

theorem settle₁_eq_error {build : Tag → Expr → Expr} {rule : Tag → Except CompileError.Cause Tag}
    {c : Checked} (h : settle₁ pos old build rule c = (e', .error err)) :
    (∃ e, c = (e, .error err)) ∨
      ∃ e T cause, c = (e, .ok T) ∧ rule T = .error cause ∧ err = ⟨cause, pos⟩ := by
  obtain ⟨e, err' | T⟩ := c
  · cases h
    exact .inl ⟨e, rfl⟩
  · unfold settle₁ at h
    dsimp only at h
    split at h
    · rename_i cause hcause
      cases h
      exact .inr ⟨e, T, cause, rfl, hcause, rfl⟩
    · cases h

theorem settle₂_eq_error {build : Tag → Expr → Expr → Expr} {right : Expr}
    {rule : Tag → Tag → Except CompileError.Cause Tag} {c d : Checked}
    (h : settle₂ pos old build right rule c d = (e', .error err)) :
    (∃ l, c = (l, .error err)) ∨ (∃ l T r, c = (l, .ok T) ∧ d = (r, .error err)) ∨
      ∃ l T r U cause, c = (l, .ok T) ∧ d = (r, .ok U) ∧ rule T U = .error cause ∧
        err = ⟨cause, pos⟩ := by
  obtain ⟨l, err' | T⟩ := c
  · cases h
    exact .inl ⟨l, rfl⟩
  · unfold settle₂ at h
    rcases settle₁_eq_error h with ⟨r, hd⟩ | ⟨r, U, cause, hd, hcause, herr⟩
    · exact .inr (.inl ⟨l, T, r, rfl, hd⟩)
    · exact .inr (.inr ⟨l, T, r, U, cause, rfl, hd, hcause, herr⟩)

end Settle

/-- A node of two operands fails at the first violation of the left one, else of the right one, else
at its own rule. -/
theorem first_of_settle₂ {pos : Option Int} {old : Tag} {build : Tag → Expr → Expr → Expr}
    {rule : Tag → Tag → Except CompileError.Cause Tag} {l r node e' : Expr} {err : CompileError}
    (hl : ∀ l' err, l.check table = (l', .error err) →
      ∃ rule, FirstViolated table.types l.rules rule err)
    (hr : ∀ r' err, r.check table = (r', .error err) →
      ∃ rule, FirstViolated table.types r.rules rule err)
    (hrule : ∀ T U cause, HasType table.types l T → HasType table.types r U →
      rule T U = .error cause → Rule.Violated table.types (.operands node) ⟨cause, pos⟩)
    (h : settle₂ pos old build r rule (l.check table) (r.check table) = (e', .error err)) :
    ∃ rule, FirstViolated table.types (l.rules ++ r.rules ++ [.operands node]) rule err := by
  rw [List.append_assoc]
  rcases settle₂_eq_error h with
    ⟨l', hc⟩ | ⟨l', T, r', hc, hd⟩ | ⟨l', T, r', U, cause, hc, hd, hU, rfl⟩
  · obtain ⟨rule, hfirst⟩ := hl l' err hc
    exact ⟨rule, hfirst.append _⟩
  · obtain ⟨rule, hfirst⟩ := hr r' err hd
    exact ⟨rule, .after (rules_of_hasType (hasType_of_check hc)) (hfirst.append _)⟩
  · have hviolated := hrule T U cause (hasType_of_check hc) (hasType_of_check hd) hU
    have hown := FirstViolated.after (rules_of_hasType (hasType_of_check hd)) (hviolated.first [])
    exact ⟨_, .after (rules_of_hasType (hasType_of_check hc)) hown⟩

theorem first_of_settle₁ {pos : Option Int} {old : Tag} {build : Tag → Expr → Expr}
    {rule : Tag → Except CompileError.Cause Tag} {e node e' : Expr} {err : CompileError}
    (he : ∀ e' err, e.check table = (e', .error err) →
      ∃ rule, FirstViolated table.types e.rules rule err)
    (hrule : ∀ T cause, HasType table.types e T → rule T = .error cause →
      Rule.Violated table.types (.operands node) ⟨cause, pos⟩)
    (h : settle₁ pos old build rule (e.check table) = (e', .error err)) :
    ∃ rule, FirstViolated table.types (e.rules ++ [.operands node]) rule err := by
  rcases settle₁_eq_error h with ⟨e₁, hc⟩ | ⟨e₁, T, cause, hc, hT, rfl⟩
  · obtain ⟨rule, hfirst⟩ := he e₁ err hc
    exact ⟨rule, hfirst.append _⟩
  · have hviolated := hrule T cause (hasType_of_check hc) hT
    exact ⟨_, .after (rules_of_hasType (hasType_of_check hc)) (hviolated.first [])⟩

section Own

variable {m : Mark} {t T U : Tag} {op : Operator} {l r e : Expr} {cause : CompileError.Cause}

theorem violated_of_arithmeticRule (hl : HasType Γ l T) (hr : HasType Γ r U)
    (h : op.arithmeticRule T U = .error cause) :
    Rule.Violated Γ (.operands (.arith m t op l r)) ⟨cause, m.pos⟩ := by
  unfold Operator.arithmeticRule at h
  split at h
  · rename_i hne
    cases h
    exact .differ hl hr hne
  · rename_i heq
    obtain rfl : T = U := Classical.not_not.mp heq
    split at h
    · cases h
    · cases h
    · rename_i hn hs
      cases h
      exact .notAddable hl hr hn hs
    · rename_i hadd hn _
      cases h
      exact .notArithmetic hl hr hadd hn

theorem violated_of_compareRule (hl : HasType Γ l T) (hr : HasType Γ r U)
    (h : op.compareRule T U = .error cause) :
    Rule.Violated Γ (.operands (.compare m t op l r)) ⟨cause, m.pos⟩ := by
  unfold Operator.compareRule at h
  split at h
  · rename_i hne
    cases h
    exact .incomparable hl hr hne
  · rename_i heq
    obtain rfl : T = U := Classical.not_not.mp heq
    split at h
    · rename_i horder
      cases h
      obtain ⟨hop, hn⟩ : op.needsOrder = true ∧ T ≠ some .numeric := by
        simpa [Tag.ordered] using horder
      refine .unordered hl hr ?_ ?_ hn
      · rintro rfl
        cases hop
      · rintro rfl
        cases hop
    · cases h

theorem violated_of_connectRule (hl : HasType Γ l T) (hr : HasType Γ r U)
    (h : op.connectRule T U = .error cause) :
    Rule.Violated Γ (.operands (.logic m t op l r)) ⟨cause, m.pos⟩ := by
  unfold Operator.connectRule at h
  split at h
  · cases h
  · rename_i hnot
    cases h
    exact .notLogical hl hr hnot

theorem violated_of_notRule (he : HasType Γ e T) (h : Operator.notRule T = .error cause) :
    Rule.Violated Γ (.operands (.not m t e)) ⟨cause, m.pos⟩ := by
  unfold Operator.notRule at h
  split at h
  · cases h
  · rename_i hnot
    cases h
    exact .notNegatable he hnot

theorem violated_of_signRule (he : HasType Γ e T) (h : op.signRule T = .error cause) :
    Rule.Violated Γ (.operands (.sign m t op e)) ⟨cause, m.pos⟩ := by
  unfold Operator.signRule at h
  split at h
  · cases h
  · rename_i hnot
    cases h
    exact .notSigned he hnot

end Own

mutual

/-- **The checker fails at the first rule that is violated.** -/
theorem first_of_check : ∀ (e : Expr) {e' : Expr} {err : CompileError},
    e.check table = (e', .error err) → ∃ rule, FirstViolated table.types e.rules rule err
  | .number .., _, _, h | .truth .., _, _, h | .text .., _, _, h => by cases h
  | .var v, _, _, h => by
    simp only [check, checkVar] at h
    split at h
    · cases h
    · rename_i hnone
      cases h
      have hviolated : Rule.Violated table.types (.declared v)
          ⟨.undefinedSymbol v.name, v.mark.pos⟩ := .undeclared (by rw [Table.types, hnone]; rfl)
      exact ⟨_, hviolated.first []⟩
  | .arith m t op l r, _, _, h =>
    first_of_settle₂ (fun _ _ => first_of_check l) (fun _ _ => first_of_check r)
      (fun _ _ _ hl hr => violated_of_arithmeticRule hl hr) h
  | .compare m t op l r, _, _, h =>
    first_of_settle₂ (fun _ _ => first_of_check l) (fun _ _ => first_of_check r)
      (fun _ _ _ hl hr => violated_of_compareRule hl hr) h
  | .logic m t op l r, _, _, h =>
    first_of_settle₂ (fun _ _ => first_of_check l) (fun _ _ => first_of_check r)
      (fun _ _ _ hl hr => violated_of_connectRule hl hr) h
  | .not m t e, _, _, h =>
    first_of_settle₁ (fun _ _ => first_of_check e) (fun _ _ he => violated_of_notRule he) h
  | .sign m t op e, _, _, h =>
    first_of_settle₁ (fun _ _ => first_of_check e) (fun _ _ he => violated_of_signRule he) h
  | .call m t f p args, _, _, h => by
    simp only [check] at h
    split at h
    · rename_i hcount
      split at h
      · rename_i args' err' hargs
        cases h
        obtain ⟨rule, hfirst⟩ := first_of_checkArgs f 1 args p.formals hargs
        have hobeyed : ∀ r ∈ [Rule.count m f p args.length], r.Obeyed table.types :=
          List.forall_mem_singleton.mpr hcount
        exact ⟨rule, .after hobeyed hfirst⟩
      · cases h
    · rename_i hcount
      cases h
      have hviolated : Rule.Violated table.types (.count m f p args.length)
          ⟨.argumentCount f p.arity args.length, m.pos⟩ := .argumentCount hcount
      exact ⟨_, hviolated.first _⟩

theorem first_of_checkArgs (f : Name) : ∀ (i : Nat) (args : List Expr) (formals : List Tag)
    {args' : List Expr} {err : CompileError},
    checkArgs table f i args formals = (args', .error err) →
    ∃ rule, FirstViolated table.types (argumentRules f i args formals) rule err
  | _, [], _, _, _, h => by simp [checkArgs] at h
  | _, _ :: _, [], _, _, h => by simp [checkArgs] at h
  | i, arg :: args, formal :: formals, _, _, h => by
    simp only [checkArgs] at h
    split at h
    · rename_i arg' err' harg
      cases h
      obtain ⟨rule, hfirst⟩ := first_of_check arg harg
      exact ⟨rule, hfirst.append _⟩
    · rename_i arg' actual harg
      have htype := hasType_of_check harg
      split at h
      · rename_i hformal
        cases hrest : checkArgs table f (i + 1) args formals with
        | mk args' outcome =>
          rw [hrest] at h
          cases h
          obtain ⟨rule, hfirst⟩ := first_of_checkArgs f (i + 1) args formals hrest
          have hobeyed : ∀ r ∈ [Rule.argument i f formal arg], r.Obeyed table.types :=
            List.forall_mem_singleton.mpr (hformal ▸ htype)
          exact ⟨rule, .after (rules_of_hasType htype) (.after hobeyed hfirst)⟩
      · rename_i hformal
        cases h
        have hmark := pos_of_check harg
        have hviolated : Rule.Violated table.types (.argument i f formal arg)
            ⟨.argumentType i f formal actual, arg.mark.pos⟩ := .argumentType htype hformal
        rw [hmark]
        exact ⟨_, .after (rules_of_hasType htype) (hviolated.first _)⟩

end

end Checker

end Expr

theorem FirstViolated.not_hasType {e : Expr} {rule : Rule} {err : CompileError} {T : Tag}
    (h : FirstViolated Γ e.rules rule err) : ¬ HasType Γ e T := by
  intro htype
  obtain ⟨before, after, hrules, -, hrule⟩ := h
  refine hrule.not_obeyed (Expr.rules_of_hasType htype rule ?_)
  rw [hrules]
  simp

/-- **The checker against the rules.**  It gives an expression a type exactly if the expression has
it, and then the tree is the same but for the types, and each node records its own; it gives an
error exactly if that is the error of the first rule that is violated, and every expression has a
type or such a rule.  The error is about an undeclared name, which it names, exactly if the rule is
that a variable be declared, and about a mismatch otherwise. -/
theorem check_first_violation (table : Table) (e : Expr) :
    (∀ T, (∃ e', e.check table = (e', .ok T)) ↔ HasType table.types e T) ∧
    (∀ e' T, e.check table = (e', .ok T) →
      e'.bare = e.bare ∧ e'.ty? = T ∧ ∀ n ∈ e'.nodes, HasType table.types n n.ty?) ∧
    (∀ err, (∃ e', e.check table = (e', .error err)) ↔
      ∃ rule, FirstViolated table.types e.rules rule err) ∧
    ((∃ T, HasType table.types e T) ∨ ∃ rule err, FirstViolated table.types e.rules rule err) ∧
    ∀ rule err, FirstViolated table.types e.rules rule err →
      (err.kind = .undeclared ↔ ∃ v, rule = .declared v) ∧
      (∀ v, rule = .declared v → table.lookup v.name = none ∧ err.symbol = v.name) ∧
      ((∀ v, rule ≠ .declared v) → err.kind = .mismatch) := by
  refine ⟨fun T => ⟨?_, Expr.check_of_hasType⟩, ?_, fun err => ⟨?_, ?_⟩, ?_, ?_⟩
  · rintro ⟨e', h⟩
    exact Expr.hasType_of_check h
  · intro e' T h
    obtain ⟨hrecorded, hty, hbare⟩ := Expr.check_ok h
    exact ⟨hbare, hty, hrecorded⟩
  · rintro ⟨e', h⟩
    exact Expr.first_of_check e h
  · rintro ⟨rule, hfirst⟩
    rcases hcheck : e.check table with ⟨e', err' | T⟩
    · obtain ⟨rule', hfirst'⟩ := Expr.first_of_check e hcheck
      exact ⟨e', by rw [(hfirst.unique hfirst').2]⟩
    · exact absurd (Expr.hasType_of_check hcheck) hfirst.not_hasType
  · rcases hcheck : e.check table with ⟨e', err | T⟩
    · obtain ⟨rule, hfirst⟩ := Expr.first_of_check e hcheck
      exact .inr ⟨rule, err, hfirst⟩
    · exact .inl ⟨T, Expr.hasType_of_check hcheck⟩
  · rintro rule err ⟨before, after, -, -, hrule⟩
    rcases hrule.error with ⟨v, rfl, hnone, hkind, hsymbol⟩ | ⟨hother, hkind⟩
    · refine ⟨⟨fun _ => ⟨v, rfl⟩, fun _ => hkind⟩, ?_, fun h => absurd rfl (h v)⟩
      rintro _ ⟨⟩
      exact ⟨Option.map_eq_none_iff.mp hnone, hsymbol⟩
    · refine ⟨⟨fun h => ?_, fun ⟨v, h⟩ => absurd h (hother v)⟩, fun v h => absurd h (hother v),
        fun _ => hkind⟩
      rw [hkind] at h
      cases h

/-- In the call `f(x + 1, y)` the sum comes before the undeclared `y`, and with it the error. -/
theorem check_first_violation_sum :
    let table := Table.empty.declare (.declared "x" .string)
    let f : Prototype := ⟨some "f", some .numeric, [some .numeric, some .numeric]⟩
    let sum : Expr := .arith (.ofPos (some 4)) none .add (.var ⟨.ofPos (some 2), none, some "x"⟩)
      (.number (.ofPos (some 6)) 1)
    ∃ e', (Expr.call (.ofPos (some 0)) none (some "f") f
        [sum, .var ⟨.ofPos (some 9), none, some "y"⟩]).check table =
      (e', .error ⟨.operandsDiffer .add (some .string) (some .numeric), some 4⟩) := by
  intro table f sum
  refine ((check_first_violation table _).2.2.1 _).mpr
    ⟨.operands sum, [.count (.ofPos (some 0)) (some "f") f 2,
      .declared ⟨.ofPos (some 2), none, some "x"⟩], _, rfl, ?_, ?_⟩
  · simp only [List.forall_mem_cons, List.not_mem_nil, false_implies, implies_true, and_true]
    exact ⟨rfl, some .string, rfl⟩
  · exact .differ (.var rfl) .number (by decide)

end Slang
