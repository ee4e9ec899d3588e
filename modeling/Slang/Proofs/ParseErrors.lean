import Slang.Proofs.Acceptance

/-!
# Where the parser does not stop

The parser has a way to stop at a function whose header was not registered.  The pass over the
headers registers every header that the parser can read, so from a text the parser never gets there.

* `Token.all_error`, `Prototype.all_error` — what comes before the parser has errors of its own.
* `check_error` — the checker finds undeclared names and mismatches, and nothing else.
* `Stop.AtHeader` — the reason to stop is a header that was not registered.
* `Clears r s` — from `s` the reader `r` does not stop for this reason.  `Clears.bind` chains
  readers, with what the first one has read at hand for the second.
* `Registers known tokens` — every header in the tokens is registered.

Principal results: `gathered_registers` — the pass over the headers registers every header;
`clears_program` — where every header is registered, the parser does not stop at one;
`compile_not_atHeader` — so no text makes it stop there.
-/

set_option autoImplicit false

namespace Slang

variable {frames : Nat}

/-! ## Errors before parsing -/

namespace Token

theorem Lexeme.first_error {c : Char} {rest : List Char} {cause : CompileError.Cause}
    (h : Lexeme.first c rest = .error cause) : cause.kind = .lexical := by
  unfold Lexeme.first stringBody at h
  dsimp only at h
  repeat' split at h
  all_goals cases h
  all_goals rfl

/-- A text that has no tokens has a lexical error. -/
theorem tokensFrom_error : ∀ (cs : List Char) (pos skip : Nat) {e : CompileError},
    (tokensFrom pos skip cs).value = .error e → e.kind = .lexical
  | [], pos, skip, _, h => by cases skip <;> cases h
  | c :: rest, pos, skip + 1, _, h => tokensFrom_error rest (pos + 1) skip h
  | c :: rest, pos, 0, _, h => by
    unfold tokensFrom at h
    split at h
    · exact tokensFrom_error rest (pos + 1) 0 h
    · split at h
      · rename_i cause hcause
        cases h
        exact Lexeme.first_error hcause
      · rename_i l _
        exact tokensFrom_error rest (pos + 1) (l.size - 1) h

theorem all_error {source : List Char} {e : CompileError} (h : all source = .error e) :
    e.kind = .lexical := by
  unfold all at h
  rw [Trace.collect_eq] at h
  split at h
  · cases h
  · rename_i reports err heq
    cases h
    exact tokensFrom_error source 0 0 (Prod.mk.inj heq).2

end Token

/-- The pass over the headers only fails at a name that is announced twice. -/
theorem Prototype.collectFrom_error : ∀ (tokens : List Token) (index : Nat) (seen : List Name)
    {e : CompileError}, (collectFrom index seen tokens).value = .error e → e.kind = .duplicate
  | [], _, _, _, h => by cases h
  | t :: rest, index, seen, _, h => by
    unfold collectFrom at h
    split at h
    · split at h
      · exact collectFrom_error rest _ _ h
      · split at h
        · cases h
          rfl
        · exact collectFrom_error rest _ _ h
    · exact collectFrom_error rest _ _ h

theorem Prototype.all_error {tokens : List Token} {e : CompileError}
    (h : Prototype.all tokens = .error e) : e.kind = .duplicate := by
  rw [all_eq] at h
  unfold gathered at h
  cases hv : (collectFrom 0 [] tokens).value with
  | error err =>
    rw [hv] at h
    cases h
    exact collectFrom_error tokens 0 [] hv
  | ok u =>
    rw [hv] at h
    cases h

/-! ## Errors of the checker -/

namespace Operator

variable {op : Operator} {a b : Tag} {cause : CompileError.Cause}

theorem arithmeticRule_error (h : op.arithmeticRule a b = .error cause) :
    cause.kind = .mismatch := by
  unfold arithmeticRule at h
  split at h
  · cases h
    rfl
  · split at h <;> cases h <;> rfl

theorem compareRule_error (h : op.compareRule a b = .error cause) : cause.kind = .mismatch := by
  unfold compareRule at h
  split at h
  · cases h
    rfl
  · split at h <;> cases h
    rfl

theorem connectRule_error (h : op.connectRule a b = .error cause) : cause.kind = .mismatch := by
  unfold connectRule at h
  split at h <;> cases h
  rfl

theorem signRule_error (h : op.signRule a = .error cause) : cause.kind = .mismatch := by
  unfold signRule at h
  split at h <;> cases h
  rfl

theorem notRule_error (h : notRule a = .error cause) : cause.kind = .mismatch := by
  unfold notRule at h
  split at h <;> cases h
  rfl

end Operator

/-- The error is about a name that is not declared or about types that do not go together. -/
def CompileError.Semantic (err : CompileError) : Prop :=
  err.kind = .undeclared ∨ err.kind = .mismatch

namespace Expr

variable {table : Table} {e' : Expr} {err : CompileError}

theorem settle₁_error {pos : Option Int} {old : Tag} {build : Tag → Expr → Expr}
    {rule : Tag → Except CompileError.Cause Tag} {c : Checked}
    (hrule : ∀ t cause, rule t = .error cause → cause.kind = .mismatch)
    (hc : ∀ e err, c = (e, .error err) → err.Semantic)
    (h : settle₁ pos old build rule c = (e', .error err)) : err.Semantic := by
  obtain ⟨e, err' | t⟩ := c
  · cases h
    exact hc e _ rfl
  · unfold settle₁ at h
    dsimp only at h
    split at h
    · rename_i cause hcause
      cases h
      exact .inr (hrule t cause hcause)
    · cases h

theorem settle₂_error {pos : Option Int} {old : Tag} {build : Tag → Expr → Expr → Expr}
    {right : Expr} {rule : Tag → Tag → Except CompileError.Cause Tag} {c d : Checked}
    (hrule : ∀ t u cause, rule t u = .error cause → cause.kind = .mismatch)
    (hc : ∀ e err, c = (e, .error err) → err.Semantic)
    (hd : ∀ e err, d = (e, .error err) → err.Semantic)
    (h : settle₂ pos old build right rule c d = (e', .error err)) : err.Semantic := by
  obtain ⟨l, err' | t⟩ := c
  · cases h
    exact hc l _ rfl
  · unfold settle₂ at h
    exact settle₁_error (hrule t) hd h

mutual

/-- **The checker finds undeclared names and mismatches, and nothing else.** -/
theorem check_error : ∀ (e : Expr) {e' : Expr} {err : CompileError},
    e.check table = (e', .error err) → err.Semantic
  | number .., _, _, h | truth .., _, _, h | text .., _, _, h => by cases h
  | var v, _, _, h => by
    simp only [check, checkVar] at h
    split at h
    · cases h
    · cases h
      exact .inl rfl
  | arith _ _ _ l r, _, _, h =>
    settle₂_error (fun _ _ _ => Operator.arithmeticRule_error) (fun _ _ => check_error l)
      (fun _ _ => check_error r) h
  | compare _ _ _ l r, _, _, h =>
    settle₂_error (fun _ _ _ => Operator.compareRule_error) (fun _ _ => check_error l)
      (fun _ _ => check_error r) h
  | logic _ _ _ l r, _, _, h =>
    settle₂_error (fun _ _ _ => Operator.connectRule_error) (fun _ _ => check_error l)
      (fun _ _ => check_error r) h
  | not _ _ e, _, _, h =>
    settle₁_error (fun _ _ => Operator.notRule_error) (fun _ _ => check_error e) h
  | sign _ _ _ e, _, _, h =>
    settle₁_error (fun _ _ => Operator.signRule_error) (fun _ _ => check_error e) h
  | call _ _ f p args, _, _, h => by
    simp only [check] at h
    split at h
    · split at h
      · rename_i args' err' hargs
        cases h
        exact checkArgs_error f 1 args p.formals hargs
      · cases h
    · cases h
      exact .inr rfl

theorem checkArgs_error (f : Name) : ∀ (index : Nat) (args : List Expr) (formals : List Tag)
    {args' : List Expr} {err : CompileError},
    checkArgs table f index args formals = (args', .error err) → err.Semantic
  | _, [], _, _, _, h => by simp [checkArgs] at h
  | _, _ :: _, [], _, _, h => by simp [checkArgs] at h
  | index, arg :: args, formal :: formals, _, _, h => by
    simp only [checkArgs] at h
    split at h
    · rename_i arg' err' harg
      cases h
      exact check_error arg harg
    · split at h
      · cases hrest : checkArgs table f (index + 1) args formals with
        | mk args' outcome =>
          rw [hrest] at h
          cases h
          exact checkArgs_error f (index + 1) args formals hrest
      · cases h
        exact .inr rfl

end

end Expr

namespace Grammar

/-! ## Readers that do not stop at a header -/

/-- The reason to stop is a function whose header was not registered. -/
def Stop.AtHeader : Stop → Prop
  | .error e => ∃ name, e.cause = .malformedHeader name
  | .outOfTokens => False

theorem not_atHeader {e : CompileError} (h : e.kind ≠ .syntactic) :
    ¬ (Stop.error e).AtHeader := by
  rintro ⟨name, hname⟩
  apply h
  rw [CompileError.kind, hname]
  rfl

/-- The reader does not stop at a function whose header was not registered. -/
def Clears {α : Type} (r : Reader α) (s : State) : Prop :=
  Ends r s (fun _ _ => True) fun stop => ¬ stop.AtHeader

section Clears

variable {α β : Type} {s : State} {r : Reader α}

/-- Sequencing: the second reader may rely on what the first one has read. -/
theorem Clears.bind {P : List Token → α → State → Prop} {f : α → Reader β} (h : Clears r s)
    (hr : Reads r s P) (hf : ∀ ts a s', Moved s ts s' → P ts a s' → Clears (f a) s') :
    Clears (r >>= f) s := by
  unfold Clears at *
  rw [ends_bind]
  unfold Ends at h ⊢
  rcases ho : outcome r s with stop | ⟨a, s'⟩
  · rw [ho] at h
    exact h
  · obtain ⟨ts, hm, hp⟩ := Ends.of_ok ho hr
    exact hf ts a s' hm hp

/-- Sequencing with a reader that never stops at a header. -/
theorem Clears.andThen {f : α → Reader β} (h : Clears r s) (hf : ∀ a s, Clears (f a) s) :
    Clears (r >>= f) s := by
  unfold Clears at *
  rw [ends_bind]
  exact Ends.mono h (fun a s' _ => hf a s') fun _ he => he

theorem clears_pure (a : α) : Clears (pure a) s := trivial

theorem clears_error {e : CompileError} (h : e.kind ≠ .syntactic) :
    Clears (throw (.error e) : Reader α) s := by
  exact not_atHeader h

theorem clears_fail {cause : CompileError.Cause} {pos : Int}
    (h : ∀ name, cause ≠ .malformedHeader name) : Clears (fail cause pos : Reader α) s := by
  rintro ⟨name, hname⟩
  exact h name hname

/-- Nothing is read behind a failure. -/
theorem clears_fail_bind {cause : CompileError.Cause} {pos : Int} {f : α → Reader β}
    (h : ∀ name, cause ≠ .malformedHeader name) : Clears (fail cause pos >>= f) s :=
  clears_fail h

theorem clears_get : Clears (get : Reader State) s := trivial

theorem clears_modify (f : State → State) : Clears (modify f : Reader PUnit) s := trivial

theorem clears_set (s' : State) : Clears (set s' : Reader PUnit) s := trivial

theorem clears_remaining : Clears remaining s := trivial

theorem clears_current : Clears current s := by
  unfold Clears
  rw [ends_current]
  exact ⟨fun _ => id, fun _ _ _ => trivial⟩

theorem clears_report (message : String) (event : Option TreeEvent) :
    Clears (report message event) s := by
  unfold Clears
  rw [ends_report]
  exact ⟨fun _ => id, fun _ _ _ => trivial⟩

theorem clears_advance (message : String) : Clears (advance message) s := by
  unfold Clears
  rw [ends_advance]
  exact ⟨fun _ => id, fun _ _ _ => trivial⟩

theorem clears_expect (kinds : List Token.Kind) : Clears (expect kinds) s := by
  unfold Clears
  rw [ends_expect]
  refine ⟨fun _ => id, fun t rest _ => ⟨fun _ => trivial, fun _ => ?_⟩⟩
  rintro ⟨name, hname⟩
  cases hname

theorem clears_accept (pick : Token.Kind → Option β) : Clears (accept pick) s := by
  unfold Clears
  rw [ends_accept]
  exact ⟨fun _ => id, fun _ _ _ => ⟨fun _ _ => trivial, fun _ => trivial⟩⟩

theorem clears_acceptSymbol (x : Symbol) : Clears (acceptSymbol x) s :=
  (clears_accept _).andThen fun _ _ => clears_pure _

theorem clears_reject {cause : CompileError.Cause} {pos : Int}
    (h : ∀ name, cause ≠ .malformedHeader name) : Clears (reject cause pos : Reader α) s :=
  (clears_report _ _).andThen fun _ _ => clears_fail h

theorem clears_tooDeep : Clears (tooDeep : Reader α) s :=
  clears_current.andThen fun _ _ => clears_fail nofun

theorem clears_freshId : Clears freshId s := trivial

theorem clears_begin (label : String) : Clears (begin label) s :=
  clears_get.andThen fun _ _ => clears_freshId.andThen fun _ _ =>
    (clears_report _ _).andThen fun _ _ => (clears_modify _).andThen fun _ _ => clears_pure _

theorem clears_finish (id : Nat) : Clears (finish id) s :=
  (clears_modify _).andThen fun _ _ => clears_report _ _

theorem clears_addLeaf (parent : Nat) (label : String) : Clears (addLeaf parent label) s :=
  clears_freshId.andThen fun _ _ => clears_report _ _

mutual

theorem clears_announce (parent : Nat) : ∀ (o : Outline) (s : State), Clears (announce parent o) s
  | .node _ label mark _ children, s => by
    unfold announce
    refine (clears_report _ _).andThen fun _ _ =>
      Clears.andThen (clears_announceAll _ children _) fun _ _ => ?_
    split
    · exact clears_report _ _
    · exact clears_pure ()

theorem clears_announceAll (parent : Nat) : ∀ (os : List Outline) (s : State),
    Clears (announceAll parent os) s
  | [], _ => clears_pure ()
  | o :: rest, s =>
    Clears.andThen (clears_announce parent o s) fun _ => clears_announceAll parent rest

end

/-- Items that are read one after the other, each from a state as the one before has left it. -/
theorem clears_many {begins : Token.Kind → Bool} {item : Reader α} {I : State → Prop}
    (hitem : ∀ s, I s → Ends item s (fun _ s' => I s') fun stop => ¬ stop.AtHeader) :
    ∀ (n : Nat) (before : List α) (s : State), I s → Clears (many begins item n before) s
  | 0, before, s, hs => by
    unfold many
    refine clears_current.andThen fun t _ => ?_
    split
    · exact id
    · exact clears_pure _
  | n + 1, before, s, hs => by
    unfold many
    refine clears_current.bind Reads.current ?_
    rintro _ t s' _ ⟨_, rfl, _⟩
    split
    · unfold Clears
      rw [ends_bind]
      refine Ends.mono (hitem s' hs) ?_ fun _ he => he
      intro a s'' hs''
      exact clears_many hitem n (a :: before) s'' hs''
    · exact clears_pure _

theorem clears_separated {item : Reader α} (hitem : ∀ s, Clears item s) :
    ∀ (n : Nat) (before : List α) (s : State), Clears (separated item n before) s
  | 0, _, _ => id
  | n + 1, before, s => by
    unfold separated
    refine (hitem s).andThen fun a _ => (clears_acceptSymbol _).andThen fun found s' => ?_
    cases found with
    | true => exact clears_separated hitem n (a :: before) s'
    | false => exact clears_pure _

end Clears

/-! ## Expressions and statements -/

section Statements

variable {known : Signatures} {scope : Scope} {s : State}

theorem clears_chain {operand again : Reader Expr} {pick : Symbol → Option Operator}
    {build : Mark → Operator → Expr → Expr → Expr} (ho : ∀ s, Clears operand s)
    (ha : ∀ s, Clears again s) : Clears (chain operand pick again build) s := by
  unfold chain
  refine (ho s).andThen fun left _ => (clears_accept _).andThen fun found s' => ?_
  cases found with
  | some x => exact (ha s').andThen fun _ _ => clears_pure _
  | none => exact clears_pure _

/-- Reading the operand of a sign or the inside of a parenthesis. -/
theorem clears_after {α : Type} {message : String} {r : Reader Expr} {f : Expr → Reader α}
    (hr : ∀ s, Clears r s) (hf : ∀ e s, Clears (f e) s) :
    Clears (do
      let _ ← advance message
      let e ← r
      f e) s :=
  (clears_advance _).andThen fun _ s' => (hr s').andThen hf

theorem clears_level (known : Signatures) : ∀ n : Nat,
    (∀ (l : Level) (s : State), Clears (l.read known n) s) ∧ ∀ s, Clears (identifier known n) s
  | 0 => ⟨fun l s => by rw [l.read_zero]; exact clears_tooDeep, fun s => clears_tooDeep⟩
  | n + 1 => by
    obtain ⟨hlevel, hident⟩ := clears_level known n
    refine ⟨fun l s => ?_, fun s => ?_⟩
    · cases hl : l.inner with
      | some m =>
        rw [Level.read_succ hl]
        exact clears_chain (hlevel m) (hlevel l)
      | none =>
        cases l <;> cases hl
        show Clears (factor known (n + 1)) s
        unfold factor
        refine clears_current.andThen fun t s' => ?_
        split
        · exact (clears_advance _).andThen fun _ _ => clears_pure _
        · exact (clears_advance _).andThen fun _ _ => clears_pure _
        · exact (clears_advance _).andThen fun _ _ => clears_pure _
        · exact (clears_advance _).andThen fun _ _ => clears_pure _
        · exact clears_after (hlevel .logical) fun _ _ =>
            (clears_expect _).andThen fun _ _ => clears_pure _
        · exact clears_after (hlevel .factor) fun _ _ => clears_pure _
        · exact clears_after (hlevel .factor) fun _ _ => clears_pure _
        · exact clears_after (hlevel .factor) fun _ _ => clears_pure _
        · exact hident s'
        · exact clears_reject nofun
    · unfold identifier
      refine (clears_expect _).andThen fun t s' => ?_
      dsimp only
      split
      · refine clears_current.andThen fun u s'' => ?_
        split
        · exact clears_fail nofun
        · exact clears_pure _
      · refine (clears_expect _).andThen fun _ _ => ?_
        refine (clears_acceptSymbol _).andThen fun found _ => ?_
        cases found with
        | true => exact clears_pure _
        | false =>
          refine clears_remaining.andThen fun k s'' => ?_
          exact (clears_separated (hlevel .logical) k [] s'').andThen fun _ _ =>
            (clears_expect _).andThen fun _ _ => clears_pure _

theorem clears_expression (n : Nat) (s : State) : Clears (expression known n) s := by
  unfold expression
  refine ((clears_level known n).1 .logical s).andThen fun parsed _ => ?_
  refine clears_get.andThen fun s' _ => ?_
  split
  · rename_i err hcheck
    refine clears_error ?_
    rcases Expr.check_error parsed hcheck with h | h
    · rw [h]
      decide
    · rw [h]
      decide
  · exact (clears_set _).andThen fun _ _ =>
      Clears.andThen (clears_announce _ _ _) fun _ _ => clears_pure _

theorem clears_declaration : Clears declaration s := by
  unfold declaration
  refine (clears_begin _).andThen fun _ _ => (clears_advance _).andThen fun _ _ => ?_
  refine (clears_expect _).andThen fun _ _ => (clears_expect _).andThen fun _ _ => ?_
  refine (clears_modify _).andThen fun _ _ => (clears_report _ _).andThen fun _ _ => ?_
  exact (clears_finish _).andThen fun _ _ => clears_pure _

theorem clears_printStatement (n : Nat) : Clears (printStatement scope n) s := by
  unfold printStatement
  refine (clears_begin _).andThen fun _ _ => (clears_expect _).andThen fun _ s' => ?_
  refine (clears_expression n s').andThen fun _ _ => (clears_expect _).andThen fun _ _ => ?_
  exact (clears_finish _).andThen fun _ _ => clears_pure _

theorem clears_assignment (n : Nat) : Clears (assignment scope n) s := by
  unfold assignment
  refine (clears_begin _).andThen fun _ _ => (clears_expect _).andThen fun _ _ => ?_
  refine clears_get.andThen fun _ _ => ?_
  dsimp only
  split
  · exact clears_fail nofun
  · refine clears_freshId.andThen fun _ s' => (clears_announce _ _ s').andThen fun _ _ => ?_
    refine (clears_expect _).andThen fun _ s' => (clears_expression n s').andThen fun r _ => ?_
    split
    · exact clears_fail_bind nofun
    · exact (clears_expect _).andThen fun _ _ =>
        (clears_finish _).andThen fun _ _ => clears_pure _

theorem clears_returnStatement (n : Nat) : Clears (returnStatement scope n) s := by
  unfold returnStatement
  refine (clears_begin _).andThen fun _ _ => (clears_expect _).andThen fun _ _ => ?_
  refine clears_current.andThen fun _ s' => ?_
  dsimp only
  split
  · exact (clears_expect _).andThen fun _ _ =>
      (clears_finish _).andThen fun _ _ => clears_pure _
  · refine (clears_expression n s').andThen fun r _ => ?_
    split
    · exact clears_fail_bind nofun
    · exact (clears_expect _).andThen fun _ _ =>
        (clears_finish _).andThen fun _ _ => clears_pure _

theorem clears_condition (statement : CompileError.Conditional) (n : Nat) (s : State) :
    Clears (condition scope statement n) s := by
  unfold condition
  refine (clears_begin _).andThen fun _ _ => clears_current.andThen fun _ s' => ?_
  refine (clears_expression n s').andThen fun r _ => ?_
  obtain ⟨e, ty⟩ := r
  dsimp only
  split
  · exact clears_fail_bind nofun
  · exact (clears_finish _).andThen fun _ _ => clears_pure _

theorem clears_branch {n : Nat} (hblock : ∀ title s, Clears (block scope title n) s) :
    Clears (branch scope (n + 1)) s := by
  unfold branch
  refine (clears_begin _).andThen fun _ _ => (clears_expect _).andThen fun _ s₁ => ?_
  refine (clears_condition .if_ n s₁).andThen fun _ _ => (clears_expect _).andThen fun _ s₂ => ?_
  refine (hblock Stmt.thenTitle s₂).andThen fun _ _ => (clears_accept _).andThen fun other s₃ => ?_
  cases other with
  | some _ =>
    refine (hblock Stmt.elseTitle s₃).andThen fun _ _ => (clears_expect _).andThen fun _ _ => ?_
    exact (clears_finish _).andThen fun _ _ => clears_pure _
  | none =>
    refine (clears_expect _).andThen fun _ _ => ?_
    exact (clears_finish _).andThen fun _ _ => clears_pure _

theorem clears_loop {n : Nat} (hblock : ∀ title s, Clears (block scope title n) s) :
    Clears (loop scope (n + 1)) s := by
  unfold loop
  refine (clears_begin _).andThen fun _ _ => (clears_expect _).andThen fun _ s₁ => ?_
  refine (clears_condition .while_ n s₁).andThen fun _ s₂ => ?_
  refine (hblock Stmt.bodyTitle s₂).andThen fun _ _ => (clears_expect _).andThen fun _ _ => ?_
  exact (clears_finish _).andThen fun _ _ => clears_pure _

/-- **No statement stops the parser at a header.** -/
theorem clears_statement (scope : Scope) : ∀ n : Nat,
    (∀ s, Clears (statement scope n) s) ∧ (∀ title s, Clears (block scope title n) s) ∧
      (∀ s, Clears (branch scope n) s) ∧ ∀ s, Clears (loop scope n) s
  | 0 => ⟨fun _ => clears_tooDeep, fun _ _ => clears_tooDeep, fun _ => clears_tooDeep,
      fun _ => clears_tooDeep⟩
  | n + 1 => by
    obtain ⟨hstatement, hblock, hbranch, hloop⟩ := clears_statement scope n
    refine ⟨fun s => ?_, fun title s => ?_, fun s => clears_branch hblock,
      fun s => clears_loop hblock⟩
    · unfold statement
      refine clears_current.andThen fun t s' => ?_
      split
      · exact clears_declaration
      · exact clears_declaration
      · exact clears_declaration
      · exact clears_printStatement n
      · exact clears_assignment n
      · exact hbranch s'
      · exact hloop s'
      · exact clears_returnStatement n
      · exact clears_reject nofun
      · exact clears_reject nofun
    · unfold block
      refine (clears_begin _).andThen fun _ _ => clears_current.andThen fun _ _ => ?_
      refine clears_remaining.andThen fun k s' => ?_
      have hitems : Clears (many (fun k => !endsBlock k) (statement scope n) k []) s' :=
        clears_many (fun s _ => hstatement s) k [] s' trivial
      exact hitems.andThen fun _ _ => (clears_finish _).andThen fun _ _ => clears_pure _

end Statements

/-! ## Registered headers -/

/-- Every header in the tokens is registered. -/
def Registers (known : Signatures) (tokens : List Token) : Prop :=
  ∀ (before rest : List Token) (t : Token) (header : Header), tokens = before ++ t :: rest →
    t.kind = .keyword .function → Header.read rest = some header →
    known.get? header.prototype.name ≠ none

theorem Registers.moved {known : Signatures} {s s' : State} {ts : List Token}
    (h : Registers known s.rest) (hm : Moved s ts s') : Registers known s'.rest := by
  intro before rest t header hsplit
  apply h (ts ++ before) rest t header
  rw [hm.rest, hsplit, List.append_assoc]

/-- What is read up to the closing parenthesis of a function is a header. -/
theorem read_header {ty name opening closing : Token} {T : Ty} {ts : List Token}
    {formals : List (List Token × Binding)} (hT : ty.kind.ty? = some T)
    (hn : name.kind = .identifier) (ho : opening.kind = .symbol .leftParen)
    (hs : Separated (formals.map (·.1)) ts) (hf : ∀ f ∈ formals, FormalDerives f.1 f.2)
    (hc : closing.kind = .symbol .rightParen) (more : List Token) :
    Header.read (ty :: name :: opening :: (ts ++ closing :: more)) =
      some ⟨⟨some name.valueText, some T, formals.map (·.2.ty)⟩, name.pos⟩ := by
  obtain ⟨tys, htys, hmap⟩ := Header.formals_derived hc more formals hs hf
  simp only [Header.read, hT, hn, ho, and_self, if_true, htys, hc, hmap]

end Grammar

namespace Prototype

open Grammar

/-- **The pass over the headers registers every header.** -/
theorem gathered_registers : ∀ (tokens : List Token) (index : Nat) (seen : List Name)
    {ps : List Prototype}, gathered (collectFrom index seen tokens) = .ok ps →
    ∀ (before rest : List Token) (t : Token) (header : Header), tokens = before ++ t :: rest →
      t.kind = .keyword .function → Header.read rest = some header → header.prototype ∈ ps
  | [], _, _, _, _, before, _, _, _, hsplit, _, _ => by simp at hsplit
  | u :: us, index, seen, ps, h, before, rest, t, header, hsplit, ht, hread => by
    -- what is registered behind the first token is registered
    have hlater : ∀ (report : PrototypeReport) (seen' : List Name),
        gathered (.emit report fun _ => collectFrom (index + 1) seen' us) = .ok ps →
        (before = [] → report.prototype = some header.prototype) → header.prototype ∈ ps := by
      intro report seen' hemit hfirst
      rw [gathered_emit] at hemit
      cases hrest : gathered (collectFrom (index + 1) seen' us) with
      | error e =>
        rw [hrest] at hemit
        cases hemit
      | ok qs =>
        rw [hrest] at hemit
        cases hemit
        cases before with
        | nil => simp [hfirst rfl]
        | cons v before =>
          have htail : us = before ++ t :: rest := (List.cons.inj hsplit).2
          have := gathered_registers us (index + 1) seen' hrest before rest t header htail ht hread
          exact List.mem_append_right _ this
    have hsame : before = [] → u = t ∧ us = rest := by
      rintro rfl
      exact List.cons.inj hsplit
    unfold collectFrom at h
    split at h
    · split at h
      · rename_i hnone
        refine hlater _ _ h fun hbefore => ?_
        obtain ⟨rfl, rfl⟩ := hsame hbefore
        rw [hread] at hnone
        cases hnone
      · rename_i p nameAt hsome
        split at h
        · cases h
        · refine hlater _ _ h fun hbefore => ?_
          obtain ⟨rfl, rfl⟩ := hsame hbefore
          rw [hread] at hsome
          cases hsome
          rfl
    · rename_i hu
      refine hlater _ _ h fun hbefore => ?_
      obtain ⟨rfl, -⟩ := hsame hbefore
      exact absurd ht hu

end Prototype

namespace Grammar

/-- What has been registered is found under its name. -/
theorem registered_ne_none {headers : List Prototype} {p : Prototype} (h : p ∈ headers) :
    (registered headers).get? p.name ≠ none := by
  rw [registered, Registry.get?_ofList]
  intro hnone
  rw [Option.map_eq_none_iff, List.findRev?_eq_find?_reverse, List.find?_eq_none] at hnone
  have hmem : (p.name, p) ∈ (headers.map fun p => (p.name, p)).reverse := by
    simpa using h
  simpa using hnone _ hmem

/-- The headers of a token list are registered once the pass over them has succeeded. -/
theorem registers_prototypesOf {tokens : List Token} {headers : List Prototype}
    (h : Program.prototypesOf tokens = .ok headers) : Registers (registered headers) tokens := by
  unfold Program.prototypesOf at h
  rw [Prototype.all_eq, mapError_eq_ok] at h
  intro before rest t header hsplit ht hread
  exact registered_ne_none
    (Prototype.gathered_registers tokens 0 [] h before rest t header hsplit ht hread)

/-! ## Programs -/

section Programs

variable {known : Signatures} {s : State}

theorem clears_expectType : Clears expectType s :=
  (clears_expect _).andThen fun _ _ => clears_pure _

theorem clears_formal (s : State) : Clears formal s :=
  clears_expectType.andThen fun _ _ => (clears_expect _).andThen fun _ _ => clears_pure _

theorem clears_declareFormals (parent : Nat) : ∀ (bs : List Binding) (s : State),
    Clears (declareFormals parent bs) s
  | [], _ => clears_pure ()
  | _ :: rest, _ => (clears_modify _).andThen fun _ _ =>
      (clears_addLeaf _ _).andThen fun _ => clears_declareFormals parent rest

/-- Behind the formals, where the header is registered if it is one. -/
theorem clears_functionEnd {t name : Token} {id : Nat} {params : List Binding}
    (hknown : ∀ closing rest, s.rest = closing :: rest → closing.kind = .symbol .rightParen →
      known.get? (some name.valueText) ≠ none) :
    Clears (functionEnd known frames t name id params) s := by
  unfold functionEnd functionBody
  refine (clears_expect _).bind Reads.expectSymbol ?_
  rintro _ closing s₁ hm ⟨rfl, hc, _⟩
  split
  · rename_i hnone
    exact absurd hnone (hknown closing s₁.rest hm.rest hc)
  · rename_i p _
    refine (clears_modify _).andThen fun _ s₂ => ?_
    refine (clears_declareFormals id params s₂).andThen fun _ s₃ => ?_
    refine ((clears_statement ⟨known, p⟩ frames).2.1 Stmt.bodyTitle s₃).andThen fun _ _ => ?_
    refine (clears_expect _).andThen fun _ _ => (clears_report _ _).andThen fun _ _ => ?_
    exact (clears_finish _).andThen fun _ _ => clears_pure _

/-- A function does not stop the parser at its header if every header ahead is registered. -/
theorem clears_function (hs : Registers known s.rest) : Clears (function known frames) s := by
  unfold function
  refine (clears_expect _).bind Reads.expectKeyword ?_
  rintro _ t s₁ hm₁ ⟨rfl, hk, _⟩
  refine clears_expectType.bind reads_expectType ?_
  rintro _ T s₂ hm₂ ⟨ty, rfl, hT, _⟩
  refine (clears_expect _).bind (Reads.expect (by simp)) ?_
  rintro _ name s₃ hm₃ ⟨rfl, hn, _⟩
  have hn : name.kind = .identifier := by simpa using hn
  refine (clears_begin _).bind (still_begin _).reads ?_
  rintro _ id s₄ hm₄ ⟨rfl, _⟩
  refine (clears_expect _).bind Reads.expectSymbol ?_
  rintro _ opening s₅ hm₅ ⟨rfl, ho, _⟩
  have hm := (((hm₁.trans hm₂).trans hm₃).trans hm₄).trans hm₅
  have hend : ∀ (formals : List (List Token × Binding)) (ts : List Token) (s' : State),
      Moved s₅ ts s' → Separated (formals.map (·.1)) ts → (∀ f ∈ formals, FormalDerives f.1 f.2) →
      Clears (functionEnd known frames t name id (formals.map (·.2))) s' := by
    intro formals ts s' hm' hsep hf
    refine clears_functionEnd fun closing rest hclosing hc => ?_
    have hrest : s.rest = [] ++ t :: (ty :: name :: opening :: (ts ++ closing :: rest)) := by
      simpa [hclosing] using (hm.trans hm').rest
    exact hs [] _ t _ hrest hk (read_header hT hn ho hsep hf hc rest)
  refine clears_current.bind Reads.current ?_
  rintro _ u _ _ ⟨rfl, rfl, rest, hr⟩
  dsimp only
  split
  · exact hend [] [] _ (Moved.refl _) .nil (by simp)
  · refine clears_remaining.bind Reads.remaining ?_
    rintro _ k _ _ ⟨rfl, rfl, rfl⟩
    refine (clears_separated clears_formal _ [] _).bind
      (Reads.separated (fun s => reads_formal) _ [] _ (Nat.le_refl _)) ?_
    rintro ts bs s₆ hm₆ ⟨_, formals, _, hsep, hf, rfl⟩
    exact hend formals ts s₆ hm₆ hsep hf

/-- **Where every header is registered, the parser does not stop at one.** -/
theorem clears_program (hs : Registers known s.rest) : Clears (program known frames) s := by
  unfold program
  refine clears_current.bind Reads.current ?_
  rintro _ t s' _ ⟨_, rfl, _⟩
  split
  · refine clears_remaining.bind Reads.remaining ?_
    rintro _ k s' _ ⟨_, _, rfl⟩
    have hitem : ∀ s, Registers known s.rest → Ends (function known frames) s
        (fun _ s' => Registers known s'.rest) fun stop => ¬ stop.AtHeader := by
      intro s hs
      have hclear := @clears_function frames known s hs
      have hreads := @reads_function known frames s
      unfold Clears Ends at *
      rcases ho : outcome (function known frames) s with stop | ⟨a, s'⟩
      · rw [ho] at hclear
        exact hclear
      · obtain ⟨ts, hm, _⟩ := Ends.of_ok ho hreads
        exact hs.moved hm
    refine (clears_many hitem k [] s' hs).andThen fun _ _ => ?_
    exact (clears_expect _).andThen fun _ _ => clears_pure _
  · unfold script
    refine (clears_begin _).andThen fun _ _ => (clears_modify _).andThen fun _ s₁ => ?_
    refine ((clears_statement _ frames).2.1 Stmt.bodyTitle s₁).andThen fun _ _ => ?_
    exact (clears_expect _).andThen fun _ _ => (clears_finish _).andThen fun _ _ => clears_pure _

end Programs

end Grammar

open Grammar in
/-- **No text stops the parser at a header**: lexical errors and repeated names come before it, and
every header that it can read has been registered. -/
theorem compile_not_atHeader {source : String} {stop : Stop}
    (h : Program.compile frames source = .error stop) : ¬ stop.AtHeader := by
  rcases compile_fails h with htokens | ⟨tokens, -, hheaders⟩ | ⟨tokens, headers, -, hheaders, ho⟩
  · obtain ⟨err, rfl, herr⟩ := mapError_eq_error.mp htokens
    exact not_atHeader (by rw [Token.all_error herr]; nofun)
  · obtain ⟨err, rfl, herr⟩ := mapError_eq_error.mp hheaders
    exact not_atHeader (by rw [Prototype.all_error herr]; nofun)
  · exact Ends.of_error ho (clears_program (registers_prototypesOf hheaders))

end Slang
