import Slang.Proofs.TwinReading

/-!
# The parser decides by kinds and values alone

Whatever the parser reads from two token lists of the same kinds and values, it reads the same, up
to marks, or it stops at the same error, at tokens that correspond.  One lemma for every function of
the parser.

* `SameSignatures` — signatures under which every name stands for the same.
* `Stmt.Like`, `Procedure.Like`, `Program.Like` — statements, functions and programs that are equal
  without what the pairing leaves open.

Principal results: `alike_expression`, `alike_statement`; `alike_function` — functions, whatever
lies behind them; `alike_program` — whole programs.
-/

set_option autoImplicit false

namespace Slang

variable {c : Pairing} {frames : Nat}

/-- Statements that are equal without what the pairing leaves open. -/
def Stmt.Like (c : Pairing) (a a' : Stmt) : Prop := a'.mapMarks c.kept = a.mapMarks c.kept

/-- Functions that are equal without what the pairing leaves open. -/
def Procedure.Like (c : Pairing) (p p' : Procedure) : Prop :=
  p'.mapMarks c.kept = p.mapMarks c.kept

/-- Programs that are equal without what the pairing leaves open. -/
def Program.Like (c : Pairing) (p p' : Program) : Prop := p'.mapMarks c.kept = p.mapMarks c.kept

theorem Procedure.map_mapMarks_of_like {ps ps' : List Procedure}
    (h : List.Forall₂ (Procedure.Like c) ps ps') :
    ps'.map (Procedure.mapMarks c.kept) = ps.map (Procedure.mapMarks c.kept) := by
  induction h with
  | nil => rfl
  | cons hp _ ih => rw [List.map_cons, List.map_cons, ih, hp]

theorem Stmt.mapMarksAll_eq_of_like : ∀ {as as' : List Stmt}, List.Forall₂ (Stmt.Like c) as as' →
    Stmt.mapMarksAll c.kept as' = Stmt.mapMarksAll c.kept as
  | [], _, .nil => rfl
  | _ :: _, _, .cons h hrest => by
    simp only [Stmt.mapMarksAll, mapMarksAll_eq_of_like hrest]
    rw [h]

namespace Grammar

variable {known known' : Signatures} {s s' : State}

/-- Signatures under which every name stands for the same. -/
def SameSignatures (known known' : Signatures) : Prop := ∀ f, known'.get? f = known.get? f

/-! ## Expressions -/

theorem Level.build_like (l : Level) {m m' : Mark} {op : Operator} {a a' b b' : Expr}
    (hm : m.Like c m') (ha : a.Like c a') (hb : b.Like c b') :
    (l.build m op a b).Like c (l.build m' op a' b') := by
  cases l with
  | factor | term | sum => exact .arith hm ha hb
  | comparison => exact .compare hm ha hb
  | logical => exact .logic hm ha hb

theorem alike_chain {l : Level} {operand operand' again again' : Reader Expr}
    (ho : ReadsAlike c operand operand' (Expr.Like c))
    (ha : ReadsAlike c again again' (Expr.Like c)) :
    ReadsAlike c (chain operand l.pick again l.build) (chain operand' l.pick again' l.build)
      (Expr.Like c) := by
  refine ho.bind fun left left' hleft => ?_
  refine (alike_accept fun k op hk => ?_).bind fun found found' hfound => ?_
  · obtain ⟨x, rfl, _⟩ := operator_eq_some hk
    exact Pairing.inside_of_ne (by simp)
  · cases hfound with
    | none => exact alike_pure hleft
    | @some a a' h =>
      obtain ⟨op, t⟩ := a
      obtain ⟨_, t'⟩ := a'
      obtain ⟨rfl, ht⟩ := h
      exact ha.bind fun right right' hright => alike_pure (l.build_like ht.mark hleft hright)

theorem consumes_logical (known : Signatures) (n : Nat) : Consumes c (logical known n) :=
  fun s _ => ((reads_level known n).1 .logical s).mono fun _ _ _ _ h => h.1.ne_nil

section Levels

variable {n : Nat}

theorem alike_factor (hfactor : ReadsAlike c (factor known n) (factor known' n) (Expr.Like c))
    (hlogical : ReadsAlike c (logical known n) (logical known' n) (Expr.Like c))
    (hident : ReadsAlike c (identifier known n) (identifier known' n) (Expr.Like c)) :
    ReadsAlike c (factor known (n + 1)) (factor known' (n + 1)) (Expr.Like c) := by
  unfold factor
  intro s s' hs
  refine EndsAlike.look hs fun t t' rest hr ht => ?_
  have hstep : ∀ (message message' : String), t.kind ≠ .keyword .end_ →
      EndsAlike c (advance message) (advance message') s s' (Alike c (Token.Like c)) :=
    fun _ _ hk => EndsAlike.advance hs hr (Pairing.inside_of_ne hk)
  rw [ht.kind, ht.lexeme, ht.valueText, ht.numberOf]
  split
  · exact (hstep _ _ (by simp [*])).bind fun _ _ _ => alike_pure (.number ht.mark)
  · exact (hstep _ _ (by simp [*])).bind fun _ _ _ => alike_pure (.text ht.mark)
  · exact (hstep _ _ (by simp [*])).bind fun _ _ _ => alike_pure (.truth ht.mark)
  · exact (hstep _ _ (by simp [*])).bind fun _ _ _ => alike_pure (.truth ht.mark)
  · refine (hstep _ _ (by simp [*])).bind fun _ _ _ => hlogical.bind fun e e' he => ?_
    exact (alike_expectSymbol _).bind fun _ _ _ => alike_pure he
  · refine (hstep _ _ (by simp [*])).bind fun _ _ _ => hfactor.bind fun e e' he => ?_
    exact alike_pure (.sign ht.mark he)
  · refine (hstep _ _ (by simp [*])).bind fun _ _ _ => hfactor.bind fun e e' he => ?_
    exact alike_pure (.sign ht.mark he)
  · refine (hstep _ _ (by simp [*])).bind fun _ _ _ => hfactor.bind fun e e' he => ?_
    exact alike_pure (.not ht.mark he)
  · exact hident s s' hs
  · exact alike_reject _ ht.place s s' hs

theorem alike_identifier (hknown : SameSignatures known known')
    (hlogical : ReadsAlike c (logical known n) (logical known' n) (Expr.Like c)) :
    ReadsAlike c (identifier known (n + 1)) (identifier known' (n + 1)) (Expr.Like c) := by
  unfold identifier
  refine alike_expectName.bind fun t t' ht => ?_
  simp only [ht.valueText, hknown (some t.valueText)]
  cases known.get? (some t.valueText) with
  | none =>
    refine alike_look fun u u' hu => ?_
    rw [hu.kind]
    split
    · exact alike_fail _ ht.place
    · exact alike_pure (.var ht.mark)
  | some p =>
    refine (alike_expectSymbol _).bind fun _ _ _ => ?_
    refine (alike_acceptSymbol _).bind fun _ found hfound => ?_
    subst hfound
    cases found with
    | true => exact alike_pure (.call ht.mark .nil)
    | false =>
      refine alike_separated hlogical (consumes_logical known n) (consumes_logical known' n)
        fun args args' hargs => ?_
      exact (alike_expectSymbol _).bind fun _ _ _ => alike_pure (.call ht.mark hargs)

/-- **Expressions of every level are read alike.** -/
theorem alike_level (hknown : SameSignatures known known') : ∀ n : Nat,
    (∀ l : Level, ReadsAlike c (l.read known n) (l.read known' n) (Expr.Like c)) ∧
      ReadsAlike c (identifier known n) (identifier known' n) (Expr.Like c)
  | 0 => ⟨fun l => by rw [l.read_zero, l.read_zero]; exact alike_tooDeep, alike_tooDeep⟩
  | n + 1 => by
    obtain ⟨hlevel, hident⟩ := alike_level hknown n
    refine ⟨fun l => ?_, alike_identifier hknown (hlevel .logical)⟩
    cases hl : l.inner with
    | none =>
      cases l <;> cases hl
      exact alike_factor (hlevel .factor) (hlevel .logical) hident
    | some m =>
      rw [Level.read_succ hl, Level.read_succ hl]
      exact alike_chain (hlevel m) (hlevel l)

/-- **Whole expressions are read alike**: the trees, their types and their numbers. -/
theorem alike_expression (hn : c.named = true) (hknown : SameSignatures known known') (n : Nat) :
    ReadsAlike c (expression known n) (expression known' n) fun r r' =>
      r.1.Like c r'.1 ∧ r'.2 = r.2 := by
  unfold expression
  refine ((alike_level hknown n).1 .logical).bind fun e e' he => alike_get fun s s' hs => ?_
  rw [hs.table hn]
  obtain ⟨htree, hanswer⟩ := Expr.check_like s.table he
  revert htree hanswer
  generalize e.check s.table = x
  generalize e'.check s.table = x'
  obtain ⟨checked, answer⟩ := x
  obtain ⟨checked', answer'⟩ := x'
  rintro htree hanswer
  dsimp only at htree hanswer
  cases hanswer with
  | error herror => exact alike_throw herror s s' hs
  | ok ty =>
    obtain ⟨hnumbered, hnext⟩ := Expr.enumerate_like htree hs.numbers
    refine EndsAlike.bind (V := fun _ _ => True)
      (.of_ok rfl rfl ⟨trivial, hs.ahead, hnext, fun _ => rfl, hs.declared⟩) fun _ _ _ => ?_
    exact (alike_announce _ _ _ _).bind fun _ _ _ => alike_pure ⟨hnumbered, rfl⟩

end Levels

/-! ## Statements -/

section Statements

variable {owner : Prototype} {n : Nat}

theorem alike_declaration {t : Token} {rest : List Token} (hs : s.Like c s')
    (hr : s.rest = t :: rest) (hk : c.Inside t.kind) :
    EndsAlike c declaration declaration s s' (Alike c (Stmt.Like c)) := by
  unfold declaration
  refine (alike_begin _ _ s s' hs).bind_reads (still_begin _).reads (still_begin _).reads ?_
  rintro i j u u' hij hu ⟨_, hm, rfl, _⟩ _
  refine (EndsAlike.advance hu (hm.rest.symm.trans hr) hk).bind fun ty ty' hty => ?_
  refine alike_expectName.bind fun name name' hname => ?_
  refine (alike_expectSymbol _).bind fun _ _ _ => ?_
  rw [hname.valueText, hty.kind]
  refine (alike_declare _).bind fun _ _ _ => ?_
  refine (alike_relabel _ _ _ _).bind fun _ _ _ => (alike_finish _ _).bind fun _ _ _ => ?_
  refine alike_pure ?_
  simp only [Stmt.Like, Stmt.mapMarks, (hty.numbered hij).kept_eq]

/-- Blocks that are equal without what the pairing leaves open. -/
def BlockLike (c : Pairing) (r r' : Mark × List Stmt) : Prop :=
  r.1.Like c r'.1 ∧ Stmt.mapMarksAll c.kept r'.2 = Stmt.mapMarksAll c.kept r.2

theorem consumes_statement (hn : c.named = true) (scope : Scope) (n : Nat) :
    Consumes c (statement scope n) := by
  intro s hs
  obtain ⟨bs, hbs⟩ := hs hn
  refine ((reads_statement scope n).1 bs s hbs).mono ?_
  rintro ts a s' _ ⟨hd, _⟩
  obtain ⟨t, us, rfl, _⟩ := hd.starts
  simp

theorem alike_block (hn : c.named = true) {title : String}
    (hstatement : ReadsAlike c (statement ⟨known, owner⟩ n) (statement ⟨known', owner⟩ n)
      (Stmt.Like c)) :
    ReadsAlike c (block ⟨known, owner⟩ title (n + 1)) (block ⟨known', owner⟩ title (n + 1))
      (BlockLike c) := by
  unfold block
  refine (alike_begin _ _).bind fun i j hij => alike_look fun t t' ht => ?_
  refine alike_many hstatement (consumes_statement hn _ n) (consumes_statement hn _ n)
    fun body body' hbody => ?_
  refine (alike_finish _ _).bind fun _ _ _ => alike_pure ⟨ht.numbered hij, ?_⟩
  exact Stmt.mapMarksAll_eq_of_like hbody

variable (hn : c.named = true) (hknown : SameSignatures known known')

include hn hknown

theorem alike_printStatement :
    ReadsAlike c (printStatement ⟨known, owner⟩ n) (printStatement ⟨known', owner⟩ n)
      (Stmt.Like c) := by
  unfold printStatement
  refine (alike_begin _ _).bind fun i j hij => ?_
  refine (alike_expectKeyword (Pairing.inside_of_ne (by simp))).bind fun t t' ht => ?_
  refine (alike_expression hn hknown n).bind ?_
  rintro ⟨e, T⟩ ⟨e', _⟩ ⟨he, rfl⟩
  refine (alike_expectSymbol _).bind fun _ _ _ => (alike_finish _ _).bind fun _ _ _ => ?_
  refine alike_pure ?_
  simp only [Stmt.Like, Stmt.mapMarks, (ht.numbered hij).kept_eq, he.mapInfo_eq]

theorem alike_assignment :
    ReadsAlike c (assignment ⟨known, owner⟩ n) (assignment ⟨known', owner⟩ n) (Stmt.Like c) := by
  unfold assignment
  refine (alike_begin _ _).bind fun i j hij => ?_
  refine alike_expectName.bind fun name name' hname => alike_get fun s s' hs => ?_
  simp only [hname.valueText, hs.table hn]
  cases s.table.lookup (some name.valueText) with
  | none => exact alike_fail _ hname.place s s' hs
  | some declared =>
    refine (alike_freshId s s' hs).bind fun k k' hk => ?_
    refine (alike_announce _ _ _ _).bind fun _ _ _ => ?_
    refine (alike_expectSymbol _).bind fun equals equals' hequals => ?_
    refine (alike_expression hn hknown n).bind ?_
    rintro ⟨e, T⟩ ⟨e', _⟩ ⟨he, rfl⟩
    dsimp only
    split
    · exact alike_fail_bind _ hequals.place
    · refine (alike_expectSymbol _).bind fun _ _ _ => (alike_finish _ _).bind fun _ _ _ => ?_
      refine alike_pure ?_
      simp only [Stmt.Like, Stmt.mapMarks, (hname.numbered hij).kept_eq,
        (hname.numbered hk).kept_eq, he.mapInfo_eq]

theorem alike_returnStatement :
    ReadsAlike c (returnStatement ⟨known, owner⟩ n) (returnStatement ⟨known', owner⟩ n)
      (Stmt.Like c) := by
  unfold returnStatement
  refine (alike_begin _ _).bind fun i j hij => ?_
  refine (alike_expectKeyword (Pairing.inside_of_ne (by simp))).bind fun t t' ht => ?_
  have htail : ∀ value value' : Option Expr,
      value'.map (Expr.mapInfo c.kept id) = value.map (Expr.mapInfo c.kept id) →
      ReadsAlike c
        (do
          let _ ← expectSymbol .semicolon
          finish i
          return .ret ⟨t.pos, some i⟩ value owner.returns)
        (do
          let _ ← expectSymbol .semicolon
          finish j
          return .ret ⟨t'.pos, some j⟩ value' owner.returns) (Stmt.Like c) := by
    intro value value' hvalue
    refine (alike_expectSymbol _).bind fun _ _ _ => (alike_finish _ _).bind fun _ _ _ => ?_
    refine alike_pure ?_
    simp only [Stmt.Like, Stmt.mapMarks, (ht.numbered hij).kept_eq, hvalue]
  refine alike_look fun u u' hu => ?_
  rw [hu.kind]
  split
  · exact htail none none rfl
  · refine (alike_expression hn hknown n).bind ?_
    rintro ⟨e, T⟩ ⟨e', _⟩ ⟨he, rfl⟩
    dsimp only
    split
    · exact alike_fail_bind _ ht.place
    · exact htail (some e) (some e') (congrArg some he.mapInfo_eq)

theorem alike_condition (kind : CompileError.Conditional) :
    ReadsAlike c (condition ⟨known, owner⟩ kind n) (condition ⟨known', owner⟩ kind n)
      (Expr.Like c) := by
  unfold condition
  refine (alike_begin _ _).bind fun _ _ _ => alike_look fun u u' hu => ?_
  refine (alike_expression hn hknown n).bind ?_
  rintro ⟨e, T⟩ ⟨e', _⟩ ⟨he, rfl⟩
  dsimp only
  split
  · exact alike_fail_bind _ hu.place
  · exact (alike_finish _ _).bind fun _ _ _ => alike_pure he

theorem alike_branch
    (hblock : ∀ title, ReadsAlike c (block ⟨known, owner⟩ title n) (block ⟨known', owner⟩ title n)
      (BlockLike c)) :
    ReadsAlike c (branch ⟨known, owner⟩ (n + 1)) (branch ⟨known', owner⟩ (n + 1))
      (Stmt.Like c) := by
  unfold branch
  refine (alike_begin _ _).bind fun i j hij => ?_
  refine (alike_expectKeyword (Pairing.inside_of_ne (by simp))).bind fun t t' ht => ?_
  refine (alike_condition hn hknown _).bind fun e e' he => ?_
  refine (alike_expectKeyword (Pairing.inside_of_ne (by simp))).bind fun _ _ _ => ?_
  refine (hblock _).bind ?_
  rintro ⟨m, body⟩ ⟨m', body'⟩ ⟨hm, hbody⟩
  refine (alike_accept fun k _ hk => ?_).bind fun found found' hfound => ?_
  · split at hk
    · rename_i h
      exact Pairing.inside_of_ne (by simp [h])
    · cases hk
  · cases hfound with
    | some _ =>
      refine (hblock _).bind ?_
      rintro ⟨elseMark, other⟩ ⟨elseMark', other'⟩ ⟨helse, hother⟩
      refine (alike_expectKeyword (Pairing.inside_of_ne (by simp))).bind fun _ _ _ => ?_
      refine (alike_finish _ _).bind fun _ _ _ => alike_pure ?_
      simp only [Stmt.Like, Stmt.mapMarks, (ht.numbered hij).kept_eq, he.mapInfo_eq, hm.kept_eq,
        hbody, helse.kept_eq, hother]
    | none =>
      refine ReadsAlike.bind (alike_expect (by simp [Pairing.Inside])) fun _ _ _ => ?_
      refine (alike_finish _ _).bind fun _ _ _ => alike_pure ?_
      simp only [Stmt.Like, Stmt.mapMarks, (ht.numbered hij).kept_eq, he.mapInfo_eq, hm.kept_eq,
        hbody]

theorem alike_loop
    (hblock : ∀ title, ReadsAlike c (block ⟨known, owner⟩ title n) (block ⟨known', owner⟩ title n)
      (BlockLike c)) :
    ReadsAlike c (loop ⟨known, owner⟩ (n + 1)) (loop ⟨known', owner⟩ (n + 1)) (Stmt.Like c) := by
  unfold loop
  refine (alike_begin _ _).bind fun i j hij => ?_
  refine (alike_expectKeyword (Pairing.inside_of_ne (by simp))).bind fun t t' ht => ?_
  refine (alike_condition hn hknown _).bind fun e e' he => (hblock _).bind ?_
  rintro ⟨m, body⟩ ⟨m', body'⟩ ⟨hm, hbody⟩
  refine (alike_expectKeyword (Pairing.inside_of_ne (by simp))).bind fun _ _ _ => ?_
  refine (alike_finish _ _).bind fun _ _ _ => alike_pure ?_
  simp only [Stmt.Like, Stmt.mapMarks, (ht.numbered hij).kept_eq, he.mapInfo_eq, hm.kept_eq, hbody]

/-- **Statements and blocks are read alike.** -/
theorem alike_statement (owner : Prototype) : ∀ n : Nat,
    ReadsAlike c (statement ⟨known, owner⟩ n) (statement ⟨known', owner⟩ n) (Stmt.Like c) ∧
      (∀ title, ReadsAlike c (block ⟨known, owner⟩ title n) (block ⟨known', owner⟩ title n)
        (BlockLike c)) ∧
      ReadsAlike c (branch ⟨known, owner⟩ n) (branch ⟨known', owner⟩ n) (Stmt.Like c) ∧
      ReadsAlike c (loop ⟨known, owner⟩ n) (loop ⟨known', owner⟩ n) (Stmt.Like c)
  | 0 => ⟨alike_tooDeep, fun _ => alike_tooDeep, alike_tooDeep, alike_tooDeep⟩
  | n + 1 => by
    obtain ⟨hstatement, hblock, hbranch, hloop⟩ := alike_statement owner n
    refine ⟨?_, fun title => alike_block hn hstatement, alike_branch hn hknown hblock,
      alike_loop hn hknown hblock⟩
    unfold statement
    intro s s' hs
    refine EndsAlike.look hs fun t t' rest hr ht => ?_
    rw [ht.kind, ht.lexeme]
    split
    · exact alike_declaration hs hr (Pairing.inside_of_ne (by simp [*]))
    · exact alike_declaration hs hr (Pairing.inside_of_ne (by simp [*]))
    · exact alike_declaration hs hr (Pairing.inside_of_ne (by simp [*]))
    · exact alike_printStatement hn hknown s s' hs
    · exact alike_assignment hn hknown s s' hs
    · exact hbranch s s' hs
    · exact hloop s s' hs
    · exact alike_returnStatement hn hknown s s' hs
    · exact alike_reject _ ht.place s s' hs
    · exact alike_reject _ ht.place s s' hs

end Statements

/-! ## Functions -/

section Functions

theorem alike_formal : ReadsAlike c formal formal Eq := by
  unfold formal
  refine alike_expectType.bind fun T T' hT => alike_expectName.bind fun name name' hname => ?_
  refine alike_pure ?_
  rw [hT, hname.valueText]

theorem consumes_formal : Consumes c formal :=
  fun _ _ => reads_formal.mono fun _ _ _ _ h => h.1

theorem alike_declareFormals (parent parent' : Nat) : ∀ bs : List Binding,
    ReadsAlike c (declareFormals parent bs) (declareFormals parent' bs) fun _ _ => True
  | [] => alike_pure trivial
  | b :: rest => by
    unfold declareFormals
    refine (alike_declare b).bind fun _ _ _ => (alike_addLeaf _ _ _ _).bind fun _ _ _ => ?_
    exact alike_declareFormals parent parent' rest

theorem consumes_function (known : Signatures) : Consumes c (function known frames) :=
  fun s _ => (reads_function s).mono fun _ _ _ _ h => h.1

/-- What is read behind the body of a function. -/
def functionClose (id : Nat) (p : Procedure) : Reader Procedure := do
  let _ ← expectKeyword .end_
  relabel id p.label
  finish id
  return p

variable {R : Procedure → Procedure → State → State → Prop}

theorem alike_functionEnd (hknown : SameSignatures known known')
    (hclose : ∀ i j p p', Procedure.Like c p p' →
      ReadsTo c.naming (functionClose i p) (functionClose j p') R)
    {t t' name name' : Token} {i j : Nat} (params : List Binding) (ht : t.Like c t')
    (hname : name.Like c name') (hij : SameNumber c i j) :
    ReadsTo c (functionEnd known frames t name i params)
      (functionEnd known' frames t' name' j params) R := by
  unfold functionEnd functionBody
  refine (alike_expectSymbol _).bind fun _ _ _ => ?_
  simp only [hname.valueText, hknown (some name.valueText)]
  cases known.get? (some name.valueText) with
  | none => exact alike_fail _ ht.place
  | some p =>
    refine alike_forget ((alike_declareFormals i j params).bind fun _ _ _ => ?_)
    refine ((alike_statement rfl hknown p frames).2.1 _).bind ?_
    rintro ⟨m, body⟩ ⟨m', body'⟩ ⟨hm, hbody⟩
    refine hclose i j _ _ ?_
    have hbody : Stmt.mapMarksAll c.kept body' = Stmt.mapMarksAll c.kept body := hbody
    have hmark : c.kept ⟨t'.pos, m'.id⟩ = c.kept ⟨t.pos, m.id⟩ := Pairing.kept_eq hm.id
    simp only [Procedure.Like, Procedure.mapMarks, (ht.numbered hij).kept_eq, hmark, hbody]

/-- **Functions are read alike**, as far as their END is. -/
theorem alike_function (hknown : SameSignatures known known')
    (hclose : ∀ i j p p', Procedure.Like c p p' →
      ReadsTo c.naming (functionClose i p) (functionClose j p') R) :
    ReadsTo c (function known frames) (function known' frames) R := by
  unfold function
  refine (alike_expectKeyword (Pairing.inside_of_ne (by simp))).bind fun t t' ht => ?_
  refine alike_expectType.bind fun _ _ _ => alike_expectName.bind fun name name' hname => ?_
  refine (alike_begin _ _).bind fun i j hij => (alike_expectSymbol _).bind fun _ _ _ => ?_
  refine alike_look fun u u' hu => ?_
  rw [hu.kind]
  dsimp only
  by_cases hk : u.kind = .symbol .rightParen
  · rw [if_pos hk, if_pos hk]
    exact alike_functionEnd hknown hclose [] ht hname hij
  · rw [if_neg hk, if_neg hk]
    refine alike_separated alike_formal consumes_formal consumes_formal fun params params' h => ?_
    rw [List.forall₂_eq_eq_eq] at h
    subst h
    exact alike_functionEnd hknown hclose params ht hname hij

end Functions

/-! ## Programs -/

section Programs

variable (hlast : c.last = .endOfInput) (hn : c.named = true)

include hlast hn

/-- Inside a whole text the END of a function is a token like any other. -/
theorem alike_whole_function (known : Signatures) :
    ReadsAlike c (function known frames) (function known frames) (Procedure.Like c) := by
  refine alike_function (fun _ => rfl) fun i j p p' hp => ?_
  rw [Pairing.naming_eq hn]
  refine (alike_expectKeyword fun _ => hlast).bind fun _ _ _ => ?_
  exact (alike_relabel _ _ _ _).bind fun _ _ _ => (alike_finish _ _).bind fun _ _ _ => alike_pure hp

omit hlast in
theorem alike_script (known : Signatures) :
    ReadsAlike c (script known frames) (script known frames) (Program.Like c) := by
  unfold script
  refine (alike_begin _ _).bind fun i j hij => alike_forget ?_
  rw [Pairing.naming_eq hn]
  refine ((alike_statement hn (fun _ => rfl) scriptPrototype frames).2.1 _).bind ?_
  rintro ⟨m, body⟩ ⟨m', body'⟩ ⟨hm, hbody⟩
  refine ReadsAlike.bind (alike_expect (by simp [Pairing.Inside])) fun _ _ _ => ?_
  refine (alike_finish _ _).bind fun _ _ _ => alike_pure ?_
  have hid : c.kept ⟨some 0, some j⟩ = c.kept ⟨some 0, some i⟩ :=
    Pairing.kept_eq fun hn => congrArg some (hij hn)
  have hmark : c.kept ⟨some 0, m'.id⟩ = c.kept ⟨some 0, m.id⟩ := Pairing.kept_eq hm.id
  simp only [Program.Like, Program.mapMarks, List.map_cons, List.map_nil, Procedure.mapMarks, hid,
    hmark, hbody]

/-- **Programs are read alike.** -/
theorem alike_program (known : Signatures) :
    ReadsAlike c (program known frames) (program known frames) (Program.Like c) := by
  unfold program
  refine alike_look fun u u' hu => ?_
  rw [hu.kind]
  split
  · refine alike_many (alike_whole_function hlast hn known) (consumes_function known)
      (consumes_function known) fun ps ps' hps => ?_
    refine ReadsAlike.bind (alike_expect (by simp [Pairing.Inside])) fun _ _ _ => alike_pure ?_
    simp only [Program.Like, Program.mapMarks, Procedure.map_mapMarks_of_like hps]
  · exact alike_script hn known

end Programs

end Grammar

end Slang
