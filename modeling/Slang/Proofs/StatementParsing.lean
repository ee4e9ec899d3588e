import Slang.Proofs.ExpressionParsing
import Slang.Proofs.ProgramGrammar

/-!
# The parser reads statements exactly

The parser checks types while it reads, against a table that it fills on the way.  What carries the
proofs through the blocks is that the table is always that of the declarations read so far
(`Table.ofBindings before`).

* `reads_expression`, `accepts_expression` — an expression that is read is derived and has its types
  recorded, and one that is derived and has a type is read.
* `reads_statement` — soundness: what is consumed derives the statement, which is admissible.
* `accepts_statement` — completeness: an admissible statement that is derived is read, unless the
  parser lacks frames.
-/

set_option autoImplicit false

namespace Slang.Grammar

variable {known : Signatures} {scope : Scope} {before : List Binding} {s : State}

/-! ## Soundness -/

/-- What is read as an expression is derived, and its types are recorded. -/
theorem reads_expression (n : Nat) : Reads (expression known n) s fun ts r s' =>
    Derives known .logical ts r.1.bare ∧ Settled known s.table.types r.1 r.2 ∧
      s'.table = s.table := by
  unfold expression
  refine Reads.bind ((reads_level known n).1 .logical s) ?_
  rintro ts parsed s₁ _ ⟨hd, ht₁⟩
  refine Reads.bind (Reads.get (P := fun us a s' => us = [] ∧ s₁ = a ∧ s₁ = s') ⟨rfl, rfl, rfl⟩) ?_
  rintro us _ _ _ ⟨rfl, rfl, rfl⟩
  split
  · exact Reads.throw
  · rename_i checked T hcheck
    obtain ⟨hrec, hty, hbare⟩ := Expr.check_ok hcheck
    have hen : (checked.enumerate s₁.nextId).1.bare = parsed := by
      rw [Expr.bare, Expr.mapInfo_enumerate, ← Expr.bare, hbare, hd.bare_eq]
    refine Reads.bind (Reads.set (P := fun us _ s' => us = [] ∧ s'.table = s₁.table) rfl rfl
      ⟨rfl, rfl⟩) ?_
    rintro vs _ s₃ _ ⟨rfl, ht₃⟩
    refine (still_announce _ _).reads_bind fun _ s₄ _ ht₄ => Reads.pure ⟨?_, ?_, ?_⟩
    · simpa [hen] using hd
    · refine ⟨?_, ?_, ?_⟩
      · rw [← ht₁]
        exact (recorded_enumerate _).mpr hrec
      · rw [Expr.ty?_enumerate, hty]
      · rw [← Expr.linked_bare, hen]
        exact hd.linked
    · rw [ht₄, ht₃, ht₁]

/-- What is read as a statement is derived, it is admissible behind the declarations `before`, and
its own declarations are added to them. -/
def StatementRead (scope : Scope) (before : List Binding) (ts : List Token) (a : Stmt)
    (s' : State) : Prop :=
  StmtDerives scope.known ts a.bare ∧
    a.Admits (Settled scope.known) scope.owner.returns before ∧
    s'.table = .ofBindings (before ++ a.declarations)

theorem reads_declaration {t : Token} {rest : List Token} {T : Ty} (hr : s.rest = t :: rest)
    (hT : t.kind.ty? = some T) (ht : s.table = .ofBindings before) :
    Reads declaration s (StatementRead scope before) := by
  unfold declaration
  refine (still_begin _).reads_bind fun id s₁ hr₁ ht₁ => ?_
  obtain ⟨w, hw, _⟩ := ty?_eq_some hT
  refine Reads.bind (Reads.advance (hr₁.trans hr) (by simp [hw])) ?_
  rintro ts u s₂ _ ⟨rfl, rfl, ht₂⟩
  refine Reads.bind (Reads.expect (by simp)) ?_
  rintro us name s₃ _ ⟨rfl, hn, ht₃⟩
  refine Reads.bind Reads.expectSymbol ?_
  rintro vs semicolon s₄ _ ⟨rfl, hs, ht₄⟩
  refine Reads.bind (Reads.modify (P := fun us _ s' => us = [] ∧
    s'.table = s₄.table.declare (.declared name.valueText (u.kind.ty?.getD .numeric))) rfl rfl
    ⟨rfl, rfl⟩) ?_
  rintro ws _ s₅ _ ⟨rfl, ht₅⟩
  refine (still_relabel _ _).reads_bind fun _ s₆ _ ht₆ => ?_
  refine (still_finish _).reads_bind fun _ s₇ _ ht₇ => Reads.pure ⟨?_, trivial, ?_⟩
  · simpa [Stmt.bare, hT] using @StmtDerives.declare scope.known _ _ _ _ hT (by simpa using hn) hs
  · rw [ht₇, ht₆, ht₅, ht₄, ht₃, ht₂, ht₁, ht, Table.ofBindings_append]
    rfl

theorem reads_printStatement (n : Nat) (ht : s.table = .ofBindings before) :
    Reads (printStatement scope n) s (StatementRead scope before) := by
  unfold printStatement
  refine (still_begin _).reads_bind fun id s₁ _ ht₁ => ?_
  refine Reads.bind Reads.expectKeyword ?_
  rintro ts t s₂ _ ⟨rfl, hk, ht₂⟩
  refine Reads.bind (reads_expression n) ?_
  rintro us ⟨e, T⟩ s₃ _ ⟨hd, he, ht₃⟩
  refine Reads.bind Reads.expectSymbol ?_
  rintro vs semicolon s₄ _ ⟨rfl, hs, ht₄⟩
  refine (still_finish _).reads_bind fun _ s₅ _ ht₅ => Reads.pure ⟨?_, ?_, ?_⟩
  · simpa [Stmt.bare] using StmtDerives.print hk hd hs
  · rw [ht₂, ht₁, ht, types_ofBindings] at he
    exact ⟨T, he⟩
  · rw [ht₅, ht₄, ht₃, ht₂, ht₁, ht]
    simp [Stmt.declarations]

theorem reads_assignment (n : Nat) (ht : s.table = .ofBindings before) :
    Reads (assignment scope n) s (StatementRead scope before) := by
  unfold assignment
  refine (still_begin _).reads_bind fun id s₁ _ ht₁ => ?_
  refine Reads.bind (Reads.expect (by simp)) ?_
  rintro ts name s₂ _ ⟨rfl, hn, ht₂⟩
  have htable : s₂.table = .ofBindings before := by rw [ht₂, ht₁, ht]
  refine Reads.bind (Reads.get (P := fun us a s' => us = [] ∧ s₂ = a ∧ s₂ = s') ⟨rfl, rfl, rfl⟩) ?_
  rintro us _ _ _ ⟨rfl, rfl, rfl⟩
  dsimp only
  split
  · exact Reads.fail
  · rename_i declared hdecl
    refine still_freshId.reads_bind fun targetId s₃ _ ht₃ => ?_
    refine (still_announce _ _).reads_bind fun _ s₄ _ ht₄ => ?_
    refine Reads.bind Reads.expectSymbol ?_
    rintro us equals s₅ _ ⟨rfl, ha, ht₅⟩
    refine Reads.bind (reads_expression n) ?_
    rintro vs ⟨e, T⟩ s₆ _ ⟨hd, he, ht₆⟩
    dsimp only
    split
    · exact Reads.bind Reads.fail fun _ _ _ _ h => h
    · rename_i hT
      refine Reads.bind Reads.expectSymbol ?_
      rintro ws semicolon s₇ _ ⟨rfl, hs, ht₇⟩
      refine (still_finish _).reads_bind fun _ s₈ _ ht₈ => Reads.pure ⟨?_, ?_, ?_⟩
      · simpa [Stmt.bare] using StmtDerives.assign (by simpa using hn) ha hd hs
      · rw [ht₅, ht₄, ht₃, htable, types_ofBindings] at he
        rw [htable] at hdecl
        refine ⟨declared.ty, ⟨?_, rfl, by simp [Expr.Linked, Expr.nodes]⟩,
          Decidable.not_not.mp hT ▸ he⟩
        have hΓ : latest before (some name.valueText) = some declared.ty := by
          rw [← types_ofBindings, Table.types, hdecl]
          rfl
        simpa [Expr.Recorded, Expr.nodes] using HasType.var hΓ
      · rw [ht₈, ht₇, ht₆, ht₅, ht₄, ht₃, htable]
        simp [Stmt.declarations]

theorem reads_returnStatement (n : Nat) (ht : s.table = .ofBindings before) :
    Reads (returnStatement scope n) s (StatementRead scope before) := by
  unfold returnStatement
  refine (still_begin _).reads_bind fun id s₁ _ ht₁ => ?_
  refine Reads.bind Reads.expectKeyword ?_
  rintro ts t s₂ _ ⟨rfl, hk, ht₂⟩
  have htable : s₂.table = .ofBindings before := by rw [ht₂, ht₁, ht]
  have htail : ∀ (value : Option Expr) (vs : List Token) (s₃ : State),
      s₃.table = .ofBindings before →
      (value = none ∧ vs = [] ∨ ∃ e, value = some e ∧ Derives scope.known .logical vs e.bare ∧
        Settled scope.known (latest before) e scope.owner.returns) →
      Reads (do
        let _ ← expectSymbol .semicolon
        finish id
        return .ret ⟨t.pos, some id⟩ value scope.owner.returns) s₃ fun ws a s' =>
          StatementRead scope before (t :: vs ++ ws) a s' := by
    intro value vs s₃ ht₃ hv
    refine Reads.bind Reads.expectSymbol ?_
    rintro ws semicolon s₄ _ ⟨rfl, hs, ht₄⟩
    refine (still_finish _).reads_bind fun _ s₅ _ ht₅ => Reads.pure ?_
    have ht₆ : s₅.table = .ofBindings (before ++ []) := by rw [ht₅, ht₄, ht₃, List.append_nil]
    rcases hv with ⟨rfl, rfl⟩ | ⟨e, rfl, hd, he⟩
    · exact ⟨StmtDerives.leave hk hs, by simp [Stmt.Admits], ht₆⟩
    · refine ⟨?_, by simpa [Stmt.Admits] using he, ht₆⟩
      simpa [Stmt.bare] using StmtDerives.ret hk hd hs
  refine Reads.bind Reads.current ?_
  rintro _ u _ _ ⟨rfl, rfl, rest, hr⟩
  dsimp only
  split
  · exact htail none [] _ htable (.inl ⟨rfl, rfl⟩)
  · refine Reads.bind (reads_expression n) ?_
    rintro vs ⟨e, T⟩ s₃ _ ⟨hd, he, ht₃⟩
    dsimp only
    split
    · exact Reads.bind Reads.fail fun _ _ _ _ h => h
    · rename_i hT
      rw [htable, types_ofBindings] at he
      exact htail (some e) vs s₃ (ht₃.trans htable)
        (.inr ⟨e, rfl, hd, Decidable.not_not.mp hT ▸ he⟩)

theorem reads_condition (statement : CompileError.Conditional) (n : Nat) :
    Reads (condition scope statement n) s fun ts e s' =>
      Derives scope.known .logical ts e.bare ∧
        Settled scope.known s.table.types e (some .boolean) ∧ s'.table = s.table := by
  unfold condition
  refine (still_begin _).reads_bind fun id s₁ _ ht₁ => ?_
  refine Reads.bind Reads.current ?_
  rintro us u _ _ ⟨rfl, rfl, rest, hr⟩
  refine Reads.bind (reads_expression n) ?_
  rintro vs ⟨e, T⟩ s₂ _ ⟨hd, he, ht₂⟩
  dsimp only
  split
  · exact Reads.bind Reads.fail fun _ _ _ _ h => h
  · rename_i hT
    rw [ht₁, Decidable.not_not.mp hT] at he
    refine (still_finish _).reads_bind fun _ s₃ _ ht₃ => Reads.pure ⟨?_, he, ?_⟩
    · simpa using hd
    · rw [ht₃, ht₂, ht₁]

section Blocks

variable {P : List Token → Stmt → Prop} {J : Types → Expr → Tag → Prop} {returns : Tag}

/-- Statements that are judged one after the other are judged as a list. -/
theorem along_iff : ∀ {items : List (List Token × Stmt)} {before : List Binding},
    Along (fun before ts a => P ts a ∧ a.Admits J returns before)
        (fun before a => before ++ a.declarations) before items ↔
      (∀ i ∈ items, P i.1 i.2) ∧ Stmt.AdmitsAll J returns before (items.map (·.2))
  | [], _ => by simp [Along, Stmt.AdmitsAll]
  | i :: items, before => by
    simp only [Along, along_iff, List.map_cons, Stmt.AdmitsAll, List.forall_mem_cons]
    constructor
    · rintro ⟨⟨hp, ha⟩, hps, has⟩
      exact ⟨⟨hp, hps⟩, ha, has⟩
    · rintro ⟨⟨hp, hps⟩, ha, has⟩
      exact ⟨⟨hp, ha⟩, hps, has⟩

theorem leaves_declarations : ∀ (items : List (List Token × Stmt)) (before : List Binding),
    leaves (fun before (a : Stmt) => before ++ a.declarations) before items =
      before ++ Stmt.declarationsAll (items.map (·.2))
  | [], before => by simp [leaves, Stmt.declarationsAll]
  | i :: items, before => by
    have ih := leaves_declarations items (before ++ i.2.declarations)
    simp only [leaves, List.foldl_cons] at ih ⊢
    rw [ih]
    simp [Stmt.declarationsAll]

end Blocks

/-- A block starts at its first token, or at the token behind it. -/
theorem headMark_eq {u t : Token} {us ts rest : List Token} (h : u :: us = ts ++ t :: rest) :
    headMark (ts ++ [t]) = .ofPos u.pos := by
  cases ts with
  | nil =>
    obtain ⟨rfl, _⟩ := List.cons.inj h
    rfl
  | cons v ts =>
    obtain ⟨rfl, _⟩ := List.cons.inj h
    rfl

/-- What is read as a block is derived statement by statement, its statements are admissible one
after the other, and the token behind it is still there. -/
def BlockRead (scope : Scope) (before : List Binding) (ts : List Token) (r : Mark × List Stmt)
    (s' : State) : Prop :=
  ∃ (items : List (List Token × Stmt)) (t : Token) (rest : List Token),
    ts = tokensOf items ∧ (∀ i ∈ items, StmtDerives scope.known i.1 i.2) ∧
      Stmt.bareAll r.2 = items.map (·.2) ∧ s'.rest = t :: rest ∧
      r.1.place = headMark (ts ++ [t]) ∧
      Stmt.AdmitsAll (Settled scope.known) scope.owner.returns before r.2 ∧
      s'.table = .ofBindings (before ++ Stmt.declarationsAll r.2)

theorem reads_block {n : Nat} {title : String}
    (hstatement : ∀ before s, s.table = .ofBindings before →
      Reads (statement scope n) s (StatementRead scope before))
    (ht : s.table = .ofBindings before) :
    Reads (block scope title (n + 1)) s (BlockRead scope before) := by
  unfold block
  refine (still_begin _).reads_bind fun id s₁ _ ht₁ => ?_
  refine Reads.bind Reads.current ?_
  rintro _ u _ _ ⟨rfl, rfl, rest, hr⟩
  refine Reads.bind Reads.remaining ?_
  rintro _ k _ _ ⟨rfl, rfl, rfl⟩
  have hitem : ∀ (before : List Binding) (s : State), s.table = .ofBindings before →
      Reads (statement scope n) s fun ts a s' => ts ≠ [] ∧
        (StmtDerives scope.known ts a.bare ∧
          a.Admits (Settled scope.known) scope.owner.returns before) ∧
        s'.table = .ofBindings (before ++ a.declarations) := by
    intro before s ht
    refine (hstatement before s ht).mono ?_
    rintro ts a s' _ ⟨hd, ha, ht⟩
    obtain ⟨t, us, rfl, _⟩ := hd.starts
    exact ⟨by simp, ⟨hd, ha⟩, ht⟩
  refine Reads.bind (Reads.many hitem _ [] before _ (ht₁.trans ht) (Nat.le_refl _)) ?_
  rintro _ _ s₂ hm ⟨items, rfl, hal, rfl, ht₂, t, rest', hr₂, _⟩
  obtain ⟨hd, ha⟩ := along_iff.mp hal
  rw [leaves_declarations] at ht₂
  refine (still_finish _).reads_bind fun _ s₃ hr₃ ht₃ => Reads.pure ?_
  simp only [List.nil_append, List.append_nil]
  refine ⟨items.map fun i => (i.1, i.2.bare), t, rest', ?_, ?_, ?_, hr₃.trans hr₂, ?_, ha, ?_⟩
  · rw [tokensOf, List.map_map]
    rfl
  · exact List.forall_mem_map.mpr hd
  · simp [Stmt.bareAll_eq, Function.comp_def]
  · have hsplit : u :: rest = tokensOf items ++ t :: rest' := by rw [← hr, hm.rest, hr₂]
    exact (headMark_eq hsplit).symm
  · simpa using ht₃.trans ht₂

theorem reads_branch {n : Nat} (ht : s.table = .ofBindings before)
    (hblock : ∀ title before s, s.table = .ofBindings before →
      Reads (block scope title n) s (BlockRead scope before)) :
    Reads (branch scope (n + 1)) s (StatementRead scope before) := by
  unfold branch
  refine (still_begin _).reads_bind fun id s₁ _ ht₁ => ?_
  refine Reads.bind Reads.expectKeyword ?_
  rintro ts t s₂ _ ⟨rfl, hk, ht₂⟩
  have htable : s₂.table = .ofBindings before := by rw [ht₂, ht₁, ht]
  refine Reads.bind (reads_condition _ n) ?_
  rintro cs c s₃ _ ⟨hd, hc, ht₃⟩
  rw [htable, types_ofBindings] at hc
  refine Reads.bind Reads.expectKeyword ?_
  rintro us then_ s₄ _ ⟨rfl, hthen, ht₄⟩
  refine Reads.bind (hblock _ before s₄ (by rw [ht₄, ht₃, htable])) ?_
  rintro _ ⟨thenMark, body⟩ s₅ _ ⟨items, u, rest, rfl, hitems, hbody, hr₅, hmark, hadm, ht₅⟩
  refine Reads.bind (Reads.accept rfl) ?_
  rintro vs (_ | ⟨⟨⟩, else_⟩) s₆ hm₆ ⟨ht₆, hf⟩
  · obtain ⟨rfl, v, rest', hr₆, hv⟩ := hf
    refine Reads.bind (Reads.expect (by simp)) ?_
    rintro ws endif s₇ hm₇ ⟨rfl, hend, ht₇⟩
    obtain ⟨rfl, -⟩ : v = endif ∧ rest' = s₇.rest := by simpa [hr₆] using hm₇.rest
    obtain ⟨rfl, -⟩ : u = v ∧ rest = rest' := by simpa [hr₅, hr₆] using hm₆.rest
    have hend : u.kind = .keyword .endif := by simp_all
    refine (still_finish _).reads_bind fun _ s₈ _ ht₈ => Reads.pure ⟨?_, ⟨hc, hadm⟩, ?_⟩
    · simpa [Stmt.bare, hmark, hbody] using StmtDerives.ifThen hk hd hthen hitems hend
    · rw [ht₈, ht₇, ht₆, ht₅]
      rfl
  · obtain ⟨rfl, helse⟩ := hf
    have helse : else_.kind = .keyword .else_ := by simpa using helse
    obtain ⟨rfl, -⟩ : u = else_ ∧ rest = s₆.rest := by simpa [hr₅] using hm₆.rest
    refine Reads.bind (hblock _ _ s₆ (ht₆.trans ht₅)) ?_
    rintro _ ⟨elseMark, other⟩ s₇ _
      ⟨items', v, rest', rfl, hitems', hother, hr₇, hmark', hadm', ht₇⟩
    refine Reads.bind Reads.expectKeyword ?_
    rintro ws endif s₈ hm₈ ⟨rfl, hend, ht₈⟩
    obtain ⟨rfl, -⟩ : v = endif ∧ rest' = s₈.rest := by simpa [hr₇] using hm₈.rest
    refine (still_finish _).reads_bind fun _ s₉ _ ht₉ => Reads.pure ⟨?_, ⟨hc, hadm, hadm'⟩, ?_⟩
    · simpa [Stmt.bare, hmark, hbody, hmark', hother] using
        StmtDerives.ifElse hk hd hthen hitems helse hitems' hend
    · rw [ht₉, ht₈, ht₇, List.append_assoc]
      rfl

theorem reads_loop {n : Nat} (ht : s.table = .ofBindings before)
    (hblock : ∀ title before s, s.table = .ofBindings before →
      Reads (block scope title n) s (BlockRead scope before)) :
    Reads (loop scope (n + 1)) s (StatementRead scope before) := by
  unfold loop
  refine (still_begin _).reads_bind fun id s₁ _ ht₁ => ?_
  refine Reads.bind Reads.expectKeyword ?_
  rintro ts t s₂ _ ⟨rfl, hk, ht₂⟩
  have htable : s₂.table = .ofBindings before := by rw [ht₂, ht₁, ht]
  refine Reads.bind (reads_condition _ n) ?_
  rintro cs c s₃ _ ⟨hd, hc, ht₃⟩
  rw [htable, types_ofBindings] at hc
  refine Reads.bind (hblock _ before s₃ (ht₃.trans htable)) ?_
  rintro _ ⟨bodyMark, body⟩ s₄ _ ⟨items, u, rest, rfl, hitems, hbody, hr₄, hmark, hadm, ht₄⟩
  refine Reads.bind Reads.expectKeyword ?_
  rintro ws wend s₅ hm₅ ⟨rfl, hend, ht₅⟩
  obtain ⟨rfl, -⟩ : u = wend ∧ rest = s₅.rest := by simpa [hr₄] using hm₅.rest
  refine (still_finish _).reads_bind fun _ s₆ _ ht₆ => Reads.pure ⟨?_, ⟨hc, hadm⟩, ?_⟩
  · simpa [Stmt.bare, hmark, hbody] using StmtDerives.whileDo hk hd hitems hend
  · rw [ht₆, ht₅, ht₄]
    rfl

/-- **What is read as a statement is derived and admissible.** -/
theorem reads_statement (scope : Scope) : ∀ (n : Nat),
    (∀ before s, s.table = .ofBindings before →
      Reads (statement scope n) s (StatementRead scope before)) ∧
    (∀ title before s, s.table = .ofBindings before →
      Reads (block scope title n) s (BlockRead scope before)) ∧
    (∀ before s, s.table = .ofBindings before →
      Reads (branch scope n) s (StatementRead scope before)) ∧
    (∀ before s, s.table = .ofBindings before →
      Reads (loop scope n) s (StatementRead scope before))
  | 0 => by
    refine ⟨?_, ?_, ?_, ?_⟩ <;> intros <;> exact reads_tooDeep
  | n + 1 => by
    obtain ⟨hstatement, hblock, hbranch, hloop⟩ := reads_statement scope n
    refine ⟨fun before s ht => ?_, fun title before s ht => reads_block hstatement ht,
      fun before s ht => reads_branch ht hblock, fun before s ht => reads_loop ht hblock⟩
    unfold statement
    refine Reads.bind Reads.current ?_
    rintro _ t _ _ ⟨rfl, rfl, rest, hr⟩
    split
    · exact reads_declaration hr (by rw [‹t.kind = _›]; rfl) ht
    · exact reads_declaration hr (by rw [‹t.kind = _›]; rfl) ht
    · exact reads_declaration hr (by rw [‹t.kind = _›]; rfl) ht
    · exact reads_printStatement n ht
    · exact reads_assignment n ht
    · exact hbranch before _ ht
    · exact hloop before _ ht
    · exact reads_returnStatement n ht
    · exact Reads.bind Reads.report fun _ _ _ _ _ => Reads.fail
    · exact Reads.bind Reads.report fun _ _ _ _ _ => Reads.fail

/-! ## Completeness -/

/-- A tree that is read and has a type is checked, numbered and announced. -/
theorem accepts_checked {n : Nat} {ts rest : List Token} {e : Expr} {T : Tag} {P short : Prop}
    (hl : Accepts (logical known n) s ts (fun e' s' => Returned s e e' s' ∧ P) short)
    (hT : HasType s.table.types e T) (hr : s.rest = ts ++ rest) (hrest : rest ≠ []) :
    Accepts (expression known n) s ts
      (fun r s' => (r.1.bare = e.bare ∧ r.2 = T ∧ s'.table = s.table) ∧ P) short := by
  unfold expression
  refine hl.bind_nil ?_
  rintro _ s₁ hm ⟨⟨rfl, ht₁⟩, hP⟩
  refine (Accepts.get (P := fun a s' => s₁ = a ∧ s₁ = s') ⟨rfl, rfl⟩).bind_nil ?_
  rintro _ _ _ ⟨rfl, rfl⟩
  rw [← ht₁] at hT
  obtain ⟨checked, hcheck⟩ := Expr.check_of_hasType hT
  simp only [hcheck]
  have hbare := (Expr.check_ok hcheck).2.2
  refine Accepts.bind_nil (Accepts.set (P := fun _ s' => s'.rest = s₁.rest ∧
    s'.table = s₁.table) rfl rfl ⟨rfl, rfl⟩) ?_
  rintro _ s₂ _ ⟨hr₂, ht₂⟩
  have hne : s₂.rest ≠ [] := by
    rw [hr₂, hm.ahead hr]
    exact hrest
  refine (still_announce _ _).accepts_bind hne fun _ s₃ _ ht₃ => Accepts.pure ⟨⟨?_, rfl, ?_⟩, hP⟩
  · rw [Expr.bare, Expr.mapInfo_enumerate, ← Expr.bare, hbare]
  · rw [ht₃, ht₂, ht₁]

/-- An expression that is derived and has a type is read, unless the parser lacks frames. -/
theorem accepts_expression {n : Nat} {ts rest : List Token} {e : Expr} {T : Tag}
    (hd : Derives known .logical ts e) (hT : HasType s.table.types e T)
    (hr : s.rest = ts ++ rest) (hs : Level.Stops .logical rest) :
    Accepts (expression known n) s ts
      (fun r s' => r.1.bare = e ∧ r.2 = T ∧ s'.table = s.table) True := by
  have hne : rest ≠ [] := by
    rintro rfl
    exact hs
  have hl : Accepts (logical known n) s ts (fun e' s' => Returned s e e' s' ∧ True) True :=
    (accepts_level hd n s rest hr hs).mono (fun _ _ _ h => ⟨h, trivial⟩) fun _ => trivial
  refine (accepts_checked hl hT hr hne).mono ?_ id
  rintro ⟨e', T'⟩ s' _ ⟨⟨he, hrest⟩, -⟩
  exact ⟨he.trans hd.bare_eq, hrest⟩

/-- The statement is read, and its declarations are added. -/
def StatementReturned (before : List Binding) (a : Stmt) (a' : Stmt) (s' : State) : Prop :=
  a'.bare = a ∧ s'.table = .ofBindings (before ++ a.declarations)

/-- Whatever the frames, the parser reads the statement or lacks frames. -/
def StmtComplete (scope : Scope) (ts : List Token) (a : Stmt) : Prop :=
  ∀ before n s rest, a.Admits HasType scope.owner.returns before →
    s.table = .ofBindings before → s.rest = ts ++ rest → rest ≠ [] →
    Accepts (statement scope n) s ts (StatementReturned before a) True

theorem stmtComplete_of_succ {ts : List Token} {a : Stmt} (hne : ts ≠ [])
    (h : ∀ before n s rest, a.Admits HasType scope.owner.returns before →
      s.table = .ofBindings before → s.rest = ts ++ rest → rest ≠ [] →
      Accepts (statement scope (n + 1)) s ts (StatementReturned before a) True) :
    StmtComplete scope ts a := by
  rintro before (_ | n) s rest ha ht hr hrest
  · obtain ⟨t, ts, rfl⟩ := List.exists_cons_of_ne_nil hne
    exact Accepts.tooDeep hr trivial
  · exact h before n s rest ha ht hr hrest

variable {t : Token} {ts rest : List Token} {n : Nat}

theorem accepts_declaration {name semicolon : Token} {T : Ty} (hT : t.kind.ty? = some T)
    (hn : name.kind = .identifier) (hs : semicolon.kind = .symbol .semicolon)
    (ht : s.table = .ofBindings before) (hr : s.rest = [t, name, semicolon] ++ rest)
    (hrest : rest ≠ []) :
    Accepts declaration s [t, name, semicolon]
      (StatementReturned before (.declare (.ofPos t.pos) (.declared name.valueText T))) True := by
  unfold declaration
  refine (still_begin _).accepts_bind (by simp [hr]) fun id s₁ hr₁ ht₁ => ?_
  obtain ⟨w, hw, _⟩ := ty?_eq_some hT
  rw [hr] at hr₁
  refine (Accepts.advance hr₁ (by simp [hw])).bind [name, semicolon] ?_
  rintro t s₂ hm₂ ⟨rfl, ht₂⟩
  have hr₂ := hm₂.ahead hr₁
  refine (Accepts.expect hr₂ (by simp [hn]) (by simp [hn])).bind [semicolon] ?_
  rintro name s₃ hm₃ ⟨rfl, ht₃⟩
  have hr₃ := hm₃.ahead hr₂
  refine (Accepts.expectSymbol hr₃ hs).bind_nil ?_
  rintro semicolon s₄ hm₄ ⟨rfl, ht₄⟩
  have hr₄ := hm₄.ahead hr₃
  simp only [hT, Option.getD_some]
  refine (Accepts.modify (P := fun _ s' => s'.rest = s₄.rest ∧
    s'.table = s₄.table.declare (.declared name.valueText T)) rfl rfl ⟨rfl, rfl⟩).bind_nil ?_
  rintro _ s₅ _ ⟨hr₅, ht₅⟩
  rw [hr₄] at hr₅
  refine (still_relabel _ _).accepts_bind (hr₅ ▸ hrest) fun _ s₆ hr₆ ht₆ => ?_
  rw [hr₅] at hr₆
  refine (still_finish _).accepts_bind (hr₆ ▸ hrest) fun _ s₇ _ ht₇ => Accepts.pure ⟨rfl, ?_⟩
  rw [ht₇, ht₆, ht₅, ht₄, ht₃, ht₂, ht₁, ht, Table.ofBindings_append]
  rfl

/-- Whatever becomes of the expression of a PRINT becomes of the PRINT. -/
theorem accepts_print {semicolon : Token} {e : Expr} {P short : Prop}
    (hk : t.kind = .keyword .print) (hs : semicolon.kind = .symbol .semicolon)
    (hr : s.rest = t :: (ts ++ [semicolon]) ++ rest) (hrest : rest ≠ [])
    (he : ∀ s', s'.rest = ts ++ semicolon :: rest → s'.table = s.table →
      Accepts (expression scope.known n) s' ts
        (fun r s'' => (r.1.bare = e ∧ s''.table = s'.table) ∧ P) short) :
    Accepts (printStatement scope n) s (t :: (ts ++ [semicolon]))
      (fun a s' => (a.bare = .print (.ofPos t.pos) e ∧ s'.table = s.table) ∧ P) short := by
  unfold printStatement
  refine (still_begin _).accepts_bind (by simp [hr]) fun id s₁ hr₁ ht₁ => ?_
  rw [hr] at hr₁
  refine (Accepts.expectKeyword hr₁ hk).bind (ts ++ [semicolon]) ?_
  rintro t s₂ hm₂ ⟨rfl, ht₂⟩
  have hr₂ : s₂.rest = ts ++ semicolon :: rest := by simpa using hm₂.ahead hr₁
  refine (he s₂ hr₂ (ht₂.trans ht₁)).bind [semicolon] ?_
  rintro ⟨e', T⟩ s₃ hm₃ ⟨⟨he', ht₃⟩, hP⟩
  have hr₃ := hm₃.ahead hr₂
  refine (Accepts.expectSymbol hr₃ hs).bind_nil ?_
  rintro semicolon s₄ hm₄ ⟨rfl, ht₄⟩
  have hr₄ : s₄.rest = rest := hm₄.ahead hr₃
  refine (still_finish _).accepts_bind (hr₄ ▸ hrest) fun _ s₅ _ ht₅ =>
    Accepts.pure ⟨⟨?_, ?_⟩, hP⟩
  · exact congrArg (Stmt.print (.ofPos t.pos)) he'
  · rw [ht₅, ht₄, ht₃, ht₂, ht₁]

theorem accepts_printStatement {semicolon : Token} {e : Expr} {T : Tag}
    (hk : t.kind = .keyword .print) (hd : Derives scope.known .logical ts e)
    (hs : semicolon.kind = .symbol .semicolon) (hT : HasType (latest before) e T)
    (ht : s.table = .ofBindings before) (hr : s.rest = t :: (ts ++ [semicolon]) ++ rest)
    (hrest : rest ≠ []) :
    Accepts (printStatement scope n) s (t :: (ts ++ [semicolon]))
      (StatementReturned before (.print (.ofPos t.pos) e)) True := by
  refine (@accepts_print scope s t ts rest n semicolon e True True hk hs hr hrest ?_).mono ?_ id
  · intro s' hr' ht'
    rw [← types_ofBindings, ← ht, ← ht'] at hT
    refine (accepts_expression hd hT hr' (stops_symbol rest hs (.inr (.inr rfl)))).mono ?_ id
    rintro r s'' _ ⟨he, -, htable⟩
    exact ⟨⟨he, htable⟩, trivial⟩
  · rintro a s' _ ⟨⟨ha, htable⟩, -⟩
    refine ⟨ha, ?_⟩
    rw [htable, ht]
    simp [Stmt.declarations]

theorem accepts_assignment {name equals semicolon : Token} {e : Expr} {T : Tag}
    (hn : name.kind = .identifier) (ha : equals.kind = .symbol .assign)
    (hd : Derives scope.known .logical ts e) (hs : semicolon.kind = .symbol .semicolon)
    (hΓ : latest before (some name.valueText) = some T) (hT : HasType (latest before) e T)
    (ht : s.table = .ofBindings before)
    (hr : s.rest = name :: equals :: (ts ++ [semicolon]) ++ rest) (hrest : rest ≠ []) :
    Accepts (assignment scope n) s (name :: equals :: (ts ++ [semicolon]))
      (StatementReturned before
        (.assign (.ofPos name.pos) ⟨.ofPos name.pos, none, some name.valueText⟩ e)) True := by
  unfold assignment
  refine (still_begin _).accepts_bind (by simp [hr]) fun id s₁ hr₁ ht₁ => ?_
  rw [hr] at hr₁
  refine (Accepts.expect hr₁ (by simp [hn]) (by simp [hn])).bind (equals :: (ts ++ [semicolon])) ?_
  rintro name s₂ hm₂ ⟨rfl, ht₂⟩
  have hr₂ := hm₂.ahead hr₁
  have htable : s₂.table = .ofBindings before := by rw [ht₂, ht₁, ht]
  refine (Accepts.get (P := fun a s' => s₂ = a ∧ s₂ = s') ⟨rfl, rfl⟩).bind
    (equals :: (ts ++ [semicolon])) ?_
  rintro _ _ _ ⟨rfl, rfl⟩
  rw [← types_ofBindings, ← htable] at hΓ hT
  obtain ⟨declared, hdecl, rfl⟩ := Option.map_eq_some_iff.mp hΓ
  simp only [hdecl]
  refine still_freshId.accepts_bind (by simp [hr₂]) fun targetId s₃ hr₃ ht₃ => ?_
  rw [hr₂] at hr₃
  refine (still_announce _ _).accepts_bind (by simp [hr₃]) fun _ s₄ hr₄ ht₄ => ?_
  rw [hr₃] at hr₄
  refine (Accepts.expectSymbol hr₄ ha).bind (ts ++ [semicolon]) ?_
  rintro equals s₅ hm₅ ⟨rfl, ht₅⟩
  have hr₅ : s₅.rest = ts ++ semicolon :: rest := by simpa using hm₅.ahead hr₄
  have ht₅' : s₅.table = s₂.table := by rw [ht₅, ht₄, ht₃]
  rw [← ht₅'] at hT
  refine (accepts_expression hd hT hr₅ (stops_symbol rest hs (.inr (.inr rfl)))).bind [semicolon] ?_
  rintro ⟨e', T'⟩ s₆ hm₆ ⟨he, rfl, ht₆⟩
  have hr₆ := hm₆.ahead hr₅
  simp only [ne_eq, not_true_eq_false, if_false]
  refine (Accepts.expectSymbol hr₆ hs).bind_nil ?_
  rintro semicolon s₇ hm₇ ⟨rfl, ht₇⟩
  have hr₇ : s₇.rest = rest := hm₇.ahead hr₆
  refine (still_finish _).accepts_bind (hr₇ ▸ hrest) fun _ s₈ _ ht₈ => Accepts.pure ⟨?_, ?_⟩
  · exact congrArg (Stmt.assign (.ofPos name.pos) _) he
  · rw [ht₈, ht₇, ht₆, ht₅', htable]
    simp [Stmt.declarations]

/-- The end of a RETURN, with its value read or left out. -/
theorem accepts_returnEnd {semicolon : Token} {value : Option Expr} {id : Nat}
    (hs : semicolon.kind = .symbol .semicolon) (ht : s.table = .ofBindings before)
    (hr : s.rest = semicolon :: rest) (hrest : rest ≠ []) :
    Accepts (do
      let _ ← expectSymbol .semicolon
      finish id
      return Stmt.ret ⟨t.pos, some id⟩ value scope.owner.returns) s [semicolon]
      (StatementReturned before (.ret (.ofPos t.pos) (value.map Expr.bare) none)) True := by
  refine (Accepts.expectSymbol hr hs).bind_nil ?_
  rintro semicolon s₁ hm₁ ⟨rfl, ht₁⟩
  have hr₁ : s₁.rest = rest := hm₁.ahead hr
  refine (still_finish _).accepts_bind (hr₁ ▸ hrest) fun _ s₂ _ ht₂ => Accepts.pure ⟨rfl, ?_⟩
  rw [ht₂, ht₁, ht]
  simp [Stmt.declarations]

theorem accepts_leave {semicolon : Token} (hk : t.kind = .keyword .return_)
    (hs : semicolon.kind = .symbol .semicolon) (ht : s.table = .ofBindings before)
    (hr : s.rest = [t, semicolon] ++ rest) (hrest : rest ≠ []) :
    Accepts (returnStatement scope n) s [t, semicolon]
      (StatementReturned before (.ret (.ofPos t.pos) none none)) True := by
  unfold returnStatement
  refine (still_begin _).accepts_bind (by simp [hr]) fun id s₁ hr₁ ht₁ => ?_
  rw [hr] at hr₁
  refine (Accepts.expectKeyword hr₁ hk).bind [semicolon] ?_
  rintro t s₂ hm₂ ⟨rfl, ht₂⟩
  have hr₂ : s₂.rest = semicolon :: rest := hm₂.ahead hr₁
  refine Accepts.look hr₂ ?_
  simp only [hs, if_true]
  exact accepts_returnEnd hs (by rw [ht₂, ht₁, ht]) hr₂ hrest

theorem accepts_return {semicolon : Token} {e : Expr} (hk : t.kind = .keyword .return_)
    (hd : Derives scope.known .logical ts e) (hs : semicolon.kind = .symbol .semicolon)
    (hT : HasType (latest before) e scope.owner.returns) (ht : s.table = .ofBindings before)
    (hr : s.rest = t :: (ts ++ [semicolon]) ++ rest) (hrest : rest ≠ []) :
    Accepts (returnStatement scope n) s (t :: (ts ++ [semicolon]))
      (StatementReturned before (.ret (.ofPos t.pos) (some e) none)) True := by
  unfold returnStatement
  refine (still_begin _).accepts_bind (by simp [hr]) fun id s₁ hr₁ ht₁ => ?_
  rw [hr] at hr₁
  refine (Accepts.expectKeyword hr₁ hk).bind (ts ++ [semicolon]) ?_
  rintro t s₂ hm₂ ⟨rfl, ht₂⟩
  have hr₂ : s₂.rest = ts ++ semicolon :: rest := by simpa using hm₂.ahead hr₁
  have htable : s₂.table = .ofBindings before := by rw [ht₂, ht₁, ht]
  rw [← types_ofBindings, ← htable] at hT
  -- an expression does not begin with the semicolon that a bare RETURN is told by
  obtain ⟨u, us, hu, hstart⟩ := hd.starts
  have hcur : s₂.rest = u :: (us ++ semicolon :: rest) := by rw [hr₂, hu, List.cons_append]
  refine Accepts.look hcur ?_
  have hne : u.kind ≠ .symbol .semicolon := fun h => by rw [h] at hstart; cases hstart
  simp only [hne, if_false]
  refine (accepts_expression hd hT hr₂ (stops_symbol rest hs (.inr (.inr rfl)))).bind [semicolon] ?_
  rintro ⟨e', T'⟩ s₃ hm₃ ⟨rfl, rfl, ht₃⟩
  simp only [ne_eq, not_true_eq_false, if_false]
  exact accepts_returnEnd hs (ht₃.trans htable) (hm₃.ahead hr₂) hrest

theorem accepts_condition {c : Expr} (kind : CompileError.Conditional)
    (hd : Derives scope.known .logical ts c) (hT : HasType (latest before) c (some .boolean))
    (ht : s.table = .ofBindings before) (hr : s.rest = ts ++ rest)
    (hs : Level.Stops .logical rest) :
    Accepts (condition scope kind n) s ts (fun c' s' => c'.bare = c ∧ s'.table = s.table)
      True := by
  obtain ⟨u, us, hu, _⟩ := hd.starts
  have hne : s.rest ≠ [] := by simp [hr, hu]
  unfold condition
  refine (still_begin _).accepts_bind hne fun id s₁ hr₁ ht₁ => ?_
  rw [hr] at hr₁
  have hcur : s₁.rest = u :: (us ++ rest) := by rw [hr₁, hu, List.cons_append]
  refine Accepts.look hcur ?_
  rw [← types_ofBindings, ← ht, ← ht₁] at hT
  refine (accepts_expression hd hT hr₁ hs).bind_nil ?_
  rintro ⟨c', T'⟩ s₂ hm₂ ⟨hc, rfl, ht₂⟩
  simp only [ne_eq, not_true_eq_false, if_false]
  have hrest : s₂.rest ≠ [] := by
    rw [hm₂.ahead hr₁]
    rintro rfl
    exact hs
  refine (still_finish _).accepts_bind hrest fun _ s₃ _ ht₃ => Accepts.pure ⟨hc, ?_⟩
  rw [ht₃, ht₂, ht₁]

/-- The statements of the block are read, and their declarations are added. -/
def BlockReturned (before : List Binding) (mark : Mark) (body : List Stmt) (r : Mark × List Stmt)
    (s' : State) : Prop :=
  r.1.place = mark ∧ Stmt.bareAll r.2 = body ∧
    s'.table = .ofBindings (before ++ Stmt.declarationsAll body)

/-- Where every item has a token there are no more items than tokens. -/
theorem length_le_tokensOf {α : Type} {items : List (List Token × α)}
    (h : ∀ i ∈ items, ∃ t us, i.1 = t :: us) : items.length ≤ (tokensOf items).length := by
  induction items with
  | nil => simp
  | cons i items ih =>
    obtain ⟨u, us, hu⟩ := h i (by simp)
    have := ih fun j hj => h j (by simp [hj])
    simp only [tokensOf, List.map_cons, List.flatten_cons, List.length_append, List.length_cons,
      hu] at this ⊢
    omega

/-- **Behind a block of admissible statements the block has been read, or it lacks frames.** -/
theorem accepts_block {items : List (List Token × Stmt)} (title : String)
    (hd : ∀ i ∈ items, StmtDerives scope.known i.1 i.2)
    (ih : ∀ i ∈ items, StmtComplete scope i.1 i.2)
    (ha : Stmt.AdmitsAll HasType scope.owner.returns before (items.map (·.2)))
    (ht : s.table = .ofBindings before) (hr : s.rest = tokensOf items ++ t :: rest)
    (hend : endsBlock t.kind = true) :
    Accepts (block scope title n) s (tokensOf items)
      (BlockReturned before (headMark (tokensOf items ++ [t])) (items.map (·.2))) True := by
  obtain ⟨u, us, hu⟩ : ∃ u us, tokensOf items ++ t :: rest = u :: us :=
    List.exists_cons_of_ne_nil (by simp)
  cases n with
  | zero => exact Accepts.tooDeep (hr.trans hu) trivial
  | succ n =>
    unfold block
    refine (still_begin _).accepts_bind (by simp [hr]) fun id s₁ hr₁ ht₁ => ?_
    rw [hr] at hr₁
    refine Accepts.look (hr₁.trans hu) ?_
    refine Accepts.remaining.bind (tokensOf items) ?_
    rintro _ s₂ _ ⟨rfl, rfl⟩
    have hitem : ∀ i ∈ items, ∀ (before : List Binding) (s : State) (more : List Token),
        StmtDerives scope.known i.1 i.2 ∧ i.2.Admits HasType scope.owner.returns before →
        s.table = .ofBindings before → s.rest = i.1 ++ more → more ≠ [] →
        (∃ u us, i.1 = u :: us ∧ (!endsBlock u.kind) = true) ∧
        Accepts (statement scope n) s i.1 (fun a s' => a.bare = i.2 ∧
          s'.table = .ofBindings (before ++ i.2.declarations)) True := by
      rintro i hi before s more ⟨hd, ha⟩ ht hr hmore
      obtain ⟨u, us, hu, _, hb⟩ := hd.starts
      exact ⟨⟨u, us, hu, by simp [hb]⟩, ih i hi before n s more ha ht hr hmore⟩
    have hlen : items.length ≤ s₂.rest.length := by
      have := length_le_tokensOf fun i hi => (hd i hi).starts.imp fun u ⟨us, hu, _⟩ => ⟨us, hu⟩
      rw [hr₁, List.length_append]
      omega
    refine (Accepts.many (by simp [hend]) items _ [] before s₂ hitem
      (along_iff.mpr ⟨hd, ha⟩) (ht₁.trans ht) hr₁ hlen).bind_nil ?_
    rintro _ s₃ hm₃ ⟨⟨body, rfl, hbody⟩, ht₃⟩
    rw [leaves_declarations] at ht₃
    have hr₃ : s₃.rest = t :: rest := hm₃.ahead hr₁
    refine (still_finish _).accepts_bind (by simp [hr₃]) fun _ s₄ _ ht₄ => Accepts.pure ⟨?_, ?_, ?_⟩
    · exact (headMark_eq hu.symm).symm
    · simpa [Stmt.bareAll_eq] using hbody
    · exact ht₄.trans ht₃

section Bodies

variable {c : Expr} {body other : List (List Token × Stmt)}

/-- What is read behind the first block of a branch. -/
def branchEnd (scope : Scope) (n : Nat) (t : Token) (id : Nat) (c : Expr) (thenMark : Mark)
    (thenBody : List Stmt) : Reader Stmt := do
  let other ← accept fun k => if k = .keyword .else_ then some () else none
  match other with
  | some _ =>
    let (elseMark, elseBody) ← block scope Stmt.elseTitle n
    let _ ← expectKeyword .endif
    finish id
    return .ifElse ⟨t.pos, some id⟩ c thenMark thenBody elseMark elseBody
  | none =>
    let _ ← expect [.keyword .else_, .keyword .endif]
    finish id
    return .ifThen ⟨t.pos, some id⟩ c thenMark thenBody

/-- A branch up to the end of its first block, at the token `close`. -/
theorem accepts_branch {then_ close : Token} {tail : List Token} {Q : Stmt → State → Prop}
    (hk : t.kind = .keyword .if_) (hd : Derives scope.known .logical ts c)
    (hthen : then_.kind = .keyword .then_) (hb : ∀ i ∈ body, StmtDerives scope.known i.1 i.2)
    (hclose : endsBlock close.kind = true) (ih : ∀ i ∈ body, StmtComplete scope i.1 i.2)
    (hc : HasType (latest before) c (some .boolean))
    (ha : Stmt.AdmitsAll HasType scope.owner.returns before (body.map (·.2)))
    (ht : s.table = .ofBindings before)
    (hr : s.rest = t :: (ts ++ then_ :: (tokensOf body ++ close :: tail)) ++ rest)
    (hnext : ∀ id c' r s', c'.bare = c →
      BlockReturned before (headMark (tokensOf body ++ [close])) (body.map (·.2)) r s' →
      s'.rest = close :: (tail ++ rest) →
      Accepts (branchEnd scope n t id c' r.1 r.2) s' (close :: tail) Q True) :
    Accepts (branch scope (n + 1)) s (t :: (ts ++ then_ :: (tokensOf body ++ close :: tail))) Q
      True := by
  unfold branch
  refine (still_begin _).accepts_bind (by simp [hr]) fun id s₁ hr₁ ht₁ => ?_
  rw [hr] at hr₁
  refine (Accepts.expectKeyword hr₁ hk).bind (ts ++ then_ :: (tokensOf body ++ close :: tail)) ?_
  rintro t s₂ hm₂ ⟨rfl, ht₂⟩
  have hr₂ : s₂.rest = ts ++ then_ :: (tokensOf body ++ close :: (tail ++ rest)) := by
    simpa using hm₂.ahead hr₁
  have htable : s₂.table = .ofBindings before := by rw [ht₂, ht₁, ht]
  refine (accepts_condition _ hd hc htable hr₂ (stops_keyword _ hthen)).bind
    (then_ :: (tokensOf body ++ close :: tail)) ?_
  rintro c' s₃ hm₃ ⟨hbare, ht₃⟩
  have hr₃ := hm₃.ahead hr₂
  refine (Accepts.expectKeyword hr₃ hthen).bind (tokensOf body ++ close :: tail) ?_
  rintro then_ s₄ hm₄ ⟨rfl, ht₄⟩
  have hr₄ : s₄.rest = tokensOf body ++ close :: (tail ++ rest) := hm₄.ahead hr₃
  refine (accepts_block _ hb ih ha (by rw [ht₄, ht₃, htable]) hr₄ hclose).bind (close :: tail) ?_
  intro r s₅ hm₅ hreturned
  exact hnext id c' r s₅ hbare hreturned (hm₅.ahead hr₄)

theorem accepts_ifThen {then_ endif : Token} (hk : t.kind = .keyword .if_)
    (hd : Derives scope.known .logical ts c) (hthen : then_.kind = .keyword .then_)
    (hb : ∀ i ∈ body, StmtDerives scope.known i.1 i.2) (he : endif.kind = .keyword .endif)
    (ih : ∀ i ∈ body, StmtComplete scope i.1 i.2)
    (hc : HasType (latest before) c (some .boolean))
    (ha : Stmt.AdmitsAll HasType scope.owner.returns before (body.map (·.2)))
    (ht : s.table = .ofBindings before)
    (hr : s.rest = t :: (ts ++ then_ :: (tokensOf body ++ [endif])) ++ rest) (hrest : rest ≠ []) :
    Accepts (branch scope (n + 1)) s (t :: (ts ++ then_ :: (tokensOf body ++ [endif])))
      (StatementReturned before (.ifThen (.ofPos t.pos) c (headMark (tokensOf body ++ [endif]))
        (body.map (·.2)))) True := by
  refine accepts_branch hk hd hthen hb (by rw [he]; rfl) ih hc ha ht hr ?_
  rintro id c ⟨thenMark, thenBody⟩ s₁ rfl ⟨hmark, hbody, ht₁⟩ hr₁
  unfold branchEnd
  refine (Accepts.accept_none hr₁ (by simp [he])).bind [endif] ?_
  rintro _ _ _ ⟨rfl, rfl⟩
  refine (Accepts.expect hr₁ (by simp [he]) (by simp [he])).bind_nil ?_
  rintro endif s₂ hm₂ ⟨rfl, ht₂⟩
  have hr₂ : s₂.rest = rest := hm₂.ahead hr₁
  refine (still_finish _).accepts_bind (hr₂ ▸ hrest) fun _ s₃ _ ht₃ => Accepts.pure ⟨?_, ?_⟩
  · simpa [Stmt.bare, hmark] using hbody
  · rw [ht₃, ht₂, ht₁]
    rfl

theorem accepts_ifElse {then_ else_ endif : Token} (hk : t.kind = .keyword .if_)
    (hd : Derives scope.known .logical ts c) (hthen : then_.kind = .keyword .then_)
    (hb : ∀ i ∈ body, StmtDerives scope.known i.1 i.2) (helse : else_.kind = .keyword .else_)
    (ho : ∀ i ∈ other, StmtDerives scope.known i.1 i.2) (he : endif.kind = .keyword .endif)
    (ih : ∀ i ∈ body, StmtComplete scope i.1 i.2) (ih' : ∀ i ∈ other, StmtComplete scope i.1 i.2)
    (hc : HasType (latest before) c (some .boolean))
    (ha : Stmt.AdmitsAll HasType scope.owner.returns before (body.map (·.2)))
    (ha' : Stmt.AdmitsAll HasType scope.owner.returns
      (before ++ Stmt.declarationsAll (body.map (·.2))) (other.map (·.2)))
    (ht : s.table = .ofBindings before)
    (hr : s.rest =
      t :: (ts ++ then_ :: (tokensOf body ++ else_ :: (tokensOf other ++ [endif]))) ++ rest)
    (hrest : rest ≠ []) :
    Accepts (branch scope (n + 1)) s
      (t :: (ts ++ then_ :: (tokensOf body ++ else_ :: (tokensOf other ++ [endif]))))
      (StatementReturned before (.ifElse (.ofPos t.pos) c (headMark (tokensOf body ++ [else_]))
        (body.map (·.2)) (headMark (tokensOf other ++ [endif])) (other.map (·.2)))) True := by
  refine accepts_branch hk hd hthen hb (by rw [helse]; rfl) ih hc ha ht hr ?_
  rintro id c ⟨thenMark, thenBody⟩ s₁ rfl ⟨hmark, hbody, ht₁⟩ hr₁
  unfold branchEnd
  refine (Accepts.accept_some (b := ()) hr₁ (by simp [helse]) (by simp [helse])).bind
    (tokensOf other ++ [endif]) ?_
  rintro _ s₂ hm₂ ⟨rfl, ht₂⟩
  have hr₂ : s₂.rest = tokensOf other ++ endif :: rest := by simpa using hm₂.ahead hr₁
  refine (accepts_block _ ho ih' ha' (ht₂.trans ht₁) hr₂ (by rw [he]; rfl)).bind [endif] ?_
  rintro ⟨elseMark, elseBody⟩ s₃ hm₃ ⟨hmark', hother, ht₃⟩
  have hr₃ := hm₃.ahead hr₂
  refine (Accepts.expectKeyword hr₃ he).bind_nil ?_
  rintro endif s₄ hm₄ ⟨rfl, ht₄⟩
  have hr₄ : s₄.rest = rest := hm₄.ahead hr₃
  refine (still_finish _).accepts_bind (hr₄ ▸ hrest) fun _ s₅ _ ht₅ => Accepts.pure ⟨?_, ?_⟩
  · simpa [Stmt.bare, hmark, hmark'] using And.intro hbody hother
  · rw [ht₅, ht₄, ht₃, List.append_assoc]
    rfl

theorem accepts_whileDo {wend : Token} (hk : t.kind = .keyword .while_)
    (hd : Derives scope.known .logical ts c)
    (hb : ∀ i ∈ body, StmtDerives scope.known i.1 i.2) (hw : wend.kind = .keyword .wend)
    (ih : ∀ i ∈ body, StmtComplete scope i.1 i.2)
    (hc : HasType (latest before) c (some .boolean))
    (ha : Stmt.AdmitsAll HasType scope.owner.returns before (body.map (·.2)))
    (ht : s.table = .ofBindings before)
    (hr : s.rest = t :: (ts ++ (tokensOf body ++ [wend])) ++ rest) (hrest : rest ≠ []) :
    Accepts (loop scope (n + 1)) s (t :: (ts ++ (tokensOf body ++ [wend])))
      (StatementReturned before (.whileDo (.ofPos t.pos) c (headMark (tokensOf body ++ [wend]))
        (body.map (·.2)))) True := by
  unfold loop
  refine (still_begin _).accepts_bind (by simp [hr]) fun id s₁ hr₁ ht₁ => ?_
  rw [hr] at hr₁
  refine (Accepts.expectKeyword hr₁ hk).bind (ts ++ (tokensOf body ++ [wend])) ?_
  rintro t s₂ hm₂ ⟨rfl, ht₂⟩
  have hr₂ : s₂.rest = ts ++ (tokensOf body ++ wend :: rest) := by simpa using hm₂.ahead hr₁
  have htable : s₂.table = .ofBindings before := by rw [ht₂, ht₁, ht]
  -- nothing closes the condition: it ends where the first statement begins, or WEND
  have hstops : Level.Stops .logical (tokensOf body ++ wend :: rest) := by
    cases body with
    | nil => exact stops_keyword _ hw
    | cons i items =>
      obtain ⟨u, us, hu, hword, _⟩ := (hb i (by simp)).starts
      simp only [tokensOf, List.map_cons, List.flatten_cons, hu, List.cons_append]
      rcases hword with hid | ⟨k, hkey⟩
      · exact stops_of_kind _ (by simp [hid]) fun m => by rw [hid]; rfl
      · exact stops_keyword _ hkey
  refine (accepts_condition _ hd hc htable hr₂ hstops).bind (tokensOf body ++ [wend]) ?_
  rintro c s₃ hm₃ ⟨rfl, ht₃⟩
  have hr₃ := hm₃.ahead hr₂
  refine (accepts_block _ hb ih ha (ht₃.trans htable) hr₃ (by rw [hw]; rfl)).bind [wend] ?_
  rintro ⟨bodyMark, loopBody⟩ s₄ hm₄ ⟨hmark, hbody, ht₄⟩
  have hr₄ := hm₄.ahead hr₃
  refine (Accepts.expectKeyword hr₄ hw).bind_nil ?_
  rintro wend s₅ hm₅ ⟨rfl, ht₅⟩
  have hr₅ : s₅.rest = rest := hm₅.ahead hr₄
  refine (still_finish _).accepts_bind (hr₅ ▸ hrest) fun _ s₆ _ ht₆ => Accepts.pure ⟨?_, ?_⟩
  · simpa [Stmt.bare, hmark] using hbody
  · rw [ht₆, ht₅, ht₄]
    rfl

end Bodies

/-- **An admissible statement that is derived is read, unless the parser lacks frames.** -/
theorem accepts_statement {a : Stmt} (h : StmtDerives scope.known ts a) :
    StmtComplete scope ts a := by
  induction h with
  | @declare ty name semicolon T hT hn hs =>
    refine stmtComplete_of_succ (by simp) fun before n s rest _ ht hr hrest => ?_
    unfold statement
    refine Accepts.look hr ?_
    obtain ⟨w, hw, hk⟩ := ty?_eq_some hT
    rcases hk with rfl | rfl | rfl <;> simp only [hw] <;>
      exact accepts_declaration hT hn hs ht hr hrest
  | print hk hd hs =>
    refine stmtComplete_of_succ (by simp) fun before n s rest ha ht hr hrest => ?_
    obtain ⟨T, hT⟩ := ha
    unfold statement
    refine Accepts.look hr ?_
    simp only [hk]
    exact accepts_printStatement hk hd hs hT ht hr hrest
  | assign hn ha hd hs =>
    refine stmtComplete_of_succ (by simp) fun before n s rest hadm ht hr hrest => ?_
    obtain ⟨T, hv, hT⟩ := hadm
    cases hv with | var hΓ =>
    unfold statement
    refine Accepts.look hr ?_
    simp only [hn]
    exact accepts_assignment hn ha hd hs hΓ hT ht hr hrest
  | ifThen hk hd hthen hb he ih =>
    refine stmtComplete_of_succ (by simp) fun before n s rest ha ht hr hrest => ?_
    unfold statement
    refine Accepts.look hr ?_
    simp only [hk]
    cases n with
    | zero => exact Accepts.tooDeep hr trivial
    | succ n => exact accepts_ifThen hk hd hthen hb he ih ha.1 ha.2 ht hr hrest
  | ifElse hk hd hthen hb helse ho he ih ih' =>
    refine stmtComplete_of_succ (by simp) fun before n s rest ha ht hr hrest => ?_
    unfold statement
    refine Accepts.look hr ?_
    simp only [hk]
    cases n with
    | zero => exact Accepts.tooDeep hr trivial
    | succ n =>
      exact accepts_ifElse hk hd hthen hb helse ho he ih ih' ha.1 ha.2.1 ha.2.2 ht hr hrest
  | whileDo hk hd hb hw ih =>
    refine stmtComplete_of_succ (by simp) fun before n s rest ha ht hr hrest => ?_
    unfold statement
    refine Accepts.look hr ?_
    simp only [hk]
    cases n with
    | zero => exact Accepts.tooDeep hr trivial
    | succ n => exact accepts_whileDo hk hd hb hw ih ha.1 ha.2 ht hr hrest
  | leave hk hs =>
    refine stmtComplete_of_succ (by simp) fun before n s rest _ ht hr hrest => ?_
    unfold statement
    refine Accepts.look hr ?_
    simp only [hk]
    exact accepts_leave hk hs ht hr hrest
  | ret hk hd hs =>
    refine stmtComplete_of_succ (by simp) fun before n s rest ha ht hr hrest => ?_
    unfold statement
    refine Accepts.look hr ?_
    simp only [hk]
    exact accepts_return hk hd hs (ha _ rfl) ht hr hrest

end Slang.Grammar
