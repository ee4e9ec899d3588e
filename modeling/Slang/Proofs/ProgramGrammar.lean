import Slang.Grammar.Program
import Slang.Proofs.Derivation
import Slang.Proofs.WellTyped

/-!
# The grammar of programs and its static rules

* `Stmt.bare`, `Procedure.bare` — trees as they were written, without numbers and recorded types.
* `Stmt.declarations` — what a statement declares, in the order of the text.
* `latest` — the types of a list of declarations; of two that have one name, the later counts.
* `StmtDerives`, `FunctionDerives`, `ProgramDerives` — which tokens spell which trees.
* `Declaration` — the tokens from a FUNCTION to the next END.
* `Stmt.Admits J returns before s` — the static rules: behind the declarations `before`, in a
  function that returns `returns`, the statement `s` is admissible, where `J` says what expressions
  are.  `J` is `HasType` in the rules of the language, and `Settled` where the trees have their
  types recorded.

Principal results: `types_ofBindings` — a table of declarations has the latest types;
`StmtDerives.starts`, `StmtDerives.no_function` — how a statement begins, and that no function is
inside; `FunctionDerives.declaration` — a function is spelt by a declaration; `admits_bare` — a tree
with its types recorded is admissible only if it is so as written.
-/

set_option autoImplicit false

namespace Slang

/-! ## Trees as they were written -/

namespace Stmt

mutual

/-- The statement as it was written. -/
def bare : Stmt → Stmt
  | print m e => print m.place e.bare
  | declare m b => declare m.place b
  | assign m v e => assign m.place ⟨v.mark.place, none, v.name⟩ e.bare
  | ifThen m c thenMark thenBody => ifThen m.place c.bare thenMark.place (bareAll thenBody)
  | ifElse m c thenMark thenBody elseMark elseBody =>
    ifElse m.place c.bare thenMark.place (bareAll thenBody) elseMark.place (bareAll elseBody)
  | whileDo m c bodyMark body => whileDo m.place c.bare bodyMark.place (bareAll body)
  | ret m value _ => ret m.place (value.map Expr.bare) none

/-- The statements as they were written. -/
def bareAll : List Stmt → List Stmt
  | [] => []
  | s :: rest => bare s :: bareAll rest

end

theorem bareAll_eq (ss : List Stmt) : bareAll ss = ss.map bare := by
  induction ss with
  | nil => rfl
  | cons s rest ih => rw [bareAll, ih, List.map_cons]

mutual

/-- The declarations in a statement, in the order of the text. -/
def declarations : Stmt → List Binding
  | declare _ b => [b]
  | ifThen _ _ _ thenBody => declarationsAll thenBody
  | ifElse _ _ _ thenBody _ elseBody => declarationsAll thenBody ++ declarationsAll elseBody
  | whileDo _ _ _ body => declarationsAll body
  | print .. | assign .. | ret .. => []

/-- The declarations in a list of statements. -/
def declarationsAll : List Stmt → List Binding
  | [] => []
  | s :: rest => declarations s ++ declarationsAll rest

end

mutual

theorem declarations_bare : ∀ s : Stmt, s.bare.declarations = s.declarations
  | print .. | declare .. | assign .. | ret .. => rfl
  | ifThen _ _ _ body | whileDo _ _ _ body => by
    simp only [bare, declarations, declarationsAll_bareAll body]
  | ifElse _ _ _ body _ other => by
    simp only [bare, declarations, declarationsAll_bareAll body, declarationsAll_bareAll other]

theorem declarationsAll_bareAll : ∀ ss : List Stmt,
    declarationsAll (bareAll ss) = declarationsAll ss
  | [] => rfl
  | s :: rest => by
    simp only [bareAll, declarationsAll, declarations_bare s, declarationsAll_bareAll rest]

end

end Stmt

/-- The function as it was written. -/
def Procedure.bare (p : Procedure) : Procedure :=
  ⟨p.mark.place, p.prototype, p.formals, p.bodyMark.place, Stmt.bareAll p.body⟩

/-! ## Declared types -/

/-- The types that are declared; the latest declaration of a name counts. -/
def latest (declared : List Binding) : Types := fun name =>
  (declared.findRev? (·.name = name)).map (·.ty)

/-- The table of a list of declarations. -/
def Table.ofBindings (declared : List Binding) : Table := declared.foldl Table.declare Table.empty

theorem Table.ofBindings_append (bs cs : List Binding) :
    Table.ofBindings (bs ++ cs) = cs.foldl Table.declare (Table.ofBindings bs) :=
  List.foldl_append

theorem types_declare (table : Table) (b : Binding) (name : Name) :
    (table.declare b).types name = if b.name = name then some b.ty else table.types name := by
  simp only [Table.types, Table.lookup, Table.declare, Registry.get?_insert]
  split <;> rfl

theorem latest_append (bs cs : List Binding) (name : Name) :
    latest (bs ++ cs) name = (latest cs name).or (latest bs name) := by
  simp [latest, List.find?_append, Option.map_or]

theorem latest_singleton (b : Binding) (name : Name) :
    latest [b] name = if b.name = name then some b.ty else none := by
  by_cases h : b.name = name <;> simp [latest, h]

/-- A table of declarations has the types that were declared latest. -/
theorem types_ofBindings (bs : List Binding) : (Table.ofBindings bs).types = latest bs := by
  have hstep : ∀ (bs : List Binding) (table : Table) (name : Name),
      (bs.foldl Table.declare table).types name = (latest bs name).or (table.types name) := by
    intro bs
    induction bs with
    | nil => intro table name; rfl
    | cons b rest ih =>
      intro table name
      rw [List.foldl_cons, ih, types_declare, ← List.singleton_append, latest_append,
        latest_singleton, Option.or_assoc]
      split <;> rfl
  funext name
  rw [Table.ofBindings, hstep]
  exact Option.or_none

namespace Grammar

/-! ## Statements, functions, programs -/

/-- The mark of a block that starts at the first of these tokens. -/
def headMark (ts : List Token) : Mark := .ofPos (ts.head?.map (·.pos))

/-- The tokens of a list of items. -/
abbrev tokensOf {α : Type} (items : List (List Token × α)) : List Token := (items.map (·.1)).flatten

/-- The tokens spell the statement. -/
inductive StmtDerives (known : Signatures) : List Token → Stmt → Prop
  | declare {ty name semicolon : Token} {T : Ty} (ht : ty.kind.ty? = some T)
      (hn : name.kind = .identifier) (hs : semicolon.kind = .symbol .semicolon) :
      StmtDerives known [ty, name, semicolon]
        (.declare (.ofPos ty.pos) (.declared name.valueText T))
  | print {t semicolon : Token} {ts : List Token} {e : Expr} (ht : t.kind = .keyword .print)
      (h : Derives known .logical ts e) (hs : semicolon.kind = .symbol .semicolon) :
      StmtDerives known (t :: (ts ++ [semicolon])) (.print (.ofPos t.pos) e)
  | assign {name equals semicolon : Token} {ts : List Token} {e : Expr}
      (hn : name.kind = .identifier) (ha : equals.kind = .symbol .assign)
      (h : Derives known .logical ts e) (hs : semicolon.kind = .symbol .semicolon) :
      StmtDerives known (name :: equals :: (ts ++ [semicolon]))
        (.assign (.ofPos name.pos) ⟨.ofPos name.pos, none, some name.valueText⟩ e)
  | ifThen {t then_ endif : Token} {ts : List Token} {c : Expr}
      {body : List (List Token × Stmt)} (ht : t.kind = .keyword .if_)
      (h : Derives known .logical ts c) (hthen : then_.kind = .keyword .then_)
      (hb : ∀ i ∈ body, StmtDerives known i.1 i.2) (he : endif.kind = .keyword .endif) :
      StmtDerives known (t :: (ts ++ then_ :: (tokensOf body ++ [endif])))
        (.ifThen (.ofPos t.pos) c (headMark (tokensOf body ++ [endif])) (body.map (·.2)))
  | ifElse {t then_ else_ endif : Token} {ts : List Token} {c : Expr}
      {body other : List (List Token × Stmt)} (ht : t.kind = .keyword .if_)
      (h : Derives known .logical ts c) (hthen : then_.kind = .keyword .then_)
      (hb : ∀ i ∈ body, StmtDerives known i.1 i.2) (helse : else_.kind = .keyword .else_)
      (ho : ∀ i ∈ other, StmtDerives known i.1 i.2) (he : endif.kind = .keyword .endif) :
      StmtDerives known
        (t :: (ts ++ then_ :: (tokensOf body ++ else_ :: (tokensOf other ++ [endif]))))
        (.ifElse (.ofPos t.pos) c (headMark (tokensOf body ++ [else_])) (body.map (·.2))
          (headMark (tokensOf other ++ [endif])) (other.map (·.2)))
  | whileDo {t wend : Token} {ts : List Token} {c : Expr} {body : List (List Token × Stmt)}
      (ht : t.kind = .keyword .while_) (h : Derives known .logical ts c)
      (hb : ∀ i ∈ body, StmtDerives known i.1 i.2) (hw : wend.kind = .keyword .wend) :
      StmtDerives known (t :: (ts ++ (tokensOf body ++ [wend])))
        (.whileDo (.ofPos t.pos) c (headMark (tokensOf body ++ [wend])) (body.map (·.2)))
  | leave {t semicolon : Token} (ht : t.kind = .keyword .return_)
      (hs : semicolon.kind = .symbol .semicolon) :
      StmtDerives known [t, semicolon] (.ret (.ofPos t.pos) none none)
  | ret {t semicolon : Token} {ts : List Token} {e : Expr} (ht : t.kind = .keyword .return_)
      (h : Derives known .logical ts e) (hs : semicolon.kind = .symbol .semicolon) :
      StmtDerives known (t :: (ts ++ [semicolon])) (.ret (.ofPos t.pos) (some e) none)

/-- The tokens spell the formal parameter. -/
inductive FormalDerives : List Token → Binding → Prop
  | typed {ty name : Token} {T : Ty} (ht : ty.kind.ty? = some T) (hn : name.kind = .identifier) :
      FormalDerives [ty, name] (.declared name.valueText T)

/-- The tokens spell the function. -/
inductive FunctionDerives (known : Signatures) : List Token → Procedure → Prop
  | function {t ty name opening closing end_ : Token} {T : Ty} {ts : List Token}
      {formals : List (List Token × Binding)} {body : List (List Token × Stmt)}
      (ht : t.kind = .keyword .function) (hty : ty.kind.ty? = some T)
      (hn : name.kind = .identifier) (ho : opening.kind = .symbol .leftParen)
      (hs : Separated (formals.map (·.1)) ts) (hf : ∀ f ∈ formals, FormalDerives f.1 f.2)
      (hc : closing.kind = .symbol .rightParen) (hb : ∀ i ∈ body, StmtDerives known i.1 i.2)
      (he : end_.kind = .keyword .end_) :
      FunctionDerives known
        (t :: ty :: name :: opening :: (ts ++ closing :: (tokensOf body ++ [end_])))
        (.ofParts (some name.valueText) (some T) (formals.map (·.2)) (some t.pos)
          (body.map (·.2)))

/-- The signatures of the functions of a program. -/
def signatures (ps : List Procedure) : Signatures := (Program.ofProcedures ps).prototypes

/-- The function that the statements of a script are the body of. -/
def scriptMain (body : List Stmt) : Procedure :=
  .ofParts entryPoint (some .numeric) [] (some 0) body

/-- The tokens spell the functions of the program: one or more, or a bare list of statements, which
is then the body of MAIN. -/
inductive ProgramDerives : List Token → List Procedure → Prop
  | functions {items : List (List Token × Procedure)} (hne : items ≠ [])
      (h : ∀ i ∈ items, FunctionDerives (signatures (items.map (·.2))) i.1 i.2) :
      ProgramDerives (tokensOf items) (items.map (·.2))
  | script {items : List (List Token × Stmt)}
      (h : ∀ i ∈ items, StmtDerives (signatures [scriptMain (items.map (·.2))]) i.1 i.2) :
      ProgramDerives (tokensOf items) [scriptMain (items.map (·.2))]

/-! ## Shape of derivations -/

variable {known : Signatures} {l : Level} {ts : List Token}

/-- Derivations are about trees as they were written. -/
theorem Derives.bare_eq {e : Expr} (h : Derives known l ts e) : e.bare = e := by
  induction h with
  | number | text | yes | no | var => rfl
  | paren _ _ _ ih => exact ih
  | @sign t _ op _ e _ _ _ ih => exact congrArg (Expr.sign (.ofPos t.pos) none op) ih
  | @not t _ e _ _ ih => exact congrArg (Expr.not (.ofPos t.pos) none) ih
  | @call t _ _ p _ args _ _ _ _ _ _ ih =>
    refine congrArg (Expr.call (.ofPos t.pos) none (some t.valueText) p) ?_
    rw [Expr.mapInfoAll_eq, List.map_map]
    exact List.map_congr_left ih
  | operand _ _ ih => exact ih
  | @chain l _ _ _ t op _ _ _ _ _ _ ih ih' =>
    have hb : ∀ left right : Expr, (l.build (.ofPos t.pos) op left right).bare =
        l.build (.ofPos t.pos) op left.bare right.bare := fun _ _ => by cases l <;> rfl
    rw [hb, ih, ih']

theorem ty?_eq_some {k : Token.Kind} {T : Ty} (h : k.ty? = some T) :
    ∃ w, k = .keyword w ∧ (w = .numeric ∨ w = .string ∨ w = .boolean) := by
  cases k with
  | keyword w => cases w <;> simp_all [Token.Kind.ty?, Keyword.ty?]
  | _ => cases h

/-- A statement begins with a word, and with none that ends a block. -/
theorem StmtDerives.starts {s : Stmt} (h : StmtDerives known ts s) :
    ∃ t us, ts = t :: us ∧ (t.kind = .identifier ∨ ∃ k, t.kind = .keyword k) ∧
      endsBlock t.kind = false := by
  cases h with
  | declare ht _ _ =>
    obtain ⟨w, hw, hk⟩ := ty?_eq_some ht
    refine ⟨_, _, rfl, .inr ⟨w, hw⟩, ?_⟩
    rcases hk with rfl | rfl | rfl <;> rw [hw] <;> rfl
  | assign hn _ _ _ => exact ⟨_, _, rfl, .inl hn, by rw [hn]; rfl⟩
  | print ht _ _ | ifThen ht _ _ _ _ | ifElse ht _ _ _ _ _ _ | whileDo ht _ _ _ | leave ht _
  | ret ht _ _ => exact ⟨_, _, rfl, .inr ⟨_, ht⟩, by rw [ht]; rfl⟩

/-- The words that stand around a function. -/
def boundsFunction (k : Token.Kind) : Prop := k = .keyword .function ∨ k = .keyword .end_

/-- No token of an expression stands around a function. -/
theorem Derives.inside {e : Expr} (h : Derives known l ts e) :
    ∀ t ∈ ts, ¬ boundsFunction t.kind := by
  rintro t ht (hk | hk)
  · have := (h.kinds t ht).2 _ hk
    simp at this
  · have := (h.kinds t ht).2 _ hk
    simp at this

theorem forall_mem_tokensOf {α : Type} {P : Token → Prop} {items : List (List Token × α)}
    (h : ∀ i ∈ items, ∀ t ∈ i.1, P t) : ∀ t ∈ tokensOf items, P t := by
  intro t ht
  obtain ⟨_, hts, ht⟩ := List.mem_flatten.mp ht
  obtain ⟨i, hi, rfl⟩ := List.mem_map.mp hts
  exact h i hi t ht

theorem not_boundsFunction_of_ty? {t : Token} {T : Ty} (h : t.kind.ty? = some T) :
    ¬ boundsFunction t.kind := by
  obtain ⟨w, hw, hk⟩ := ty?_eq_some h
  rcases hk with rfl | rfl | rfl <;> simp [boundsFunction, hw]

/-- No token of a statement stands around a function. -/
theorem StmtDerives.inside {s : Stmt} (h : StmtDerives known ts s) :
    ∀ t ∈ ts, ¬ boundsFunction t.kind := by
  induction h with
  | declare ht hn hs =>
    have hty := not_boundsFunction_of_ty? ht
    simp only [List.mem_cons, List.not_mem_nil, or_false]
    rintro t (rfl | rfl | rfl)
    · exact hty
    · simp [boundsFunction, *]
    · simp [boundsFunction, *]
  | print ht h hs | ret ht h hs =>
    simp only [List.mem_cons, List.mem_append, List.not_mem_nil, or_false]
    rintro t (rfl | ht | rfl)
    · simp [boundsFunction, *]
    · exact h.inside t ht
    · simp [boundsFunction, *]
  | assign hn ha h hs =>
    simp only [List.mem_cons, List.mem_append, List.not_mem_nil, or_false]
    rintro t (rfl | rfl | ht | rfl)
    · simp [boundsFunction, *]
    · simp [boundsFunction, *]
    · exact h.inside t ht
    · simp [boundsFunction, *]
  | ifThen ht h hthen _ he ih =>
    have hb := forall_mem_tokensOf ih
    simp only [List.mem_cons, List.mem_append, List.not_mem_nil, or_false]
    rintro t (rfl | ht | rfl | ht | rfl)
    · simp [boundsFunction, *]
    · exact h.inside t ht
    · simp [boundsFunction, *]
    · exact hb t ht
    · simp [boundsFunction, *]
  | ifElse ht h hthen _ helse _ he ih ih' =>
    have hb := forall_mem_tokensOf ih
    have ho := forall_mem_tokensOf ih'
    simp only [List.mem_cons, List.mem_append, List.not_mem_nil, or_false]
    rintro t (rfl | ht | rfl | ht | rfl | ht | rfl)
    · simp [boundsFunction, *]
    · exact h.inside t ht
    · simp [boundsFunction, *]
    · exact hb t ht
    · simp [boundsFunction, *]
    · exact ho t ht
    · simp [boundsFunction, *]
  | whileDo ht h _ hw ih =>
    have hb := forall_mem_tokensOf ih
    simp only [List.mem_cons, List.mem_append, List.not_mem_nil, or_false]
    rintro t (rfl | ht | ht | rfl)
    · simp [boundsFunction, *]
    · exact h.inside t ht
    · exact hb t ht
    · simp [boundsFunction, *]
  | leave ht hs => simp [boundsFunction, ht, hs]

/-- No token of a statement announces a function. -/
theorem StmtDerives.no_function {s : Stmt} (h : StmtDerives known ts s) :
    ∀ t ∈ ts, t.kind ≠ .keyword .function :=
  fun t ht hk => h.inside t ht (.inl hk)

/-- The tokens of a declaration: from a FUNCTION to the next END. -/
def Declaration (ts : List Token) : Prop :=
  ∃ t us u, ts = t :: (us ++ [u]) ∧ t.kind = .keyword .function ∧ u.kind = .keyword .end_ ∧
    ∀ v ∈ us, ¬ boundsFunction v.kind

/-- **A function is spelt by a declaration.** -/
theorem FunctionDerives.declaration {p : Procedure} (h : FunctionDerives known ts p) :
    Declaration ts := by
  cases h with
  | @function t ty name opening closing end_ T ts formals body ht hT hn ho hs hf hc hb he =>
  refine ⟨t, ty :: name :: opening :: (ts ++ closing :: tokensOf body), end_, by simp, ht, he, ?_⟩
  have hformals : ∀ v ∈ ts, ¬ boundsFunction v.kind := by
    intro v hv
    rcases hs.mem_of_mem hv with hcomma | ⟨part, hpart, hv⟩
    · simp [boundsFunction, hcomma]
    · obtain ⟨⟨fts, b⟩, hf', rfl⟩ := List.mem_map.mp hpart
      cases hf _ hf' with | typed hT hn =>
      simp only [List.mem_cons, List.not_mem_nil, or_false] at hv
      rcases hv with rfl | rfl
      · exact not_boundsFunction_of_ty? hT
      · simp [boundsFunction, hn]
  simp only [List.mem_cons, List.mem_append]
  rintro v (rfl | rfl | rfl | hv | rfl | hv)
  · exact not_boundsFunction_of_ty? hT
  · simp [boundsFunction, hn]
  · simp [boundsFunction, ho]
  · exact hformals v hv
  · simp [boundsFunction, hc]
  · exact forall_mem_tokensOf (fun i hi => (hb i hi).inside) v hv

/-- Behind its first token a declaration announces no function. -/
theorem Declaration.no_function {t : Token} {us : List Token} (h : Declaration (t :: us)) :
    ∀ u ∈ us, u.kind ≠ .keyword .function := by
  obtain ⟨_, vs, last, heq, _, hlast, hinside⟩ := h
  obtain ⟨-, rfl⟩ := List.cons.inj heq
  simp only [List.mem_append, List.mem_singleton]
  rintro u (hu | rfl)
  · exact fun hk => hinside u hu (.inl hk)
  · simp [hlast]

end Grammar

/-! ## Static rules -/

section Rules

variable (J : Types → Expr → Tag → Prop) (returns : Tag)

mutual

/-- Behind the declarations `before` the statement is admissible: what it reads and assigns has been
declared, and its expressions have the types that their places ask for. -/
def Stmt.Admits : List Binding → Stmt → Prop
  | before, .print _ e => ∃ T, J (latest before) e T
  | _, .declare .. => True
  | before, .assign _ v e => ∃ T, J (latest before) (.var v) T ∧ J (latest before) e T
  | before, .ifThen _ c _ body =>
    J (latest before) c (some .boolean) ∧ Stmt.AdmitsAll before body
  | before, .ifElse _ c _ body _ other =>
    J (latest before) c (some .boolean) ∧ Stmt.AdmitsAll before body ∧
      Stmt.AdmitsAll (before ++ Stmt.declarationsAll body) other
  | before, .whileDo _ c _ body =>
    J (latest before) c (some .boolean) ∧ Stmt.AdmitsAll before body
  | before, .ret _ value _ => ∀ e ∈ value, J (latest before) e returns

/-- Every statement is admissible behind `before` and the declarations of the statements before
it. -/
def Stmt.AdmitsAll : List Binding → List Stmt → Prop
  | _, [] => True
  | before, s :: rest =>
    Stmt.Admits before s ∧ Stmt.AdmitsAll (before ++ s.declarations) rest

end

/-- The body of a function is admissible behind its formals. -/
def Procedure.Admits (p : Procedure) : Prop := Stmt.AdmitsAll J p.returns p.formals p.body

end Rules

/-- The expression has the type, the type of every node is recorded, and every call carries the
signature of its function. -/
structure Settled (known : Grammar.Signatures) (Γ : Types) (e : Expr) (T : Tag) : Prop where
  recorded : e.Recorded Γ
  type_eq : e.ty? = T
  linked : e.Linked known

theorem Settled.hasType_bare {known : Grammar.Signatures} {Γ : Types} {e : Expr} {T : Tag}
    (h : Settled known Γ e T) : HasType Γ e.bare T :=
  (hasType_mapInfo _ _ e).mpr (h.recorded.hasType h.type_eq)

section Bare

variable {known : Grammar.Signatures} {returns : Tag}

mutual

/-- With the types recorded or without, a statement is admissible for the same reasons. -/
theorem admits_bare : ∀ {before : List Binding} {s : Stmt},
    s.Admits (Settled known) returns before → s.bare.Admits HasType returns before
  | _, .print _ e, ⟨T, h⟩ => ⟨T, h.hasType_bare⟩
  | _, .declare .., _ => trivial
  | _, .assign _ v e, ⟨T, hv, he⟩ => ⟨T, hv.hasType_bare, he.hasType_bare⟩
  | _, .ifThen _ c _ body, ⟨hc, hb⟩ | _, .whileDo _ c _ body, ⟨hc, hb⟩ =>
    ⟨hc.hasType_bare, admitsAll_bareAll hb⟩
  | _, .ifElse _ c _ body _ other, ⟨hc, hb, ho⟩ => by
    refine ⟨hc.hasType_bare, admitsAll_bareAll hb, ?_⟩
    rw [Stmt.declarationsAll_bareAll]
    exact admitsAll_bareAll ho
  | _, .ret _ value _, h => by
    intro _ hv
    obtain ⟨e, he, rfl⟩ := Option.map_eq_some_iff.mp hv
    exact (h e he).hasType_bare

theorem admitsAll_bareAll : ∀ {before : List Binding} {ss : List Stmt},
    Stmt.AdmitsAll (Settled known) returns before ss →
      Stmt.AdmitsAll HasType returns before (Stmt.bareAll ss)
  | _, [], _ => trivial
  | _, s :: rest, ⟨hs, hrest⟩ => by
    refine ⟨admits_bare hs, ?_⟩
    rw [Stmt.declarations_bare]
    exact admitsAll_bareAll hrest

end

end Bare

end Slang
