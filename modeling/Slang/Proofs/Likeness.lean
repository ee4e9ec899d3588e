import Mathlib.Data.List.Forall2
import Slang.Proofs.Marks

/-!
# Trees that differ in their marks

Two texts with the same tokens are read as two trees that differ in nothing but their marks.  How
the marks of corresponding nodes go together is the matter of a pairing.

* `Pairing` — which offsets correspond, whether numbers and names are to agree, and which part of
  two token lists is compared.
* `Pairing.Inside` — the kinds of token behind which the lists still have something in common.
* `Token.Like`, `Mark.Like`, `CompileError.Like` — tokens of one kind and one value, marks, and
  errors of one cause, all at places that correspond.
* `Expr.Like` — trees with the same shape, the same values and the same recorded types, and with
  marks that go together.

Principal results: `check_like` — the checker finds the same in two such trees, at places that
correspond; `enumerate_like` — numbering keeps them alike; `Expr.Like.mapInfo_eq` — without what the
pairing leaves open they are equal.
-/

set_option autoImplicit false

namespace Slang

/-- How two readings are compared: which offsets correspond, whether the numbers of nodes and the
declared names have to agree, what lies behind the tokens that the readings have in common, and the
kind of the last of these. -/
structure Pairing where
  place : Int → Int → Prop
  numbered : Bool
  named : Bool
  behind : List Token
  behind' : List Token
  last : Token.Kind
  last_eq : last = .endOfInput ∨ last = .keyword .end_

/-- Two offsets, both of them known, that correspond. -/
def Pairing.At (c : Pairing) (pos pos' : Option Int) : Prop :=
  ∃ i j, pos = some i ∧ pos' = some j ∧ c.place i j

/-- What is compared of a mark: its number, if numbers have to agree. -/
def Pairing.kept (c : Pairing) (m : Mark) : Mark := ⟨none, if c.numbered then m.id else none⟩

/-- The same comparison, with declared names that have to agree. -/
def Pairing.naming (c : Pairing) : Pairing := { c with named := true }

/-- A token of this kind is not the last common one, unless it is the end of the input, behind which
no reader goes. -/
def Pairing.Inside (c : Pairing) (k : Token.Kind) : Prop :=
  k = .keyword .end_ → c.last = .endOfInput

variable {c : Pairing}

theorem Pairing.naming_eq (h : c.named = true) : c.naming = c := by
  cases c
  cases h
  rfl

theorem Pairing.kept_eq {m m' : Mark} (h : c.numbered = true → m'.id = m.id) :
    c.kept m' = c.kept m := by
  unfold Pairing.kept
  cases hn : c.numbered with
  | false => rfl
  | true =>
    rw [h hn]

theorem Pairing.inside_of_ne {k : Token.Kind} (h : k ≠ .keyword .end_) : c.Inside k :=
  fun hk => absurd hk h

/-! ## Tokens, marks, errors -/

/-- Tokens of one kind and one value at places that correspond. -/
structure Token.Like (c : Pairing) (t t' : Token) : Prop where
  kind : t'.kind = t.kind
  value : t'.value = t.value
  place : c.place t.pos t'.pos

theorem Token.Like.valueText {t t' : Token} (h : t.Like c t') : t'.valueText = t.valueText := by
  unfold Token.valueText
  rw [h.value]

theorem Token.Like.lexeme {t t' : Token} (h : t.Like c t') : t'.lexeme = t.lexeme := by
  unfold Token.lexeme Token.lexeme?
  rw [h.kind, h.value, h.valueText]

theorem Token.Like.numberOf {t t' : Token} (h : t.Like c t') :
    Grammar.numberOf t' = Grammar.numberOf t := by
  unfold Grammar.numberOf
  rw [h.value]

/-- Marks whose places correspond, with the same number if numbers have to agree. -/
structure Mark.Like (c : Pairing) (m m' : Mark) : Prop where
  at_ : c.At m.pos m'.pos
  id : c.numbered = true → m'.id = m.id

theorem Mark.Like.kept_eq {m m' : Mark} (h : m.Like c m') : c.kept m' = c.kept m :=
  Pairing.kept_eq h.id

/-- The mark of a token, before it has a number. -/
theorem Token.Like.mark {t t' : Token} (h : t.Like c t') :
    Mark.Like c (.ofPos t.pos) (.ofPos t'.pos) :=
  ⟨⟨t.pos, t'.pos, rfl, rfl, h.place⟩, fun _ => rfl⟩

/-- The mark of a node that begins at a token. -/
theorem Token.Like.numbered {t t' : Token} {i j : Nat} (h : t.Like c t')
    (hi : c.numbered = true → j = i) : Mark.Like c ⟨t.pos, some i⟩ ⟨t'.pos, some j⟩ :=
  ⟨⟨t.pos, t'.pos, rfl, rfl, h.place⟩, fun hn => by rw [hi hn]⟩

/-- A mark that is given a number. -/
theorem Mark.Like.number {m m' : Mark} {i j : Nat} (h : m.Like c m')
    (hi : c.numbered = true → j = i) :
    Mark.Like c { m with id := some i } { m' with id := some j } :=
  ⟨h.at_, fun hn => by rw [hi hn]⟩

/-- Errors of one cause at places that correspond. -/
structure CompileError.Like (c : Pairing) (e e' : CompileError) : Prop where
  cause : e'.cause = e.cause
  at_ : c.At e.position e'.position

/-- The same answer, or errors of one cause at places that correspond. -/
inductive AnswerLike (c : Pairing) {α : Type} :
    Except CompileError α → Except CompileError α → Prop
  | ok (a : α) : AnswerLike c (.ok a) (.ok a)
  | error {e e' : CompileError} (h : e.Like c e') : AnswerLike c (.error e) (.error e')

theorem AnswerLike.map {α β : Type} {f : α → β} {x x' : Except CompileError α}
    (h : AnswerLike c x x') : AnswerLike c (x.map f) (x'.map f) := by
  cases h with
  | ok a => exact .ok (f a)
  | error h => exact .error h

/-! ## Expressions -/

namespace Expr

/-- Trees of one shape with the same values and the same recorded types, whose marks go together. -/
inductive Like (c : Pairing) : Expr → Expr → Prop
  | number {m m' : Mark} {x : Float} (hm : m.Like c m') : Like c (.number m x) (.number m' x)
  | truth {m m' : Mark} {b : Bool} (hm : m.Like c m') : Like c (.truth m b) (.truth m' b)
  | text {m m' : Mark} {s : String} (hm : m.Like c m') : Like c (.text m s) (.text m' s)
  | var {m m' : Mark} {ty : Tag} {name : Name} (hm : m.Like c m') :
      Like c (.var ⟨m, ty, name⟩) (.var ⟨m', ty, name⟩)
  | arith {m m' : Mark} {ty : Tag} {op : Operator} {l l' r r' : Expr} (hm : m.Like c m')
      (hl : Like c l l') (hr : Like c r r') : Like c (.arith m ty op l r) (.arith m' ty op l' r')
  | compare {m m' : Mark} {ty : Tag} {op : Operator} {l l' r r' : Expr} (hm : m.Like c m')
      (hl : Like c l l') (hr : Like c r r') :
      Like c (.compare m ty op l r) (.compare m' ty op l' r')
  | logic {m m' : Mark} {ty : Tag} {op : Operator} {l l' r r' : Expr} (hm : m.Like c m')
      (hl : Like c l l') (hr : Like c r r') : Like c (.logic m ty op l r) (.logic m' ty op l' r')
  | not {m m' : Mark} {ty : Tag} {e e' : Expr} (hm : m.Like c m') (he : Like c e e') :
      Like c (.not m ty e) (.not m' ty e')
  | sign {m m' : Mark} {ty : Tag} {op : Operator} {e e' : Expr} (hm : m.Like c m')
      (he : Like c e e') : Like c (.sign m ty op e) (.sign m' ty op e')
  | call {m m' : Mark} {ty : Tag} {callee : Name} {p : Prototype} {args args' : List Expr}
      (hm : m.Like c m') (hargs : List.Forall₂ (Like c) args args') :
      Like c (.call m ty callee p args) (.call m' ty callee p args')

theorem Like.mark {e e' : Expr} (h : e.Like c e') : e.mark.Like c e'.mark := by
  cases h <;> assumption

mutual

/-- Without what the pairing leaves open, trees that are alike are equal. -/
theorem Like.mapInfo_eq : ∀ {e e' : Expr}, e.Like c e' →
    e'.mapInfo c.kept id = e.mapInfo c.kept id
  | .number .., _, .number hm | .truth .., _, .truth hm | .text .., _, .text hm
  | .var .., _, .var hm => by simp only [mapInfo, hm.kept_eq]
  | .arith .., _, .arith hm hl hr | .compare .., _, .compare hm hl hr
  | .logic .., _, .logic hm hl hr => by
    simp only [mapInfo, hm.kept_eq, hl.mapInfo_eq, hr.mapInfo_eq]
  | .not .., _, .not hm he | .sign .., _, .sign hm he => by
    simp only [mapInfo, hm.kept_eq, he.mapInfo_eq]
  | .call .., _, .call hm hargs => by
    simp only [mapInfo, hm.kept_eq, mapInfoAll_eq_of_like hargs]

theorem mapInfoAll_eq_of_like : ∀ {es es' : List Expr}, List.Forall₂ (Like c) es es' →
    mapInfoAll c.kept id es' = mapInfoAll c.kept id es
  | [], _, .nil => rfl
  | _ :: _, _, .cons he hrest => by
    simp only [mapInfoAll, he.mapInfo_eq, mapInfoAll_eq_of_like hrest]

end

/-! ## The checker -/

/-- Checked trees that are alike, with the same answer or with errors that are alike. -/
structure CheckedLike (c : Pairing) (x x' : Checked) : Prop where
  tree : x.1.Like c x'.1
  answer : AnswerLike c x.2 x'.2

theorem settle₁_like {pos pos' : Option Int} {old : Tag} {build build' : Tag → Expr → Expr}
    {rule : Tag → Except CompileError.Cause Tag} {x x' : Checked} (hpos : c.At pos pos')
    (hbuild : ∀ ty {e e' : Expr}, e.Like c e' → (build ty e).Like c (build' ty e'))
    (hx : CheckedLike c x x') :
    CheckedLike c (settle₁ pos old build rule x) (settle₁ pos' old build' rule x') := by
  obtain ⟨e, a⟩ := x
  obtain ⟨e', a'⟩ := x'
  obtain ⟨he, ha⟩ := hx
  dsimp only at he ha
  cases ha with
  | error herr => exact ⟨hbuild old he, .error herr⟩
  | ok t =>
    simp only [settle₁]
    cases rule t with
    | error cause => exact ⟨hbuild old he, .error ⟨rfl, hpos⟩⟩
    | ok u => exact ⟨hbuild u he, .ok u⟩

theorem settle₂_like {pos pos' : Option Int} {old : Tag} {build build' : Tag → Expr → Expr → Expr}
    {right right' : Expr} {rule : Tag → Tag → Except CompileError.Cause Tag}
    {x x' y y' : Checked} (hpos : c.At pos pos') (hright : right.Like c right')
    (hbuild : ∀ ty {l l' r r' : Expr}, l.Like c l' → r.Like c r' →
      (build ty l r).Like c (build' ty l' r'))
    (hx : CheckedLike c x x') (hy : CheckedLike c y y') :
    CheckedLike c (settle₂ pos old build right rule x y)
      (settle₂ pos' old build' right' rule x' y') := by
  obtain ⟨l, a⟩ := x
  obtain ⟨l', a'⟩ := x'
  obtain ⟨hl, ha⟩ := hx
  dsimp only at hl ha
  cases ha with
  | error herr => exact ⟨hbuild old hl hright, .error herr⟩
  | ok s =>
    unfold settle₂
    exact settle₁_like hpos (fun ty _ _ hr => hbuild ty hl hr) hy

mutual

/-- **The checker finds the same in trees that are alike**, at places that correspond. -/
theorem check_like (table : Table) : ∀ {e e' : Expr}, e.Like c e' →
    CheckedLike c (e.check table) (e'.check table)
  | .number .., _, .number hm => ⟨.number hm, .ok _⟩
  | .truth .., _, .truth hm => ⟨.truth hm, .ok _⟩
  | .text .., _, .text hm => ⟨.text hm, .ok _⟩
  | .var .., _, @Like.var _ m m' ty name hm => by
    simp only [check, checkVar]
    cases table.lookup name with
    | some b => exact ⟨.var hm, .ok _⟩
    | none => exact ⟨.var hm, .error ⟨rfl, hm.at_⟩⟩
  | .arith .., _, .arith hm hl hr => by
    rw [check, check]
    exact settle₂_like hm.at_ hr (fun _ _ _ _ _ hl hr => .arith hm hl hr) (check_like table hl)
      (check_like table hr)
  | .compare .., _, .compare hm hl hr => by
    rw [check, check]
    exact settle₂_like hm.at_ hr (fun _ _ _ _ _ hl hr => .compare hm hl hr) (check_like table hl)
      (check_like table hr)
  | .logic .., _, .logic hm hl hr => by
    rw [check, check]
    exact settle₂_like hm.at_ hr (fun _ _ _ _ _ hl hr => .logic hm hl hr) (check_like table hl)
      (check_like table hr)
  | .not .., _, .not hm he => by
    rw [check, check]
    exact settle₁_like hm.at_ (fun _ _ _ he => .not hm he) (check_like table he)
  | .sign .., _, .sign hm he => by
    rw [check, check]
    exact settle₁_like hm.at_ (fun _ _ _ he => .sign hm he) (check_like table he)
  | .call .., _, @Like.call _ m m' ty callee p args args' hm hargs => by
    simp only [check]
    rw [← hargs.length_eq]
    by_cases hcount : args.length = p.arity
    · rw [if_pos hcount, if_pos hcount]
      obtain ⟨htrees, hanswer⟩ := checkArgs_like table callee 1 hargs p.formals
      revert htrees hanswer
      generalize checkArgs table callee 1 args p.formals = x
      generalize checkArgs table callee 1 args' p.formals = x'
      rintro htrees hanswer
      obtain ⟨args₁, a⟩ := x
      obtain ⟨args₁', a'⟩ := x'
      dsimp only at htrees hanswer
      cases hanswer with
      | ok u => exact ⟨.call hm htrees, .ok _⟩
      | error herr => exact ⟨.call hm htrees, .error herr⟩
    · rw [if_neg hcount, if_neg hcount]
      exact ⟨.call hm hargs, .error ⟨rfl, hm.at_⟩⟩

theorem checkArgs_like (table : Table) (callee : Name) : ∀ (index : Nat) {args args' : List Expr},
    List.Forall₂ (Like c) args args' → ∀ formals : List Tag,
      List.Forall₂ (Like c) (checkArgs table callee index args formals).1
          (checkArgs table callee index args' formals).1 ∧
        AnswerLike c (checkArgs table callee index args formals).2
          (checkArgs table callee index args' formals).2
  | _, [], _, .nil, _ => ⟨.nil, .ok ()⟩
  | _, _ :: _, _, .cons he hrest, [] => ⟨.cons he hrest, .ok ()⟩
  | index, arg :: args, arg' :: args', .cons he hrest, formal :: formals => by
    obtain ⟨htree, hanswer⟩ := check_like table he
    simp only [checkArgs]
    revert htree hanswer
    generalize check table arg = x
    generalize check table arg' = x'
    rintro htree hanswer
    obtain ⟨e, a⟩ := x
    obtain ⟨e', a'⟩ := x'
    dsimp only at htree hanswer
    cases hanswer with
    | error herr => exact ⟨.cons htree hrest, .error herr⟩
    | ok actual =>
      by_cases hformal : actual = formal
      · obtain ⟨htrees, hanswers⟩ := checkArgs_like table callee (index + 1) hrest formals
        simp only [hformal, if_true]
        exact ⟨.cons htree htrees, hanswers⟩
      · simp only [hformal, if_false]
        exact ⟨.cons htree hrest, .error ⟨rfl, htree.mark.at_⟩⟩

end

/-! ## Numbers -/

mutual

/-- **Numbering keeps trees alike**, and the numbers left over agree if the first ones do. -/
theorem enumerate_like : ∀ {e e' : Expr}, e.Like c e' → ∀ {i j : Nat},
    (c.numbered = true → j = i) →
      (e.enumerate i).1.Like c (e'.enumerate j).1 ∧
        (c.numbered = true → (e'.enumerate j).2 = (e.enumerate i).2)
  | .number .., _, .number hm, i, j, hi =>
    ⟨.number (hm.number hi), fun hn => by simp only [enumerate, hi hn]⟩
  | .truth .., _, .truth hm, i, j, hi =>
    ⟨.truth (hm.number hi), fun hn => by simp only [enumerate, hi hn]⟩
  | .text .., _, .text hm, i, j, hi =>
    ⟨.text (hm.number hi), fun hn => by simp only [enumerate, hi hn]⟩
  | .var .., _, .var hm, i, j, hi =>
    ⟨.var (hm.number hi), fun hn => by simp only [enumerate, hi hn]⟩
  | .arith .., _, .arith hm hl hr, i, j, hi => by
    obtain ⟨hl, hn⟩ := enumerate_like hl (i := i + 1) (j := j + 1) fun hn => by rw [hi hn]
    obtain ⟨hr, hn⟩ := enumerate_like hr hn
    exact ⟨.arith (hm.number hi) hl hr, hn⟩
  | .compare .., _, .compare hm hl hr, i, j, hi => by
    obtain ⟨hl, hn⟩ := enumerate_like hl (i := i + 1) (j := j + 1) fun hn => by rw [hi hn]
    obtain ⟨hr, hn⟩ := enumerate_like hr hn
    exact ⟨.compare (hm.number hi) hl hr, hn⟩
  | .logic .., _, .logic hm hl hr, i, j, hi => by
    obtain ⟨hl, hn⟩ := enumerate_like hl (i := i + 1) (j := j + 1) fun hn => by rw [hi hn]
    obtain ⟨hr, hn⟩ := enumerate_like hr hn
    exact ⟨.logic (hm.number hi) hl hr, hn⟩
  | .not .., _, .not hm he, i, j, hi => by
    obtain ⟨he, hn⟩ := enumerate_like he (i := i + 1) (j := j + 1) fun hn => by rw [hi hn]
    exact ⟨.not (hm.number hi) he, hn⟩
  | .sign .., _, .sign hm he, i, j, hi => by
    obtain ⟨he, hn⟩ := enumerate_like he (i := i + 1) (j := j + 1) fun hn => by rw [hi hn]
    exact ⟨.sign (hm.number hi) he, hn⟩
  | .call .., _, .call hm hargs, i, j, hi => by
    obtain ⟨hargs, hn⟩ := enumerateAll_like hargs (i := i + 1) (j := j + 1) fun hn => by rw [hi hn]
    exact ⟨.call (hm.number hi) hargs, hn⟩

theorem enumerateAll_like : ∀ {es es' : List Expr}, List.Forall₂ (Like c) es es' → ∀ {i j : Nat},
    (c.numbered = true → j = i) →
      List.Forall₂ (Like c) (enumerateAll i es).1 (enumerateAll j es').1 ∧
        (c.numbered = true → (enumerateAll j es').2 = (enumerateAll i es).2)
  | [], _, .nil, _, _, hi => ⟨.nil, hi⟩
  | _ :: _, _, .cons he hrest, i, j, hi => by
    obtain ⟨he, hn⟩ := enumerate_like he hi
    obtain ⟨hrest, hn⟩ := enumerateAll_like hrest hn
    exact ⟨.cons he hrest, hn⟩

end

end Expr

end Slang
