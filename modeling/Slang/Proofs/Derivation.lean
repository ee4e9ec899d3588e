import Slang.Proofs.Nodes

/-!
# The grammar of expressions as a relation

The parser is one reading of the grammar; this is the grammar itself, as rules that say which lists
of tokens spell which trees.  No rule knows about a cursor, a look ahead or an order of trials.

* `Level` — the five levels, from operands (`factor`) out to whole expressions (`logical`).
* `Separated` — parts with one comma between each two of them.
* `Derives known l ts e` — at level `l` the tokens `ts` spell the tree `e`, where exactly the names
  in `known` are functions.

Principal results: `Derives.ne_nil`, `Derives.inside` — a derivation has a token, and none of its
tokens is the end of the input; `Derives.linked` — a call carries the signature of the function that
it names; `derives_chain` — operators of one level group to the right.
-/

set_option autoImplicit false

namespace Slang

namespace Grammar

/-- The levels of the grammar, operands first. -/
inductive Level where
  | factor
  | term
  | sum
  | comparison
  | logical
  deriving DecidableEq, Repr

namespace Level

/-- The level of the operands; operands themselves have none below them. -/
def inner : Level → Option Level
  | factor => none
  | term => some factor
  | sum => some term
  | comparison => some sum
  | logical => some comparison

/-- The operators of a level. -/
def pick : Level → Symbol → Option Operator
  | factor => fun _ => none
  | term => Operator.multiplicative?
  | sum => Operator.additive?
  | comparison => Operator.relational?
  | logical => Operator.connective?

/-- The node of an operator of a level. -/
def build : Level → Mark → Operator → Expr → Expr → Expr
  | factor | term | sum => fun m op l r => .arith m none op l r
  | comparison => fun m op l r => .compare m none op l r
  | logical => fun m op l r => .logic m none op l r

/-- How many levels lie below. -/
def height : Level → Nat
  | factor => 0
  | term => 1
  | sum => 2
  | comparison => 3
  | logical => 4

end Level

/-- Parts of a token list with one comma between each two of them. -/
inductive Separated : List (List Token) → List Token → Prop
  | nil : Separated [] []
  | one (ts : List Token) : Separated [ts] ts
  | more {part : List Token} {parts : List (List Token)} {comma : Token} {ts : List Token}
      (hc : comma.kind = .symbol .comma) (hp : parts ≠ []) (h : Separated parts ts) :
      Separated (part :: parts) (part ++ comma :: ts)

/-- The tokens spell the tree at a level of the grammar. -/
inductive Derives (known : Signatures) : Level → List Token → Expr → Prop
  | number {t : Token} (ht : t.kind = .number) :
      Derives known .factor [t] (.number (.ofPos t.pos) (numberOf t))
  | text {t : Token} (ht : t.kind = .stringLiteral) :
      Derives known .factor [t] (.text (.ofPos t.pos) t.valueText)
  | yes {t : Token} (ht : t.kind = .keyword .true_) :
      Derives known .factor [t] (.truth (.ofPos t.pos) true)
  | no {t : Token} (ht : t.kind = .keyword .false_) :
      Derives known .factor [t] (.truth (.ofPos t.pos) false)
  | paren {opening closing : Token} {ts : List Token} {e : Expr}
      (ho : opening.kind = .symbol .leftParen) (h : Derives known .logical ts e)
      (hc : closing.kind = .symbol .rightParen) :
      Derives known .factor (opening :: (ts ++ [closing])) e
  | sign {t : Token} {x : Symbol} {op : Operator} {ts : List Token} {e : Expr}
      (ht : t.kind = .symbol x) (hx : Operator.additive? x = some op)
      (h : Derives known .factor ts e) :
      Derives known .factor (t :: ts) (.sign (.ofPos t.pos) none op e)
  | not {t : Token} {ts : List Token} {e : Expr} (ht : t.kind = .symbol .not)
      (h : Derives known .factor ts e) :
      Derives known .factor (t :: ts) (.not (.ofPos t.pos) none e)
  | var {t : Token} (ht : t.kind = .identifier) (hk : known.get? (some t.valueText) = none) :
      Derives known .factor [t] (.var ⟨.ofPos t.pos, none, some t.valueText⟩)
  | call {t opening closing : Token} {p : Prototype} {ts : List Token}
      {args : List (List Token × Expr)} (ht : t.kind = .identifier)
      (hk : known.get? (some t.valueText) = some p) (ho : opening.kind = .symbol .leftParen)
      (hs : Separated (args.map (·.1)) ts) (h : ∀ a ∈ args, Derives known .logical a.1 a.2)
      (hc : closing.kind = .symbol .rightParen) :
      Derives known .factor (t :: opening :: (ts ++ [closing]))
        (.call (.ofPos t.pos) none (some t.valueText) p (args.map (·.2)))
  | operand {l m : Level} {ts : List Token} {e : Expr} (hl : l.inner = some m)
      (h : Derives known m ts e) : Derives known l ts e
  | chain {l m : Level} {ts us : List Token} {t : Token} {op : Operator} {left right : Expr}
      (hl : l.inner = some m) (h : Derives known m ts left)
      (ht : operator l.pick t.kind = some op) (h' : Derives known l us right) :
      Derives known l (ts ++ t :: us) (l.build (.ofPos t.pos) op left right)

variable {known : Signatures} {l : Level} {ts : List Token} {e : Expr}

/-! ## Shape of derivations -/

/-- A call without arguments. -/
theorem Derives.call_nil {t opening closing : Token} {p : Prototype} (ht : t.kind = .identifier)
    (hk : known.get? (some t.valueText) = some p) (ho : opening.kind = .symbol .leftParen)
    (hc : closing.kind = .symbol .rightParen) :
    Derives known .factor [t, opening, closing]
      (.call (.ofPos t.pos) none (some t.valueText) p []) :=
  @Derives.call known t opening closing p [] [] ht hk ho .nil (by simp) hc

theorem Separated.mem_of_mem {parts : List (List Token)} (h : Separated parts ts) {t : Token}
    (ht : t ∈ ts) : t.kind = .symbol .comma ∨ ∃ part ∈ parts, t ∈ part := by
  induction h with
  | nil => cases ht
  | one ts => exact .inr ⟨ts, by simp, ht⟩
  | more hc _ _ ih =>
    rcases List.mem_append.mp ht with ht | ht
    · exact .inr ⟨_, by simp, ht⟩
    rcases List.mem_cons.mp ht with rfl | ht
    · exact .inl hc
    rcases ih ht with hk | ⟨part, hp, ht⟩
    · exact .inl hk
    · exact .inr ⟨part, List.mem_cons_of_mem _ hp, ht⟩

theorem Separated.part_length_le {parts : List (List Token)} (h : Separated parts ts)
    {part : List Token} (hp : part ∈ parts) : part.length ≤ ts.length := by
  induction h with
  | nil => cases hp
  | one ts =>
    obtain rfl : part = ts := by simpa using hp
    exact Nat.le_refl _
  | more _ _ _ ih =>
    simp only [List.length_append, List.length_cons]
    rcases List.mem_cons.mp hp with rfl | hp
    · omega
    · have := ih hp
      omega

/-- The first token is that of the first part. -/
theorem Separated.head {parts : List (List Token)} {u : Token} {us : List Token}
    (h : Separated ((u :: us) :: parts) ts) : ∃ vs, ts = u :: vs := by
  cases h with
  | one => exact ⟨us, rfl⟩
  | more _ _ _ => exact ⟨_, rfl⟩

/-- There is one comma less than there are parts. -/
theorem Separated.length_le {parts : List (List Token)} (h : Separated parts ts) :
    parts.length ≤ ts.length + 1 := by
  induction h with
  | nil => simp
  | one ts => simp
  | more _ _ _ ih => simp only [List.length_cons, List.length_append]; omega

/-- The tokens that an expression may begin with. -/
def startsExpression : Token.Kind → Bool
  | .number | .stringLiteral | .identifier | .keyword .true_ | .keyword .false_ => true
  | .symbol .leftParen | .symbol .plus | .symbol .minus | .symbol .not => true
  | _ => false

/-- An expression begins with an operand, a sign or a parenthesis. -/
theorem Derives.starts (h : Derives known l ts e) :
    ∃ t us, ts = t :: us ∧ startsExpression t.kind = true := by
  induction h with
  | number ht | text ht | yes ht | no ht | var ht _ => exact ⟨_, _, rfl, by rw [ht]; rfl⟩
  | paren ho _ _ _ => exact ⟨_, _, rfl, by rw [ho]; rfl⟩
  | @sign t x _ _ _ ht hx _ _ =>
    refine ⟨_, _, rfl, ?_⟩
    rw [ht]
    cases x <;> cases hx <;> rfl
  | not ht _ _ => exact ⟨_, _, rfl, by rw [ht]; rfl⟩
  | call ht _ _ _ _ _ _ => exact ⟨_, _, rfl, by rw [ht]; rfl⟩
  | operand _ _ ih => exact ih
  | chain _ _ _ _ ih _ =>
    obtain ⟨t, us, rfl, ht⟩ := ih
    exact ⟨t, _, rfl, ht⟩

/-- No derivation is empty. -/
theorem Derives.ne_nil (h : Derives known l ts e) : ts ≠ [] := by
  obtain ⟨t, us, rfl, _⟩ := h.starts
  simp

theorem operator_eq_some {β : Type} {pick : Symbol → Option β} {k : Token.Kind} {b : β}
    (h : operator pick k = some b) : ∃ x, k = .symbol x ∧ pick x = some b := by
  cases k with
  | symbol x => exact ⟨x, rfl, h⟩
  | _ => cases h

/-- No derivation reaches the end of the input, nor the name of a statement or a function. -/
theorem Derives.kinds (h : Derives known l ts e) : ∀ t ∈ ts,
    t.kind ≠ .endOfInput ∧ ∀ k, t.kind = .keyword k → k = .true_ ∨ k = .false_ := by
  induction h with
  | number ht => simp [ht]
  | text ht => simp [ht]
  | yes ht => simp [ht]
  | no ht => simp [ht]
  | var ht _ => simp [ht]
  | paren ho _ hc ih =>
    simp only [List.mem_cons, List.mem_append, List.not_mem_nil, or_false]
    rintro t (rfl | ht | rfl)
    · simp [ho]
    · exact ih t ht
    · simp [hc]
  | sign ht _ _ ih =>
    simp only [List.mem_cons]
    rintro t (rfl | h)
    · simp [ht]
    · exact ih t h
  | not ht _ ih =>
    simp only [List.mem_cons]
    rintro t (rfl | h)
    · simp [ht]
    · exact ih t h
  | call ht _ ho hs _ hc ih =>
    simp only [List.mem_cons, List.mem_append, List.not_mem_nil, or_false]
    rintro t (rfl | rfl | h | rfl)
    · simp [ht]
    · simp [ho]
    · rcases hs.mem_of_mem h with hk | ⟨part, hp, ht⟩
      · simp [hk]
      · obtain ⟨a, ha, rfl⟩ := List.mem_map.mp hp
        exact ih a ha t ht
    · simp [hc]
  | operand _ _ ih => exact ih
  | chain _ _ ht _ ih ih' =>
    obtain ⟨x, hx, _⟩ := operator_eq_some ht
    simp only [List.mem_append, List.mem_cons]
    rintro t (h | rfl | h)
    · exact ih t h
    · simp [hx]
    · exact ih' t h

theorem mem_nodes_build {n : Expr} {m : Mark} {op : Operator} {left right : Expr} :
    n ∈ (l.build m op left right).nodes ↔
      n = l.build m op left right ∨ n ∈ left.nodes ∨ n ∈ right.nodes := by
  cases l <;> simp [Level.build, Expr.nodes]

/-- A call carries the signature of the function that it names. -/
theorem Derives.linked (h : Derives known l ts e) : e.Linked known := by
  induction h with
  | number | text | yes | no | var => simp [Expr.Linked, Expr.nodes]
  | paren _ _ _ ih => exact ih
  | sign _ _ _ ih => simpa [Expr.Linked, Expr.nodes] using ih
  | not _ _ ih => simpa [Expr.Linked, Expr.nodes] using ih
  | call _ hk _ _ _ _ ih =>
    intro m t f p args hm
    simp only [Expr.nodes, List.mem_cons, Expr.mem_nodesAll, List.mem_map] at hm
    rcases hm with hm | ⟨_, ⟨a, ha, rfl⟩, hm⟩
    · cases hm
      exact hk
    · exact ih a ha m t f p args hm
  | operand _ _ ih => exact ih
  | @chain l _ _ _ _ _ _ _ _ _ _ _ ih ih' =>
    intro m t f p args hm
    rcases mem_nodes_build.mp hm with hm | hm | hm
    · cases l <;> cases hm
    · exact ih m t f p args hm
    · exact ih' m t f p args hm

/-! ## Chains of one level -/

/-- An operator with the operand behind it, as tokens and as a tree. -/
structure Link where
  token : Token
  op : Operator
  tokens : List Token
  tree : Expr

/-- The tokens of an operand and the links behind it. -/
def chainTokens (first : List Token) (links : List Link) : List Token :=
  first ++ links.flatMap fun k => k.token :: k.tokens

/-- The tree of an operand and the links behind it, grouped to the right. -/
def chainTree (l : Level) (first : Expr) : List Link → Expr
  | [] => first
  | k :: links => l.build (.ofPos k.token.pos) k.op first (chainTree l k.tree links)

/-- Operators of one level group to the right. -/
theorem derives_chain {m : Level} (hl : l.inner = some m) :
    ∀ (links : List Link) {first : List Token} {left : Expr}, Derives known m first left →
      (∀ k ∈ links, operator l.pick k.token.kind = some k.op ∧ Derives known m k.tokens k.tree) →
      Derives known l (chainTokens first links) (chainTree l left links)
  | [], first, left, h, _ => by simpa [chainTokens, chainTree] using Derives.operand hl h
  | k :: links, first, left, h, hk => by
    obtain ⟨hop, hd⟩ := hk k (by simp)
    have ih := derives_chain hl links hd fun j hj => hk j (by simp [hj])
    simpa [chainTokens, chainTree] using Derives.chain hl h hop ih

end Grammar

end Slang
