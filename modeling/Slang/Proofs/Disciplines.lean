import Slang.Proofs.Progress
import Slang.Proofs.Violations

/-!
# Disciplines of the parser

Much of what can be said of the parser is true of each of its primitives and is kept by sequencing
and by its two loops.  Such a property is a discipline, and the parser is gone through once for all
of them.

* `CompileError.About e t` — an error stands at a token, and an unknown name is the name there.
* `Expr.Placed seen e` — every node of a tree stands at a token, a variable at its name.
* `Scene` — what the parser knows besides the tokens: numbers, open nodes and declared names.
* `StepDiscipline` — a property of readers with what it has to be closed under.  It may follow which
  tokens have been seen, and what is known of the values that are read.
* `Discipline` — the two loops of the parser have the property as well.
* `holds_level`, `follows_statement`, `follows_function` — the parts of the parser.

Principal result: `Discipline.follows_program` — the parser follows every discipline.
-/

set_option autoImplicit false

namespace Slang

variable {frames : Nat}

/-! ## Errors at tokens -/

/-- The parser reports a cause before it stops at it if a token is not one of those that may
follow. -/
def CompileError.Cause.reported : CompileError.Cause → Bool
  | expected _ _ | notAnOperand _ | notAStatement _ | nestedFunction => true
  | _ => false

theorem CompileError.Cause.not_reported {cause : CompileError.Cause}
    (h : cause.kind ≠ .syntactic) : cause.reported = false := by
  cases cause <;> first | rfl | exact absurd rfl h

/-- The error stands at the token, and if it is about a name, the token is that name. -/
structure CompileError.About (e : CompileError) (t : Token) : Prop where
  position : e.position = some t.pos
  kind : e.kind ≠ .lexical
  symbol : e.kind = .undeclared ∨ e.kind = .duplicate →
    t.kind = .identifier ∧ e.symbol = some t.valueText

namespace CompileError

/-- An error that is not about a name only has to stand at the token. -/
theorem About.of_kind {cause : Cause} {t : Token}
    (h : cause.kind = .syntactic ∨ cause.kind = .mismatch) : About ⟨cause, some t.pos⟩ t := by
  refine ⟨rfl, ?_, ?_⟩
  · show cause.kind ≠ .lexical
    rcases h with h | h <;> simp [h]
  · show cause.kind = .undeclared ∨ cause.kind = .duplicate → _
    rcases h with h | h <;> simp [h]

/-- An error about a name stands at the name. -/
theorem About.of_name {cause : Cause} {t : Token} (h : cause.kind = .undeclared)
    (hk : t.kind = .identifier) (hs : cause.symbol = some t.valueText) :
    About ⟨cause, some t.pos⟩ t := by
  refine ⟨rfl, ?_, fun _ => ⟨hk, hs⟩⟩
  show cause.kind ≠ .lexical
  simp [h]

end CompileError

/-! ## Trees over tokens -/

namespace Expr

variable {seen : Token → Prop} {Γ : Types}

/-- The node stands at a token, and a variable at its name. -/
def At (seen : Token → Prop) (n : Expr) : Prop :=
  ∃ t, seen t ∧ n.mark.pos = some t.pos ∧
    ∀ v, n = .var v → t.kind = .identifier ∧ v.name = some t.valueText

/-- Every node stands at a token. -/
def Placed (seen : Token → Prop) (e : Expr) : Prop := ∀ n ∈ e.nodes, n.At seen

/-- A node that is no variable only has to stand at a token. -/
theorem at_of_pos {n : Expr} {t : Token} (ht : seen t) (hpos : n.mark.pos = some t.pos)
    (hn : ∀ v, n ≠ .var v) : n.At seen :=
  ⟨t, ht, hpos, fun v hv => absurd hv (hn v)⟩

end Expr

/-- The node that a rule is about. -/
def Rule.Of : Rule → Expr → Prop
  | declared v, n => n = .var v
  | operands node, n => n = node
  | count mark .., n => n.mark = mark
  | argument _ _ _ arg, n => n = arg

namespace Expr

mutual

/-- Every rule of a tree is about one of its nodes. -/
theorem rules_of_nodes : ∀ (e : Expr), ∀ rule ∈ e.rules, ∃ n ∈ e.nodes, rule.Of n
  | number .. | truth .. | text .. => by simp [rules]
  | var v => by simp [rules, nodes, Rule.Of]
  | arith m t op l r | compare m t op l r | logic m t op l r => by
    have hl := rules_of_nodes l
    have hr := rules_of_nodes r
    intro rule h
    simp only [rules, List.mem_append, List.mem_singleton] at h
    rcases h with (h | h) | rfl
    · obtain ⟨n, hn, hof⟩ := hl rule h
      exact ⟨n, by simp [nodes, hn], hof⟩
    · obtain ⟨n, hn, hof⟩ := hr rule h
      exact ⟨n, by simp [nodes, hn], hof⟩
    · exact ⟨_, self_mem_nodes _, rfl⟩
  | not m t e | sign m t op e => by
    have he := rules_of_nodes e
    intro rule h
    simp only [rules, List.mem_append, List.mem_singleton] at h
    rcases h with h | rfl
    · obtain ⟨n, hn, hof⟩ := he rule h
      exact ⟨n, by simp [nodes, hn], hof⟩
    · exact ⟨_, self_mem_nodes _, rfl⟩
  | call m t f p args => by
    intro rule h
    simp only [rules, List.mem_cons] at h
    rcases h with rfl | h
    · exact ⟨_, self_mem_nodes _, rfl⟩
    · obtain ⟨n, hn, hof⟩ := argumentRules_of_nodes f 1 args p.formals rule h
      exact ⟨n, by simp [nodes, hn], hof⟩

theorem argumentRules_of_nodes (f : Name) : ∀ (i : Nat) (args : List Expr) (formals : List Tag),
    ∀ rule ∈ argumentRules f i args formals, ∃ n ∈ nodesAll args, rule.Of n
  | _, [], _ => by simp [argumentRules]
  | _, _ :: _, [] => by simp [argumentRules]
  | i, arg :: args, formal :: formals => by
    intro rule h
    simp only [argumentRules, List.mem_append, List.mem_cons] at h
    rcases h with h | rfl | h
    · obtain ⟨n, hn, hof⟩ := rules_of_nodes arg rule h
      exact ⟨n, by simp [nodesAll, hn], hof⟩
    · exact ⟨arg, by simp [nodesAll, self_mem_nodes], rfl⟩
    · obtain ⟨n, hn, hof⟩ := argumentRules_of_nodes f (i + 1) args formals rule h
      exact ⟨n, by simp [nodesAll, hn], hof⟩

end

end Expr

/-- A rule is violated where the node stands that it is about. -/
theorem Rule.Violated.position {Γ : Types} {rule : Rule} {err : CompileError} {n : Expr}
    (h : rule.Violated Γ err) (hn : rule.Of n) : err.position = n.mark.pos := by
  cases h <;> cases hn <;> rfl

/-- **What the checker says of a tree over tokens is said of one of the tokens.** -/
theorem Expr.Placed.check_about {seen : Token → Prop} {e e' : Expr} {table : Table}
    {err : CompileError} (he : e.Placed seen) (h : e.check table = (e', .error err)) :
    err.cause.reported = false ∧ ∃ t, seen t ∧ err.About t := by
  obtain ⟨rule, before, after, hsplit, -, hrule⟩ := first_of_check e h
  obtain ⟨n, hn, hof⟩ := rules_of_nodes e rule (by simp [hsplit])
  obtain ⟨t, ht, hpos, hvar⟩ := he n hn
  have hposition : err.position = some t.pos := (hrule.position hof).trans hpos
  rcases hrule.error with ⟨v, rfl, -, hkind, hsymbol⟩ | ⟨-, hkind⟩
  · obtain ⟨hk, hname⟩ := hvar v hof
    refine ⟨CompileError.Cause.not_reported ?_, t, ht, hposition, by simp [hkind], fun _ => ?_⟩
    · exact fun h => nomatch hkind.symm.trans h
    · exact ⟨hk, hsymbol.trans hname⟩
  · refine ⟨CompileError.Cause.not_reported ?_, t, ht, hposition, by simp [hkind], by simp [hkind]⟩
    exact fun h => nomatch hkind.symm.trans h

namespace Grammar

/-! ## Disciplines -/

/-- What the parser knows besides the tokens. -/
structure Scene where
  nextId : Nat
  parents : List Nat
  table : Table

/-- What is known besides the tokens. -/
def State.scene (s : State) : Scene := ⟨s.nextId, s.parents, s.table⟩

theorem State.parent_eq {s s' : State} (h : s.scene = s'.scene) : s.parent = s'.parent :=
  congrArg (fun c : Scene => c.parents.headD 0) h

/-- The same place with other things known. -/
def State.withScene (s : State) (c : Scene) : State :=
  ⟨s.index, s.rest, c.nextId, c.parents, c.table⟩

/-- A property of readers that the parser has because its primitives have it.  The property may
speak of the value that is read; of tokens it says that they have been seen. -/
structure StepDiscipline where
  /-- The tokens that the parser may speak of. -/
  seen : Token → Prop
  /-- The reader follows the discipline and reads a value of this kind. -/
  holds : {α : Type} → (α → Prop) → Reader α → Prop
  returns {α : Type} {V : α → Prop} {a : α} : V a → holds V (pure a)
  sequences {α β : Type} {V : α → Prop} {W : β → Prop} {r : Reader α} {f : α → Reader β} :
    holds V r → (∀ a, V a → holds W (f a)) → holds W (r >>= f)
  looks : holds seen current
  consumes (message : String) : holds (fun _ => True) (advance message)
  reports (message : String) (event : TreeEvent) :
    holds (fun _ => True) (report message (some event))
  starves {α : Type} {V : α → Prop} : holds V (throw .outOfTokens : Reader α)
  stops {α : Type} {V : α → Prop} {t : Token} {e : CompileError} :
    seen t → e.About t → e.cause.reported = false → holds V (throw (.error e) : Reader α)
  rejects {α : Type} {V : α → Prop} {t : Token} {cause : CompileError.Cause} :
    seen t → CompileError.About ⟨cause, some t.pos⟩ t → cause.reported = true →
      holds V (reject cause t.pos : Reader α)
  inspects {α : Type} {V : α → Prop} {f : State → Reader α} :
    (∀ s s', s.scene = s'.scene → f s = f s') → (∀ s, holds V (f s)) → holds V (get >>= f)
  changes (g : Scene → Scene) : holds (fun _ => True) (modify fun s => s.withScene (g s.scene))

/-- A property that the two loops of the parser have as well, bounded as they are by the tokens that
are left. -/
structure Discipline extends StepDiscipline where
  repeats {α : Type} {V : α → Prop} {item : Reader α} (begins : Token.Kind → Bool) :
    Takes 1 item → holds V item →
      holds (fun as => ∀ a ∈ as, V a) (remaining >>= fun n => many begins item n [])
  separates {α : Type} {V : α → Prop} {item : Reader α} :
    Takes 1 item → holds V item →
      holds (fun as => ∀ a ∈ as, V a) (remaining >>= fun n => separated item n [])

variable {α β : Type}

namespace StepDiscipline

variable (D : StepDiscipline)

/-- The reader follows the discipline, whatever it reads. -/
abbrev follows (r : Reader α) : Prop := D.holds (fun _ => True) r

variable {V : α → Prop} {W : β → Prop} {r : Reader α} {f : α → Reader β}

theorem andThen (h : D.holds V r) (hf : ∀ a, D.holds W (f a)) : D.holds W (r >>= f) :=
  D.sequences h fun a _ => hf a

theorem forget (h : D.holds V r) : D.follows r := by
  rw [← bind_pure r]
  exact D.sequences h fun a _ => D.returns trivial

theorem holds_fail {t : Token} {cause : CompileError.Cause} (ht : D.seen t)
    (h : CompileError.About ⟨cause, some t.pos⟩ t) (hc : cause.reported = false) :
    D.holds V (fail cause t.pos) := D.stops ht h hc

/-- Nothing is read behind a failure. -/
theorem holds_fail_bind {t : Token} {cause : CompileError.Cause} (ht : D.seen t)
    (h : CompileError.About ⟨cause, some t.pos⟩ t) (hc : cause.reported = false) :
    D.holds W (fail cause t.pos >>= f) := D.stops ht h hc

theorem holds_tooDeep : D.holds V (tooDeep : Reader α) :=
  D.sequences D.looks fun _ ht => D.holds_fail ht (.of_kind (.inl rfl)) rfl

/-- What is accepted is what was current. -/
theorem accept_eq (pick : Token.Kind → Option β) : accept pick = (do
    let t ← current
    match pick t.kind with
    | some b =>
      let _ ← advance ("Matched " ++ t.lexeme)
      return some (b, t)
    | none => return none) := by
  funext ⟨index, rest, nextId, parents, table⟩
  cases rest with
  | nil => rfl
  | cons t rest =>
    show (match pick t.kind with | some b => _ | none => _ : Reader (Option (β × Token))) _ =
      (match pick t.kind with | some b => _ | none => _ : Reader (Option (β × Token))) _
    cases pick t.kind <;> rfl

/-- What is expected is what was current. -/
theorem expect_eq (kinds : List Token.Kind) : expect kinds = (do
    let t ← current
    if t.kind ∈ kinds then
      let _ ← advance ("Consumed " ++ t.lexeme)
      return t
    else reject (.expected kinds t.lexeme) t.pos) := by
  funext ⟨index, rest, nextId, parents, table⟩
  cases rest with
  | nil => rfl
  | cons t rest =>
    show (if t.kind ∈ kinds then _ else _ : Reader Token) _ =
      (if t.kind ∈ kinds then _ else _ : Reader Token) _
    split <;> rfl

theorem holds_accept (pick : Token.Kind → Option β) :
    D.holds (fun found => ∀ b t, found = some (b, t) → D.seen t) (accept pick) := by
  rw [accept_eq]
  refine D.sequences D.looks fun t ht => ?_
  split
  · refine D.andThen (D.consumes _) fun _ => D.returns ?_
    rintro _ _ ⟨⟩
    exact ht
  · exact D.returns nofun

theorem follows_acceptSymbol (x : Symbol) : D.follows (acceptSymbol x) :=
  D.andThen (D.holds_accept _) fun _ => D.returns trivial

theorem holds_expect (kinds : List Token.Kind) :
    D.holds (fun t => D.seen t ∧ t.kind ∈ kinds) (expect kinds) := by
  rw [expect_eq]
  refine D.sequences D.looks fun t ht => ?_
  split
  · rename_i hk
    exact D.andThen (D.consumes _) fun _ => D.returns ⟨ht, hk⟩
  · exact D.rejects ht (.of_kind (.inl rfl)) rfl

theorem follows_expect (kinds : List Token.Kind) : D.follows (expect kinds) :=
  D.forget (D.holds_expect kinds)

theorem follows_expectType : D.follows expectType :=
  D.andThen (D.follows_expect _) fun _ => D.returns trivial

/-! ### Tree events -/

theorem follows_freshId : D.follows freshId := by
  have heq : freshId = (do
    let s ← get
    modify fun s' => s'.withScene { s'.scene with nextId := s.nextId + 1 }
    return s.nextId) := rfl
  rw [heq]
  refine D.inspects (fun s s' h => ?_) fun s => ?_
  · rw [show s.nextId = s'.nextId from congrArg Scene.nextId h]
  · exact D.andThen (D.changes fun c => { c with nextId := s.nextId + 1 }) fun _ =>
      D.returns trivial

theorem follows_begin (label : String) : D.follows (begin label) := by
  refine D.inspects (fun s s' h => ?_) fun s => ?_
  · rw [State.parent_eq h]
  · refine D.andThen D.follows_freshId fun id => D.andThen (D.reports _ _) fun _ => ?_
    exact D.andThen (D.changes fun c => { c with parents := id :: c.parents }) fun _ =>
      D.returns trivial

theorem follows_finish (id : Nat) : D.follows (finish id) :=
  D.andThen (D.changes fun c => { c with parents := removeOpen id c.parents }) fun _ =>
    D.reports _ _

theorem follows_addLeaf (parent : Nat) (label : String) : D.follows (addLeaf parent label) :=
  D.andThen D.follows_freshId fun _ => D.reports _ _

theorem follows_relabel (id : Nat) (label : String) : D.follows (relabel id label) :=
  D.reports _ _

mutual

theorem follows_announce (parent : Nat) : (o : Outline) → D.follows (announce parent o)
  | .node _ label mark _ children => by
    unfold announce
    refine D.andThen (D.reports _ _) fun _ =>
      D.andThen (follows_announceAll _ children) fun _ => ?_
    split
    · exact D.reports _ _
    · exact D.returns trivial

theorem follows_announceAll (parent : Nat) : (os : List Outline) →
    D.follows (announceAll parent os)
  | [] => D.returns trivial
  | o :: rest => D.andThen (follows_announce parent o) fun _ => follows_announceAll parent rest

end

/-- A terminator and the end of the node. -/
theorem follows_close {a : α} {id : Nat} (kinds : List Token.Kind) :
    D.follows (do
      let _ ← expect kinds
      finish id
      return a) :=
  D.andThen (D.follows_expect kinds) fun _ =>
    D.andThen (D.follows_finish id) fun _ => D.returns trivial

theorem follows_declare (b : Binding) :
    D.follows (modify fun s => { s with table := s.table.declare b }) :=
  D.changes fun c => { c with table := c.table.declare b }

theorem follows_clear : D.follows (modify fun s => { s with table := Table.empty }) :=
  D.changes fun c => { c with table := Table.empty }

/-! ### Loops with a given bound -/

theorem holds_many {begins : Token.Kind → Bool} {item : Reader α}
    (hitem : D.holds V item) : ∀ (n : Nat) (before : List α), (∀ a ∈ before, V a) →
      D.holds (fun as => ∀ a ∈ as, V a) (many begins item n before)
  | 0, before, hbefore => by
    refine D.andThen D.looks fun t => ?_
    split
    · exact D.starves
    · exact D.returns fun a ha => hbefore a (List.mem_reverse.mp ha)
  | n + 1, before, hbefore => by
    refine D.andThen D.looks fun t => ?_
    split
    · refine D.sequences hitem fun a ha => holds_many hitem n (a :: before) ?_
      exact List.forall_mem_cons.mpr ⟨ha, hbefore⟩
    · exact D.returns fun a ha => hbefore a (List.mem_reverse.mp ha)

theorem holds_separated {item : Reader α} (hitem : D.holds V item) :
    ∀ (n : Nat) (before : List α), (∀ a ∈ before, V a) →
      D.holds (fun as => ∀ a ∈ as, V a) (separated item n before)
  | 0, _, _ => D.starves
  | n + 1, before, hbefore => by
    refine D.sequences hitem fun a ha => D.andThen (D.follows_acceptSymbol _) fun found => ?_
    have hall : ∀ b ∈ a :: before, V b := List.forall_mem_cons.mpr ⟨ha, hbefore⟩
    cases found with
    | true => exact holds_separated hitem n (a :: before) hall
    | false => exact D.returns fun b hb => hall b (List.mem_reverse.mp hb)

/-- A property that does not depend on the number of tokens that are left is one of the loops. -/
def withLoops (D : StepDiscipline)
    (h : ∀ {α : Type} {V : α → Prop} {f : Nat → Reader α},
      (∀ n, D.holds V (f n)) → D.holds V (remaining >>= f)) : Discipline where
  toStepDiscipline := D
  repeats _ _ hitem := h fun n => D.holds_many hitem n [] (by simp)
  separates _ hitem := h fun n => D.holds_separated hitem n [] (by simp)

end StepDiscipline

namespace Discipline

variable (D : Discipline) {known : Signatures} {scope : Scope}

/-! ## Expressions -/

/-- A chain of an operator level stands where its operands and its operators stand. -/
theorem placed_build {seen : Token → Prop} {l : Level} {op : Operator} {left right : Expr}
    {t : Token} (ht : seen t) (hl : left.Placed seen) (hr : right.Placed seen) :
    (l.build (.ofPos t.pos) op left right).Placed seen := by
  intro n hn
  rcases mem_nodes_build.mp hn with rfl | hn | hn
  · refine Expr.at_of_pos ht ?_ ?_ <;> cases l <;> first | rfl | nofun
  · exact hl n hn
  · exact hr n hn

theorem holds_chain {operand again : Reader Expr} {l : Level}
    (ho : D.holds (·.Placed D.seen) operand) (ha : D.holds (·.Placed D.seen) again) :
    D.holds (·.Placed D.seen) (chain operand l.pick again l.build) := by
  refine D.sequences ho fun left hleft => D.sequences (D.holds_accept _) fun found hfound => ?_
  cases found with
  | none => exact D.returns hleft
  | some x =>
    refine D.sequences ha fun right hright => D.returns ?_
    exact placed_build (hfound x.1 x.2 rfl) hleft hright

/-- A literal stands at its token. -/
theorem holds_literal {message : String} {t : Token} {e : Expr} (ht : D.seen t)
    (hnodes : e.nodes = [e]) (hpos : e.mark.pos = some t.pos) (he : ∀ v, e ≠ .var v) :
    D.holds (·.Placed D.seen) (do
      let _ ← advance message
      return e) := by
  refine D.andThen (D.consumes _) fun _ => D.returns ?_
  intro n hn
  rw [hnodes, List.mem_singleton] at hn
  rw [hn]
  exact Expr.at_of_pos ht hpos he

/-- A sign stands at its token, in front of its operand. -/
theorem holds_signed {message : String} {t : Token} {operand : Reader Expr} {build : Expr → Expr}
    (ht : D.seen t) (ho : D.holds (·.Placed D.seen) operand)
    (hnodes : ∀ e, (build e).nodes = build e :: e.nodes)
    (hpos : ∀ e, (build e).mark.pos = some t.pos) (hvar : ∀ e v, build e ≠ .var v) :
    D.holds (·.Placed D.seen) (do
      let _ ← advance message
      let e ← operand
      return build e) := by
  refine D.andThen (D.consumes _) fun _ => D.sequences ho fun e he => D.returns ?_
  show ∀ n ∈ (build e).nodes, n.At D.seen
  rw [hnodes]
  exact List.forall_mem_cons.mpr ⟨Expr.at_of_pos ht (hpos e) (hvar e), he⟩

theorem holds_factor {n : Nat} (hfactor : D.holds (·.Placed D.seen) (factor known n))
    (hlogical : D.holds (·.Placed D.seen) (logical known n))
    (hident : D.holds (·.Placed D.seen) (identifier known n)) :
    D.holds (·.Placed D.seen) (factor known (n + 1)) := by
  unfold factor
  refine D.sequences D.looks fun t ht => ?_
  split
  · exact D.holds_literal ht rfl rfl nofun
  · exact D.holds_literal ht rfl rfl nofun
  · exact D.holds_literal ht rfl rfl nofun
  · exact D.holds_literal ht rfl rfl nofun
  · refine D.andThen (D.consumes _) fun _ => D.sequences hlogical fun e he => ?_
    exact D.andThen (D.follows_expect _) fun _ => D.returns he
  · exact D.holds_signed ht hfactor (fun _ => rfl) (fun _ => rfl) nofun
  · exact D.holds_signed ht hfactor (fun _ => rfl) (fun _ => rfl) nofun
  · exact D.holds_signed ht hfactor (fun _ => rfl) (fun _ => rfl) nofun
  · exact hident
  · exact D.rejects ht (.of_kind (.inl rfl)) rfl

/-- A call stands at the name of the function. -/
theorem placed_call {seen : Token → Prop} {t : Token} {p : Prototype} {args : List Expr}
    (ht : seen t) (hargs : ∀ a ∈ args, a.Placed seen) :
    (Expr.call (.ofPos t.pos) none (some t.valueText) p args).Placed seen := by
  refine List.forall_mem_cons.mpr ⟨Expr.at_of_pos ht rfl nofun, fun n hn => ?_⟩
  obtain ⟨a, ha, hn⟩ := Expr.mem_nodesAll.mp hn
  exact hargs a ha n hn

theorem holds_identifier {n : Nat} (hlogical : D.holds (·.Placed D.seen) (logical known n)) :
    D.holds (·.Placed D.seen) (identifier known (n + 1)) := by
  unfold identifier
  refine D.sequences (D.holds_expect _) fun t hexpected => ?_
  obtain ⟨ht, hmem⟩ := hexpected
  have hk : t.kind = .identifier := by simpa using hmem
  dsimp only
  split
  · refine D.andThen D.looks fun u => ?_
    split
    · exact D.holds_fail ht (.of_name rfl hk rfl) rfl
    · refine D.returns ?_
      exact List.forall_mem_singleton.mpr ⟨t, ht, rfl, fun v hv => by cases hv; exact ⟨hk, rfl⟩⟩
  · refine D.andThen (D.follows_expect _) fun _ => ?_
    refine D.andThen (D.follows_acceptSymbol _) fun found => ?_
    cases found with
    | true => exact D.returns (placed_call ht (by simp))
    | false =>
      have hargs := D.separates (takes_level .logical n) hlogical
      refine bind_assoc remaining _ _ ▸ D.sequences hargs fun args hplaced => ?_
      exact D.andThen (D.follows_expect _) fun _ => D.returns (placed_call ht hplaced)

/-- **What is read as an expression stands at the tokens that were seen.** -/
theorem holds_level : ∀ n : Nat, (∀ l : Level, D.holds (·.Placed D.seen) (l.read known n)) ∧
    D.holds (·.Placed D.seen) (identifier known n)
  | 0 => ⟨fun l => by rw [l.read_zero]; exact D.holds_tooDeep, D.holds_tooDeep⟩
  | n + 1 => by
    obtain ⟨hlevel, hident⟩ := holds_level n
    refine ⟨fun l => ?_, D.holds_identifier (hlevel .logical)⟩
    cases hl : l.inner with
    | none =>
      cases l <;> cases hl
      exact D.holds_factor (hlevel .factor) (hlevel .logical) hident
    | some m =>
      rw [Level.read_succ hl]
      exact D.holds_chain (hlevel m) (hlevel l)

/-- An expression is numbered from the next free number on; the place among the tokens stays. -/
theorem expression_eq (known : Signatures) (n : Nat) : expression known n = (do
    let parsed ← logical known n
    let s ← get
    match parsed.check s.table with
    | (_, .error e) => throw (.error e)
    | (checked, .ok ty) =>
      let (e, nextId) := checked.enumerate s.nextId
      modify fun s' => s'.withScene { s'.scene with nextId }
      announce s.parent e.outline
      return (e, ty)) := by
  unfold expression
  refine bind_congr fun parsed => ?_
  funext s
  show (match parsed.check s.table with
    | (_, .error e) => _
    | (checked, .ok ty) => _ : Reader (Expr × Tag)) s = (match parsed.check s.table with
    | (_, .error e) => _
    | (checked, .ok ty) => _ : Reader (Expr × Tag)) s
  rcases parsed.check s.table with ⟨checked, err | ty⟩ <;> rfl

theorem follows_expression (n : Nat) : D.follows (expression known n) := by
  rw [expression_eq]
  refine D.sequences ((D.holds_level n).1 .logical) fun parsed hplaced => ?_
  refine D.inspects (fun s s' h => ?_) fun s => ?_
  · rw [show s.table = s'.table from congrArg Scene.table h,
      show s.nextId = s'.nextId from congrArg Scene.nextId h, State.parent_eq h]
  · split
    · rename_i e hcheck
      obtain ⟨hcause, t, ht, habout⟩ := hplaced.check_about hcheck
      exact D.stops ht habout hcause
    · refine D.andThen (D.changes fun c => { c with nextId := _ }) fun _ => ?_
      exact D.andThen (D.follows_announce _ _) fun _ => D.returns trivial

/-! ## Statements -/

theorem follows_declaration : D.follows declaration := by
  unfold declaration
  refine D.andThen (D.follows_begin _) fun id => D.andThen (D.consumes _) fun ty => ?_
  refine D.andThen (D.follows_expect _) fun name => D.andThen (D.follows_expect _) fun _ => ?_
  refine D.andThen (D.follows_declare _) fun _ => D.andThen (D.follows_relabel _ _) fun _ => ?_
  exact D.andThen (D.follows_finish _) fun _ => D.returns trivial

theorem follows_printStatement (n : Nat) : D.follows (printStatement scope n) := by
  unfold printStatement
  refine D.andThen (D.follows_begin _) fun id => D.andThen (D.follows_expect _) fun t => ?_
  exact D.andThen (D.follows_expression n) fun r => D.follows_close _

theorem follows_assignment (n : Nat) : D.follows (assignment scope n) := by
  unfold assignment
  refine D.andThen (D.follows_begin _) fun id => ?_
  refine D.sequences (D.holds_expect _) fun t ⟨ht, hk⟩ => ?_
  have hk : t.kind = .identifier := by simpa using hk
  refine D.inspects (fun s s' h => ?_) fun s => ?_
  · rw [show s.table = s'.table from congrArg Scene.table h]
  dsimp only
  split
  · exact D.holds_fail ht (.of_name rfl hk rfl) rfl
  · refine D.andThen D.follows_freshId fun targetId => ?_
    refine D.andThen (D.follows_announce _ _) fun _ => ?_
    refine D.sequences (D.holds_expect _) fun equals ⟨hequals, _⟩ => ?_
    refine D.andThen (D.follows_expression n) fun r => ?_
    split
    · exact D.holds_fail_bind hequals (.of_kind (.inr rfl)) rfl
    · exact D.follows_close _

theorem follows_returnStatement (n : Nat) : D.follows (returnStatement scope n) := by
  unfold returnStatement
  refine D.andThen (D.follows_begin _) fun id => ?_
  refine D.sequences (D.holds_expect _) fun t ⟨ht, _⟩ => D.andThen D.looks fun u => ?_
  dsimp only
  split
  · exact D.follows_close _
  · refine D.andThen (D.follows_expression n) fun r => ?_
    split
    · exact D.holds_fail_bind ht (.of_kind (.inr rfl)) rfl
    · exact D.follows_close _

theorem follows_condition (statement : CompileError.Conditional) (n : Nat) :
    D.follows (condition scope statement n) := by
  unfold condition
  refine D.andThen (D.follows_begin _) fun id => D.sequences D.looks fun t ht => ?_
  refine D.andThen (D.follows_expression n) fun r => ?_
  obtain ⟨e, ty⟩ := r
  dsimp only
  split
  · exact D.holds_fail_bind ht (.of_kind (.inr rfl)) rfl
  · exact D.andThen (D.follows_finish _) fun _ => D.returns trivial

theorem follows_branch {n : Nat} (hblock : ∀ title, D.follows (block scope title n)) :
    D.follows (branch scope (n + 1)) := by
  unfold branch
  refine D.andThen (D.follows_begin _) fun id => D.andThen (D.follows_expect _) fun t => ?_
  refine D.andThen (D.follows_condition .if_ n) fun c => D.andThen (D.follows_expect _) fun _ => ?_
  refine D.andThen (hblock _) fun r => D.andThen (D.holds_accept _) fun other => ?_
  cases other with
  | some _ => exact D.andThen (hblock _) fun r' => D.follows_close _
  | none => exact D.follows_close _

theorem follows_loop {n : Nat} (hblock : ∀ title, D.follows (block scope title n)) :
    D.follows (loop scope (n + 1)) := by
  unfold loop
  refine D.andThen (D.follows_begin _) fun id => D.andThen (D.follows_expect _) fun t => ?_
  refine D.andThen (D.follows_condition .while_ n) fun c => ?_
  exact D.andThen (hblock _) fun r => D.follows_close _

/-- **Statements and blocks of statements follow every discipline.** -/
theorem follows_statement (scope : Scope) : ∀ n : Nat,
    D.follows (statement scope n) ∧ (∀ title, D.follows (block scope title n)) ∧
      D.follows (branch scope n) ∧ D.follows (loop scope n)
  | 0 => ⟨D.holds_tooDeep, fun _ => D.holds_tooDeep, D.holds_tooDeep, D.holds_tooDeep⟩
  | n + 1 => by
    obtain ⟨hstatement, hblock, hbranch, hloop⟩ := follows_statement scope n
    refine ⟨?_, fun title => ?_, D.follows_branch hblock, D.follows_loop hblock⟩
    · unfold statement
      refine D.sequences D.looks fun t ht => ?_
      split
      · exact D.follows_declaration
      · exact D.follows_declaration
      · exact D.follows_declaration
      · exact D.follows_printStatement n
      · exact D.follows_assignment n
      · exact hbranch
      · exact hloop
      · exact D.follows_returnStatement n
      · exact D.rejects ht (.of_kind (.inl rfl)) rfl
      · exact D.rejects ht (.of_kind (.inl rfl)) rfl
    · unfold block
      refine D.andThen (D.follows_begin _) fun id => D.andThen D.looks fun t => ?_
      have hbody := D.repeats (fun k => !endsBlock k) (takes_statement scope n).1 hstatement
      refine bind_assoc remaining _ _ ▸ D.andThen hbody fun body => ?_
      exact D.andThen (D.follows_finish _) fun _ => D.returns trivial

/-! ## Programs -/

theorem follows_formal : D.follows formal :=
  D.andThen D.follows_expectType fun _ =>
    D.andThen (D.follows_expect _) fun _ => D.returns trivial

theorem follows_declareFormals (parent : Nat) : ∀ bs : List Binding,
    D.follows (declareFormals parent bs)
  | [] => D.returns trivial
  | _ :: rest => D.andThen (D.follows_declare _) fun _ =>
      D.andThen (D.follows_addLeaf _ _) fun _ => follows_declareFormals parent rest

/-- Behind the formals a header that was not registered stops the parser at its keyword. -/
theorem follows_functionEnd {t name : Token} {id : Nat} {params : List Binding} (ht : D.seen t) :
    D.follows (functionEnd known frames t name id params) := by
  unfold functionEnd functionBody
  refine D.andThen (D.follows_expect _) fun _ => ?_
  split
  · exact D.holds_fail ht (.of_kind (.inl rfl)) rfl
  · refine D.andThen D.follows_clear fun _ => ?_
    refine D.andThen (D.follows_declareFormals _ _) fun _ => ?_
    refine D.andThen ((D.follows_statement _ _).2.1 _) fun r => ?_
    refine D.andThen (D.follows_expect _) fun _ => D.andThen (D.follows_relabel _ _) fun _ => ?_
    exact D.andThen (D.follows_finish _) fun _ => D.returns trivial

theorem follows_function : D.follows (function known frames) := by
  unfold function
  refine D.sequences (D.holds_expect _) fun t ⟨ht, _⟩ => ?_
  refine D.andThen D.follows_expectType fun _ => D.andThen (D.follows_expect _) fun name => ?_
  refine D.andThen (D.follows_begin _) fun id => D.andThen (D.follows_expect _) fun _ => ?_
  refine D.andThen D.looks fun u => ?_
  dsimp only
  split
  · exact D.follows_functionEnd ht
  · have hparams := D.separates takes_formal D.follows_formal
    exact bind_assoc remaining _ _ ▸ D.andThen hparams fun _ => D.follows_functionEnd ht

theorem follows_script : D.follows (script known frames) := by
  unfold script
  refine D.andThen (D.follows_begin _) fun id => D.andThen D.follows_clear fun _ => ?_
  exact D.andThen ((D.follows_statement _ _).2.1 _) fun r => D.follows_close _

/-- **The parser follows every discipline.** -/
theorem follows_program : D.follows (program known frames) := by
  unfold program
  refine D.andThen D.looks fun t => ?_
  split
  · have hfunctions :=
      D.repeats (· = .keyword .function) (@takes_function frames known) D.follows_function
    refine bind_assoc remaining _ _ ▸ D.andThen hfunctions fun ps => ?_
    exact D.andThen (D.follows_expect _) fun _ => D.returns trivial
  · exact D.follows_script

end Discipline

end Grammar

end Slang
