import Slang.Proofs.Acceptance
import Slang.Proofs.ParseEvents

/-!
# The drawn tree is the program

Statements and functions are drawn piece by piece while they are read: a node is opened before its
first token is consumed, some labels are known only later, conditions have a node of their own, and
formals are drawn although no node of the program stands for them.

* `Expr.plain_label`, `Stmt.plain_label`, `Procedure.plain_label` — nothing in a program has a label
  that is pruned.
* `Shows o trees` — what is left of the trees by pruning is the outline `o`.
* `shows_node` — a node shows an outline if its children do.
* `grows_statement`, `grows_block`, `grows_function`, `grows_program` — what has been drawn shows
  what has been read.

Principal result: `parse_redraws` — a viewer that replays the events of a successful parse and
prunes the tree ends up with the program, node by node and number by number.
-/

set_option autoImplicit false

namespace Slang

open Drawing

variable {frames : Nat}

/-! ## Labels -/

/-- How a label starts that is not pruned. -/
def PlainStart (label : String) : Prop :=
  ∃ c d rest, label.toList = c :: d :: rest ∧ (c ≠ 'C' ∧ c ≠ 'F' ∨ d ≠ 'o')

theorem PlainStart.append {start : String} (h : PlainStart start) (more : String) :
    PlainStart (start ++ more) := by
  obtain ⟨c, d, rest, hstart, hcd⟩ := h
  refine ⟨c, d, rest ++ more.toList, ?_, hcd⟩
  rw [String.toList_append, hstart]
  rfl

theorem PlainStart.plain {label : String} (h : PlainStart label) : Plain label := by
  obtain ⟨c, d, rest, hstart, hcd⟩ := h
  exact plain_of_start hstart hcd

theorem Expr.plain_label (e : Expr) : Plain e.label := by
  apply PlainStart.plain
  cases e with
  | number | truth | arith | compare | logic | sign => exact .append ⟨_, _, _, rfl, by decide⟩ _
  | text => exact .append (.append ⟨_, _, _, rfl, by decide⟩ _) _
  | var | call => exact .append (.append (.append ⟨_, _, _, rfl, by decide⟩ _) _) _
  | not =>
    show PlainStart "Logical operator : !"
    exact ⟨_, _, _, rfl, by decide⟩

theorem Stmt.plain_label (st : Stmt) : Plain st.label := by
  apply PlainStart.plain
  cases st with
  | declare => exact .append (.append (.append ⟨_, _, _, rfl, by decide⟩ _) _) _
  | print | assign | ifThen | ifElse | whileDo | ret =>
    rw [Stmt.label]
    exact ⟨_, _, _, rfl, by decide⟩

theorem Procedure.plain_label (p : Procedure) : Plain p.label := by
  have hfunction : PlainStart "FUNCTION " := ⟨_, _, _, rfl, by decide⟩
  exact ((((((hfunction.append _).append _).append _).append _).append _).append _).plain

theorem Stmt.plain_titles : Plain Stmt.thenTitle ∧ Plain Stmt.elseTitle ∧ Plain Stmt.bodyTitle :=
  ⟨PlainStart.plain ⟨_, _, _, rfl, by decide⟩, PlainStart.plain ⟨_, _, _, rfl, by decide⟩,
    PlainStart.plain ⟨_, _, _, rfl, by decide⟩⟩

/-! ## Outlines that are left by pruning -/

/-- What is left of the trees by pruning is the outline. -/
def Shows (o : Outline) (ts : List Drawing) : Prop := pruneAll ts = [o.drawing]

theorem shows_node {kind : NodeKind} {label : String} {mark : Mark} {ty : Tag}
    {children : List Outline} {ts : List Drawing} (hlabel : Plain label)
    (h : pruneAll ts = Outline.drawings children) :
    Shows (.node kind label mark ty children) [.node mark.id label ts] := by
  rw [Shows, pruneAll, pruneAll, prune_node hlabel, h]
  rfl

theorem prune_eq {kind : NodeKind} {label : String} {mark : Mark} {ty : Tag}
    {children : List Outline} (hlabel : Plain label)
    (h : pruneAll (Outline.drawings children) = Outline.drawings children) :
    (Outline.node kind label mark ty children).drawing.prune =
      [(Outline.node kind label mark ty children).drawing] := by
  rw [Outline.drawing, prune_node hlabel, h]

theorem pruneAll_cons_eq {o : Outline} {os : List Outline} (ho : o.drawing.prune = [o.drawing])
    (hos : pruneAll (Outline.drawings os) = Outline.drawings os) :
    pruneAll (Outline.drawings (o :: os)) = Outline.drawings (o :: os) := by
  rw [Outline.drawings, pruneAll, ho, hos]
  rfl

theorem prune_pair {kind : NodeKind} {label : String} {mark : Mark} {ty : Tag} {l r : Outline}
    (hlabel : Plain label) (hl : l.drawing.prune = [l.drawing])
    (hr : r.drawing.prune = [r.drawing]) :
    (Outline.node kind label mark ty [l, r]).drawing.prune =
      [(Outline.node kind label mark ty [l, r]).drawing] :=
  prune_eq hlabel (pruneAll_cons_eq hl (pruneAll_cons_eq hr rfl))

mutual

/-- Nothing is pruned from an expression. -/
theorem prune_outline : ∀ e : Expr, e.outline.drawing.prune = [e.outline.drawing]
  | .number m x => prune_eq (Expr.plain_label (.number m x)) rfl
  | .truth m b => prune_eq (Expr.plain_label (.truth m b)) rfl
  | .text m t => prune_eq (Expr.plain_label (.text m t)) rfl
  | .var v => prune_eq (Expr.plain_label (.var v)) rfl
  | .arith m t op l r =>
    prune_pair (Expr.plain_label (.arith m t op l r)) (prune_outline l) (prune_outline r)
  | .compare m t op l r =>
    prune_pair (Expr.plain_label (.compare m t op l r)) (prune_outline l) (prune_outline r)
  | .logic m t op l r =>
    prune_pair (Expr.plain_label (.logic m t op l r)) (prune_outline l) (prune_outline r)
  | .not m t e =>
    prune_eq (Expr.plain_label (.not m t e)) (pruneAll_cons_eq (prune_outline e) rfl)
  | .sign m t op e =>
    prune_eq (Expr.plain_label (.sign m t op e)) (pruneAll_cons_eq (prune_outline e) rfl)
  | .call m t f p args => prune_eq (Expr.plain_label (.call m t f p args)) (pruneAll_outlines args)

theorem pruneAll_outlines : ∀ es : List Expr,
    pruneAll (Outline.drawings (Expr.outlines es)) = Outline.drawings (Expr.outlines es)
  | [] => rfl
  | e :: rest => pruneAll_cons_eq (prune_outline e) (pruneAll_outlines rest)

end

theorem shows_outline (e : Expr) : Shows e.outline [e.outline.drawing] := by
  rw [Shows, pruneAll, pruneAll, prune_outline, List.append_nil]

theorem shows_condition {id : Option Nat} (e : Expr) :
    Shows e.outline [.node id conditionTitle [e.outline.drawing]] := by
  rw [Shows, pruneAll, pruneAll, prune, if_pos rfl, prune_outline, List.append_nil]

theorem Outline.drawings_eq (os : List Outline) : Outline.drawings os = os.map Outline.drawing := by
  induction os with
  | nil => rfl
  | cons o rest ih => rw [Outline.drawings, ih, List.map_cons]

namespace Grammar

variable {α β : Type} {s s' : State} {scope : Scope}

/-! ## Statements -/

theorem parent_eq {id : Nat} {ps : List Nat} (h : s.parents = id :: ps) : s.parent = id := by
  rw [State.parent, h]
  rfl

theorem closes_fail {label : String} {cause : CompileError.Cause} {pos : Int} {f : α → Reader β}
    {Q : β → String → List Drawing → Prop} : Closes label (fail cause pos >>= f) s Q :=
  emits_fail_bind

/-- Names are declared behind the scenes. -/
theorem silent_table (f : Table → Table) :
    Silent (modify fun s => { s with table := f s.table } : Reader PUnit) :=
  silent_modify fun _ => ⟨rfl, rfl⟩

/-- Items that are drawn one after the other. -/
theorem grows_many {begins : Token.Kind → Bool} {item : Reader α} {view : α → Outline}
    (hitem : ∀ s, Grows item s fun a ts => Shows (view a) ts) :
    ∀ (n : Nat) (before : List α) (s : State), Grows (many begins item n before) s fun as ts =>
      ∃ items, as = before.reverse ++ items ∧ pruneAll ts = Outline.drawings (items.map view)
  | 0, before, s => by
    refine silent_current.grows_bind fun t s₁ _ => ?_
    split
    · exact emits_throw
    · exact grows_pure ⟨[], by simp, rfl⟩
  | n + 1, before, s => by
    refine silent_current.grows_bind fun t s₁ _ => ?_
    split
    · refine (hitem s₁).bind fun a ts s₂ _ hts => ?_
      refine Grows.mono (grows_many hitem n (a :: before) s₂) ?_
      rintro as us ⟨items, rfl, hus⟩
      refine ⟨a :: items, by simp, ?_⟩
      rw [pruneAll_append, hts, hus]
      rfl
    · exact grows_pure ⟨[], by simp, rfl⟩

theorem grows_declaration : Grows declaration s fun st ts => Shows st.outline ts := by
  refine grows_begin fun s₁ h₁ => ?_
  refine (silent_advance _).closes_bind fun typeToken s₂ h₂ => ?_
  refine (silent_expect _).closes_bind fun nameToken s₃ h₃ => ?_
  refine (silent_expect _).closes_bind fun _ s₄ h₄ => ?_
  refine (silent_table (·.declare _)).closes_bind fun _ s₅ h₅ => ?_
  have hparents : s₅.parents = s.nextId :: s.parents := by
    rw [h₅, h₄, h₃, h₂, h₁]
  exact closes_relabel (parent_eq hparents) (shows_node (Stmt.plain_label (.declare _ _)) rfl)

theorem grows_printStatement (n : Nat) :
    Grows (printStatement scope n) s fun st ts => Shows st.outline ts := by
  refine grows_begin fun s₁ h₁ => ?_
  refine (silent_expect _).closes_bind fun t s₂ h₂ => ?_
  refine Closes.bind (grows_expression _ n) ?_
  rintro ⟨e, ty⟩ _ s₃ h₃ rfl
  refine (silent_expect _).closes_bind fun _ s₄ h₄ => ?_
  have hparents : s₄.parents = s.nextId :: s.parents := by
    rw [h₄, h₃, h₂, h₁]
  exact closes_finish (parent_eq hparents)
    (shows_node (Stmt.plain_label (.print _ _)) (shows_outline e))

/-- The target of an assignment, and what comes behind it. -/
theorem target_bind (id : Nat) (o : Nat → Outline) (k : Nat → Reader α) :
    (do
      let n ← freshId
      announce id (o n)
      k n) = (do
      let n ← freshId
      announce id (o n)
      return n) >>= k := by
  simp only [bind_assoc, pure_bind]

/-- The target of an assignment is a leaf of its own. -/
theorem closes_target {id : Nat} {label : String} {k : Nat → Reader α} {o : Nat → Outline}
    {Q : α → String → List Drawing → Prop} (hid : s.parent = id)
    (ho : ∀ n, ∃ kind name pos ty, o n = .node kind name ⟨pos, some n⟩ ty [])
    (hk : ∀ n s', s'.parents = s.parents →
      Closes label (k n) s' fun a l ts => Q a l ((o n).drawing :: ts)) :
    Closes label (do
      let n ← freshId
      announce id (o n)
      k n) s Q := by
  have htarget : Grows (do
      let n ← freshId
      announce id (o n)
      return n) s fun n ts => ts = [(o n).drawing] := by
    refine emits_freshId.bind ?_
    rintro _ n s₁ ⟨rfl, rfl, hparents, hnext⟩
    refine (emits_announce _ _ _).bind ?_
    rintro _ _ _ ⟨rfl, rfl⟩
    obtain ⟨kind, name, pos, ty, ho⟩ := ho s.nextId
    refine emits_pure ⟨hparents, 1, [(o s.nextId).drawing], hnext, ?_, rfl⟩
    rw [ho, ← hid]
    exact Draws.leaf
  rw [target_bind]
  refine Closes.bind htarget ?_
  rintro n _ s' hparents rfl
  exact hk n s' hparents

theorem grows_assignment (n : Nat) :
    Grows (assignment scope n) s fun st ts => Shows st.outline ts := by
  refine grows_begin fun s₁ h₁ => ?_
  refine (silent_expect _).closes_bind fun nameToken s₂ h₂ => ?_
  refine silent_get.closes_bind fun state s₃ h₃ => ?_
  dsimp only
  split
  · exact emits_fail
  · rename_i declared _
    have hparents : s₃.parents = s.nextId :: s.parents := by
      rw [h₃, h₂, h₁]
    refine closes_target (parent_eq hparents) (fun _ => ⟨_, _, _, _, rfl⟩) fun targetId s₄ h₄ => ?_
    refine (silent_expect _).closes_bind fun assignToken s₅ h₅ => ?_
    refine Closes.bind (grows_expression _ n) ?_
    rintro ⟨e, ty⟩ _ s₆ h₆ rfl
    dsimp only
    split
    · exact closes_fail
    · refine (silent_expect _).closes_bind fun _ s₇ h₇ => ?_
      have hparents : s₇.parents = s.nextId :: s.parents := by
        rw [h₇, h₆, h₅, h₄, hparents]
      refine closes_finish (parent_eq hparents) (shows_node (Stmt.plain_label (.assign _ _ _)) ?_)
      exact pruneAll_outlines [.var _, e]

theorem grows_returnStatement (n : Nat) :
    Grows (returnStatement scope n) s fun st ts => Shows st.outline ts := by
  refine grows_begin fun s₁ h₁ => ?_
  refine (silent_expect _).closes_bind fun t s₂ h₂ => ?_
  refine silent_current.closes_bind fun _ s₃ h₃ => ?_
  dsimp only
  split
  · rw [pure_bind]
    refine (silent_expect _).closes_bind fun _ s₄ h₄ => ?_
    have hparents : s₄.parents = s.nextId :: s.parents := by
      rw [h₄, h₃, h₂, h₁]
    exact closes_finish (parent_eq hparents)
      (shows_node (Stmt.plain_label (.ret _ none _)) rfl)
  · refine Closes.bind (grows_expression _ n) ?_
    rintro ⟨e, ty⟩ _ s₄ h₄ rfl
    dsimp only
    split
    · exact closes_fail
    · rw [pure_bind]
      refine (silent_expect _).closes_bind fun _ s₅ h₅ => ?_
      have hparents : s₅.parents = s.nextId :: s.parents := by
        rw [h₅, h₄, h₃, h₂, h₁]
      exact closes_finish (parent_eq hparents)
        (shows_node (Stmt.plain_label (.ret _ (some e) _)) (shows_outline e))

/-- A condition is drawn below a node that announces it. -/
theorem grows_condition (statement : CompileError.Conditional) (n : Nat) :
    Grows (condition scope statement n) s fun e ts => Shows e.outline ts := by
  refine grows_begin fun s₁ h₁ => ?_
  refine silent_current.closes_bind fun _ s₂ h₂ => ?_
  refine Closes.bind (grows_expression _ n) ?_
  rintro ⟨e, ty⟩ _ s₃ h₃ rfl
  dsimp only
  split
  · exact closes_fail
  · have hparents : s₃.parents = s.nextId :: s.parents := by
      rw [h₃, h₂, h₁]
    exact closes_finish (parent_eq hparents) (shows_condition e)

/-- The outline of a titled block. -/
def blockOutline (title : String) (b : Mark × List Stmt) : Outline :=
  Stmt.blockNode title b.1 (Stmt.outlines b.2)

theorem grows_block {n : Nat} {title : String} (htitle : Plain title)
    (hstatement : ∀ s, Grows (statement scope n) s fun st ts => Shows st.outline ts) :
    Grows (block scope title (n + 1)) s fun b ts => Shows (blockOutline title b) ts := by
  refine grows_begin fun s₁ h₁ => ?_
  refine silent_current.closes_bind fun _ s₂ h₂ => ?_
  refine silent_remaining.closes_bind fun k s₃ h₃ => ?_
  refine Closes.bind (grows_many hstatement k [] s₃) ?_
  rintro _ ts s₄ h₄ ⟨body, rfl, hts⟩
  have hparents : s₄.parents = s.nextId :: s.parents := by
    rw [h₄, h₃, h₂, h₁]
  refine closes_finish (parent_eq hparents) (shows_node htitle ?_)
  rw [List.append_nil, hts, Stmt.outlines_eq]

theorem grows_branch {n : Nat}
    (hblock : ∀ title, Plain title → ∀ s, Grows (block scope title n) s fun b ts =>
      Shows (blockOutline title b) ts) :
    Grows (branch scope (n + 1)) s fun st ts => Shows st.outline ts := by
  refine grows_begin fun s₁ h₁ => ?_
  refine (silent_expect _).closes_bind fun t s₂ h₂ => ?_
  refine Closes.bind (grows_condition .if_ n) ?_
  intro c cs s₃ h₃ hc
  refine (silent_expect _).closes_bind fun _ s₄ h₄ => ?_
  refine Closes.bind (hblock _ Stmt.plain_titles.1 s₄) ?_
  rintro ⟨thenMark, thenBody⟩ ts s₅ h₅ hts
  refine (silent_accept _).closes_bind fun other s₆ h₆ => ?_
  cases other with
  | some found =>
    refine Closes.bind (hblock _ Stmt.plain_titles.2.1 s₆) ?_
    rintro ⟨elseMark, elseBody⟩ us s₇ h₇ hus
    refine (silent_expect _).closes_bind fun _ s₈ h₈ => ?_
    have hparents : s₈.parents = s.nextId :: s.parents := by
      rw [h₈, h₇, h₆, h₅, h₄, h₃, h₂, h₁]
    refine closes_finish (parent_eq hparents)
      (shows_node (Stmt.plain_label (.ifElse _ _ _ _ _ _)) ?_)
    rw [pruneAll_append, pruneAll_append, pruneAll_append, hc, hts, hus]
    rfl
  | none =>
    refine (silent_expect _).closes_bind fun _ s₇ h₇ => ?_
    have hparents : s₇.parents = s.nextId :: s.parents := by
      rw [h₇, h₆, h₅, h₄, h₃, h₂, h₁]
    refine closes_finish (parent_eq hparents) (shows_node (Stmt.plain_label (.ifThen _ _ _ _)) ?_)
    rw [pruneAll_append, pruneAll_append, hc, hts]
    rfl

theorem grows_loop {n : Nat}
    (hblock : ∀ title, Plain title → ∀ s, Grows (block scope title n) s fun b ts =>
      Shows (blockOutline title b) ts) :
    Grows (loop scope (n + 1)) s fun st ts => Shows st.outline ts := by
  refine grows_begin fun s₁ h₁ => ?_
  refine (silent_expect _).closes_bind fun t s₂ h₂ => ?_
  refine Closes.bind (grows_condition .while_ n) ?_
  intro c cs s₃ h₃ hc
  refine Closes.bind (hblock _ Stmt.plain_titles.2.2 s₃) ?_
  rintro ⟨bodyMark, body⟩ ts s₄ h₄ hts
  refine (silent_expect _).closes_bind fun _ s₅ h₅ => ?_
  have hparents : s₅.parents = s.nextId :: s.parents := by
    rw [h₅, h₄, h₃, h₂, h₁]
  refine closes_finish (parent_eq hparents) (shows_node (Stmt.plain_label (.whileDo _ _ _ _)) ?_)
  rw [pruneAll_append, pruneAll_append, hc, hts]
  rfl

/-- **What is drawn of a statement is the statement.** -/
theorem grows_statement (scope : Scope) : ∀ n : Nat,
    (∀ s, Grows (statement scope n) s fun st ts => Shows st.outline ts) ∧
      (∀ title, Plain title → ∀ s, Grows (block scope title n) s fun b ts =>
        Shows (blockOutline title b) ts) ∧
      (∀ s, Grows (branch scope n) s fun st ts => Shows st.outline ts) ∧
      ∀ s, Grows (loop scope n) s fun st ts => Shows st.outline ts
  | 0 => by
    have htooDeep : ∀ {α : Type} {P : α → List Drawing → Prop} (s : State),
        Grows (tooDeep : Reader α) s P :=
      fun s => silent_current.grows_bind fun _ _ _ => emits_fail
    exact ⟨htooDeep, fun _ _ => htooDeep, htooDeep, htooDeep⟩
  | n + 1 => by
    obtain ⟨hstatement, hblock, hbranch, hloop⟩ := grows_statement scope n
    refine ⟨fun s => ?_, fun title htitle s => grows_block htitle hstatement,
      fun s => grows_branch hblock, fun s => grows_loop hblock⟩
    unfold statement
    refine silent_current.grows_bind fun t s₁ _ => ?_
    split
    · exact grows_declaration
    · exact grows_declaration
    · exact grows_declaration
    · exact grows_printStatement n
    · exact grows_assignment n
    · exact hbranch s₁
    · exact hloop s₁
    · exact grows_returnStatement n
    · exact (silent_report _).grows_bind fun _ _ _ => emits_fail
    · exact (silent_report _).grows_bind fun _ _ _ => emits_fail

/-! ## Functions and programs -/

theorem silent_expectType : Silent expectType :=
  (silent_expect _).bind fun _ => silent_pure _

theorem silent_formal : Silent formal :=
  silent_expectType.bind fun _ => (silent_expect _).bind fun _ => silent_pure _

/-- Formals are drawn as leaves, all of which are pruned. -/
theorem grows_declareFormals {parent : Nat} : ∀ (bs : List Binding) (s : State),
    s.parent = parent → Grows (declareFormals parent bs) s fun _ ts => pruneAll ts = []
  | [], s, _ => grows_pure rfl
  | b :: rest, s, hparent => by
    refine (silent_table (·.declare b)).grows_bind fun _ s₁ h₁ => ?_
    have hparent₁ : s₁.parent = parent := (parent_congr h₁).trans hparent
    refine (grows_addLeaf hparent₁).bind ?_
    rintro _ _ s₂ h₂ ⟨id, rfl⟩
    have hparent₂ : s₂.parent = parent := (parent_congr h₂).trans hparent₁
    refine Grows.mono (grows_declareFormals rest s₂ hparent₂) ?_
    intro _ us hus
    have hformal : formalTitle.toList <+:
        ("Formal : " ++ b.nameText ++ " : " ++ Tag.name b.ty).toList := by
      simp only [String.toList_append, List.append_assoc]
      exact List.prefix_append _ _
    rw [pruneAll_append, pruneAll, pruneAll, prune, if_pos hformal, hus]
    rfl

theorem closes_functionEnd {known : Signatures} {t name : Token} {id : Nat} {label : String}
    {params : List Binding} {ps : List Nat} (hparents : s.parents = id :: ps) :
    Closes label (functionEnd known frames t name id params) s fun p l ts =>
      Shows p.outline [.node (some id) l ts] := by
  refine (silent_expect _).closes_bind fun _ s₁ h₁ => ?_
  unfold functionBody
  split
  · exact emits_fail
  · rename_i sig _
    refine (silent_table fun _ => Table.empty).closes_bind fun _ s₂ h₂ => ?_
    have hparents₂ : s₂.parents = id :: ps := by
      rw [h₂, h₁, hparents]
    refine Closes.bind (grows_declareFormals params s₂ (parent_eq hparents₂)) ?_
    intro _ formals s₃ h₃ hformals
    refine Closes.bind
      ((grows_statement ⟨known, sig⟩ frames).2.1 _ Stmt.plain_titles.2.2 s₃) ?_
    rintro ⟨bodyMark, body⟩ ts s₄ h₄ hts
    refine (silent_expect _).closes_bind fun _ s₅ h₅ => ?_
    have hparents₅ : s₅.parents = id :: ps := by
      rw [h₅, h₄, h₃, hparents₂]
    refine closes_relabel (parent_eq hparents₅) (shows_node (Procedure.plain_label _) ?_)
    rw [pruneAll_append, pruneAll_append, hformals, hts]
    rfl

/-- **What is drawn of a function is the function.** -/
theorem grows_function (known : Signatures) :
    Grows (function known frames) s fun p ts => Shows p.outline ts := by
  refine (silent_expect _).grows_bind fun t s₁ _ => ?_
  refine silent_expectType.grows_bind fun ty s₂ _ => ?_
  refine (silent_expect _).grows_bind fun name s₃ _ => ?_
  refine grows_begin fun s₄ h₄ => ?_
  refine (silent_expect _).closes_bind fun opening s₅ h₅ => ?_
  refine silent_current.closes_bind fun u s₆ h₆ => ?_
  dsimp only
  split
  · rw [pure_bind]
    exact closes_functionEnd (by rw [h₆, h₅, h₄])
  · refine silent_remaining.closes_bind fun k s₇ h₇ => ?_
    refine (silent_separated silent_formal k []).closes_bind fun params s₈ h₈ => ?_
    exact closes_functionEnd (by rw [h₈, h₇, h₆, h₅, h₄])

/-- **What is drawn of a program is the program.** -/
theorem grows_program (known : Signatures) :
    Grows (program known frames) s fun p ts =>
      pruneAll ts = Outline.drawings (p.procedures.map Procedure.outline) := by
  refine silent_current.grows_bind fun t s₁ _ => ?_
  split
  · refine silent_remaining.grows_bind fun k s₂ _ => ?_
    refine (grows_many (fun s => grows_function known) k [] s₂).bind ?_
    rintro _ ts s₃ _ ⟨procedures, rfl, hts⟩
    refine (silent_expect _).grows_bind fun _ s₄ _ => ?_
    refine grows_pure ?_
    rw [List.append_nil]
    exact hts
  · refine grows_begin fun s₂ h₂ => ?_
    refine (silent_table fun _ => Table.empty).closes_bind fun _ s₃ h₃ => ?_
    refine Closes.bind ((grows_statement _ frames).2.1 _ Stmt.plain_titles.2.2 s₃) ?_
    rintro ⟨bodyMark, body⟩ ts s₄ h₄ hts
    refine (silent_expect _).closes_bind fun _ s₅ h₅ => ?_
    have hparents : s₅.parents = s₁.nextId :: s₁.parents := by
      rw [h₅, h₄, h₃, h₂]
    let main : Procedure := ⟨⟨some 0, some s₁.nextId⟩, scriptPrototype, [],
      { bodyMark with pos := some 0 }, body⟩
    have hmain : Shows main.outline [.node (some s₁.nextId) main.label (ts ++ [])] := by
      refine shows_node (Procedure.plain_label main) ?_
      rw [pruneAll_append, hts]
      rfl
    exact closes_finish (parent_eq hparents) hmain

end Grammar

theorem Program.events_parse (tokens : List Token) (prototypes : List Prototype) :
    (Program.parse frames tokens prototypes).reports.filterMap (·.event) =
      Grammar.events (Grammar.program (registered prototypes) frames) (.start tokens) := by
  have hmap : ∀ {α β : Type} (f : α → β) (t : Trace ParseReport α),
      (f <$> t).reports = t.reports := by
    intro α β f t
    rw [map_eq_pure_bind, Trace.reports_bind]
    exact List.append_nil _
  unfold Program.parse
  rw [hmap]
  rfl

theorem nodup_numbers (a n : Nat) : (numbers a n).Nodup :=
  List.Pairwise.map some (fun _ _ hne heq => hne (Option.some.inj heq)) List.nodup_range'

/-- **The events of the parser rebuild the program.** Replay the events of a successful parse from
the root on, then take the formals away and put each condition in the place of the node that
announces it: below the root are the functions in order, every node with its last label, its
children in order and the number that the program records for it. No two nodes have one number. -/
theorem parse_redraws {tokens : List Token} {prototypes : List Prototype} {program : Program}
    (h : (Program.parse frames tokens prototypes).value = .ok program) :
    (root.replay ((Program.parse frames tokens prototypes).reports.filterMap (·.event))).prune =
        [.node (some 0) "Module" (program.procedures.map fun p => p.outline.drawing)] ∧
      (idsAll (program.procedures.map fun p => p.outline.drawing)).Nodup ∧
      none ∉ idsAll (program.procedures.map fun p => p.outline.drawing) := by
  have hparse : Program.ofTokens frames tokens prototypes = .ok program := h
  rw [ofTokens_eq] at hparse
  rw [Program.events_parse]
  cases hout : Grammar.outcome (Grammar.program (registered prototypes) frames) (.start tokens) with
  | error stop =>
    rw [hout] at hparse
    cases hparse
  | ok out =>
    rw [hout] at hparse
    cases hparse
    obtain ⟨-, n, ts, -, hdraws, hpruned⟩ := Grammar.grows_program _ _ _ hout
    rw [Outline.drawings_eq, List.map_map] at hpruned
    have hbelow : root.Below 1 := by
      intro k hk
      have : k = 0 := by simpa [root, Drawing.ids, idsAll] using hk
      omega
    have hreplay : root.replay (Grammar.events (Grammar.program (registered prototypes) frames)
        (.start tokens)) = .node (some 0) "Module" ts :=
      hdraws.replay Nat.zero_lt_one root hbelow
    have hmodule : Plain "Module" := PlainStart.plain ⟨_, _, _, rfl, by decide⟩
    have hids : (idsAll (pruneAll ts)).Sublist (numbers 1 n) := hdraws.ids ▸ idsAll_pruneAll ts
    refine ⟨?_, ?_, ?_⟩
    · rw [hreplay, prune_node hmodule, hpruned]
      rfl
    · exact (hpruned ▸ hids).nodup (nodup_numbers 1 n)
    · intro hnone
      have hmem := (hpruned ▸ hids).subset hnone
      simp [numbers] at hmem

/-- Number two is the formal and number five announces the condition: no node of the program has
these. -/
theorem parse_redraws_branch : ∃ tokens prototypes program,
    Program.tokensOf "FUNCTION NUMERIC F(NUMERIC a) IF TRUE THEN RETURN a; ENDIF END" =
      .ok tokens ∧
    Program.prototypesOf tokens = .ok prototypes ∧
    (Program.parse 100 tokens prototypes).value = .ok program ∧
    idsAll (program.procedures.map fun p => p.outline.drawing) = [1, 3, 4, 6, 7, 8, 9].map some ∧
    (root.replay ((Program.parse 100 tokens prototypes).reports.filterMap (·.event))).prune =
      [.node (some 0) "Module" (program.procedures.map fun p => p.outline.drawing)] := by
  obtain ⟨program, hprogram, hids⟩ : ∃ program,
      Program.compile 100 "FUNCTION NUMERIC F(NUMERIC a) IF TRUE THEN RETURN a; ENDIF END" =
        .ok program ∧
      idsAll (program.procedures.map fun p => p.outline.drawing) =
        [1, 3, 4, 6, 7, 8, 9].map some := by
    apply ok_of_toOption
    decide +kernel
  obtain ⟨tokens, prototypes, s', htokens, hprototypes, hout⟩ := compile_stages hprogram
  have hvalue : (Program.parse 100 tokens prototypes).value = .ok program := by
    show Program.ofTokens 100 tokens prototypes = .ok program
    rw [ofTokens_eq, hout]
    rfl
  exact ⟨tokens, prototypes, program, htokens, hprototypes, hvalue, hids, (parse_redraws hvalue).1⟩

end Slang
