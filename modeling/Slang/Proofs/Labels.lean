import Slang.Proofs.NumberTexts
import Slang.Proofs.Tokenization

/-!
# Labels

* `Outline.nodes` — a node of a displayed tree and all nodes below it, in pre-order.
* `OneLine`, `Titled` — a text without line breaks, and one that is not empty either.
* `Outline.Legible` — every node has such a label.
* `Expr.nodes_outline` — the displayed nodes of an expression are its nodes.
* `oneLine_of_tokensOf` — the payloads of tokens are free of line breaks, as these have become
  spaces before the text is read.

Principal result: `compile_legible` — every label of a program that was compiled is a line.
-/

set_option autoImplicit false

namespace Slang

variable {frames : Nat}

namespace Outline

/-! ## Nodes of a displayed tree -/

mutual

/-- A node and all nodes below it, in pre-order. -/
def nodes : Outline → List Outline
  | node kind label m ty children => node kind label m ty children :: nodesBelow children

/-- The nodes of a list of trees. -/
def nodesBelow : List Outline → List Outline
  | [] => []
  | c :: rest => nodes c ++ nodesBelow rest

end

theorem mem_nodesBelow {n : Outline} {os : List Outline} :
    n ∈ nodesBelow os ↔ ∃ o ∈ os, n ∈ o.nodes := by
  induction os with
  | nil => simp [nodesBelow]
  | cons o rest ih => simp [nodesBelow, ih]

theorem self_mem_nodes (o : Outline) : o ∈ o.nodes := by
  cases o
  simp [nodes]

mutual

/-- What is below a node below a tree is below the tree. -/
theorem nodes_trans {n m : Outline} (hn : n ∈ m.nodes) : ∀ {o : Outline}, m ∈ o.nodes → n ∈ o.nodes
  | node kind label mark ty children, hm => by
    rw [nodes, List.mem_cons] at hm
    rcases hm with rfl | hm
    · exact hn
    · rw [nodes]
      exact List.mem_cons_of_mem _ (nodesBelow_trans hn hm)

theorem nodesBelow_trans {n m : Outline} (hn : n ∈ m.nodes) :
    ∀ {os : List Outline}, m ∈ nodesBelow os → n ∈ nodesBelow os
  | [], hm => by simp [nodesBelow] at hm
  | o :: rest, hm => by
    simp only [nodesBelow, List.mem_append] at hm ⊢
    rcases hm with hm | hm
    · exact .inl (nodes_trans hn hm)
    · exact .inr (nodesBelow_trans hn hm)

end

end Outline

/-! ## Lines -/

/-- There is no line break in the text. -/
def OneLine (s : String) : Prop := ∀ c ∈ s.toList, c ≠ '\r' ∧ c ≠ '\n'

instance (s : String) : Decidable (OneLine s) :=
  List.decidableBAll (fun c => c ≠ '\r' ∧ c ≠ '\n') s.toList

theorem oneLine_append {a b : String} : OneLine (a ++ b) ↔ OneLine a ∧ OneLine b := by
  simp only [OneLine, String.toList_append, List.forall_mem_append]

theorem oneLine_intercalate {a : String} (ha : OneLine a) :
    ∀ {bs : List String}, (∀ b ∈ bs, OneLine b) → OneLine (a.intercalate bs)
  | [], _ => by
    rw [String.intercalate_nil]
    decide
  | [b], h => by
    rw [String.intercalate_singleton]
    exact h b (by simp)
  | b :: c :: rest, h => by
    rw [List.forall_mem_cons] at h
    rw [String.intercalate_cons_cons, oneLine_append, oneLine_append]
    exact ⟨⟨h.1, ha⟩, oneLine_intercalate ha h.2⟩

theorem oneLine_of_spelled {s : String} (h : Number.Spelled s.toList) : OneLine s := by
  have hall : ∀ c ∈ Number.alphabet, c ≠ '\r' ∧ c ≠ '\n' :=
    List.all_iff_forall_prop.1 (by decide)
  intro c hc
  exact hall c (h c hc)

theorem oneLine_tag (ty : Tag) : OneLine (Tag.name ty) := by
  cases ty with
  | none => decide
  | some T => cases T <;> decide

theorem oneLine_operator (op : Operator) : OneLine op.spelling := by cases op <;> decide

theorem oneLine_verdict (p : Payload) : OneLine p.verdict := by
  unfold Payload.verdict
  split <;> decide

/-- The text is a line that is not empty. -/
def Titled (s : String) : Prop := s ≠ "" ∧ OneLine s

instance (s : String) : Decidable (Titled s) := inferInstanceAs (Decidable (_ ∧ _))

theorem Titled.append {a b : String} (ha : Titled a) (hb : OneLine b) : Titled (a ++ b) := by
  refine ⟨?_, oneLine_append.mpr ⟨ha.2, hb⟩⟩
  rw [Ne, String.append_eq_empty_iff]
  exact fun h => ha.1 h.1

namespace Outline

/-- Every node has a label, which is a line. -/
def Legible (o : Outline) : Prop := ∀ n ∈ o.nodes, Titled n.label

theorem legible_node {kind : NodeKind} {label : String} {m : Mark} {ty : Tag}
    {children : List Outline} :
    Legible (.node kind label m ty children) ↔ Titled label ∧ ∀ c ∈ children, c.Legible := by
  unfold Legible
  rw [nodes, List.forall_mem_cons]
  simp only [mem_nodesBelow]
  constructor
  · intro ⟨hlabel, hbelow⟩
    exact ⟨hlabel, fun c hc n hn => hbelow n ⟨c, hc, hn⟩⟩
  · intro ⟨hlabel, hchildren⟩
    refine ⟨hlabel, ?_⟩
    rintro n ⟨c, hc, hn⟩
    exact hchildren c hc n hn

end Outline

/-! ## Expressions -/

namespace Expr

theorem label_outline (e : Expr) : e.outline.label = e.label := by cases e <;> rfl

mutual

/-- The displayed nodes of an expression are its nodes. -/
theorem nodes_outline : ∀ e : Expr, e.outline.nodes = e.nodes.map outline
  | number .. | truth .. | text .. | var .. => rfl
  | arith _ _ _ l r | compare _ _ _ l r | logic _ _ _ l r => by
    rw [outline, Outline.nodes, nodes, List.map_cons, outline, List.map_append, ← nodes_outline l,
      ← nodes_outline r]
    simp [Outline.nodesBelow]
  | not _ _ e | sign _ _ _ e => by
    rw [outline, Outline.nodes, nodes, List.map_cons, outline, ← nodes_outline e]
    simp [Outline.nodesBelow]
  | call _ _ _ _ args => by
    rw [outline, Outline.nodes, nodes, List.map_cons, outline, nodesBelow_outlines args]

theorem nodesBelow_outlines : ∀ es : List Expr,
    Outline.nodesBelow (outlines es) = (nodesAll es).map outline
  | [] => rfl
  | e :: rest => by
    rw [outlines, Outline.nodesBelow, nodesAll, List.map_append, nodes_outline e,
      nodesBelow_outlines rest]

end

theorem legible_outline {e : Expr} : e.outline.Legible ↔ ∀ n ∈ e.nodes, Titled n.label := by
  simp only [Outline.Legible, nodes_outline, List.forall_mem_map, label_outline]

theorem titled_var {v : Variable} (h : OneLine (Name.shown v.name)) :
    Titled (Expr.var v).label := by
  have hstart : Titled "Variable : " := by decide
  exact ((hstart.append h).append (by decide)).append (oneLine_tag _)

/-- A recorded type does not break a label. -/
theorem titled_of_bare {e : Expr} (h : Titled e.bare.label) : Titled e.label := by
  cases e with
  | var v => exact titled_var (oneLine_append.mp (oneLine_append.mp (oneLine_append.mp h.2).1).1).2
  | _ => exact h

theorem legible_of_bare {e : Expr} (h : e.bare.outline.Legible) : e.outline.Legible := by
  rw [legible_outline] at h ⊢
  rw [bare, nodes_mapInfo, List.forall_mem_map] at h
  exact fun n hn => titled_of_bare (h n hn)

theorem legible_var {v : Variable} (h : OneLine (Name.shown v.name)) :
    (Expr.var v).outline.Legible := by
  rw [legible_outline]
  intro n hn
  rw [nodes, List.mem_singleton] at hn
  rw [hn]
  exact titled_var h

end Expr

namespace Grammar

variable {known : Signatures} {l : Level} {ts : List Token}

theorem titled_build (m : Mark) (op : Operator) (left right : Expr) :
    Titled (l.build m op left right).label := by
  have harith : Titled "Binary operator : " := by decide
  have hcompare : Titled "Relational operator : " := by decide
  have hlogic : Titled "Logical operator : " := by decide
  cases l with
  | factor | term | sum => exact harith.append (oneLine_operator op)
  | comparison => exact hcompare.append (oneLine_operator op)
  | logical => exact hlogic.append (oneLine_operator op)

/-- What is in a part is in the whole. -/
theorem Separated.mem_tokens {parts : List (List Token)} (h : Separated parts ts)
    {part : List Token} (hp : part ∈ parts) {t : Token} (ht : t ∈ part) : t ∈ ts := by
  induction h with
  | nil => cases hp
  | one us =>
    obtain rfl : part = us := by simpa using hp
    exact ht
  | more _ _ _ ih =>
    rcases List.mem_cons.mp hp with rfl | hp
    · exact List.mem_append_left _ ht
    · exact List.mem_append_right _ (List.mem_cons_of_mem _ (ih hp))

/-- The labels of a tree are lines if the payloads of its tokens are. -/
theorem Derives.titled {e : Expr} (h : Derives known l ts e) (hts : ∀ t ∈ ts, OneLine t.valueText) :
    ∀ n ∈ e.nodes, Titled n.label := by
  induction h with
  | number =>
    have hstart : Titled "NUMBER : " := by decide
    exact List.forall_mem_singleton.mpr
      (hstart.append (oneLine_of_spelled (Number.spelled_display _)))
  | text =>
    have hstart : Titled "STRING : \"" := by decide
    exact List.forall_mem_singleton.mpr ((hstart.append (hts _ (by simp))).append (by decide))
  | yes | no =>
    have hstart : Titled "BOOLEAN : " := by decide
    exact List.forall_mem_singleton.mpr (hstart.append (oneLine_verdict _))
  | paren _ _ _ ih => exact ih fun t ht => hts t (by simp [ht])
  | sign _ _ _ ih =>
    have hstart : Titled "Unary operator : " := by decide
    exact List.forall_mem_cons.mpr
      ⟨hstart.append (oneLine_operator _), ih fun t ht => hts t (by simp [ht])⟩
  | not _ _ ih =>
    have hlabel : Titled "Logical operator : !" := by decide
    exact List.forall_mem_cons.mpr ⟨hlabel, ih fun t ht => hts t (by simp [ht])⟩
  | var => exact List.forall_mem_singleton.mpr (Expr.titled_var (hts _ (by simp)))
  | call _ _ _ hs _ _ ih =>
    have hstart : Titled "Call : " := by decide
    refine List.forall_mem_cons.mpr
      ⟨((hstart.append (hts _ (by simp))).append (by decide)).append (oneLine_tag _), ?_⟩
    intro n hn
    rw [Expr.mem_nodesAll] at hn
    obtain ⟨_, harg, hn⟩ := hn
    obtain ⟨a, ha, rfl⟩ := List.mem_map.mp harg
    refine ih a ha (fun t ht => hts t ?_) n hn
    have hmem := hs.mem_tokens (List.mem_map_of_mem ha) ht
    simp [hmem]
  | operand _ _ ih => exact ih hts
  | chain _ _ _ _ ih ih' =>
    intro n hn
    rcases mem_nodes_build.mp hn with rfl | hn | hn
    · exact titled_build ..
    · exact ih (fun t ht => hts t (by simp [ht])) n hn
    · exact ih' (fun t ht => hts t (by simp [ht])) n hn

end Grammar

/-! ## Statements -/

namespace Stmt

theorem titled_titles : Titled thenTitle ∧ Titled elseTitle ∧ Titled bodyTitle := by decide

mutual

theorem legible_of_bare : ∀ {s : Stmt}, s.bare.outline.Legible → s.outline.Legible
  | .print .., h | .ret _ (some _) _, h => by
    simp only [bare, outline, Option.map_some, Outline.legible_node, List.forall_mem_singleton]
      at h ⊢
    exact ⟨h.1, Expr.legible_of_bare h.2⟩
  | .declare .., h | .ret _ none _, h => by
    simp only [bare, outline, Option.map_none, Outline.legible_node] at h ⊢
    exact h
  | .assign _ v _, h => by
    simp only [bare, outline, Outline.legible_node, List.forall_mem_cons] at h ⊢
    obtain ⟨hlabel, hv, he, hnone⟩ := h
    exact ⟨hlabel, @Expr.legible_of_bare (.var v) hv, Expr.legible_of_bare he, hnone⟩
  | .ifThen .., h | .whileDo .., h => by
    simp only [bare, outline, blockNode, Outline.legible_node, List.forall_mem_cons] at h ⊢
    obtain ⟨hlabel, hc, ⟨htitle, hbody⟩, hnone⟩ := h
    exact ⟨hlabel, Expr.legible_of_bare hc, ⟨htitle, legible_of_bareAll hbody⟩, hnone⟩
  | .ifElse .., h => by
    simp only [bare, outline, blockNode, Outline.legible_node, List.forall_mem_cons] at h ⊢
    obtain ⟨hlabel, hc, ⟨htitle, hbody⟩, ⟨htitle', hother⟩, hnone⟩ := h
    exact ⟨hlabel, Expr.legible_of_bare hc, ⟨htitle, legible_of_bareAll hbody⟩,
      ⟨htitle', legible_of_bareAll hother⟩, hnone⟩

theorem legible_of_bareAll : ∀ {ss : List Stmt}, (∀ o ∈ outlines (bareAll ss), o.Legible) →
    ∀ o ∈ outlines ss, o.Legible
  | [], h => h
  | s :: rest, h => by
    simp only [bareAll, outlines, List.forall_mem_cons] at h ⊢
    exact ⟨legible_of_bare h.1, legible_of_bareAll h.2⟩

end

theorem legible_block {title : String} {m : Mark} {body : List Stmt} (htitle : Titled title)
    (hbody : ∀ s ∈ body, s.outline.Legible) : (blockNode title m (outlines body)).Legible := by
  rw [blockNode, Outline.legible_node, outlines_eq, List.forall_mem_map]
  exact ⟨htitle, hbody⟩

end Stmt

namespace Grammar

variable {known : Signatures} {ts : List Token}

theorem Derives.legible {e : Expr} {l : Level} (h : Derives known l ts e)
    (hts : ∀ t ∈ ts, OneLine t.valueText) : e.outline.Legible :=
  Expr.legible_outline.mpr (h.titled hts)

theorem legible_items {items : List (List Token × Stmt)}
    (h : ∀ i ∈ items, (∀ t ∈ i.1, OneLine t.valueText) → i.2.outline.Legible)
    (hts : ∀ t ∈ tokensOf items, OneLine t.valueText) :
    ∀ s ∈ items.map (·.2), s.outline.Legible := by
  rw [List.forall_mem_map]
  intro i hi
  refine h i hi fun t ht => hts t ?_
  exact List.mem_flatten.mpr ⟨i.1, List.mem_map_of_mem hi, ht⟩

/-- The labels of a statement are lines if the payloads of its tokens are. -/
theorem StmtDerives.legible {s : Stmt} (h : StmtDerives known ts s)
    (hts : ∀ t ∈ ts, OneLine t.valueText) : s.outline.Legible := by
  obtain ⟨hthen, helse, hbody⟩ := Stmt.titled_titles
  induction h with
  | declare =>
    have hstart : Titled "Declaration : " := by decide
    rw [Stmt.outline, Outline.legible_node]
    exact ⟨((hstart.append (hts _ (by simp))).append (by decide)).append (oneLine_tag _), by simp⟩
  | print _ h _ =>
    rw [Stmt.outline, Outline.legible_node, List.forall_mem_singleton]
    exact ⟨(by decide : Titled "Print Statement"), h.legible fun t ht => hts t (by simp [ht])⟩
  | assign _ _ h _ =>
    rw [Stmt.outline, Outline.legible_node, List.forall_mem_cons, List.forall_mem_singleton]
    exact ⟨(by decide : Titled "Assignment"), Expr.legible_var (hts _ (by simp)),
      h.legible fun t ht => hts t (by simp [ht])⟩
  | ifThen _ h _ _ _ ih =>
    rw [Stmt.outline, Outline.legible_node, List.forall_mem_cons, List.forall_mem_singleton]
    exact ⟨(by decide : Titled "If Statement"), h.legible fun t ht => hts t (by simp [ht]),
      Stmt.legible_block hthen (legible_items ih fun t ht => hts t (by simp [ht]))⟩
  | ifElse _ h _ _ _ _ _ ih ih' =>
    rw [Stmt.outline, Outline.legible_node, List.forall_mem_cons, List.forall_mem_cons,
      List.forall_mem_singleton]
    exact ⟨(by decide : Titled "If Statement"), h.legible fun t ht => hts t (by simp [ht]),
      Stmt.legible_block hthen (legible_items ih fun t ht => hts t (by simp [ht])),
      Stmt.legible_block helse (legible_items ih' fun t ht => hts t (by simp [ht]))⟩
  | whileDo _ h _ _ ih =>
    rw [Stmt.outline, Outline.legible_node, List.forall_mem_cons, List.forall_mem_singleton]
    exact ⟨(by decide : Titled "While Statement"), h.legible fun t ht => hts t (by simp [ht]),
      Stmt.legible_block hbody (legible_items ih fun t ht => hts t (by simp [ht]))⟩
  | leave =>
    rw [Stmt.outline, Outline.legible_node]
    exact ⟨(by decide : Titled "Return Statement"), by simp⟩
  | ret _ h _ =>
    rw [Stmt.outline, Outline.legible_node, List.forall_mem_singleton]
    exact ⟨(by decide : Titled "Return Statement"), h.legible fun t ht => hts t (by simp [ht])⟩

end Grammar

/-! ## Functions and programs -/

namespace Procedure

theorem titled_label {p : Procedure} (hname : OneLine (Name.shown p.name))
    (hformals : ∀ b ∈ p.formals, OneLine b.nameText) : Titled p.label := by
  have hstart : Titled "FUNCTION " := by decide
  have hparams : OneLine (", ".intercalate
      (p.formals.map fun b => Tag.name b.ty ++ " " ++ b.nameText)) := by
    refine oneLine_intercalate (by decide) (List.forall_mem_map.mpr fun b hb => ?_)
    exact oneLine_append.mpr
      ⟨oneLine_append.mpr ⟨oneLine_tag _, by decide⟩, hformals b hb⟩
  exact (((((hstart.append (oneLine_tag _)).append (by decide)).append hname).append
    (by decide)).append hparams).append (by decide)

theorem legible_outline {p : Procedure} (hlabel : Titled p.label)
    (hbody : ∀ s ∈ p.body, s.outline.Legible) : p.outline.Legible := by
  rw [outline, Outline.legible_node, List.forall_mem_singleton]
  exact ⟨hlabel, Stmt.legible_block Stmt.titled_titles.2.2 hbody⟩

theorem legible_of_bare {p : Procedure} (h : p.bare.outline.Legible) : p.outline.Legible := by
  simp only [outline, Stmt.blockNode, Outline.legible_node, List.forall_mem_singleton] at h ⊢
  exact ⟨h.1, h.2.1, Stmt.legible_of_bareAll h.2.2⟩

end Procedure

namespace Grammar

theorem FunctionDerives.legible {known : Signatures} {ts : List Token} {p : Procedure}
    (h : FunctionDerives known ts p) (hts : ∀ t ∈ ts, OneLine t.valueText) :
    p.outline.Legible := by
  cases h with
  | function _ _ _ _ hs hf _ hb _ =>
    refine Procedure.legible_outline (Procedure.titled_label (hts _ (by simp)) ?_)
      (legible_items (fun i hi => (hb i hi).legible) fun t ht => hts t (by simp [ht]))
    refine List.forall_mem_map.mpr fun f hmem => ?_
    obtain ⟨us, b⟩ := f
    have hus : ∀ u ∈ us, u ∈ _ := fun u hu => hs.mem_tokens (List.mem_map_of_mem hmem) hu
    cases hf _ hmem with
    | typed => exact hts _ (by simp [hus _ (List.mem_cons_of_mem _ (List.mem_singleton_self _))])

/-- The labels of a program are lines if the payloads of its tokens are. -/
theorem ProgramDerives.legible {ts : List Token} {ps : List Procedure} (h : ProgramDerives ts ps)
    (hts : ∀ t ∈ ts, OneLine t.valueText) : ∀ p ∈ ps, p.outline.Legible := by
  cases h with
  | functions _ hall =>
    refine List.forall_mem_map.mpr fun i hi => (hall i hi).legible fun t ht => hts t ?_
    exact List.mem_flatten.mpr ⟨i.1, List.mem_map_of_mem hi, ht⟩
  | script hall =>
    refine List.forall_mem_singleton.mpr (Procedure.legible_outline ?_ ?_)
    · have hmain : OneLine "MAIN" := by decide
      exact Procedure.titled_label hmain (by simp [scriptMain, Procedure.ofParts])
    · exact legible_items (fun i hi => (hall i hi).legible) hts

end Grammar

/-! ## Tokens of a text -/

namespace Token

theorem Spells.oneLine {w : List Char} {k : Kind} {p : Payload} (h : Spells w k p)
    (hw : ∀ c ∈ w, c ≠ '\r' ∧ c ≠ '\n') : OneLine p.shown := by
  cases h with
  | keyword => exact hw
  | identifier =>
    show OneLine (String.ofList _)
    rw [OneLine, String.toList_ofList]
    exact hw
  | number => exact oneLine_of_spelled (Number.spelled_literal _)
  | string =>
    show OneLine (String.ofList _)
    rw [OneLine, String.toList_ofList]
    exact fun c hc => hw c (by simp [hc])
  | symbol => exact hw

theorem Tiles.oneLine {pos : Nat} {text : List Char} {reports : List TokenReport}
    (h : Tiles pos text reports) (htext : ∀ c ∈ text, c ≠ '\r' ∧ c ≠ '\n') :
    ∀ r ∈ reports, OneLine r.token.valueText := by
  induction h with
  | finish =>
    have hnone : OneLine "None" := by decide
    exact List.forall_mem_singleton.mpr hnone
  | blank _ _ ih => exact ih fun c hc => htext c (List.mem_cons_of_mem _ hc)
  | token hw _ ih =>
    rw [List.forall_mem_append] at htext
    exact List.forall_mem_cons.mpr ⟨hw.spells.oneLine htext.1, ih htext.2⟩

end Token

/-- No payload of a text contains a line break. -/
theorem oneLine_of_tokensOf {source : String} {tokens : List Token}
    (h : Program.tokensOf source = .ok tokens) : ∀ t ∈ tokens, OneLine t.valueText := by
  obtain ⟨hvalue, rfl⟩ := Token.all_eq_ok.mp (mapError_eq_ok.mp h)
  refine List.forall_mem_map.mpr ((Token.tokenize_iff.mp ⟨hvalue, rfl⟩).oneLine ?_)
  refine List.forall_mem_map.mpr fun c _ => ?_
  unfold Source.flatten
  split
  · decide
  · rename_i hbreak
    exact not_or.mp hbreak

/-- **Every label of a program that was compiled is a line**, and none is empty. -/
theorem compile_legible {source : String} {program : Program}
    (h : Program.compile frames source = .ok program) : program.outline.Legible := by
  obtain ⟨tokens, t, htokens, -, hderives, -⟩ := (compile_sound h).accepted
  have hlines := oneLine_of_tokensOf htokens
  have hall := hderives.legible fun u hu => hlines u (List.mem_append_left _ hu)
  rw [Program.outline, Outline.legible_node, List.forall_mem_map]
  refine ⟨by decide, fun p hp => Procedure.legible_of_bare ?_⟩
  exact hall _ (List.mem_map_of_mem hp)

end Slang
