import Slang.Grammar.Reader

/-!
# Trees drawn from events

A viewer that only sees the events of the parser keeps a tree of numbered and labelled nodes. This
file says what it draws, without a parser.

* `Drawing` — a node with its number, its label and its children.
* `Drawing.edit` — change one node: another label, more children. `Drawing.graft` adds children.
* `Drawing.replay` — the tree after some events.
* `Draws p a n events trees` — the events draw these trees below node `p`, and number their nodes
  from `a` to `a + n - 1` in pre-order. `Draws.append`, `Draws.leaf` and `Draws.node` build it up.
* `Drawing.prune` — the tree without its formals, and with conditions in the place of the nodes that
  announce them.
* `Outline.drawing` — the numbers and the labels of a displayed tree.

Principal results: `edit_graft`, `Draws.append`, `Draws.node`, `idsAll_pruneAll`.
-/

set_option autoImplicit false

namespace Slang

/-- A drawn node. The root has number zero; a node that was never numbered has none. -/
inductive Drawing where
  | node (id : Option Nat) (label : String) (children : List Drawing)
  deriving Repr

namespace Drawing

/-- The tree that a viewer starts with. -/
def root : Drawing := .node (some 0) "Module" []

mutual

/-- The numbers of a tree in pre-order. -/
def ids : Drawing → List (Option Nat)
  | node id _ children => id :: idsAll children

/-- The numbers of a list of trees. -/
def idsAll : List Drawing → List (Option Nat)
  | [] => []
  | t :: rest => ids t ++ idsAll rest

end

mutual

/-- Change the label of node `n` and add trees behind its children. -/
def edit (n : Nat) (name : String → String) (more : List Drawing) : Drawing → Drawing
  | node id label children =>
    if id = some n then node id (name label) (editAll n name more children ++ more)
    else node id label (editAll n name more children)

/-- Change node `n` in a list of trees. -/
def editAll (n : Nat) (name : String → String) (more : List Drawing) : List Drawing → List Drawing
  | [] => []
  | t :: rest => edit n name more t :: editAll n name more rest

end

/-- Add trees below node `n`, behind the children that it has. -/
def graft (n : Nat) (more : List Drawing) : Drawing → Drawing := edit n id more

/-- The tree after an event. That a node is complete changes nothing. -/
def apply (t : Drawing) : TreeEvent → Drawing
  | .add parent id label _ => t.graft parent [node (some id) label []]
  | .update id label => t.edit id (fun _ => label) []
  | .complete _ => t

/-- The tree after some events, first to last. -/
def replay (t : Drawing) (events : List TreeEvent) : Drawing := events.foldl apply t

@[simp] theorem replay_nil (t : Drawing) : t.replay [] = t := rfl

@[simp] theorem replay_cons (t : Drawing) (e : TreeEvent) (es : List TreeEvent) :
    t.replay (e :: es) = (t.apply e).replay es := rfl

@[simp] theorem replay_append (t : Drawing) (es fs : List TreeEvent) :
    t.replay (es ++ fs) = (t.replay es).replay fs :=
  List.foldl_append

/-! ## Editing -/

section Edit

variable {n p : Nat} {name : String → String} {more ts us : List Drawing}

theorem idsAll_append (ts us : List Drawing) : idsAll (ts ++ us) = idsAll ts ++ idsAll us := by
  induction ts with
  | nil => rfl
  | cons t ts ih => simp only [List.cons_append, idsAll, ih, List.append_assoc]

theorem editAll_append (ts us : List Drawing) :
    editAll n name more (ts ++ us) = editAll n name more ts ++ editAll n name more us := by
  induction ts with
  | nil => rfl
  | cons t ts ih => simp only [List.cons_append, editAll, ih]

mutual

/-- Nothing changes where the node is not. -/
theorem edit_of_not_mem : ∀ t : Drawing, some n ∉ t.ids → t.edit n name more = t
  | node id label children, h => by
    simp only [ids, List.mem_cons, not_or] at h
    rw [edit, if_neg (Ne.symm h.1), editAll_of_not_mem children h.2]

theorem editAll_of_not_mem : ∀ ts : List Drawing, some n ∉ idsAll ts →
    editAll n name more ts = ts
  | [], _ => rfl
  | t :: rest, h => by
    simp only [idsAll, List.mem_append, not_or] at h
    rw [editAll, edit_of_not_mem t h.1, editAll_of_not_mem rest h.2]

end

mutual

/-- Neither a new label nor more children. -/
theorem edit_id : ∀ t : Drawing, t.edit n id [] = t
  | node i label children => by
    rw [edit, editAll_id children]
    split
    · rw [List.append_nil, id]
    · rfl

theorem editAll_id : ∀ ts : List Drawing, editAll n id [] ts = ts
  | [] => rfl
  | t :: rest => by rw [editAll, edit_id t, editAll_id rest]

end

mutual

/-- **Editing what has been grafted.** A node that is not in the tree itself is edited before or
after it is grafted. -/
theorem edit_graft : ∀ t : Drawing, some n ∉ t.ids →
    (t.graft p ts).edit n name more = t.graft p (editAll n name more ts)
  | node i label children, h => by
    simp only [ids, List.mem_cons, not_or] at h
    have hchildren := editAll_graft children h.2
    have hi : ¬ i = some n := Ne.symm h.1
    unfold graft at hchildren ⊢
    simp only [edit]
    split
    · rw [edit, if_neg hi, editAll_append, hchildren]
    · rw [edit, if_neg hi, hchildren]

theorem editAll_graft : ∀ us : List Drawing, some n ∉ idsAll us →
    editAll n name more (editAll p id ts us) = editAll p id (editAll n name more ts) us
  | [], _ => rfl
  | u :: rest, h => by
    simp only [idsAll, List.mem_append, not_or] at h
    have hu := edit_graft u h.1
    unfold graft at hu
    simp only [editAll, hu, editAll_graft rest h.2]

end

mutual

/-- Trees that are grafted one after the other at one node. -/
theorem graft_append (h : some p ∉ idsAll ts) : ∀ t : Drawing,
    (t.graft p ts).graft p us = t.graft p (ts ++ us)
  | node i label children => by
    have hchildren := graftAll_append h children
    have hts : editAll p id us ts = ts := editAll_of_not_mem ts h
    unfold graft
    simp only [edit]
    split
    · rename_i hi
      rw [edit, if_pos hi, editAll_append, hchildren, hts, List.append_assoc]
      rfl
    · rename_i hi
      rw [edit, if_neg hi, hchildren]

theorem graftAll_append (h : some p ∉ idsAll ts) : ∀ vs : List Drawing,
    editAll p id us (editAll p id ts vs) = editAll p id (ts ++ us) vs
  | [] => rfl
  | v :: rest => by
    have hv := graft_append h v
    unfold graft at hv
    simp only [editAll, hv, graftAll_append h rest]

end

mutual

theorem mem_ids_graft {i : Option Nat} : ∀ t : Drawing, i ∈ (t.graft p ts).ids →
    i ∈ t.ids ∨ i ∈ idsAll ts
  | node j label children, h => by
    have hcases : i = j ∨ i ∈ idsAll (editAll p id ts children) ∨ i ∈ idsAll ts := by
      unfold graft at h
      rw [edit] at h
      split at h
      · rw [ids, idsAll_append, List.mem_cons, List.mem_append] at h
        exact h
      · rw [ids, List.mem_cons] at h
        exact h.imp_right .inl
    rw [ids, List.mem_cons]
    rcases hcases with hi | hi | hi
    · exact .inl (.inl hi)
    · rcases mem_idsAll_graft children hi with hi | hi
      · exact .inl (.inr hi)
      · exact .inr hi
    · exact .inr hi

theorem mem_idsAll_graft {i : Option Nat} : ∀ us : List Drawing, i ∈ idsAll (editAll p id ts us) →
    i ∈ idsAll us ∨ i ∈ idsAll ts
  | [], h => .inl h
  | u :: rest, h => by
    rw [editAll, idsAll, List.mem_append] at h
    rw [idsAll, List.mem_append]
    rcases h with hi | hi
    · rcases mem_ids_graft u hi with hi | hi
      · exact .inl (.inl hi)
      · exact .inr hi
    · rcases mem_idsAll_graft rest hi with hi | hi
      · exact .inl (.inr hi)
      · exact .inr hi

end

end Edit

/-! ## Events that draw trees -/

/-- Every number in the tree is smaller than `n`. -/
def Below (n : Nat) (t : Drawing) : Prop := ∀ k, some k ∈ t.ids → k < n

/-- The numbers from `a` on. -/
def numbers (a n : Nat) : List (Option Nat) := (List.range' a n).map some

theorem mem_numbers {a n k : Nat} : some k ∈ numbers a n ↔ a ≤ k ∧ k < a + n := by
  simp only [numbers, List.mem_map, List.mem_range'_1, Option.some.injEq, exists_eq_right]

theorem Below.graft {t : Drawing} {p a n : Nat} {ts : List Drawing} (ht : t.Below a)
    (hts : idsAll ts = numbers a n) : (t.graft p ts).Below (a + n) := by
  intro k hk
  rcases mem_ids_graft t hk with h | h
  · have := ht k h
    omega
  · rw [hts, mem_numbers] at h
    exact h.2

end Drawing

open Drawing

/-- The events draw these trees below node `p`, with the numbers from `a` to `a + n - 1`. -/
structure Draws (p a n : Nat) (events : List TreeEvent) (ts : List Drawing) : Prop where
  ids : idsAll ts = numbers a n
  replay : p < a → ∀ t : Drawing, t.Below a → t.replay events = t.graft p ts

namespace Draws

variable {p a m n : Nat} {es fs : List TreeEvent} {ts us : List Drawing} {label : String}

theorem nil : Draws p a 0 [] [] where
  ids := rfl
  replay := fun _ t _ => (edit_id t).symm

/-- One after the other, with the numbers going on. -/
theorem append (h : Draws p a m es ts) (h' : Draws p (a + m) n fs us) :
    Draws p a (m + n) (es ++ fs) (ts ++ us) where
  ids := by
    rw [idsAll_append, h.ids, h'.ids, numbers, numbers, numbers, ← List.map_append,
      List.range'_append_1]
  replay := by
    intro hp t ht
    have hfree : some p ∉ idsAll ts := by
      rw [h.ids, mem_numbers]
      omega
    rw [replay_append, h.replay hp t ht, h'.replay (by omega) _ (ht.graft h.ids),
      graft_append hfree]

theorem leaf : Draws p a 1 [.add p a label true] [.node (some a) label []] where
  ids := rfl
  replay := fun _ _ _ => rfl

/-- The events that close node `a` again, and the label that it then has. -/
def Closing (a : Nat) (name : String → String) (close : List TreeEvent) : Prop :=
  ∀ t : Drawing, t.replay close = t.edit a name []

theorem closing_complete : Closing a id [.complete a] :=
  fun t => (edit_id t).symm

theorem closing_update : Closing a (fun _ => label) [.update a label, .complete a] :=
  fun _ => rfl

/-- A node is added, what is below it is drawn, and the node is closed. -/
theorem node {name : String → String} {close : List TreeEvent} (h : Draws a (a + 1) n es ts)
    (hclose : Closing a name close) :
    Draws p a (n + 1) (.add p a label false :: (es ++ close))
      [.node (some a) (name label) ts] where
  ids := by
    rw [idsAll, Drawing.ids, h.ids]
    simp [numbers, idsAll, List.range'_succ]
  replay := by
    intro hp t ht
    have hfree : some a ∉ t.ids := by
      intro hmem
      exact Nat.lt_irrefl a (ht a hmem)
    have hbelow : some a ∉ idsAll ts := by
      rw [h.ids, mem_numbers]
      omega
    have hopen : idsAll [Drawing.node (some a) label []] = numbers a 1 := rfl
    have hfill : (t.graft p [.node (some a) label []]).graft a ts =
        t.graft p [.node (some a) label ts] := by
      rw [Drawing.graft, edit_graft t hfree]
      simp [editAll, edit]
    rw [replay_cons, replay_append, Drawing.apply,
      h.replay (Nat.lt_succ_self a) _ (ht.graft hopen), hfill, hclose, edit_graft t hfree]
    simp [editAll, edit, editAll_of_not_mem ts hbelow]

end Draws

/-! ## Nodes that are in no program -/

/-- The label of the node that announces a condition. -/
def conditionTitle : String := "Condition"

/-- How the label of a formal starts. -/
def formalTitle : String := "Formal : "

namespace Drawing

mutual

/-- Take away a leaf that is a formal, and put a condition in the place of the node that announces
it. -/
def prune : Drawing → List Drawing
  | node id label [] => if formalTitle.toList <+: label.toList then [] else [node id label []]
  | node id label [child] =>
    if label = conditionTitle then prune child else [node id label (prune child)]
  | node id label (child :: next :: rest) =>
    [node id label (prune child ++ (prune next ++ pruneAll rest))]

/-- The same for a list of trees. -/
def pruneAll : List Drawing → List Drawing
  | [] => []
  | t :: rest => prune t ++ pruneAll rest

end

theorem pruneAll_append (ts us : List Drawing) :
    pruneAll (ts ++ us) = pruneAll ts ++ pruneAll us := by
  induction ts with
  | nil => rfl
  | cons t ts ih => simp only [List.cons_append, pruneAll, ih, List.append_assoc]

/-- A label that neither announces a condition nor is that of a formal. -/
def Plain (label : String) : Prop :=
  label ≠ conditionTitle ∧ ¬ formalTitle.toList <+: label.toList

/-- The first two characters of a label tell. -/
theorem plain_of_start {label : String} {c d : Char} {rest : List Char}
    (h : label.toList = c :: d :: rest) (hcd : c ≠ 'C' ∧ c ≠ 'F' ∨ d ≠ 'o') : Plain label := by
  have hother : ∀ (b : Char) (more : List Char), b = 'C' ∨ b = 'F' →
      b :: 'o' :: more ≠ c :: d :: rest := by
    intro b more hb heq
    obtain ⟨rfl, htail⟩ := List.cons.inj heq
    obtain ⟨rfl, -⟩ := List.cons.inj htail
    rcases hcd with ⟨hC, hF⟩ | hd
    · exact hb.elim hC hF
    · exact hd rfl
  constructor
  · intro heq
    rw [heq] at h
    exact hother 'C' _ (.inl rfl) h
  · intro hstart
    obtain ⟨more, hmore⟩ := hstart
    rw [h] at hmore
    exact hother 'F' _ (.inr rfl) hmore

theorem prune_node {id : Option Nat} {label : String} (h : Plain label) (children : List Drawing) :
    prune (node id label children) = [node id label (pruneAll children)] := by
  match children with
  | [] => rw [prune, if_neg h.2, pruneAll]
  | [child] => rw [prune, if_neg h.1, pruneAll, pruneAll, List.append_nil]
  | child :: next :: rest => rw [prune, pruneAll, pruneAll]

mutual

/-- Pruning keeps the order of the numbers that it keeps. -/
theorem ids_prune : ∀ t : Drawing, (idsAll t.prune).Sublist t.ids
  | node id label [] => by
    rw [prune]
    split
    · exact List.nil_sublist _
    · exact List.Sublist.refl _
  | node id label [child] => by
    have hchild := ids_prune child
    rw [prune]
    simp only [Drawing.ids, idsAll, List.append_nil]
    split
    · exact hchild.cons _
    · simp only [idsAll, Drawing.ids, List.append_nil]
      exact hchild.cons_cons _
  | node id label (child :: next :: rest) => by
    have hchild := ids_prune child
    have hnext := ids_prune next
    have hrest := idsAll_pruneAll rest
    rw [prune]
    simp only [idsAll, Drawing.ids, List.append_nil, idsAll_append]
    exact (hchild.append (hnext.append hrest)).cons_cons _

theorem idsAll_pruneAll : ∀ ts : List Drawing, (idsAll (pruneAll ts)).Sublist (idsAll ts)
  | [] => List.Sublist.refl _
  | t :: rest => by
    rw [pruneAll, idsAll_append, idsAll]
    exact (ids_prune t).append (idsAll_pruneAll rest)

end

end Drawing

mutual

/-- The numbers and the labels of a displayed tree. -/
def Outline.drawing : Outline → Drawing
  | .node _ label mark _ children => .node mark.id label (Outline.drawings children)

/-- The numbers and the labels of a list of displayed trees. -/
def Outline.drawings : List Outline → List Drawing
  | [] => []
  | o :: rest => Outline.drawing o :: Outline.drawings rest

end

end Slang
