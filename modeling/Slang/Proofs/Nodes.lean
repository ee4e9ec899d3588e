import Slang.Grammar.Expression

/-!
# Trees node by node

* `Expr.nodes` — a tree and everything below it.
* `Expr.mapInfo` — another mark and another recorded type on every node, and nothing else changed.
* `Expr.bare` — a tree as it was written: without numbers and without recorded types.
* `Expr.Linked` — every call carries the signature that its function is registered with.

Principal results: `nodes_mapInfo`, `mapInfo_enumerate`, `linked_bare`.
-/

set_option autoImplicit false

namespace Slang

/-- The place of a mark, without the number. -/
def Mark.place (m : Mark) : Mark := ⟨m.pos, none⟩

@[simp] theorem Mark.place_mk (pos : Option Int) (id : Option Nat) :
    Mark.place ⟨pos, id⟩ = .ofPos pos := rfl

namespace Expr

mutual

/-- The nodes of a tree in pre-order. -/
def nodes : Expr → List Expr
  | number m x => [number m x]
  | truth m b => [truth m b]
  | text m s => [text m s]
  | var v => [var v]
  | arith m t op l r => arith m t op l r :: (nodes l ++ nodes r)
  | compare m t op l r => compare m t op l r :: (nodes l ++ nodes r)
  | logic m t op l r => logic m t op l r :: (nodes l ++ nodes r)
  | not m t e => not m t e :: nodes e
  | sign m t op e => sign m t op e :: nodes e
  | call m t f p args => call m t f p args :: nodesAll args

/-- The nodes of a list of trees. -/
def nodesAll : List Expr → List Expr
  | [] => []
  | e :: rest => nodes e ++ nodesAll rest

end

theorem mem_nodesAll {n : Expr} {es : List Expr} : n ∈ nodesAll es ↔ ∃ e ∈ es, n ∈ e.nodes := by
  induction es with
  | nil => simp [nodesAll]
  | cons e rest ih => simp [nodesAll, ih]

theorem self_mem_nodes (e : Expr) : e ∈ e.nodes := by
  cases e <;> simp [nodes]

/-! ## Marks and recorded types -/

section Info

variable (f : Mark → Mark) (g : Tag → Tag)

mutual

/-- Change the mark and the recorded type of every node. -/
def mapInfo : Expr → Expr
  | number m x => number (f m) x
  | truth m b => truth (f m) b
  | text m s => text (f m) s
  | var v => var ⟨f v.mark, g v.ty, v.name⟩
  | arith m t op l r => arith (f m) (g t) op (mapInfo l) (mapInfo r)
  | compare m t op l r => compare (f m) (g t) op (mapInfo l) (mapInfo r)
  | logic m t op l r => logic (f m) (g t) op (mapInfo l) (mapInfo r)
  | not m t e => not (f m) (g t) (mapInfo e)
  | sign m t op e => sign (f m) (g t) op (mapInfo e)
  | call m t callee p args => call (f m) (g t) callee p (mapInfoAll args)

/-- Change the marks and the recorded types of a list of trees. -/
def mapInfoAll : List Expr → List Expr
  | [] => []
  | e :: rest => mapInfo e :: mapInfoAll rest

end

theorem mapInfoAll_eq (es : List Expr) : mapInfoAll f g es = es.map (mapInfo f g) := by
  induction es with
  | nil => rfl
  | cons e rest ih => rw [mapInfoAll, ih, List.map_cons]

mutual

theorem nodes_mapInfo : ∀ e : Expr, (e.mapInfo f g).nodes = e.nodes.map (mapInfo f g)
  | number .. | truth .. | text .. | var .. => by simp only [mapInfo, nodes, List.map]
  | arith _ _ _ l r | compare _ _ _ l r | logic _ _ _ l r => by
    simp only [mapInfo, nodes, List.map_cons, List.map_append, nodes_mapInfo l, nodes_mapInfo r]
  | not _ _ e | sign _ _ _ e => by
    simp only [mapInfo, nodes, List.map_cons, nodes_mapInfo e]
  | call _ _ _ _ args => by
    simp only [mapInfo, nodes, List.map_cons, nodesAll_mapInfoAll args]

theorem nodesAll_mapInfoAll : ∀ es : List Expr,
    nodesAll (mapInfoAll f g es) = (nodesAll es).map (mapInfo f g)
  | [] => rfl
  | e :: rest => by
    simp only [mapInfoAll, nodesAll, List.map_append, nodes_mapInfo e, nodesAll_mapInfoAll rest]

end

mutual

/-- Numbering changes nothing but numbers. -/
theorem mapInfo_enumerate : ∀ (e : Expr) (next : Nat),
    (e.enumerate next).1.mapInfo Mark.place g = e.mapInfo Mark.place g
  | number .., _ | truth .., _ | text .., _ | var .., _ => rfl
  | arith _ _ _ l r, _ | compare _ _ _ l r, _ | logic _ _ _ l r, _ => by
    simp only [enumerate, mapInfo, Mark.place, mapInfo_enumerate l, mapInfo_enumerate r]
  | not _ _ e, _ | sign _ _ _ e, _ => by
    simp only [enumerate, mapInfo, Mark.place, mapInfo_enumerate e]
  | call _ _ _ _ args, _ => by
    simp only [enumerate, mapInfo, Mark.place, mapInfoAll_enumerateAll args]

theorem mapInfoAll_enumerateAll : ∀ (es : List Expr) (next : Nat),
    mapInfoAll Mark.place g (enumerateAll next es).1 = mapInfoAll Mark.place g es
  | [], _ => rfl
  | e :: rest, _ => by
    simp only [enumerateAll, mapInfoAll, mapInfo_enumerate e, mapInfoAll_enumerateAll rest]

end

end Info

/-- The tree as it was written: no numbers, no recorded types. -/
def bare (e : Expr) : Expr := e.mapInfo Mark.place fun _ => none

/-- Every call in the tree carries the signature that its function is registered with. -/
def Linked (known : Grammar.Signatures) (e : Expr) : Prop :=
  ∀ m t f p args, call m t f p args ∈ e.nodes → known.get? f = some p

theorem linked_bare {known : Grammar.Signatures} {e : Expr} :
    e.bare.Linked known ↔ e.Linked known := by
  unfold Linked bare
  rw [nodes_mapInfo]
  constructor
  · intro h m t f p args hm
    exact h _ _ _ _ _ (List.mem_map_of_mem hm)
  · intro h m t f p args hm
    obtain ⟨n, hn, he⟩ := List.mem_map.mp hm
    cases n <;> simp only [mapInfo, reduceCtorEq, call.injEq] at he
    obtain ⟨_, _, rfl, rfl, _⟩ := he
    exact h _ _ _ _ _ hn

end Expr

end Slang
