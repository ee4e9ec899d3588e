import Slang.Proofs.Nodes

/-!
# Types of expressions as rules

* `HasType Γ e T` — under the declared types `Γ` the expression `e` has the type `T`.  The rules do
  not look at what is recorded on the nodes.
* `Expr.Recorded Γ e` — every node of `e` has the type that is recorded on it.
* `Table.types` — the declared types of a symbol table.

Principal results: `check_ok` — what the checker returns is a tree of the type it says, with the
type of every node recorded and nothing else changed; `check_of_hasType` — an expression that has a
type passes the check with it; `HasType.unique` — no expression has two types.
-/

set_option autoImplicit false

namespace Slang

/-- The declared types by name. -/
abbrev Types := Name → Option Tag

/-- The types of the names of a table. -/
def Table.types (table : Table) : Types := fun name => (table.lookup name).map (·.ty)

/-- Under the declared types an expression has a type. -/
inductive HasType (Γ : Types) : Expr → Tag → Prop
  | number {m : Mark} {x : Float} : HasType Γ (.number m x) (some .numeric)
  | truth {m : Mark} {b : Bool} : HasType Γ (.truth m b) (some .boolean)
  | text {m : Mark} {s : String} : HasType Γ (.text m s) (some .string)
  | var {v : Variable} {T : Tag} (h : Γ v.name = some T) : HasType Γ (.var v) T
  | arith {m : Mark} {t : Tag} {op : Operator} {l r : Expr} (hl : HasType Γ l (some .numeric))
      (hr : HasType Γ r (some .numeric)) : HasType Γ (.arith m t op l r) (some .numeric)
  | join {m : Mark} {t : Tag} {l r : Expr} (hl : HasType Γ l (some .string))
      (hr : HasType Γ r (some .string)) : HasType Γ (.arith m t .add l r) (some .string)
  | equality {m : Mark} {t : Tag} {op : Operator} {l r : Expr} {T : Tag}
      (hop : op = .eq ∨ op = .ne) (hl : HasType Γ l T) (hr : HasType Γ r T) :
      HasType Γ (.compare m t op l r) (some .boolean)
  | order {m : Mark} {t : Tag} {op : Operator} {l r : Expr} (hl : HasType Γ l (some .numeric))
      (hr : HasType Γ r (some .numeric)) : HasType Γ (.compare m t op l r) (some .boolean)
  | logic {m : Mark} {t : Tag} {op : Operator} {l r : Expr} (hl : HasType Γ l (some .boolean))
      (hr : HasType Γ r (some .boolean)) : HasType Γ (.logic m t op l r) (some .boolean)
  | not {m : Mark} {t : Tag} {e : Expr} (h : HasType Γ e (some .boolean)) :
      HasType Γ (.not m t e) (some .boolean)
  | sign {m : Mark} {t : Tag} {op : Operator} {e : Expr} (h : HasType Γ e (some .numeric)) :
      HasType Γ (.sign m t op e) (some .numeric)
  | call {m : Mark} {t : Tag} {f : Name} {p : Prototype} {args : List Expr}
      (hlen : args.length = p.formals.length)
      (h : ∀ a ∈ args.zip p.formals, HasType Γ a.1 a.2) : HasType Γ (.call m t f p args) p.returns

/-- Every node has the type that is recorded on it. -/
def Expr.Recorded (Γ : Types) (e : Expr) : Prop := ∀ n ∈ e.nodes, HasType Γ n n.ty?

variable {Γ : Types} {m : Mark} {t T : Tag} {op : Operator} {e l r : Expr}

/-! ## The rules read backwards -/

theorem hasType_arith : HasType Γ (.arith m t op l r) T ↔
    HasType Γ l T ∧ HasType Γ r T ∧ (T = some .numeric ∨ op = .add ∧ T = some .string) := by
  constructor
  · rintro (_ | _)
    · exact ⟨‹_›, ‹_›, .inl rfl⟩
    · exact ⟨‹_›, ‹_›, .inr ⟨rfl, rfl⟩⟩
  · rintro ⟨hl, hr, rfl | ⟨rfl, rfl⟩⟩
    · exact .arith hl hr
    · exact .join hl hr

theorem hasType_compare : HasType Γ (.compare m t op l r) T ↔
    T = some .boolean ∧ ∃ U, HasType Γ l U ∧ HasType Γ r U ∧
      (op = .eq ∨ op = .ne ∨ U = some .numeric) := by
  constructor
  · rintro (_ | _)
    · rename_i U hop hl hr
      exact ⟨rfl, U, hl, hr, hop.imp_right .inl⟩
    · exact ⟨rfl, _, ‹_›, ‹_›, .inr (.inr rfl)⟩
  · rintro ⟨rfl, U, hl, hr, h | h | rfl⟩
    · exact .equality (.inl h) hl hr
    · exact .equality (.inr h) hl hr
    · exact .order hl hr

theorem hasType_logic : HasType Γ (.logic m t op l r) T ↔
    T = some .boolean ∧ HasType Γ l (some .boolean) ∧ HasType Γ r (some .boolean) := by
  constructor
  · rintro (_ | _)
    exact ⟨rfl, ‹_›, ‹_›⟩
  · rintro ⟨rfl, hl, hr⟩
    exact .logic hl hr

theorem hasType_not : HasType Γ (.not m t e) T ↔
    T = some .boolean ∧ HasType Γ e (some .boolean) := by
  constructor
  · rintro (_ | _)
    exact ⟨rfl, ‹_›⟩
  · rintro ⟨rfl, h⟩
    exact .not h

theorem hasType_sign : HasType Γ (.sign m t op e) T ↔
    T = some .numeric ∧ HasType Γ e (some .numeric) := by
  constructor
  · rintro (_ | _)
    exact ⟨rfl, ‹_›⟩
  · rintro ⟨rfl, h⟩
    exact .sign h

theorem hasType_call {f : Name} {p : Prototype} {args : List Expr} :
    HasType Γ (.call m t f p args) T ↔ T = p.returns ∧ args.length = p.formals.length ∧
      ∀ a ∈ args.zip p.formals, HasType Γ a.1 a.2 := by
  constructor
  · rintro (_ | _)
    exact ⟨rfl, ‹_›, ‹_›⟩
  · rintro ⟨rfl, hlen, h⟩
    exact .call hlen h

/-- **No expression has two types.** -/
theorem HasType.unique {U : Tag} (h : HasType Γ e T) (h' : HasType Γ e U) : T = U := by
  induction h generalizing U with
  | number | truth | text => cases h'; rfl
  | var h => cases h' with | var h' => rw [h] at h'; exact Option.some.inj h'
  | arith _ _ ih _ => exact ih (hasType_arith.mp h').1
  | join _ _ ih _ => exact ih (hasType_arith.mp h').1
  | equality | order => exact (hasType_compare.mp h').1.symm
  | logic => exact (hasType_logic.mp h').1.symm
  | not => exact (hasType_not.mp h').1.symm
  | sign => exact (hasType_sign.mp h').1.symm
  | call => exact (hasType_call.mp h').1.symm

section Info

variable (f : Mark → Mark) (g : Tag → Tag)

mutual

/-- What is recorded on the nodes does not matter. -/
theorem hasType_mapInfo : ∀ (e : Expr) {T : Tag}, HasType Γ (e.mapInfo f g) T ↔ HasType Γ e T
  | .number .., _ => ⟨fun h => by cases h; exact .number, fun h => by cases h; exact .number⟩
  | .truth .., _ => ⟨fun h => by cases h; exact .truth, fun h => by cases h; exact .truth⟩
  | .text .., _ => ⟨fun h => by cases h; exact .text, fun h => by cases h; exact .text⟩
  | .var _, _ => ⟨fun h => by cases h with | var h => exact .var h,
      fun h => by cases h with | var h => exact .var h⟩
  | .arith _ _ _ l r, _ => by
    simp only [Expr.mapInfo, hasType_arith, hasType_mapInfo l, hasType_mapInfo r]
  | .compare _ _ _ l r, _ => by
    simp only [Expr.mapInfo, hasType_compare, hasType_mapInfo l, hasType_mapInfo r]
  | .logic _ _ _ l r, _ => by
    simp only [Expr.mapInfo, hasType_logic, hasType_mapInfo l, hasType_mapInfo r]
  | .not _ _ e, _ => by simp only [Expr.mapInfo, hasType_not, hasType_mapInfo e]
  | .sign _ _ _ e, _ => by simp only [Expr.mapInfo, hasType_sign, hasType_mapInfo e]
  | .call _ _ _ p args, _ => by
    simp only [Expr.mapInfo, hasType_call, hasType_mapInfoAll args p.formals]
    simp only [Expr.mapInfoAll_eq, List.length_map]

theorem hasType_mapInfoAll : ∀ (es : List Expr) (Ts : List Tag),
    (∀ a ∈ (Expr.mapInfoAll f g es).zip Ts, HasType Γ a.1 a.2) ↔
      ∀ a ∈ es.zip Ts, HasType Γ a.1 a.2
  | [], _ => by simp [Expr.mapInfoAll]
  | _ :: _, [] => by simp
  | e :: es, T :: Ts => by
    simp only [Expr.mapInfoAll, List.zip_cons_cons, List.forall_mem_cons, hasType_mapInfo e,
      hasType_mapInfoAll es Ts]

end

end Info

theorem Expr.Recorded.hasType (h : e.Recorded Γ) (ht : e.ty? = T) : HasType Γ e T :=
  ht ▸ h e e.self_mem_nodes

theorem recorded_mapInfo (f : Mark → Mark) : (e.mapInfo f id).Recorded Γ ↔ e.Recorded Γ := by
  have hty : ∀ n : Expr, (n.mapInfo f id).ty? = n.ty? := fun n => by cases n <;> rfl
  simp only [Expr.Recorded, Expr.nodes_mapInfo, List.forall_mem_map, hty, hasType_mapInfo]

/-- Numbering the nodes leaves the recorded types as they are. -/
theorem recorded_enumerate (next : Nat) : (e.enumerate next).1.Recorded Γ ↔ e.Recorded Γ := by
  rw [← recorded_mapInfo Mark.place, Expr.mapInfo_enumerate, recorded_mapInfo]

theorem Expr.ty?_enumerate (e : Expr) (next : Nat) : (e.enumerate next).1.ty? = e.ty? := by
  cases e <;> rfl

/-! ## The checker -/

namespace Operator

theorem arithmeticRule_eq_ok {a b : Tag} : op.arithmeticRule a b = .ok T ↔
    a = T ∧ b = T ∧ (T = some .numeric ∨ op = .add ∧ T = some .string) := by
  unfold arithmeticRule
  by_cases hab : a = b
  · subst hab
    rcases a with _ | (_ | _ | _) <;> cases op <;> simp <;> rintro rfl <;> simp
  · simp only [ne_eq, hab, not_false_eq_true, if_true, reduceCtorEq, false_iff, not_and]
    rintro rfl rfl
    exact absurd rfl hab

theorem compareRule_eq_ok {a b : Tag} : op.compareRule a b = .ok T ↔
    T = some .boolean ∧ a = b ∧ (op = .eq ∨ op = .ne ∨ a = some .numeric) := by
  unfold compareRule
  by_cases hab : a = b
  · subst hab
    rcases a with _ | (_ | _ | _) <;> cases op <;> simp [needsOrder, Tag.ordered] <;>
      exact eq_comm
  · simp [hab]

theorem connectRule_eq_ok {a b : Tag} : op.connectRule a b = .ok T ↔
    T = some .boolean ∧ a = some .boolean ∧ b = some .boolean := by
  unfold connectRule
  split <;> simp_all [eq_comm]

theorem signRule_eq_ok {a : Tag} :
    op.signRule a = .ok T ↔ T = some .numeric ∧ a = some .numeric := by
  unfold signRule
  split <;> simp_all [eq_comm]

theorem notRule_eq_ok {a : Tag} : notRule a = .ok T ↔ T = some .boolean ∧ a = some .boolean := by
  unfold notRule
  split <;> simp_all [eq_comm]

end Operator

namespace Expr

section Settle

variable {pos : Option Int} {old : Tag} {e' : Expr}

theorem settle₁_eq_ok {build : Tag → Expr → Expr} {rule : Tag → Except CompileError.Cause Tag}
    {c : Checked} : settle₁ pos old build rule c = (e', .ok T) ↔
      ∃ e U, c = (e, .ok U) ∧ rule U = .ok T ∧ e' = build T e := by
  obtain ⟨e, _ | U⟩ := c
  · simp [settle₁]
  · unfold settle₁
    dsimp only
    split
    · rename_i hrule
      simp [hrule]
    · rename_i V hrule
      constructor
      · rintro ⟨⟩
        exact ⟨e, U, rfl, hrule, rfl⟩
      · rintro ⟨_, _, ⟨⟩, h, rfl⟩
        rw [hrule] at h
        cases h
        rfl

theorem settle₂_eq_ok {build : Tag → Expr → Expr → Expr} {right : Expr}
    {rule : Tag → Tag → Except CompileError.Cause Tag} {c d : Checked} :
    settle₂ pos old build right rule c d = (e', .ok T) ↔
      ∃ l U r V, c = (l, .ok U) ∧ d = (r, .ok V) ∧ rule U V = .ok T ∧ e' = build T l r := by
  obtain ⟨l, _ | U⟩ := c
  · simp [settle₂]
  · unfold settle₂
    rw [settle₁_eq_ok]
    constructor
    · rintro ⟨r, V, hd, hrule, rfl⟩
      exact ⟨l, U, r, V, rfl, hd, hrule, rfl⟩
    · rintro ⟨_, _, r, V, ⟨⟩, hd, hrule, rfl⟩
      exact ⟨r, V, hd, hrule, rfl⟩

end Settle

variable {table : Table}

mutual

/-- **What the check returns is a tree of the type it says.**  The type of every node is recorded on
it, and nothing else has changed. -/
theorem check_ok : ∀ {e e' : Expr} {T : Tag}, e.check table = (e', .ok T) →
    e'.Recorded table.types ∧ e'.ty? = T ∧ e'.bare = e.bare
  | .number .., _, _, h => by
    cases h
    exact ⟨by simpa [Recorded, nodes, ty?] using HasType.number, rfl, rfl⟩
  | .truth .., _, _, h => by
    cases h
    exact ⟨by simpa [Recorded, nodes, ty?] using HasType.truth, rfl, rfl⟩
  | .text .., _, _, h => by
    cases h
    exact ⟨by simpa [Recorded, nodes, ty?] using HasType.text, rfl, rfl⟩
  | .var v, _, _, h => by
    simp only [check, checkVar] at h
    split at h
    · rename_i b hb
      cases h
      refine ⟨?_, rfl, rfl⟩
      simpa [Recorded, nodes] using HasType.var (by simp [Table.types, hb, ty?])
    · cases h
  | .arith m t op l r, e', T, h => by
    simp only [check] at h
    obtain ⟨l', U, r', V, hl, hr, hrule, rfl⟩ := settle₂_eq_ok.mp h
    obtain ⟨hl₁, hl₂, hl₃⟩ := check_ok hl
    obtain ⟨hr₁, hr₂, hr₃⟩ := check_ok hr
    obtain ⟨rfl, rfl, hT⟩ := Operator.arithmeticRule_eq_ok.mp hrule
    refine ⟨?_, rfl, by simp only [bare, mapInfo] at *; rw [hl₃, hr₃]⟩
    simp only [Recorded, nodes, List.forall_mem_cons, List.forall_mem_append]
    exact ⟨hasType_arith.mpr ⟨hl₁.hasType hl₂, hr₁.hasType hr₂, hT⟩, hl₁, hr₁⟩
  | .compare m t op l r, e', T, h => by
    simp only [check] at h
    obtain ⟨l', U, r', V, hl, hr, hrule, rfl⟩ := settle₂_eq_ok.mp h
    obtain ⟨hl₁, hl₂, hl₃⟩ := check_ok hl
    obtain ⟨hr₁, hr₂, hr₃⟩ := check_ok hr
    obtain ⟨rfl, rfl, hop⟩ := Operator.compareRule_eq_ok.mp hrule
    refine ⟨?_, rfl, by simp only [bare, mapInfo] at *; rw [hl₃, hr₃]⟩
    simp only [Recorded, nodes, List.forall_mem_cons, List.forall_mem_append]
    exact ⟨hasType_compare.mpr ⟨rfl, U, hl₁.hasType hl₂, hr₁.hasType hr₂, hop⟩, hl₁, hr₁⟩
  | .logic m t op l r, e', T, h => by
    simp only [check] at h
    obtain ⟨l', U, r', V, hl, hr, hrule, rfl⟩ := settle₂_eq_ok.mp h
    obtain ⟨hl₁, hl₂, hl₃⟩ := check_ok hl
    obtain ⟨hr₁, hr₂, hr₃⟩ := check_ok hr
    obtain ⟨rfl, rfl, rfl⟩ := Operator.connectRule_eq_ok.mp hrule
    refine ⟨?_, rfl, by simp only [bare, mapInfo] at *; rw [hl₃, hr₃]⟩
    simp only [Recorded, nodes, List.forall_mem_cons, List.forall_mem_append]
    exact ⟨.logic (hl₁.hasType hl₂) (hr₁.hasType hr₂), hl₁, hr₁⟩
  | .not m t e, e', T, h => by
    simp only [check] at h
    obtain ⟨e₁, U, he, hrule, rfl⟩ := settle₁_eq_ok.mp h
    obtain ⟨h₁, h₂, h₃⟩ := check_ok he
    obtain ⟨rfl, rfl⟩ := Operator.notRule_eq_ok.mp hrule
    refine ⟨?_, rfl, by simp only [bare, mapInfo] at *; rw [h₃]⟩
    simp only [Recorded, nodes, List.forall_mem_cons]
    exact ⟨.not (h₁.hasType h₂), h₁⟩
  | .sign m t op e, e', T, h => by
    simp only [check] at h
    obtain ⟨e₁, U, he, hrule, rfl⟩ := settle₁_eq_ok.mp h
    obtain ⟨h₁, h₂, h₃⟩ := check_ok he
    obtain ⟨rfl, rfl⟩ := Operator.signRule_eq_ok.mp hrule
    refine ⟨?_, rfl, by simp only [bare, mapInfo] at *; rw [h₃]⟩
    simp only [Recorded, nodes, List.forall_mem_cons]
    exact ⟨.sign (h₁.hasType h₂), h₁⟩
  | .call m t f p args, e', T, h => by
    simp only [check] at h
    split at h
    · rename_i hlen
      split at h
      · cases h
      · rename_i args' hargs
        cases h
        obtain ⟨h₁, h₂, h₃, h₄⟩ := checkArgs_ok hlen hargs
        refine ⟨?_, rfl, by simp only [bare, mapInfo, h₄]⟩
        simp only [Recorded, nodes, List.forall_mem_cons]
        exact ⟨.call h₁ h₂, h₃⟩
    · cases h

theorem checkArgs_ok : ∀ {args args' : List Expr} {formals : List Tag} {f : Name} {i : Nat},
    args.length = formals.length → checkArgs table f i args formals = (args', .ok ()) →
    args'.length = formals.length ∧ (∀ a ∈ args'.zip formals, HasType table.types a.1 a.2) ∧
      (∀ n ∈ nodesAll args', HasType table.types n n.ty?) ∧
      mapInfoAll Mark.place (fun _ => none) args' = mapInfoAll Mark.place (fun _ => none) args
  | [], _, [], _, _, _, h => by
    cases h
    simp [nodesAll]
  | [], _, _ :: _, _, _, hlen, _ => by simp at hlen
  | _ :: _, _, [], _, _, hlen, _ => by simp at hlen
  | arg :: args, _, formal :: formals, f, i, hlen, h => by
    simp only [checkArgs] at h
    split at h
    · cases h
    · rename_i arg' T harg
      split at h
      · rename_i hT
        obtain ⟨h₁, h₂, h₃⟩ := check_ok harg
        cases hrest : checkArgs table f (i + 1) args formals with
        | mk args' outcome =>
          rw [hrest] at h
          cases h
          obtain ⟨k₁, k₂, k₃, k₄⟩ := checkArgs_ok (by simpa using hlen) hrest
          refine ⟨by simpa using k₁, ?_, ?_, ?_⟩
          · simp only [List.zip_cons_cons, List.forall_mem_cons]
            exact ⟨h₁.hasType (h₂.trans hT), k₂⟩
          · simp only [nodesAll, List.forall_mem_append]
            exact ⟨h₁, k₃⟩
          · simp only [bare] at h₃
            simp only [mapInfoAll, h₃, k₄]
      · cases h

end

mutual

/-- **An expression that has a type passes the check with it.** -/
theorem check_of_hasType : ∀ {e : Expr} {T : Tag}, HasType table.types e T →
    ∃ e', e.check table = (e', .ok T)
  | .number .., _, h => by cases h; exact ⟨_, rfl⟩
  | .truth .., _, h => by cases h; exact ⟨_, rfl⟩
  | .text .., _, h => by cases h; exact ⟨_, rfl⟩
  | .var v, T, h => by
    cases h with | var h =>
    obtain ⟨b, hb, rfl⟩ := Option.map_eq_some_iff.mp h
    exact ⟨_, by simp only [check, checkVar, hb]; rfl⟩
  | .arith m t op l r, T, h => by
    obtain ⟨hl, hr, hT⟩ := hasType_arith.mp h
    obtain ⟨l', hl⟩ := check_of_hasType hl
    obtain ⟨r', hr⟩ := check_of_hasType hr
    exact ⟨_, settle₂_eq_ok.mpr ⟨l', T, r', T, hl, hr,
      Operator.arithmeticRule_eq_ok.mpr ⟨rfl, rfl, hT⟩, rfl⟩⟩
  | .compare m t op l r, T, h => by
    obtain ⟨hT, U, hl, hr, hop⟩ := hasType_compare.mp h
    obtain ⟨l', hl⟩ := check_of_hasType hl
    obtain ⟨r', hr⟩ := check_of_hasType hr
    exact ⟨_, settle₂_eq_ok.mpr ⟨l', U, r', U, hl, hr,
      Operator.compareRule_eq_ok.mpr ⟨hT, rfl, hop⟩, rfl⟩⟩
  | .logic m t op l r, T, h => by
    obtain ⟨hT, hl, hr⟩ := hasType_logic.mp h
    obtain ⟨l', hl⟩ := check_of_hasType hl
    obtain ⟨r', hr⟩ := check_of_hasType hr
    exact ⟨_, settle₂_eq_ok.mpr ⟨l', _, r', _, hl, hr,
      Operator.connectRule_eq_ok.mpr ⟨hT, rfl, rfl⟩, rfl⟩⟩
  | .not m t e, T, h => by
    obtain ⟨hT, he⟩ := hasType_not.mp h
    obtain ⟨e', he⟩ := check_of_hasType he
    exact ⟨_, settle₁_eq_ok.mpr ⟨e', _, he, Operator.notRule_eq_ok.mpr ⟨hT, rfl⟩, rfl⟩⟩
  | .sign m t op e, T, h => by
    obtain ⟨hT, he⟩ := hasType_sign.mp h
    obtain ⟨e', he⟩ := check_of_hasType he
    exact ⟨_, settle₁_eq_ok.mpr ⟨e', _, he, Operator.signRule_eq_ok.mpr ⟨hT, rfl⟩, rfl⟩⟩
  | .call m t f p args, T, h => by
    obtain ⟨rfl, hlen, hargs⟩ := hasType_call.mp h
    obtain ⟨args', ha⟩ := checkArgs_of_hasType f 1 hlen hargs
    have hlen : args.length = p.arity := hlen
    exact ⟨_, by simp only [check, hlen, ha, if_true]; rfl⟩

theorem checkArgs_of_hasType : ∀ {args : List Expr} {formals : List Tag} (f : Name) (i : Nat),
    args.length = formals.length → (∀ a ∈ args.zip formals, HasType table.types a.1 a.2) →
    ∃ args', checkArgs table f i args formals = (args', .ok ())
  | [], [], _, _, _, _ => ⟨_, rfl⟩
  | [], _ :: _, _, _, hlen, _ => by simp at hlen
  | _ :: _, [], _, _, hlen, _ => by simp at hlen
  | arg :: args, formal :: formals, f, i, hlen, h => by
    simp only [List.zip_cons_cons, List.forall_mem_cons] at h
    obtain ⟨arg', harg⟩ := check_of_hasType h.1
    obtain ⟨args', hargs⟩ := checkArgs_of_hasType f (i + 1) (by simpa using hlen) h.2
    exact ⟨_, by simp only [checkArgs, harg, hargs, if_true]; rfl⟩

end

end Expr

end Slang
