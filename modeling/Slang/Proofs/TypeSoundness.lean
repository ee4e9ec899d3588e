import Slang.Proofs.RunningCode

/-!
# Type soundness

The checker goes through a function once, from the first declaration to the last; a run takes
branches and goes round loops.  The two agree about the type of a name as long as the function never
declares it at two types.

* `Payload.Fits`, `Binding.Fits` — a payload is of the kind that a type asks for, and a binding has
  a payload that fits its own type.
* `Procedure.Uniform` — no name is declared at two types; `Procedure.types` are the types then.
* `Table.Typed` — every entry has the declared type, and a payload that fits it or none.
* `Failure.Reported` — an error of the language, or a loop that outlasts its budget.
* `Gives Q x` — the computation ends in something for which `Q` holds, or in a reported failure.

Principal results: `value_sound`, `ending_sound`, `invoke_sound` — expressions, statements and calls
keep tables typed and give values of their types; `reached_typed` — every table of a run is typed;
`type_soundness` — all of this for every run of a compiled program.
-/

set_option autoImplicit false

namespace Slang

open Grammar

variable {frames : Nat}

/-! ## Values of a type -/

/-- The payload is of the kind that the type asks for. -/
def Payload.Fits (v : Payload) (T : Tag) : Prop := ∃ t, T = some t ∧ v.hasKind t = true

/-- The binding has a payload, and it is of the kind that its type asks for. -/
def Binding.Fits (b : Binding) : Prop := ∃ v, b.value = some v ∧ v.Fits b.ty

/-- The binding has a payload of the kind that its type asks for, or none. -/
def Binding.Sound (b : Binding) : Prop := ∀ v, b.value = some v → v.Fits b.ty

theorem Binding.Fits.sound {b : Binding} (h : b.Fits) : b.Sound := by
  obtain ⟨v, hv, hfit⟩ := h
  intro w hw
  rw [hv] at hw
  cases hw
  exact hfit

theorem Binding.fits_result {T : Tag} {v : Payload} (h : v.Fits T) : (Binding.result T v).Fits :=
  ⟨v, rfl, h⟩

/-- The payloads that fit a type. -/
theorem fits_iff {v : Payload} {T : Ty} : v.Fits (some T) ↔
    match T with
    | .numeric => ∃ x, v = .number x
    | .boolean => ∃ b, v = .truth b
    | .string => ∃ s, v = .text s := by
  constructor
  · rintro ⟨_, ⟨⟩, hkind⟩
    cases T <;> cases v <;> cases hkind <;> exact ⟨_, rfl⟩
  · intro h
    cases T <;> obtain ⟨_, rfl⟩ := h <;> exact ⟨_, rfl, rfl⟩

theorem fits_number {v : Payload} : v.Fits (some .numeric) ↔ ∃ x, v = .number x := fits_iff

theorem fits_truth {v : Payload} : v.Fits (some .boolean) ↔ ∃ b, v = .truth b := fits_iff

theorem fits_text {v : Payload} : v.Fits (some .string) ↔ ∃ s, v = .text s := fits_iff

/-- Two payloads of one type have a sum, difference, product and quotient of it, as far as the type
has these. -/
theorem arithmetic_fits {op : Operator} {a b : Payload} {T : Tag} (ha : a.Fits T) (hb : b.Fits T)
    (hT : T = some .numeric ∨ op = .add ∧ T = some .string) :
    ∃ v, op.arithmetic a b = .ok v ∧ v.Fits T := by
  rcases hT with rfl | ⟨rfl, rfl⟩
  · obtain ⟨x, rfl⟩ := fits_number.mp ha
    obtain ⟨y, rfl⟩ := fits_number.mp hb
    cases op <;> exact ⟨.number _, rfl, fits_number.mpr ⟨_, rfl⟩⟩
  · obtain ⟨s, rfl⟩ := fits_text.mp ha
    obtain ⟨t, rfl⟩ := fits_text.mp hb
    exact ⟨.text (s ++ t), rfl, fits_text.mpr ⟨_, rfl⟩⟩

/-- Two payloads of one type are equal or not, and two numbers have an order or none. -/
theorem compare_fits {op : Operator} {a b : Payload} {T : Tag} (ha : a.Fits T) (hb : b.Fits T)
    (hop : op = .eq ∨ op = .ne ∨ T = some .numeric) : ∃ v, op.compare a b = .ok v := by
  rcases hop with rfl | rfl | rfl
  · exact ⟨_, rfl⟩
  · exact ⟨_, rfl⟩
  · obtain ⟨x, rfl⟩ := fits_number.mp ha
    obtain ⟨y, rfl⟩ := fits_number.mp hb
    cases op <;> exact ⟨_, rfl⟩

theorem signed_fits {op : Operator} {a : Payload} (ha : a.Fits (some .numeric)) :
    ∃ v, op.signed a = .ok v ∧ v.Fits (some .numeric) := by
  obtain ⟨x, rfl⟩ := fits_number.mp ha
  cases op <;> exact ⟨.number _, rfl, fits_number.mpr ⟨_, rfl⟩⟩

/-- A value of a type can be printed. -/
theorem print_fits {b : Binding} (hb : b.Fits) :
    ∃ event, PrintEvent.ofBinding b = .ok event := by
  obtain ⟨name, ty, value⟩ := b
  obtain ⟨v, rfl, T, rfl, hkind⟩ := hb
  cases T <;> cases v <;> cases hkind <;> exact ⟨_, rfl⟩

/-! ## Declared types -/

namespace Procedure

/-- No name is declared at two types, be it as a formal or as a variable. -/
def Uniform (p : Procedure) : Prop :=
  ∀ b ∈ p.declared, ∀ c ∈ p.declared, b.name = c.name → b.ty = c.ty

instance : DecidablePred Uniform := fun p =>
  inferInstanceAs (Decidable (∀ b ∈ p.declared, ∀ c ∈ p.declared, b.name = c.name → b.ty = c.ty))

/-- The declared types. -/
def types (p : Procedure) : Types := latest p.declared

end Procedure

theorem latest_eq_some {bs : List Binding} {name : Name} {T : Tag}
    (h : latest bs name = some T) : ∃ b ∈ bs, b.name = name ∧ b.ty = T := by
  obtain ⟨b, hb, rfl⟩ := Option.map_eq_some_iff.mp h
  rw [List.findRev?_eq_find?_reverse] at hb
  exact ⟨b, List.mem_reverse.mp (List.mem_of_find?_eq_some hb), by simpa using List.find?_some hb,
    rfl⟩

/-- Of a name that is declared at one type only, every declaration is the latest. -/
theorem types_of_mem {p : Procedure} (hu : p.Uniform) {b : Binding} (hb : b ∈ p.declared) :
    p.types b.name = some b.ty := by
  cases h : p.types b.name with
  | none =>
    have hnone := Option.map_eq_none_iff.mp h
    rw [List.findRev?_eq_find?_reverse, List.find?_eq_none] at hnone
    exact absurd (hnone b (List.mem_reverse.mpr hb)) (by simp)
  | some T =>
    obtain ⟨c, hc, hname, rfl⟩ := latest_eq_some h
    rw [hu c hc b hb hname]

theorem types_of_latest {p : Procedure} (hu : p.Uniform) {before : List Binding}
    (hsub : before ⊆ p.declared) {name : Name} {T : Tag} (h : latest before name = some T) :
    p.types name = some T := by
  obtain ⟨b, hb, rfl, rfl⟩ := latest_eq_some h
  exact types_of_mem hu (hsub hb)

theorem HasType.mono {Γ Δ : Types} (h : ∀ name T, Γ name = some T → Δ name = some T) {e : Expr}
    {T : Tag} (he : HasType Γ e T) : HasType Δ e T := by
  induction he with
  | number => exact .number
  | truth => exact .truth
  | text => exact .text
  | var hv => exact .var (h _ _ hv)
  | arith _ _ ihl ihr => exact .arith ihl ihr
  | join _ _ ihl ihr => exact .join ihl ihr
  | equality hop _ _ ihl ihr => exact .equality hop ihl ihr
  | order _ _ ihl ihr => exact .order ihl ihr
  | logic _ _ ihl ihr => exact .logic ihl ihr
  | not _ ih => exact .not ih
  | sign _ ih => exact .sign ih
  | call hlen _ ih => exact .call hlen ih

/-- Where no name is declared at two types, what is settled at one place is settled at all. -/
theorem Settled.uniform {known : Signatures} {p : Procedure} (hu : p.Uniform)
    {before : List Binding} (hsub : before ⊆ p.declared) {e : Expr} {T : Tag}
    (h : Settled known (latest before) e T) : Settled known p.types e T :=
  ⟨fun n hn => (h.recorded n hn).mono fun _ _ => types_of_latest hu hsub, h.type_eq, h.linked⟩

/-! ## Typed tables -/

/-- Every entry has the declared type, and a payload that fits it or none. -/
def Table.Typed (Γ : Types) (table : Table) : Prop :=
  ∀ name b, table.lookup name = some b → Γ name = some b.ty ∧ b.Sound

theorem typed_empty (Γ : Types) : Table.empty.Typed Γ := by
  intro name b h
  cases h

theorem typed_declare {Γ : Types} {table : Table} (h : table.Typed Γ) {b : Binding}
    (hΓ : Γ b.name = some b.ty) (hb : b.Sound) : (table.declare b).Typed Γ := by
  intro name c hc
  rw [Table.lookup, Table.declare, Registry.get?_insert] at hc
  split at hc
  · rename_i hname
    cases hc
    exact ⟨hname ▸ hΓ, hb⟩
  · exact h name c hc

theorem typed_assign {Γ : Types} {table : Table} (h : table.Typed Γ) {target : Name}
    {b : Binding} (hΓ : Γ target = some b.ty) (hb : b.Sound) : (table.assign target b).Typed Γ :=
  typed_declare h (b := b.renamed target) hΓ hb

/-- The actuals fit the formals, as far as there are both. -/
def Matches (formals actuals : List Binding) : Prop :=
  ∀ fa ∈ formals.zip actuals, fa.2.ty = fa.1.ty ∧ fa.2.Sound

/-- Actuals that fit are bound to formals in a typed table. -/
theorem typed_bind {Γ : Types} : ∀ {formals actuals : List Binding} {table : Table},
    (∀ b ∈ formals, Γ b.name = some b.ty) → Matches formals actuals → table.Typed Γ →
    (Procedure.bind formals actuals table).Typed Γ
  | [], _, _, _, _, ht => ht
  | _ :: _, [], _, _, _, ht => ht
  | f :: formals, a :: actuals, table, hΓ, hm, ht => by
    simp only [Matches, List.zip_cons_cons, List.forall_mem_cons] at hm hΓ
    show (Procedure.bind formals actuals (table.assign f.name a)).Typed Γ
    refine typed_bind hΓ.2 hm.2 (typed_assign ht ?_ hm.1.2)
    rw [hm.1.1]
    exact hΓ.1

/-! ## Expressions -/

/-- An error of the language, or a loop that outlasts its budget. -/
def Failure.Reported : Failure → Prop
  | .fault _ | .outOfRounds => True
  | .undefined _ | .unknownProcedure _ | .noStack _ => False

/-- The computation ends in something for which `Q` holds, or in a reported failure. -/
def Gives {α : Type} (Q : α → Prop) : Except Failure α → Prop
  | .ok a => Q a
  | .error f => f.Reported

/-- A value of this type. -/
def HasValue (T : Tag) (b : Binding) : Prop := b.ty = T ∧ b.Fits

/-- Calls of the functions of a program, on actuals that fit, return values of their types. -/
def InvokeSound (program : Program) (invoke : Invoke) : Prop :=
  ∀ f q actuals, program.find? f = some q → Matches q.formals actuals →
    Gives (fun r => ∀ b, r = some b → HasValue q.returns b) (valueOf (invoke f actuals))

theorem operand_fits {b : Binding} {T : Tag} (h : HasValue T b) :
    ∃ v, Expr.operand b = .ok v ∧ v.Fits T := by
  obtain ⟨rfl, v, hv, hfit⟩ := h
  exact ⟨v, by rw [Expr.operand, hv]; rfl, hfit⟩

theorem arithmetic_defined {op : Operator} {a b : Binding} {T : Tag} (ha : HasValue T a)
    (hb : HasValue T b) (hT : T = some .numeric ∨ op = .add ∧ T = some .string) :
    ∃ v, (do op.arithmetic (← Expr.operand a) (← Expr.operand b)) = .ok v ∧ v.Fits T := by
  obtain ⟨v, hv, hfit⟩ := operand_fits ha
  obtain ⟨w, hw, hfit'⟩ := operand_fits hb
  rw [hv, hw]
  exact arithmetic_fits hfit hfit' hT

theorem compare_defined {op : Operator} {a b : Binding} {T : Tag} (ha : HasValue T a)
    (hb : HasValue T b) (hop : op = .eq ∨ op = .ne ∨ T = some .numeric) :
    ∃ v, (do op.compare (← Expr.operand a) (← Expr.operand b)) = .ok v := by
  obtain ⟨v, hv, hfit⟩ := operand_fits ha
  obtain ⟨w, hw, hfit'⟩ := operand_fits hb
  rw [hv, hw]
  exact compare_fits hfit hfit' hop

theorem signed_defined {op : Operator} {a : Binding} (ha : HasValue (some .numeric) a) :
    ∃ v, (do op.signed (← Expr.operand a)) = .ok v ∧ v.Fits (some .numeric) := by
  obtain ⟨v, hv, hfit⟩ := operand_fits ha
  rw [hv]
  exact signed_fits hfit

/-- A variable that has a value has one of its type. -/
theorem read_sound {Γ : Types} {table : Table} (ht : table.Typed Γ) {name : Name} {T : Tag}
    (hΓ : Γ name = some T) : Gives (HasValue T) (valueOf (Expr.read table name)) := by
  unfold Expr.read
  split
  · rename_i n ty v hl
    obtain ⟨hty, hs⟩ := ht _ _ hl
    rw [hΓ] at hty
    exact ⟨(Option.some.inj hty).symm, v, rfl, hs v rfl⟩
  · exact trivial

/-- Expressions that give values of their types do so one after the other. -/
theorem gives_values {invoke : Invoke} {table : Table} : ∀ {es : List Expr},
    (∀ a ∈ es, Gives (HasValue a.ty?) (a.value invoke table)) →
      Gives (fun bs => bs.map (·.ty) = es.map Expr.ty? ∧ ∀ b ∈ bs, b.Fits)
        (Expr.values invoke table es)
  | [], _ => ⟨rfl, by simp⟩
  | e :: es, h => by
    have he := h e (by simp)
    have hes := @gives_values invoke table es fun a ha => h a (by simp [ha])
    cases hv : e.value invoke table with
    | error f =>
      rw [Expr.values_cons_error.mpr (.inl hv)]
      rw [hv] at he
      exact he
    | ok b =>
      rw [hv] at he
      cases hvs : Expr.values invoke table es with
      | error f =>
        rw [Expr.values_cons_error.mpr (.inr ⟨⟨b, hv⟩, hvs⟩)]
        rw [hvs] at hes
        exact hes
      | ok bs =>
        rw [hvs] at hes
        rw [Expr.values_cons_ok.mpr ⟨b, bs, hv, hvs, rfl⟩]
        refine ⟨?_, ?_⟩
        · rw [List.map_cons, List.map_cons, he.1, hes.1]
        · exact List.forall_mem_cons.mpr ⟨he.2, hes.2⟩

/-- Actuals of the types of the formals fit them. -/
theorem matches_of_types {formals actuals : List Binding}
    (hty : actuals.map (·.ty) = formals.map (·.ty)) (hfit : ∀ b ∈ actuals, b.Fits) :
    Matches formals actuals := by
  rintro ⟨f, a⟩ hfa
  refine ⟨?_, (hfit a (List.of_mem_zip hfa).2).sound⟩
  obtain ⟨i, hi, he⟩ := List.mem_iff_getElem.mp hfa
  rw [List.getElem_zip, Prod.mk.injEq] at he
  obtain ⟨rfl, rfl⟩ := he
  have := congrArg (·[i]?) hty
  rw [List.length_zip] at hi
  have hi' : i < formals.length ∧ i < actuals.length := by omega
  simpa [hi'.1, hi'.2] using this

/-- The types that the signature of a call asks for are those recorded on the arguments. -/
theorem types_of_args {Γ : Types} : ∀ {args : List Expr} {Ts : List Tag},
    args.length = Ts.length → (∀ a ∈ args.zip Ts, HasType Γ a.1 a.2) →
    (∀ a ∈ args, HasType Γ a a.ty?) → args.map Expr.ty? = Ts
  | [], [], _, _, _ => rfl
  | [], _ :: _, hlen, _, _ | _ :: _, [], hlen, _, _ => by simp at hlen
  | e :: es, T :: Ts, hlen, hz, hr => by
    simp only [List.zip_cons_cons, List.forall_mem_cons] at hz hr
    rw [List.map_cons, hr.1.unique hz.1, types_of_args (by simpa using hlen) hz.2 hr.2]

theorem Settled.operand_type {known : Signatures} {Γ : Types} {e a : Expr} {T U : Tag}
    (h : Settled known Γ e T) (ha : a ∈ e.operands) (hU : HasType Γ a U) : a.ty? = U :=
  ((h.operand ha).recorded a a.self_mem_nodes).unique hU

section Expressions

variable {program : Program} {invoke : Invoke} {table : Table} {Γ : Types}

/-- The values of the arguments of a call fit the formals of the function that is called. -/
theorem arguments_match (hc : Consistent program) {m : Mark} {t T : Tag} {f : Name}
    {sig : Prototype} {args : List Expr} {bs : List Binding}
    (h : Settled program.prototypes Γ (.call m t f sig args) T)
    (hty : bs.map (·.ty) = args.map Expr.ty?) (hfit : ∀ b ∈ bs, b.Fits) :
    ∃ q, program.find? f = some q ∧ t = q.returns ∧ Matches q.formals bs := by
  obtain ⟨hT, hlen, hargs⟩ := hasType_call.mp (h.recorded _ (Expr.self_mem_nodes _))
  obtain ⟨q, hq, rfl⟩ := hc.linked (h.linked m t f sig args (Expr.self_mem_nodes _))
  refine ⟨q, hq, hT, matches_of_types ?_ hfit⟩
  rw [hty, ← hc.formals q (find?_spec hq).1]
  exact types_of_args hlen hargs fun a ha => (h.operand ha).recorded a a.self_mem_nodes

/-- **An expression gives a value of the type that is recorded on it**, in a typed table and if the
functions of the program do. -/
theorem value_sound (hc : Consistent program) (hinv : InvokeSound program invoke)
    (ht : table.Typed Γ) (e : Expr) (h : Settled program.prototypes Γ e e.ty?) :
    Gives (HasValue e.ty?) (e.value invoke table) := by
  have ih : ∀ a ∈ e.operands, Gives (HasValue a.ty?) (a.value invoke table) :=
    fun a ha => value_sound hc hinv ht a (h.operand ha)
  have htype : HasType Γ e e.ty? := h.recorded e e.self_mem_nodes
  have hvalues := gives_values ih
  rcases hops : Expr.values invoke table e.operands with f | bs
  · rw [Expr.value_of_operands hops]
    rw [hops] at hvalues
    exact hvalues
  rw [hops] at hvalues
  -- an operand that has a value has one of the type that the rules give it
  have hval : ∀ {a : Expr} {T : Tag} {b : Binding}, a ∈ e.operands → HasType Γ a T →
      a.value invoke table = .ok b → HasValue T b := by
    intro a T b ha hT hb
    have hfit := ih a ha
    rw [hb, h.operand_type ha hT] at hfit
    exact hfit
  cases e with
  | number m x => exact ⟨rfl, _, rfl, fits_number.mpr ⟨x, rfl⟩⟩
  | truth m b => exact ⟨rfl, _, rfl, fits_truth.mpr ⟨b, rfl⟩⟩
  | text m s => exact ⟨rfl, _, rfl, fits_text.mpr ⟨s, rfl⟩⟩
  | var v =>
    cases htype with | var hΓ =>
    exact read_sound ht hΓ
  | arith m t op l r =>
    obtain ⟨hl, hr, hT⟩ := hasType_arith.mp htype
    obtain ⟨a, b, ha, hb⟩ := Expr.values_pair_ok hops
    have hfa := hval (by simp [Expr.operands]) hl ha
    have hfb := hval (by simp [Expr.operands]) hr hb
    obtain ⟨u, hu, hfit⟩ := arithmetic_defined hfa hfb hT
    rw [Expr.value_arith_ok ha hb, hu]
    refine ⟨hfa.1, Binding.fits_result ?_⟩
    rw [hfa.1]
    exact hfit
  | compare m t op l r =>
    obtain ⟨hT, U, hl, hr, hcmp⟩ := hasType_compare.mp htype
    obtain ⟨a, b, ha, hb⟩ := Expr.values_pair_ok hops
    have hfa := hval (by simp [Expr.operands]) hl ha
    have hfb := hval (by simp [Expr.operands]) hr hb
    obtain ⟨u, hu⟩ := compare_defined hfa hfb hcmp
    rw [Expr.value_compare_ok ha hb, hu]
    exact ⟨hT.symm, Binding.fits_result (fits_truth.mpr ⟨u, rfl⟩)⟩
  | logic m t op l r =>
    obtain ⟨hT, _, _⟩ := hasType_logic.mp htype
    obtain ⟨a, b, ha, hb⟩ := Expr.values_pair_ok hops
    rw [Expr.value_logic_ok ha hb]
    exact ⟨hT.symm, Binding.fits_result (fits_truth.mpr ⟨_, rfl⟩)⟩
  | not m t e =>
    obtain ⟨hT, _⟩ := hasType_not.mp htype
    obtain ⟨a, _, ha, _, _⟩ := Expr.values_cons_ok.mp hops
    rw [Expr.value_not_ok ha]
    exact ⟨hT.symm, Binding.fits_result (fits_truth.mpr ⟨_, rfl⟩)⟩
  | sign m t op e =>
    obtain ⟨hT, he⟩ := hasType_sign.mp htype
    obtain ⟨a, _, ha, _, _⟩ := Expr.values_cons_ok.mp hops
    obtain ⟨u, hu, hfit⟩ := @signed_defined op a (hval (by simp [Expr.operands]) he ha)
    rw [Expr.value_sign_ok ha, hu]
    exact ⟨hT.symm, Binding.fits_result hfit⟩
  | call m t f sig args =>
    obtain ⟨q, hq, rfl, hmatch⟩ := arguments_match hc h hvalues.1 hvalues.2
    have hcall := hinv f q bs hq hmatch
    have hactuals : Expr.values invoke table args = .ok bs := hops
    rw [Expr.value_call_ok hactuals]
    split
    · rename_i b hb
      rw [hb] at hcall
      exact hcall b rfl
    · exact trivial
    · rename_i g hg
      rw [hg] at hcall
      exact hcall
termination_by sizeOf e
decreasing_by exact sizeOf_operand ha

end Expressions

/-! ## Statements -/

/-- A value that is returned has the return type; a bare RETURN returns none. -/
def Flow.Sound (returns : Tag) : Flow → Prop
  | .next => True
  | .returned b => b.value.isSome → HasValue returns b

/-- What is done in a function ends well or in a reported failure, and in a typed table. -/
def EndsTyped (p : Procedure) (x : Except Failure Flow × Table) : Prop :=
  Gives (Flow.Sound p.returns) x.1 ∧ x.2.Typed p.types

section Statements

variable {program : Program} {act : Activation} {p : Procedure} {table : Table}

/-- An expression of a function gives a value of the type that is recorded on it. -/
theorem eval_sound (hc : Consistent program) (hinv : InvokeSound program act.invoke)
    (hu : p.Uniform) {e : Expr} (he : (Task.eval e).Code program.prototypes p)
    (ht : table.Typed p.types) : Gives (HasValue e.ty?) (e.value act.invoke table) := by
  obtain ⟨before, T, hsub, hT⟩ := he
  obtain rfl := hT.type_eq
  exact value_sound hc hinv ht e (hT.uniform hu hsub)

/-- A loop keeps tables typed if its body does, however often it goes round. -/
theorem endingLoop_sound {m : Mark} {c : Expr} {body : List Stmt}
    (hcond : ∀ {t : Table}, t.Typed p.types → Gives (HasValue c.ty?) (c.value act.invoke t))
    (hbody : ∀ {t : Table}, t.Typed p.types → EndsTyped p (Stmt.endingAll act t body)) (n : Nat)
    (ht : table.Typed p.types) : EndsTyped p (Stmt.endingLoop act table m c body n) := by
  induction n generalizing table with
  | zero =>
    rw [Stmt.endingLoop_zero]
    exact ⟨trivial, ht⟩
  | succ n ih =>
    have hb := hbody ht
    have hv := hcond ht
    rw [Stmt.endingLoop_succ]
    split
    · rename_i f hf
      rw [hf] at hv
      exact ⟨hv, ht⟩
    · split
      · split
        · rename_i t' he
          rw [he] at hb
          exact ih hb.2
        · rename_i b t' he
          rw [he] at hb
          exact hb
        · rename_i f t' he
          rw [he] at hb
          exact hb
      · exact ⟨trivial, ht⟩

mutual

/-- **A statement of a function keeps its table typed.** -/
theorem ending_sound (hc : Consistent program) (hinv : InvokeSound program act.invoke)
    (hp : p ∈ program.procedures) (hu : p.Uniform) : ∀ {table : Table} (s : Stmt),
    (Task.exec s).Code program.prototypes p → table.Typed p.types →
      EndsTyped p (s.ending act table)
  | table, .print m e, hs, ht => by
    have hv := eval_sound hc hinv hu (first_code hs rfl) ht
    rw [Stmt.ending_print]
    split
    · rename_i f hf
      rw [hf] at hv
      exact ⟨hv, ht⟩
    · rename_i b hb
      rw [hb] at hv
      obtain ⟨event, hevent⟩ := print_fits hv.2
      rw [hevent]
      exact ⟨trivial, ht⟩
  | table, .declare m b, hs, ht => by
    obtain ⟨before, hsub, _⟩ := hs
    have hb : b ∈ p.declared := hsub (List.mem_append_right _ (by simp [Stmt.declarations]))
    rw [Stmt.ending_declare]
    refine ⟨trivial, typed_declare ht (types_of_mem hu hb) ?_⟩
    intro v hv
    rw [hc.unassigned p hp b hb] at hv
    cases hv
  | table, .assign m v e, hs, ht => by
    have hval := eval_sound hc hinv hu (first_code hs rfl) ht
    obtain ⟨before, hsub, T, hvar, he⟩ := hs
    have hbefore : before ⊆ p.declared := fun b hb => hsub (List.mem_append_left _ hb)
    -- the variable is declared at the type of the value
    have hdecl : p.types v.name = some T := by
      have hv := (hvar.uniform hu hbefore).recorded _ (Expr.self_mem_nodes _)
      rw [hvar.type_eq] at hv
      cases hv with | var h => exact h
    rw [Stmt.ending_assign]
    split
    · rename_i f hf
      rw [hf] at hval
      exact ⟨hval, ht⟩
    · rename_i b hb
      rw [hb, he.type_eq] at hval
      refine ⟨trivial, typed_assign ht ?_ hval.2.sound⟩
      rw [hval.1]
      exact hdecl
  | table, .ifThen m c m' body, hs, ht => by
    have hv := eval_sound hc hinv hu (first_code hs rfl) ht
    rw [Stmt.ending_ifThen]
    split
    · rename_i f hf
      rw [hf] at hv
      exact ⟨hv, ht⟩
    · rename_i b hb
      split
      · rename_i htrue
        have hbranch : (Stmt.ifThen m c m' body).branch b = some body := by
          simp [Stmt.branch, htrue]
        exact endingAll_sound hc hinv hp hu body (branch_code hs hbranch) ht
      · exact ⟨trivial, ht⟩
  | table, .ifElse m c m' body m'' other, hs, ht => by
    have hv := eval_sound hc hinv hu (first_code hs rfl) ht
    rw [Stmt.ending_ifElse]
    split
    · rename_i f hf
      rw [hf] at hv
      exact ⟨hv, ht⟩
    · rename_i b hb
      have hbranch : (Stmt.ifElse m c m' body m'' other).branch b =
          some (if b.truthy then body else other) := rfl
      split
      · rename_i htrue
        rw [if_pos htrue] at hbranch
        exact endingAll_sound hc hinv hp hu body (branch_code hs hbranch) ht
      · rename_i hfalse
        rw [if_neg hfalse] at hbranch
        exact endingAll_sound hc hinv hp hu other (branch_code hs hbranch) ht
  | table, .whileDo m c m' body, hs, ht => by
    obtain ⟨before, hsub, hcond, hbody⟩ := hs
    have hbefore : before ⊆ p.declared := fun b hb => hsub (List.mem_append_left _ hb)
    rw [Stmt.ending_whileDo]
    exact endingLoop_sound (eval_sound hc hinv hu ⟨before, _, hbefore, hcond⟩)
      (endingAll_sound hc hinv hp hu body ⟨before, hsub, hbody⟩) _ ht
  | table, .ret m (some e) ty, hs, ht => by
    have hv := eval_sound hc hinv hu (first_code hs rfl) ht
    obtain ⟨before, hsub, hret⟩ := hs
    rw [(hret e rfl).type_eq] at hv
    rw [Stmt.ending_ret]
    split
    · rename_i f hf
      rw [hf] at hv
      exact ⟨hv, ht⟩
    · rename_i b hb
      rw [hb] at hv
      exact ⟨fun _ => hv, ht⟩
  | table, .ret m none ty, hs, ht => by
    rw [Stmt.ending_leave]
    exact ⟨by simp [Gives, Flow.Sound], ht⟩

/-- Statements keep the table of their function typed, one after the other. -/
theorem endingAll_sound (hc : Consistent program) (hinv : InvokeSound program act.invoke)
    (hp : p ∈ program.procedures) (hu : p.Uniform) : ∀ {table : Table} (ss : List Stmt),
    (Task.block ss).Code program.prototypes p → table.Typed p.types →
      EndsTyped p (Stmt.endingAll act table ss)
  | table, [], _, ht => by
    rw [Stmt.endingAll_nil]
    exact ⟨trivial, ht⟩
  | table, s :: rest, hs, ht => by
    obtain ⟨hfirst, hrest⟩ := block_code hs
    have hend := ending_sound hc hinv hp hu s hfirst ht
    rw [Stmt.endingAll_cons]
    split
    · rename_i t' he
      rw [he] at hend
      exact endingAll_sound hc hinv hp hu rest hrest hend.2
    · rename_i b t' he
      rw [he] at hend
      exact hend
    · rename_i f t' he
      rw [he] at hend
      exact hend

end

end Statements

/-! ## Calls -/

section Calls

variable {program : Program}

/-- **A function returns a value of its return type, or none**, and leaves a typed table. -/
theorem call_sound (hc : Consistent program) {act : Activation}
    (hinv : InvokeSound program act.invoke) {p : Procedure} (hp : p ∈ program.procedures)
    (hu : p.Uniform) {actuals : List Binding} (ha : Matches p.formals actuals) {table : Table}
    (ht : table.Typed p.types) :
    Gives (fun r => ∀ b, r = some b → HasValue p.returns b) (p.ending act actuals table).1 ∧
      (p.ending act actuals table).2.Typed p.types := by
  have hformals : ∀ b ∈ p.formals, p.types b.name = some b.ty :=
    fun b hb => types_of_mem hu (List.mem_append_left _ hb)
  have hbody := endingAll_sound hc hinv hp hu p.body ⟨p.formals, fun b hb => hb, hc.admits p hp⟩
    (typed_bind hformals ha ht)
  rw [Procedure.ending_eq]
  split
  · rename_i b t' he
    rw [he] at hbody
    refine ⟨?_, hbody.2⟩
    intro c hres
    split at hres
    · rename_i hb
      cases hres
      exact hbody.1 hb
    · cases hres
  · rename_i t' he
    rw [he] at hbody
    exact ⟨fun b hb => absurd hb nofun, hbody.2⟩
  · rename_i f t' he
    rw [he] at hbody
    exact hbody

/-- Calls are sound, however many activations are left for them. -/
theorem invoke_sound (hc : Consistent program) (hu : ∀ p ∈ program.procedures, p.Uniform)
    (limits : Limits) (room depth : Nat) :
    InvokeSound program (program.invoke limits room depth) := by
  induction room generalizing depth with
  | zero =>
    intro f q actuals hq _
    rw [Program.invoke_zero hq]
    exact trivial
  | succ room ih =>
    intro f q actuals hq ha
    obtain ⟨hmem, _⟩ := find?_spec hq
    rw [Program.invoke_succ hq]
    exact (@call_sound program hc ⟨f, depth, program.invoke limits room (depth + 1), limits⟩
      (ih (depth + 1)) q hmem (hu q hmem) actuals ha _ (typed_empty _)).1

end Calls

/-! ## Runs -/

/-- The table is typed, and a function is run on actuals that fit its formals. -/
def Moment.Typed (m : Moment) : Prop :=
  m.table.Typed m.frame.procedure.types ∧
    ∀ actuals, m.task = .run actuals → Matches m.frame.procedure.formals actuals

section Runs

variable {program : Program} {limits : Limits}

/-- One thing that is done in a typed table takes only others that are. -/
theorem typed_of_leads (hc : Consistent program) (hu : ∀ p ∈ program.procedures, p.Uniform)
    {m m' : Moment} (h : Leads program limits m m') (hm : m.Code program) (ht : m.Typed) :
    m'.Typed := by
  obtain ⟨hp, htask⟩ := hm
  have hinv : InvokeSound program (m.frame.act program limits).invoke :=
    invoke_sound hc hu limits _ _
  have hup := hu _ hp
  obtain ⟨ht, hrun⟩ := ht
  cases h with
  | operand | value | test | round | branch | first | enter => exact ⟨ht, fun _ h => by cases h⟩
  | @call q p room depth t m ty f sig args actuals ha hq =>
    refine ⟨typed_empty _, ?_⟩
    rintro _ ⟨⟩
    obtain ⟨before, T, hsub, hT⟩ := htask
    have hset := hT.uniform hup hsub
    have hvalues := @gives_values (Frame.act program limits ⟨p, room + 1, depth⟩).invoke t args
      fun a ha => value_sound hc hinv ht a (hset.operand ha)
    rw [Frame.values] at ha
    rw [ha] at hvalues
    obtain ⟨q', hq', _, hmatch⟩ := arguments_match hc hset hvalues.1 hvalues.2
    rw [hq] at hq'
    cases hq'
    exact hmatch
  | body =>
    refine ⟨typed_bind ?_ (hrun _ rfl) ht, fun _ h => by cases h⟩
    exact fun b hb => types_of_mem hup (List.mem_append_left _ hb)
  | next hs =>
    have hend := ending_sound hc hinv hp hup _ (block_code htask).1 ht
    rw [hs] at hend
    exact ⟨hend.2, fun _ h => by cases h⟩
  | again _ _ hbody =>
    obtain ⟨before, hsub, _, hadm⟩ := htask
    have hend := endingAll_sound hc hinv hp hup _ ⟨before, hsub, hadm⟩ ht
    rw [hbody] at hend
    exact ⟨hend.2, fun _ h => by cases h⟩

/-- Every table of a run is typed. -/
theorem reached_typed (hc : Consistent program) (hu : ∀ p ∈ program.procedures, p.Uniform)
    {actuals : List Binding}
    (ha : ∀ main, program.find? entryPoint = some main → Matches main.formals actuals)
    {m : Moment} (h : Reached program limits actuals m) : m.Typed := by
  obtain ⟨main, room, hmain, hroom, hto⟩ := h
  induction hto with
  | refl =>
    refine ⟨typed_empty _, ?_⟩
    rintro _ ⟨⟩
    exact ha main hmain
  | tail hto hl ih =>
    exact typed_of_leads hc hu hl (reached_code hc ⟨main, room, hmain, hroom, hto⟩) ih

/-- A run ends like its MAIN: in a typed table, with a value of the return type or a reported
failure. -/
theorem run_sound (hc : Consistent program) (hu : ∀ p ∈ program.procedures, p.Uniform)
    {main : Procedure} (hmain : program.find? entryPoint = some main) {actuals : List Binding}
    (ha : Matches main.formals actuals) :
    Gives (fun r => ∀ b, r = some b → HasValue main.returns b)
        (program.run limits actuals).value.1 ∧
      (program.run limits actuals).value.2.Typed main.types := by
  obtain ⟨hp, _⟩ := find?_spec hmain
  cases hroom : limits.activations with
  | zero =>
    unfold Program.run
    rw [hmain, hroom]
    exact ⟨trivial, typed_empty _⟩
  | succ room =>
    rw [run_eq hmain hroom]
    exact call_sound hc (invoke_sound hc hu limits _ _) hp (hu main hp) ha (typed_empty _)

/-- **Type soundness.**  In a program that compiles and declares no name of a function at two types,
every run of MAIN on actuals that fit its formals is well typed: every table has the declared types,
with values that fit them; an expression that has a value has one of the type recorded on it; what
a function returns has its return type; and the run can only fail with an error of the language or
because a loop outlasts the budget of the run. -/
theorem type_soundness {source : String} {program : Program}
    (hcompile : Program.compile frames source = .ok program)
    (hu : ∀ p ∈ program.procedures, p.Uniform) (limits : Limits) {actuals : List Binding}
    (ha : ∀ main, program.find? entryPoint = some main → Matches main.formals actuals) :
    (∀ m, Reached program limits actuals m →
      m.table.Typed m.frame.procedure.types ∧
      (∀ e b, m.task = .eval e → m.frame.value program limits m.table e = .ok b →
        HasValue e.ty? b) ∧
      ∀ given b table, m.task = .run given →
        m.frame.procedure.ending (m.frame.act program limits) given m.table =
          (.ok (some b), table) → HasValue m.frame.procedure.returns b) ∧
    (∀ main, program.find? entryPoint = some main →
      (program.run limits actuals).value.2.Typed main.types ∧
      ∀ b, (program.run limits actuals).value.1 = .ok (some b) → HasValue main.returns b) ∧
    ∀ f, (program.run limits actuals).value.1 = .error f → f.Reported := by
  have hc := (compile_sound hcompile).consistent
  have hinv : ∀ fr : Frame, InvokeSound program (fr.act program limits).invoke :=
    fun fr => invoke_sound hc hu limits _ _
  refine ⟨fun m hm => ?_, fun main hmain => ?_, fun f hf => ?_⟩
  · obtain ⟨hp, htask⟩ := reached_code hc hm
    obtain ⟨ht, hrun⟩ := reached_typed hc hu ha hm
    refine ⟨ht, fun e b he hb => ?_, fun given b table hgiven hb => ?_⟩
    · rw [he] at htask
      have hv := eval_sound hc (hinv m.frame) (hu _ hp) htask ht
      rw [Frame.value] at hb
      rw [hb] at hv
      exact hv
    · have hcall := call_sound hc (hinv m.frame) hp (hu _ hp) (hrun given hgiven) ht
      rw [hb] at hcall
      exact hcall.1 b rfl
  · obtain ⟨hr, ht⟩ := @run_sound program limits hc hu main hmain actuals (ha main hmain)
    refine ⟨ht, fun b hb => ?_⟩
    rw [hb] at hr
    exact hr b rfl
  · cases hmain : program.find? entryPoint with
    | none =>
      unfold Program.run at hf
      rw [hmain] at hf
      cases hf
    | some main =>
      have hr := (@run_sound program limits hc hu main hmain actuals (ha main hmain)).1
      rw [hf] at hr
      exact hr

/-- A name may be declared twice at one type, and MAIN may call itself. -/
theorem type_soundness_again : ∃ program, Program.compile 100
    "FUNCTION STRING MAIN(BOOLEAN b) STRING s; IF b THEN STRING s; s=MAIN(!b);ENDIF RETURN s; END"
      = .ok program ∧
    ∀ limits f, (program.run limits [.result (some .boolean) (.truth true)]).value.1 = .error f →
      f.Reported := by
  obtain ⟨program, hprogram, hchecked⟩ : ∃ program, Program.compile 100
      "FUNCTION STRING MAIN(BOOLEAN b) STRING s; IF b THEN STRING s; s=MAIN(!b);ENDIF RETURN s; END"
        = .ok program ∧
      ((program.find? entryPoint).map (·.formals.map (·.ty)),
        decide (∀ p ∈ program.procedures, p.Uniform)) = (some [some Ty.boolean], true) := by
    refine ok_of_toOption ?_
    decide +kernel
  simp only [Prod.mk.injEq, decide_eq_true_eq] at hchecked
  obtain ⟨hformals, hu⟩ := hchecked
  have ha : ∀ main, program.find? entryPoint = some main →
      Matches main.formals [.result (some .boolean) (.truth true)] := by
    intro main hmain
    rw [hmain, Option.map_some, Option.some.injEq] at hformals
    refine matches_of_types hformals.symm ?_
    intro b hb
    obtain rfl := List.mem_singleton.mp hb
    exact Binding.fits_result (fits_truth.mpr ⟨true, rfl⟩)
  exact ⟨program, hprogram, fun limits => (type_soundness hprogram hu limits ha).2.2⟩

end Runs

end Slang
