import Slang.Proofs.Failures
import Slang.Proofs.ParseErrors

/-!
# Linking

The header of a function is read twice, by the pass over the headers and by the parser, and a call
finds its function by name a third time when it is executed.  In a program that was compiled the
three agree.

* `announced` — the names that stand behind FUNCTION in a list of tokens.
* `Procedure.nodes` — every node of every expression of a function.
* `Program.Linked tokens program` — registered signatures, functions and calls belong together.

Principal results: `compiled_linked` — compiled programs are linked; `arguments_of_reached` — a call
that is executed finds its function and has one value for each formal; `compile_linked` — both for
every text, together with the header that the parser never misses.
-/

set_option autoImplicit false

namespace Slang

open Grammar

variable {frames : Nat}

/-! ## Order of writing -/

namespace Registry

variable {κ β : Type} [DecidableEq κ]

/-- Where no key is written twice, the keys stand in the order of the writes. -/
theorem keys_ofList {es : List (κ × β)} (h : (es.map (·.1)).Nodup) :
    (ofList es).keys = es.map (·.1) := by
  have hfold : ∀ (es : List (κ × β)) (r : Registry κ β), (r.keys ++ es.map (·.1)).Nodup →
      (es.foldl (fun r e => r.insert e.1 e.2) r).keys = r.keys ++ es.map (·.1) := by
    intro es
    induction es with
    | nil => intro r _; simp
    | cons e rest ih =>
      intro r hr
      have hnew : e.1 ∉ r.keys := by
        intro hmem
        rw [List.map_cons, List.nodup_append] at hr
        exact hr.2.2 e.1 hmem e.1 (by simp) rfl
      have hkeys : (r.insert e.1 e.2).keys = r.keys ++ [e.1] := by
        rw [keys_insert, if_neg hnew]
      rw [List.foldl_cons, ih, hkeys]
      · simp
      · rw [hkeys]
        simpa using hr
  have := hfold es empty (by simpa [empty, keys] using h)
  simpa [ofList, empty, keys] using this

end Registry

/-! ## Functions in the order of the text -/

namespace Grammar

/-- Whether a token announces a function. -/
def opensFunction (t : Token) : Bool := t.kind = .keyword .function

/-- The names of the functions that a list of tokens announces: behind FUNCTION stands a type, and
then the name. -/
def announced : List Token → List Name
  | [] => []
  | t :: rest =>
    if opensFunction t then (rest[1]?.map fun name => some name.valueText).toList ++ announced rest
    else announced rest

variable {known : Signatures} {ts : List Token}

theorem announced_skip {us : List Token} (h : ∀ u ∈ us, u.kind ≠ .keyword .function)
    (rest : List Token) : announced (us ++ rest) = announced rest := by
  induction us with
  | nil => rfl
  | cons u us ih =>
    have hu : opensFunction u = false := by simpa [opensFunction] using h u (by simp)
    rw [List.cons_append, announced, hu]
    exact ih fun v hv => h v (by simp [hv])

theorem count_skip {us : List Token} (h : ∀ u ∈ us, u.kind ≠ .keyword .function) :
    us.countP opensFunction = 0 := by
  rw [List.countP_eq_zero]
  intro u hu
  simpa [opensFunction] using h u hu

/-- A function announces its own name, and no other. -/
theorem FunctionDerives.announced {p : Procedure} (h : FunctionDerives known ts p)
    (rest : List Token) : announced (ts ++ rest) = p.name :: announced rest := by
  obtain ⟨t, us, rfl, ht, hus, -⟩ := Header.read_function h
  have hopen : opensFunction t = true := by simpa [opensFunction] using ht
  have hname : (us ++ rest)[1]?.map (fun name => some name.valueText) = some p.name := by
    cases h
    rfl
  rw [List.cons_append, Grammar.announced, hopen, if_pos rfl, hname, announced_skip hus]
  rfl

theorem FunctionDerives.count {p : Procedure} (h : FunctionDerives known ts p) :
    ts.countP opensFunction = 1 := by
  obtain ⟨t, us, rfl, ht, hus, -⟩ := Header.read_function h
  have hopen : opensFunction t = true := by simpa [opensFunction] using ht
  rw [List.countP_cons_of_pos hopen, count_skip hus]

/-- The functions stand in the order in which they are announced. -/
theorem announced_functions {items : List (List Token × Procedure)}
    (h : ∀ i ∈ items, FunctionDerives known i.1 i.2) (rest : List Token) :
    announced (tokensOf items ++ rest) = items.map (·.2.name) ++ announced rest ∧
      (tokensOf items).countP opensFunction = items.length := by
  induction items with
  | nil => exact ⟨rfl, rfl⟩
  | cons i items ih =>
    have hi := h i (by simp)
    obtain ⟨hnames, hcount⟩ := ih fun j hj => h j (by simp [hj])
    constructor
    · rw [tokensOf, List.map_cons, List.flatten_cons, List.append_assoc, hi.announced, hnames]
      rfl
    · rw [tokensOf, List.map_cons, List.flatten_cons, List.countP_append, hi.count, hcount,
        List.length_cons, Nat.add_comm]

end Grammar

/-! ## Calls of a function -/

mutual

/-- The expressions of a statement in the order of the text, the target of an assignment
included. -/
def Stmt.expressions : Stmt → List Expr
  | .print _ e => [e]
  | .declare .. => []
  | .assign _ v e => [.var v, e]
  | .ifThen _ c _ body => c :: Stmt.expressionsAll body
  | .ifElse _ c _ body _ other => c :: (Stmt.expressionsAll body ++ Stmt.expressionsAll other)
  | .whileDo _ c _ body => c :: Stmt.expressionsAll body
  | .ret _ value _ => value.toList

/-- The expressions of a list of statements. -/
def Stmt.expressionsAll : List Stmt → List Expr
  | [] => []
  | s :: rest => Stmt.expressions s ++ Stmt.expressionsAll rest

end

/-- Every node of every expression of a function. -/
def Procedure.nodes (p : Procedure) : List Expr := (Stmt.expressionsAll p.body).flatMap Expr.nodes

section Settled

variable {known : Signatures} {returns : Tag}

mutual

/-- In an admissible statement every expression is settled. -/
theorem settled_of_admits : ∀ {before : List Binding} {s : Stmt},
    s.Admits (Settled known) returns before → ∀ e ∈ s.expressions, ∃ Γ T, Settled known Γ e T
  | _, .print _ e, ⟨T, h⟩ => by simpa [Stmt.expressions] using ⟨_, T, h⟩
  | _, .declare .., _ => by simp [Stmt.expressions]
  | _, .assign _ v e, ⟨T, hv, he⟩ => by
    simpa [Stmt.expressions] using ⟨⟨_, T, hv⟩, ⟨_, T, he⟩⟩
  | _, .ifThen _ c _ body, ⟨hc, hb⟩ | _, .whileDo _ c _ body, ⟨hc, hb⟩ =>
    List.forall_mem_cons.mpr ⟨⟨_, _, hc⟩, settled_of_admitsAll hb⟩
  | _, .ifElse _ c _ body _ other, ⟨hc, hb, ho⟩ =>
    List.forall_mem_cons.mpr ⟨⟨_, _, hc⟩,
      List.forall_mem_append.mpr ⟨settled_of_admitsAll hb, settled_of_admitsAll ho⟩⟩
  | _, .ret _ value _, h => by
    intro e he
    have he : value = some e := by simpa [Stmt.expressions] using he
    exact ⟨_, _, h e he⟩

theorem settled_of_admitsAll : ∀ {before : List Binding} {ss : List Stmt},
    Stmt.AdmitsAll (Settled known) returns before ss →
      ∀ e ∈ Stmt.expressionsAll ss, ∃ Γ T, Settled known Γ e T
  | _, [], _ => by simp [Stmt.expressionsAll]
  | _, _ :: _, ⟨hs, hrest⟩ =>
    List.forall_mem_append.mpr ⟨settled_of_admits hs, settled_of_admitsAll hrest⟩

end

/-- A call that is settled carries a registered signature, with as many formals as it has
arguments. -/
theorem Settled.call {Γ : Types} {e : Expr} {T : Tag} (h : Settled known Γ e T) {m : Mark}
    {t : Tag} {f : Name} {sig : Prototype} {args : List Expr}
    (hc : Expr.call m t f sig args ∈ e.nodes) :
    known.get? f = some sig ∧ args.length = sig.formals.length :=
  ⟨h.linked m t f sig args hc, (hasType_call.mp (h.recorded _ hc)).2.1⟩

end Settled

/-! ## Linked programs -/

/-- Registered signatures, functions and calls belong together, and the functions stand in the order
of the tokens. -/
structure Program.Linked (tokens : List Token) (program : Program) : Prop where
  registered : program.prototypes.keys = program.procedures.map (·.name)
  indexed : program.names = program.procedures.map (·.name)
  functions : tokens.head?.any opensFunction = true →
    program.procedures.map (·.name) = announced tokens ∧
      program.procedures.length = tokens.countP opensFunction
  script : tokens.head?.any opensFunction = false → program.procedures.map (·.name) = [entryPoint]
  own : ∀ p ∈ program.procedures, program.find? p.name = some p ∧
    program.prototypes.get? p.name = some p.prototype ∧
    p.prototype.formals = p.formals.map (·.ty)
  calls : ∀ p ∈ program.procedures, ∀ m t f sig args, Expr.call m t f sig args ∈ p.nodes →
    ∃ q ∈ program.procedures, program.find? f = some q ∧ sig = q.prototype ∧
      args.length = q.formals.length

/-- The names of a program in the order of its tokens. -/
theorem names_of_derives {tokens : List Token} {t : Token} {ps : List Procedure}
    (h : ProgramDerives tokens ps) (ht : t.kind = .endOfInput) :
    ((tokens ++ [t]).head?.any opensFunction = true →
      ps.map (·.name) = announced (tokens ++ [t]) ∧
        ps.length = (tokens ++ [t]).countP opensFunction) ∧
    ((tokens ++ [t]).head?.any opensFunction = false → ps.map (·.name) = [entryPoint]) := by
  have hend : opensFunction t = false := by simp [opensFunction, ht]
  cases h with
  | @functions items hne h =>
    obtain ⟨hnames, hcount⟩ := announced_functions h [t]
    refine ⟨fun _ => ⟨?_, ?_⟩, fun hscript => ?_⟩
    · rw [hnames]
      simp [announced, hend]
    · rw [List.countP_append, hcount]
      simp [hend]
    · -- the first token is that of the first function
      obtain ⟨i, rest, rfl⟩ := List.exists_cons_of_ne_nil hne
      obtain ⟨u, us, hu, hk, -⟩ := Header.read_function (h i (by simp))
      simp [tokensOf, hu, opensFunction, hk] at hscript
  | @script items h =>
    refine ⟨fun hfunction => ?_, fun _ => rfl⟩
    have hno : ∀ u ∈ tokensOf items, u.kind ≠ .keyword .function :=
      forall_mem_tokensOf fun i hi => (h i hi).no_function
    cases hts : tokensOf items with
    | nil => simp [hts, hend] at hfunction
    | cons u us =>
      have hu := hno u (by simp [hts])
      simp [hts, opensFunction, hu] at hfunction

/-- **A program that was compiled is linked.** -/
theorem compiled_linked {source : String} {program : Program} (h : Compiled source program) :
    ∃ tokens, Program.tokensOf source = .ok tokens ∧ program.Linked tokens := by
  have hc := h.consistent
  obtain ⟨tokens, t, htokens, ht, hd, hnodup, -⟩ := h.accepted
  have hnames : (program.procedures.map Procedure.bare).map (·.name) =
      program.procedures.map (·.name) := by
    rw [List.map_map]
    rfl
  obtain ⟨hfunctions, hscript⟩ := names_of_derives hd ht
  rw [hnames] at hnodup hfunctions hscript
  rw [List.length_map] at hfunctions
  have hfind : ∀ p ∈ program.procedures, program.find? p.name = some p :=
    fun p hp => findRev?_of_nodup hnodup hp
  refine ⟨tokens ++ [t], htokens, ?_, ?_, hfunctions, hscript, fun p hp => ?_, ?_⟩
  · rw [h.signatures_eq, signatures, Program.ofProcedures, Registry.keys_ofList]
    · simp [Function.comp_def]
    · simpa [Function.comp_def] using hnodup
  · rw [Program.names, Program.linked, Registry.keys_ofList]
    · simp [Function.comp_def]
    · simpa [Function.comp_def] using hnodup
  · refine ⟨hfind p hp, ?_, hc.formals p hp⟩
    rw [h.signatures_eq]
    exact signatures_of_mem hnodup hp
  · intro p hp m t f sig args hcall
    obtain ⟨e, he, hcall⟩ := List.mem_flatMap.mp hcall
    obtain ⟨Γ, T, hset⟩ := settled_of_admitsAll (hc.admits p hp) e he
    obtain ⟨hget, hlen⟩ := hset.call hcall
    obtain ⟨q, hq, rfl⟩ := hc.linked hget
    have hmem := (find?_spec hq).1
    refine ⟨q, hmem, hq, rfl, ?_⟩
    rw [hlen, hc.formals q hmem, List.length_map]

/-! ## Calls that are executed -/

/-- There is one value for each expression. -/
theorem length_values {invoke : Invoke} {table : Table} : ∀ {es : List Expr} {bs : List Binding},
    Expr.values invoke table es = .ok bs → bs.length = es.length
  | [], _, h => by
    cases h
    rfl
  | _ :: _, _, h => by
    obtain ⟨b, cs, _, hcs, rfl⟩ := Expr.values_cons_ok.mp h
    rw [List.length_cons, List.length_cons, length_values hcs]

/-- **A call that is executed finds its function and has one value for each formal.** -/
theorem arguments_of_reached {program : Program} (hc : Consistent program) {limits : Limits}
    {given : List Binding} {fr : Frame} {table : Table} {m : Mark} {t : Tag} {f : Name}
    {sig : Prototype} {args : List Expr} {actuals : List Binding}
    (h : Reached program limits given ⟨fr, table, .eval (.call m t f sig args)⟩)
    (ha : fr.values program limits table args = .ok actuals) :
    ∃ q, program.find? f = some q ∧ actuals.length = q.formals.length := by
  obtain ⟨_, before, T, _, hset⟩ := reached_code hc h
  obtain ⟨hget, hlen⟩ := hset.call (Expr.self_mem_nodes _)
  obtain ⟨q, hq, rfl⟩ := hc.linked hget
  refine ⟨q, hq, ?_⟩
  rw [length_values ha, hlen, hc.formals q (find?_spec hq).1, List.length_map]

/-- **Linking.**  In a program that compiles, the registered signatures and the functions have the
same names in the order of the text, every function is registered with its own signature, which has
the types of its formals, and every call in a body names a function, carries its signature and has
as many arguments as it has formals.  So whenever a call is executed its function is found and every
formal gets a value, and no run misses a function.  No text stops the parser at a header that was
not registered. -/
theorem compile_linked (source : String) :
    (∀ program, Program.compile frames source = .ok program →
      (∃ tokens, Program.tokensOf source = .ok tokens ∧ program.Linked tokens) ∧
      ∀ (limits : Limits) (given : List Binding),
        (∀ fr table m t f sig args actuals,
          Reached program limits given ⟨fr, table, .eval (.call m t f sig args)⟩ →
          fr.values program limits table args = .ok actuals →
          ∃ q, program.find? f = some q ∧ actuals.length = q.formals.length) ∧
        ∀ f, (program.run limits given).value.1 ≠ .error (.unknownProcedure f)) ∧
    ∀ stop, Program.compile frames source = .error stop → ¬ stop.AtHeader := by
  constructor
  · intro program h
    have hcompiled := compile_sound h
    have hc := hcompiled.consistent
    refine ⟨compiled_linked hcompiled, fun limits given => ⟨?_, ?_⟩⟩
    · intro fr table m t f sig args actuals hreached ha
      exact arguments_of_reached hc hreached ha
    · intro f hf
      rcases run_failures hc hf with hreported | ⟨reason, hreason⟩
      · exact hreported
      · cases hreason
  · intro stop h
    exact compile_not_atHeader h

/-- Two functions that call each other, the second one called before it is read. -/
theorem compile_linked_mutual : ∃ program, Program.compile 100
    "FUNCTION BOOLEAN MAIN() RETURN A(1); END FUNCTION BOOLEAN A(NUMERIC n) RETURN MAIN(); END" =
      .ok program ∧
    program.prototypes.keys = [some "MAIN", some "A"] ∧
    ∀ (limits : Limits) (f : Name),
      (program.run limits []).value.1 ≠ .error (.unknownProcedure f) := by
  obtain ⟨program, hprogram, hnames⟩ : ∃ program, Program.compile 100
      "FUNCTION BOOLEAN MAIN() RETURN A(1); END FUNCTION BOOLEAN A(NUMERIC n) RETURN MAIN(); END" =
        .ok program ∧
      program.procedures.map (·.name) = [some "MAIN", some "A"] := by
    refine ok_of_toOption ?_
    decide +kernel
  obtain ⟨⟨tokens, _, hlinked⟩, hruns⟩ := (compile_linked _).1 program hprogram
  exact ⟨program, hprogram, hlinked.registered.trans hnames, fun limits f => (hruns limits []).2 f⟩

end Slang
