import Slang.Proofs.StatementParsing

/-!
# The parser reads functions and programs exactly

A function is read against signatures that were registered before.  What is read therefore agrees
with its derivation up to the signature, which is whatever is registered for the name; only the
pass over the headers can say that this is the function's own.

* `functionOpening`, `parameters`, `functionEnd`, `function_eq` — a function is read up to its
  formals, then its formals, then what is behind them.
* `reads_each`, `accepts_each` — a program of functions, given what reading one function says.
* `reads_function`, `reads_program` — soundness.
* `accepts_function`, `accepts_functions`, `accepts_script` — completeness.
-/

set_option autoImplicit false

namespace Slang.Grammar

variable {known : Signatures} {frames : Nat} {s : State}

/-! ## The end of the input -/

/-- Where only the end of the input can be accepted, it is there and it stays. -/
theorem Reads.expect_end {kinds : List Token.Kind}
    (h : ∀ t rest, s.rest = t :: rest → t.kind ∈ kinds → t.kind = .endOfInput) :
    Reads (Grammar.expect kinds) s fun ts _ s' =>
      ts = [] ∧ ∃ t rest, s'.rest = t :: rest ∧ t.kind = .endOfInput := by
  unfold Reads
  rw [ends_expect]
  refine ⟨fun hn => Starved.of_nil hn _,
    fun t rest hr => ⟨fun ht => ?_, fun _ => Starved.of_error _⟩⟩
  have hend := h t rest hr ht
  rw [step_at_end hr hend]
  exact ⟨[], Moved.refl s, rfl, t, rest, hr, hend⟩

theorem Accepts.expect_end {kinds : List Token.Kind} {t : Token} {rest : List Token}
    {short : Prop} (hr : s.rest = t :: rest) (ht : t.kind = .endOfInput)
    (hk : .endOfInput ∈ kinds) :
    Accepts (Grammar.expect kinds) s [] (fun _ s' => s' = s) short := by
  unfold Accepts
  rw [ends_expect, step_at_end hr ht]
  refine ⟨fun hn => ?_, fun u us hu => ?_⟩
  · rw [hr] at hn
    cases hn
  · obtain ⟨rfl, rfl⟩ : t = u ∧ rest = us := by simpa [hr] using hu
    exact ⟨fun _ => ⟨Moved.refl s, rfl⟩, fun hn => absurd (ht ▸ hk) hn⟩

/-! ## Formals -/

/-- The keywords that name a type. -/
theorem ty?_of_mem {k : Token.Kind}
    (h : k ∈ [Token.Kind.keyword .numeric, .keyword .string, .keyword .boolean]) :
    k.ty? = some (k.ty?.getD .numeric) := by
  simp only [List.mem_cons, List.not_mem_nil, or_false] at h
  rcases h with rfl | rfl | rfl <;> rfl

theorem reads_expectType : Reads expectType s fun ts T s' =>
    ∃ t, ts = [t] ∧ t.kind.ty? = some T ∧ s'.table = s.table := by
  unfold expectType
  refine Reads.bind (Reads.expect (by simp)) ?_
  rintro ts t s₁ _ ⟨rfl, hk, ht₁⟩
  exact Reads.pure ⟨t, rfl, ty?_of_mem hk, ht₁⟩

theorem accepts_expectType {t : Token} {rest : List Token} {T : Ty} {short : Prop}
    (hr : s.rest = t :: rest) (hT : t.kind.ty? = some T) :
    Accepts expectType s [t] (fun T' s' => T' = T ∧ s'.table = s.table) short := by
  obtain ⟨w, hw, hk⟩ := ty?_eq_some hT
  unfold expectType
  refine (Accepts.expect hr ?_ (by simp [hw])).bind_nil ?_
  · rcases hk with rfl | rfl | rfl <;> simp [hw]
  rintro t s₁ _ ⟨rfl, ht₁⟩
  exact Accepts.pure ⟨by rw [hT]; rfl, ht₁⟩

theorem reads_formal : Reads formal s fun ts b s' =>
    ts ≠ [] ∧ FormalDerives ts b ∧ s'.table = s.table := by
  unfold formal
  refine Reads.bind reads_expectType ?_
  rintro _ T s₁ _ ⟨ty, rfl, hT, ht₁⟩
  refine Reads.bind (Reads.expect (by simp)) ?_
  rintro _ name s₂ _ ⟨rfl, hn, ht₂⟩
  exact Reads.pure ⟨by simp, .typed hT (by simpa using hn), ht₂.trans ht₁⟩

theorem accepts_formal {ts more : List Token} {b : Binding} {short : Prop}
    (h : FormalDerives ts b) (hr : s.rest = ts ++ more) :
    Accepts formal s ts (fun b' s' => b' = b ∧ s'.table = s.table) short := by
  cases h with | @typed ty name T hT hn =>
  unfold formal
  refine (accepts_expectType hr hT).bind [name] ?_
  rintro T s₁ hm ⟨rfl, ht₁⟩
  refine (Accepts.expect (hm.ahead hr) (by simp [hn]) (by simp [hn])).bind_nil ?_
  rintro name s₂ _ ⟨rfl, ht₂⟩
  exact Accepts.pure ⟨rfl, ht₂.trans ht₁⟩

/-- Every formal is declared, and no token is consumed. -/
theorem ends_declareFormals (parent : Nat) : ∀ (bs : List Binding) (s : State),
    Ends (declareFormals parent bs) s
      (fun _ s' => s'.rest = s.rest ∧ s'.index = s.index ∧
        s'.table = bs.foldl Table.declare s.table)
      fun _ => s.rest = []
  | [], s => ⟨rfl, rfl, rfl⟩
  | b :: rest, s => by
    unfold declareFormals
    rw [ends_bind, ends_modify, ends_bind]
    refine Ends.mono (still_addLeaf parent _ _) ?_ fun _ hn => hn
    rintro _ s₁ ⟨hr₁, hi₁, ht₁⟩
    refine Ends.mono (ends_declareFormals parent rest s₁) ?_ fun _ hn => by rw [← hn, hr₁]
    rintro _ s₂ ⟨hr₂, hi₂, ht₂⟩
    exact ⟨hr₂.trans hr₁, hi₂.trans hi₁, by rw [ht₂, ht₁]; rfl⟩

theorem reads_declareFormals (parent : Nat) (bs : List Binding) :
    Reads (declareFormals parent bs) s fun ts _ s' =>
      ts = [] ∧ s'.table = bs.foldl Table.declare s.table :=
  Ends.mono (ends_declareFormals parent bs s)
    (fun _ _ ⟨hr, hi, ht⟩ => ⟨[], Moved.of_eq hr hi, rfl, ht⟩) fun stop hn => Starved.of_nil hn stop

theorem accepts_declareFormals (parent : Nat) (bs : List Binding) {short : Prop}
    (hs : s.rest ≠ []) :
    Accepts (declareFormals parent bs) s [] (fun _ s' => s'.table = bs.foldl Table.declare s.table)
      short :=
  Ends.mono (ends_declareFormals parent bs s) (fun _ _ ⟨hr, hi, ht⟩ => ⟨Moved.of_eq hr hi, ht⟩)
    fun _ hn => absurd hn hs

/-- What is read between the parentheses of a header. -/
def parameters : Reader (List Binding) := do
  if (← current).kind = .symbol .rightParen then pure []
  else do separated formal (← remaining) []

theorem reads_parameters : Reads parameters s fun ts bs _ =>
    ∃ formals : List (List Token × Binding), Separated (formals.map (·.1)) ts ∧
      (∀ f ∈ formals, FormalDerives f.1 f.2) ∧ bs = formals.map (·.2) := by
  unfold parameters
  refine Reads.bind Reads.current ?_
  rintro _ u _ _ ⟨rfl, rfl, rest, hr⟩
  split
  · exact Reads.pure ⟨[], .nil, by simp, rfl⟩
  · refine Reads.bind Reads.remaining ?_
    rintro _ k _ _ ⟨rfl, rfl, rfl⟩
    refine (Reads.separated (fun s => reads_formal) _ [] _ (Nat.le_refl _)).mono ?_
    rintro ts bs s₁ _ ⟨_, formals, _, hsep, hall, rfl⟩
    exact ⟨formals, hsep, hall, rfl⟩

/-- A formal starts with a type, so that it is not taken for the end of the formals. -/
theorem FormalDerives.head {ts : List Token} {b : Binding} (h : FormalDerives ts b) :
    ∃ u us, ts = u :: us ∧ u.kind ≠ .symbol .rightParen := by
  cases h with | typed hT _ =>
  obtain ⟨w, hw, _⟩ := ty?_eq_some hT
  exact ⟨_, _, rfl, by simp [hw]⟩

theorem accepts_parameters {closing : Token} {formals : List (List Token × Binding)}
    {ts rest : List Token} {short : Prop} (hs : Separated (formals.map (·.1)) ts)
    (hf : ∀ f ∈ formals, FormalDerives f.1 f.2) (hc : closing.kind = .symbol .rightParen)
    (hr : s.rest = ts ++ closing :: rest) :
    Accepts parameters s ts (fun bs _ => bs = formals.map (·.2)) short := by
  unfold parameters
  cases formals with
  | nil =>
    cases hs
    refine Accepts.look hr ?_
    simp only [hc, if_true]
    exact Accepts.pure rfl
  | cons f fs =>
    obtain ⟨u, us, hu, hne⟩ := (hf f (by simp)).head
    have hhead := hs
    rw [List.map_cons, hu] at hhead
    obtain ⟨vs, hv⟩ := hhead.head
    have hcur : s.rest = u :: (vs ++ closing :: rest) := by
      rw [hr, hv, List.cons_append]
    refine Accepts.look hcur ?_
    simp only [hne, if_false]
    refine Accepts.remaining.bind ts ?_
    rintro _ s _ ⟨rfl, rfl⟩
    have hitem : ∀ i ∈ f :: fs, ∀ (s : State) (more : List Token), s.rest = i.1 ++ more → True →
        Accepts formal s i.1 (fun b s' => b = i.2 ∧ s'.table = s.table) short :=
      fun i hi s more hr _ => accepts_formal (hf i hi) hr
    have hlen : (f :: fs).length ≤ s.rest.length := by
      have := hs.length_le
      rw [hr]
      simp only [List.length_map, List.length_cons, List.length_append] at this ⊢
      omega
    refine (@Accepts.separated Binding formal short (fun _ => True) (fun _ _ _ => trivial) closing _
      (by simp [hc]) trivial (f :: fs) ts _ [] s hitem (by simp) hs hr hlen).mono ?_ id
    rintro _ s₁ _ ⟨rfl, _⟩
    rfl

/-! ## Functions -/

/-- What is read as a function is derived up to the signature, which is the registered one, and the
body is admissible. -/
def FunctionRead (known : Signatures) (ts : List Token) (p : Procedure) : Prop :=
  ∃ q, FunctionDerives known ts q ∧ known.get? q.name = some p.prototype ∧
    p.bare = { q with prototype := p.prototype } ∧ p.Admits (Settled known)

/-- What is read of a function up to the opening parenthesis. -/
def functionOpening : Reader (Token × Token × Nat) := do
  let t ← expectKeyword .function
  let _ ← expectType
  let name ← expect [.identifier]
  let id ← begin ("FUNCTION " ++ name.valueText)
  let _ ← expectSymbol .leftParen
  return (t, name, id)

/-- What is read behind the header of a function. -/
def functionBody (known : Signatures) (frames : Nat) (t name : Token) (id : Nat)
    (params : List Binding) : Reader Procedure :=
  match known.get? (some name.valueText) with
  | none => fail (.malformedHeader name.valueText) t.pos
  | some p => do
    modify fun s => { s with table := Table.empty }
    declareFormals id params
    let (bodyMark, body) ← block ⟨known, p⟩ Stmt.bodyTitle frames
    let _ ← expectKeyword .end_
    let procedure : Procedure :=
      ⟨⟨t.pos, some id⟩, p, params, { bodyMark with pos := t.pos }, body⟩
    relabel id procedure.label
    finish id
    return procedure

/-- What is read behind the formals of a function. -/
def functionEnd (known : Signatures) (frames : Nat) (t name : Token) (id : Nat)
    (params : List Binding) : Reader Procedure := do
  let _ ← expectSymbol .rightParen
  functionBody known frames t name id params

theorem function_eq (known : Signatures) (frames : Nat) :
    function known frames = functionOpening >>= fun (t, name, id) => parameters >>= fun params =>
      functionEnd known frames t name id params := by
  unfold function functionOpening parameters
  simp only [bind_assoc, pure_bind]
  refine bind_congr fun t => bind_congr fun _ => bind_congr fun name => bind_congr fun id =>
    bind_congr fun _ => bind_congr fun next => ?_
  split
  · simp only [pure_bind]
    rfl
  · simp only [bind_assoc]
    rfl

/-- The four tokens that a function starts with. -/
structure Opening (t ty name opening : Token) (T : Ty) : Prop where
  keyword : t.kind = .keyword .function
  type : ty.kind.ty? = some T
  name : name.kind = .identifier
  paren : opening.kind = .symbol .leftParen

section Function

variable {t ty name opening : Token} {T : Ty} {ts : List Token}

theorem reads_functionOpening : Reads functionOpening s fun ts out _ =>
    ∃ (t ty name opening : Token) (T : Ty) (id : Nat), ts = [t, ty, name, opening] ∧
      out = (t, name, id) ∧ Opening t ty name opening T := by
  unfold functionOpening
  refine Reads.bind Reads.expectKeyword ?_
  rintro _ t s₁ _ ⟨rfl, hk, _⟩
  refine Reads.bind reads_expectType ?_
  rintro _ T s₂ _ ⟨ty, rfl, hT, _⟩
  refine Reads.bind (Reads.expect (by simp)) ?_
  rintro _ name s₃ _ ⟨rfl, hn, _⟩
  refine (still_begin _).reads_bind fun id s₄ _ _ => ?_
  refine Reads.bind Reads.expectSymbol ?_
  rintro _ opening s₅ _ ⟨rfl, ho, _⟩
  exact Reads.pure ⟨t, ty, name, opening, T, id, rfl, rfl, hk, hT, by simpa using hn, ho⟩

theorem accepts_functionOpening {rest : List Token} {short : Prop}
    (h : Opening t ty name opening T) (hr : s.rest = t :: ty :: name :: opening :: rest) :
    Accepts functionOpening s [t, ty, name, opening]
      (fun out _ => ∃ id, out = (t, name, id)) short := by
  unfold functionOpening
  refine (Accepts.expectKeyword hr h.keyword).bind [ty, name, opening] ?_
  rintro t s₁ hm₁ ⟨rfl, _⟩
  have hr₁ := hm₁.ahead hr
  refine (accepts_expectType hr₁ h.type).bind [name, opening] ?_
  rintro T s₂ hm₂ ⟨rfl, _⟩
  have hr₂ := hm₂.ahead hr₁
  refine (Accepts.expect hr₂ (by simp [h.name]) (by simp [h.name])).bind [opening] ?_
  rintro name s₃ hm₃ ⟨rfl, _⟩
  have hr₃ := hm₃.ahead hr₂
  refine (still_begin _).accepts_bind (by simp [hr₃]) fun id s₄ hr₄ _ => ?_
  rw [hr₃] at hr₄
  refine (Accepts.expectSymbol hr₄ h.paren).bind_nil ?_
  rintro opening s₅ _ ⟨rfl, _⟩
  exact Accepts.pure ⟨id, rfl⟩

theorem reads_functionEnd (formals : List (List Token × Binding)) (id : Nat)
    (hk : t.kind = .keyword .function) (hT : ty.kind.ty? = some T) (hn : name.kind = .identifier)
    (ho : opening.kind = .symbol .leftParen) (hs : Separated (formals.map (·.1)) ts)
    (hf : ∀ f ∈ formals, FormalDerives f.1 f.2) :
    Reads (functionEnd known frames t name id (formals.map (·.2))) s fun us p _ =>
      FunctionRead known (t :: ty :: name :: opening :: (ts ++ us)) p := by
  unfold functionEnd functionBody
  refine Reads.bind Reads.expectSymbol ?_
  rintro _ closing s₁ _ ⟨rfl, hc, _⟩
  split
  · exact Reads.fail
  · rename_i p hp
    refine Reads.bind (Reads.modify (P := fun us _ s' => us = [] ∧ s'.table = Table.empty) rfl rfl
      ⟨rfl, rfl⟩) ?_
    rintro _ _ s₂ _ ⟨rfl, ht₂⟩
    refine Reads.bind (reads_declareFormals _ _) ?_
    rintro _ _ s₃ _ ⟨rfl, ht₃⟩
    have ht₃ : s₃.table = .ofBindings (formals.map (·.2)) := by rw [ht₃, ht₂]; rfl
    refine Reads.bind ((reads_statement ⟨known, p⟩ frames).2.1 _ _ s₃ ht₃) ?_
    rintro _ ⟨bodyMark, body⟩ s₄ _ ⟨items, u, rest, rfl, hitems, hbody, _, _, hadm, _⟩
    refine Reads.bind Reads.expectKeyword ?_
    rintro _ end_ s₅ _ ⟨rfl, he, _⟩
    refine (still_relabel _ _).reads_bind fun _ s₆ _ _ => ?_
    refine (still_finish _).reads_bind fun _ s₇ _ _ => Reads.pure ?_
    refine ⟨.ofParts (some name.valueText) (some T) (formals.map (·.2)) (some t.pos)
      (items.map (·.2)), ?_, hp, ?_, hadm⟩
    · simpa using FunctionDerives.function hk hT hn ho hs hf hc hitems he
    · simp [Procedure.bare, Procedure.ofParts, hbody]

/-- **What is read as a function is derived up to its signature, and its body is admissible.** -/
theorem reads_function (s : State) : Reads (function known frames) s fun ts p _ =>
    ts ≠ [] ∧ FunctionRead known ts p := by
  have hne : ∀ {ts : List Token} {p : Procedure}, FunctionRead known ts p → ts ≠ [] := by
    rintro _ _ ⟨_, ⟨_⟩, _⟩
    simp
  rw [function_eq]
  refine Reads.bind reads_functionOpening ?_
  rintro _ _ s₁ _ ⟨t, ty, name, opening, T, id, rfl, rfl, h⟩
  refine Reads.bind reads_parameters ?_
  rintro ts _ s₂ _ ⟨formals, hsep, hall, rfl⟩
  refine (reads_functionEnd formals id h.keyword h.type h.name h.paren hsep hall).mono ?_
  intro us p _ _ hp
  exact ⟨hne hp, hp⟩

theorem accepts_functionEnd {id : Nat} {closing end_ : Token} {params : List Binding}
    {items : List (List Token × Stmt)} {rest : List Token} {p : Prototype}
    (hp : known.get? (some name.valueText) = some p) (hc : closing.kind = .symbol .rightParen)
    (hb : ∀ i ∈ items, StmtDerives known i.1 i.2) (he : end_.kind = .keyword .end_)
    (ha : Stmt.AdmitsAll HasType p.returns params (items.map (·.2)))
    (hr : s.rest = closing :: (tokensOf items ++ [end_]) ++ rest) (hrest : rest ≠ []) :
    Accepts (functionEnd known frames t name id params) s (closing :: (tokensOf items ++ [end_]))
      (fun q _ => q.bare = ⟨.ofPos t.pos, p, params, .ofPos t.pos, items.map (·.2)⟩) True := by
  unfold functionEnd functionBody
  refine (Accepts.expectSymbol hr hc).bind (tokensOf items ++ [end_]) ?_
  rintro closing s₁ hm₁ ⟨rfl, _⟩
  have hr₁ : s₁.rest = tokensOf items ++ end_ :: rest := by simpa using hm₁.ahead hr
  simp only [hp]
  refine Accepts.bind (Accepts.modify (P := fun _ s' => s'.rest = s₁.rest ∧
    s'.table = Table.empty) rfl rfl ⟨rfl, rfl⟩) (tokensOf items ++ [end_]) ?_
  rintro _ s₂ _ ⟨hr₂, ht₂⟩
  rw [hr₁] at hr₂
  refine (accepts_declareFormals _ _ (by simp [hr₂])).bind (tokensOf items ++ [end_]) ?_
  rintro _ s₃ hm₃ ht₃
  have hr₃ : s₃.rest = tokensOf items ++ end_ :: rest := hm₃.rest.symm.trans hr₂
  have ht₃ : s₃.table = .ofBindings params := by rw [ht₃, ht₂]; rfl
  have hcomplete : ∀ i ∈ items, StmtComplete ⟨known, p⟩ i.1 i.2 := fun i hi =>
    @accepts_statement ⟨known, p⟩ i.1 i.2 (hb i hi)
  refine (@accepts_block ⟨known, p⟩ params s₃ end_ rest frames items _ hb hcomplete ha ht₃ hr₃
    (by rw [he]; rfl)).bind [end_] ?_
  rintro ⟨bodyMark, body⟩ s₄ hm₄ ⟨_, hbody, _⟩
  have hr₄ := hm₄.ahead hr₃
  refine (Accepts.expectKeyword hr₄ he).bind_nil ?_
  rintro end_ s₅ hm₅ ⟨rfl, _⟩
  have hr₅ : s₅.rest = rest := hm₅.ahead hr₄
  refine (still_relabel _ _).accepts_bind (hr₅ ▸ hrest) fun _ s₆ hr₆ _ => ?_
  rw [hr₅] at hr₆
  refine (still_finish _).accepts_bind (hr₆ ▸ hrest) fun _ s₇ _ _ => Accepts.pure ?_
  simpa [Procedure.bare] using hbody

/-- **A function that is derived, is registered with its own signature and has an admissible body is
read, unless the parser lacks frames.** -/
theorem accepts_function {q : Procedure} {rest : List Token} (hd : FunctionDerives known ts q)
    (hq : known.get? q.name = some q.prototype) (ha : q.Admits HasType)
    (hr : s.rest = ts ++ rest) (hrest : rest ≠ []) :
    Accepts (function known frames) s ts (fun p _ => p.bare = q) True := by
  cases hd with
  | @function t ty name opening closing end_ T ts formals body hk hT hn ho hs hf hc hb he =>
  have hr' : s.rest = t :: ty :: name :: opening ::
      (ts ++ closing :: (tokensOf body ++ [end_] ++ rest)) := by
    simpa using hr
  rw [function_eq]
  refine (accepts_functionOpening ⟨hk, hT, hn, ho⟩ hr').bind
    (ts ++ closing :: (tokensOf body ++ [end_])) ?_
  rintro _ s₁ hm₁ ⟨id, rfl⟩
  have hr₁ : s₁.rest = ts ++ closing :: (tokensOf body ++ [end_] ++ rest) := hm₁.ahead hr'
  refine (accepts_parameters hs hf hc hr₁).bind (closing :: (tokensOf body ++ [end_])) ?_
  rintro _ s₂ hm₂ rfl
  exact accepts_functionEnd hq hc hb he ha (hm₂.ahead hr₁) hrest

end Function

/-! ## Programs -/

/-- The signatures that the statements of a script are read against. -/
def scriptSignatures (known : Signatures) : Signatures := known.insert entryPoint scriptPrototype

/-- What is read as a script is derived, and its statements are admissible. -/
def ScriptRead (known : Signatures) (ts : List Token) (program : Program) : Prop :=
  ∃ (items : List (List Token × Stmt)) (p : Procedure), ts = tokensOf items ∧
    (∀ i ∈ items, StmtDerives known i.1 i.2) ∧ p.bare = scriptMain (items.map (·.2)) ∧
    p.Admits (Settled known) ∧ program = ⟨[p], known⟩

/-- What is read as functions is derived function by function. -/
def FunctionsRead (known : Signatures) (ts : List Token) (program : Program) : Prop :=
  ∃ items : List (List Token × Procedure), items ≠ [] ∧ ts = tokensOf items ∧
    (∀ i ∈ items, FunctionRead known i.1 i.2) ∧ program = ⟨items.map (·.2), known⟩

theorem reads_script : Reads (script known frames) s fun ts program s' =>
    ScriptRead (scriptSignatures known) ts program ∧
      ∃ t rest, s'.rest = t :: rest ∧ t.kind = .endOfInput := by
  unfold script
  refine (still_begin _).reads_bind fun id s₁ _ _ => ?_
  refine Reads.bind (Reads.modify (P := fun us _ s' => us = [] ∧ s'.table = Table.empty) rfl rfl
    ⟨rfl, rfl⟩) ?_
  rintro _ _ s₂ _ ⟨rfl, ht₂⟩
  refine Reads.bind ((reads_statement ⟨scriptSignatures known, scriptPrototype⟩ frames).2.1 _ [] s₂
    ht₂) ?_
  rintro _ ⟨bodyMark, body⟩ s₃ _ ⟨items, u, rest, rfl, hitems, hbody, _, _, hadm, _⟩
  refine Reads.bind (Reads.expect_end (by simp)) ?_
  rintro _ _ s₄ _ ⟨rfl, t, rest, hr₄, hend⟩
  refine (still_finish _).reads_bind fun _ s₅ hr₅ _ => Reads.pure ⟨?_, t, rest, ?_, hend⟩
  · refine ⟨items, ⟨⟨some 0, some id⟩, scriptPrototype, [], { bodyMark with pos := some 0 }, body⟩,
      by simp, hitems, ?_, hadm, rfl⟩
    simp [Procedure.bare, scriptMain, Procedure.ofParts, scriptPrototype, hbody]
  · exact hr₅.trans hr₄

/-- What is read as functions is read function by function, in the light of what each one leaves
behind. -/
theorem reads_each {D : List Token → Procedure → Prop} {R : State → Prop} {t : Token}
    {rest : List Token} (hr : s.rest = t :: rest) (ht : t.kind = .keyword .function)
    (hitem : ∀ s, R s → Reads (function known frames) s fun ts p s' => ts ≠ [] ∧ D ts p ∧ R s')
    (hs : R s) :
    Reads (program known frames) s fun ts program s' =>
      (∃ items : List (List Token × Procedure), items ≠ [] ∧ ts = tokensOf items ∧
        (∀ i ∈ items, D i.1 i.2) ∧ program = ⟨items.map (·.2), known⟩) ∧
      ∃ t rest, s'.rest = t :: rest ∧ t.kind = .endOfInput := by
  unfold program
  refine Reads.bind Reads.current ?_
  rintro _ u _ _ ⟨rfl, rfl, us, hu⟩
  obtain ⟨rfl, rfl⟩ : t = u ∧ rest = us := by simpa [hr] using hu
  simp only [ht, if_true]
  refine Reads.bind Reads.remaining ?_
  rintro _ k s₁ _ ⟨rfl, rfl, rfl⟩
  refine Reads.bind (@Reads.many Procedure Unit (function known frames) _ (fun _ => R) (fun _ => D)
    (fun _ _ => ()) (fun _ => hitem) _ [] () s₁ hs (Nat.le_refl _)) ?_
  rintro _ _ s₂ hm₂ ⟨items, rfl, hal, rfl, _, u, us, hr₂, hstop⟩
  refine Reads.bind (Reads.expect_end ?_) ?_
  · rintro v vs hv hk
    obtain ⟨rfl, rfl⟩ : u = v ∧ us = vs := by simpa [hr₂] using hv
    simpa [(by simpa using hstop : u.kind ≠ .keyword .function)] using hk
  rintro _ _ s₃ _ ⟨rfl, hend⟩
  refine Reads.pure ⟨⟨items, ?_, by simp, along_iff_forall.mp hal, rfl⟩, hend⟩
  -- the first token announces a function, so one has been read
  rintro rfl
  obtain ⟨rfl, -⟩ : t = u ∧ rest = us := by simpa [hr, hr₂] using hm₂.rest
  simp [ht] at hstop

/-- **Whatever is read as a program is derived and admissible, up to the end of the input.** -/
theorem reads_program : Reads (program known frames) s fun ts program s' =>
    (FunctionsRead known ts program ∨ ScriptRead (scriptSignatures known) ts program) ∧
      ∃ t rest, s'.rest = t :: rest ∧ t.kind = .endOfInput := by
  by_cases hfirst : ∃ t rest, s.rest = t :: rest ∧ t.kind = .keyword .function
  · obtain ⟨t, rest, hr, ht⟩ := hfirst
    refine (reads_each (D := FunctionRead known) (R := fun _ => True) hr ht
      (fun s _ => (reads_function s).mono ?_) trivial).mono ?_
    · rintro ts p _ _ ⟨hne, hread⟩
      exact ⟨hne, hread, trivial⟩
    · rintro ts program s₁ _ ⟨h, hend⟩
      exact ⟨.inl h, hend⟩
  · unfold program
    refine Reads.bind Reads.current ?_
    rintro _ u _ _ ⟨rfl, rfl, rest, hr⟩
    rw [if_neg fun hu => hfirst ⟨u, rest, hr, hu⟩]
    refine reads_script.mono ?_
    rintro ts program s₁ _ ⟨h, hend⟩
    exact ⟨.inr h, hend⟩

/-- **A derived and admissible script is read, unless the parser lacks frames.** -/
theorem accepts_script {items : List (List Token × Stmt)} {t : Token} {rest : List Token}
    (hd : ∀ i ∈ items, StmtDerives (scriptSignatures known) i.1 i.2)
    (ha : (scriptMain (items.map (·.2))).Admits HasType)
    (hr : s.rest = tokensOf items ++ t :: rest) (ht : t.kind = .endOfInput) :
    Accepts (program known frames) s (tokensOf items) (fun program _ =>
      program.procedures.map Procedure.bare = [scriptMain (items.map (·.2))] ∧
        program.prototypes = scriptSignatures known) True := by
  unfold program
  obtain ⟨u, us, hu, hk⟩ : ∃ u us, tokensOf items ++ t :: rest = u :: us ∧
      u.kind ≠ .keyword .function := by
    cases items with
    | nil => exact ⟨t, rest, rfl, by simp [ht]⟩
    | cons i items =>
      obtain ⟨u, us, hu, _⟩ := (hd i (by simp)).starts
      refine ⟨u, us ++ (tokensOf items ++ t :: rest), by simp [tokensOf, hu], ?_⟩
      exact (hd i (by simp)).no_function u (by simp [hu])
  refine Accepts.look (hr.trans hu) ?_
  simp only [hk, if_false]
  unfold script
  refine (still_begin _).accepts_bind (by simp [hr]) fun id s₁ hr₁ _ => ?_
  rw [hr] at hr₁
  refine Accepts.bind (Accepts.modify (P := fun _ s' => s'.rest = s₁.rest ∧
    s'.table = Table.empty) rfl rfl ⟨rfl, rfl⟩) (tokensOf items) ?_
  rintro _ s₂ _ ⟨hr₂, ht₂⟩
  rw [hr₁] at hr₂
  have hcomplete : ∀ i ∈ items, StmtComplete ⟨scriptSignatures known, scriptPrototype⟩ i.1 i.2 :=
    fun i hi => @accepts_statement ⟨scriptSignatures known, scriptPrototype⟩ i.1 i.2 (hd i hi)
  refine (@accepts_block ⟨scriptSignatures known, scriptPrototype⟩ [] s₂ t rest frames items _ hd
    hcomplete ha ht₂ hr₂ (by rw [ht]; rfl)).bind_nil ?_
  rintro ⟨bodyMark, body⟩ s₃ hm₃ ⟨_, hbody, _⟩
  have hr₃ := hm₃.ahead hr₂
  refine (Accepts.expect_end hr₃ ht (by simp)).bind_nil ?_
  rintro _ s₃ _ rfl
  refine (still_finish _).accepts_bind (by simp [hr₃]) fun _ s₄ _ _ => Accepts.pure ⟨?_, rfl⟩
  simp [Procedure.bare, scriptMain, Procedure.ofParts, scriptPrototype, ← hbody]

/-- Functions that are read one by one, whatever lies behind them, are read as a program. -/
theorem accepts_each {γ : Type} {view : Procedure → γ} {short : Prop}
    {items : List (List Token × γ)} {t : Token} {rest : List Token} (hne : items ≠ [])
    (hstart : ∀ i ∈ items, ∃ u us, i.1 = u :: us ∧ u.kind = .keyword .function)
    (hitem : ∀ i ∈ items, ∀ s more, s.rest = i.1 ++ more → more ≠ [] →
      Accepts (function known frames) s i.1 (fun p _ => view p = i.2) short)
    (hr : s.rest = tokensOf items ++ t :: rest) (ht : t.kind = .endOfInput) :
    Accepts (program known frames) s (tokensOf items) (fun program _ =>
      program.procedures.map view = items.map (·.2) ∧ program.prototypes = known) short := by
  unfold program
  obtain ⟨i, items', rfl⟩ := List.exists_cons_of_ne_nil hne
  obtain ⟨u, us, hu, hk⟩ := hstart i (by simp)
  have hcur : s.rest = u :: (us ++ (tokensOf items' ++ t :: rest)) := by
    rw [hr]
    simp [tokensOf, hu]
  refine Accepts.look hcur ?_
  simp only [hk, if_true]
  refine Accepts.remaining.bind (tokensOf (i :: items')) ?_
  rintro _ s₁ _ ⟨rfl, rfl⟩
  have hlen : (i :: items').length ≤ s₁.rest.length := by
    have := length_le_tokensOf fun j hj => (hstart j hj).imp fun u ⟨us, hu, _⟩ => ⟨us, hu⟩
    rw [hr, List.length_append]
    omega
  refine (Accepts.many_each (by simp [ht]) (fun j hj => ?_) hitem hr hlen).bind_nil ?_
  · obtain ⟨u, us, hu, hk⟩ := hstart j hj
    exact ⟨u, us, hu, by simp [hk]⟩
  rintro ps s₂ hm₂ hps
  refine (Accepts.expect_end (hm₂.ahead hr) ht (by simp)).bind_nil ?_
  rintro _ _ _ rfl
  exact Accepts.pure ⟨hps, rfl⟩

/-- **Derived functions with admissible bodies are read, unless the parser lacks frames.** -/
theorem accepts_functions {items : List (List Token × Procedure)} {t : Token}
    {rest : List Token} (hne : items ≠ []) (hd : ∀ i ∈ items, FunctionDerives known i.1 i.2)
    (hq : ∀ i ∈ items, known.get? i.2.name = some i.2.prototype)
    (ha : ∀ i ∈ items, i.2.Admits HasType) (hr : s.rest = tokensOf items ++ t :: rest)
    (ht : t.kind = .endOfInput) :
    Accepts (program known frames) s (tokensOf items) (fun program _ =>
      program.procedures.map Procedure.bare = items.map (·.2) ∧
        program.prototypes = known) True := by
  refine accepts_each hne (fun i hi => ?_) (fun i hi s more hr hmore =>
    accepts_function (hd i hi) (hq i hi) (ha i hi) hr hmore) hr ht
  obtain ⟨u, us, _, hus, hu, _⟩ := (hd i hi).declaration
  exact ⟨u, _, hus, hu⟩

end Slang.Grammar
