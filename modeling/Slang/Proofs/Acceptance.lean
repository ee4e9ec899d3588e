import Slang.Compile
import Slang.Proofs.ProgramParsing

/-!
# Which texts are accepted

* `tokensOf_ends` — the tokens of a text are followed by one end of the input.
* `Registry.get?_ofList` — what is registered for a name is what was registered last.
* `Header.read_function`, `all_functions` — the pass over the headers registers exactly the
  signatures of the functions, in order, and fails exactly if two of them have one name.
* `compile_sound`, `compile_complete` — the two directions of the principal result.
* `Accepted source ps` — the rules of the language: the text has tokens, these derive the functions
  `ps`, no two of which have one name, and the bodies are admissible.

Principal result: `compile_exact` — a text that is not nested too deeply compiles exactly if the
rules accept it, and then to the functions that the rules say.
-/

set_option autoImplicit false

namespace Slang

variable {frames : Nat}

/-! ## Tokens of a text -/

namespace Token

/-- What a token says, wherever it stands. -/
def content (t : Token) : Kind × Option Payload := (t.kind, t.value)

theorem Lexeme.first_kind {c : Char} {rest : List Char} {l : Lexeme}
    (h : Lexeme.first c rest = .ok l) : l.kind ≠ .endOfInput := by
  unfold Lexeme.first at h
  split at h
  · cases h
    simp only [word]
    cases Keyword.ofSpelling? (String.ofList ((c :: rest).takeWhile isWordPart)) <;> simp
  · split at h
    · cases h
      simp [number]
    · split at h
      · unfold stringBody at h
        dsimp only at h
        split at h
        · cases h
          simp
        · cases h
      · split at h
        · split at h
          · cases h
            simp
          · cases h
        · cases h

/-- The stream of tokens ends with the end of the input, which occurs nowhere before. -/
theorem tokensFrom_ends : ∀ (cs : List Char) (pos skip : Nat),
    (tokensFrom pos skip cs).value = .ok () →
      ∃ (ts : List Token) (stop : Int),
        (tokensFrom pos skip cs).reports.map (·.token) = ts ++ [atEnd stop] ∧
          ∀ u ∈ ts, u.kind ≠ .endOfInput
  | [], pos, skip, _ => ⟨[], pos, by cases skip <;> rfl, by simp⟩
  | c :: rest, pos, skip + 1, h => by
    unfold tokensFrom at h ⊢
    exact tokensFrom_ends rest (pos + 1) skip h
  | c :: rest, pos, 0, h => by
    unfold tokensFrom at h ⊢
    split at h
    · rename_i hb
      simp only [hb, if_true]
      exact tokensFrom_ends rest (pos + 1) 0 h
    · rename_i hb
      simp only [hb]
      split at h
      · cases h
      · rename_i l hl
        obtain ⟨ts, stop, hts, hall⟩ := tokensFrom_ends rest (pos + 1) (l.size - 1) h
        refine ⟨l.toToken pos :: ts, stop, ?_, ?_⟩
        · simp [Trace.reports, hts]
        · simpa [Lexeme.toToken] using ⟨Lexeme.first_kind hl, hall⟩

theorem all_ends {source : List Char} {ts : List Token} (h : all source = .ok ts) :
    ∃ (us : List Token) (stop : Int), ts = us ++ [atEnd stop] ∧
      ∀ u ∈ us, u.kind ≠ .endOfInput := by
  unfold all at h
  rw [Trace.collect_eq] at h
  split at h
  · rename_i reports heq
    cases h
    obtain ⟨rfl, hv⟩ := Prod.mk.inj heq
    exact tokensFrom_ends source 0 0 hv
  · cases h

end Token

theorem mapError_eq_ok {ε ε' α : Type} {f : ε → ε'} {x : Except ε α} {a : α} :
    x.mapError f = .ok a ↔ x = .ok a := by
  constructor
  · intro h
    cases x with
    | error e => cases h
    | ok b =>
      cases h
      rfl
  · rintro rfl
    rfl

theorem mapError_eq_error {ε ε' α : Type} {f : ε → ε'} {x : Except ε α} {e : ε'} :
    x.mapError f = .error e ↔ ∃ err, e = f err ∧ x = .error err := by
  cases x with
  | error err =>
    constructor
    · intro h
      cases h
      exact ⟨err, rfl, rfl⟩
    · rintro ⟨err', rfl, h⟩
      cases h
      rfl
  | ok a =>
    constructor
    · intro h
      cases h
    · rintro ⟨err, -, h⟩
      cases h

/-- The tokens of a text are followed by one end of the input. -/
theorem tokensOf_ends {source : String} {ts : List Token} (h : Program.tokensOf source = .ok ts) :
    ∃ (us : List Token) (stop : Int), ts = us ++ [Token.atEnd stop] ∧
      ∀ u ∈ us, u.kind ≠ .endOfInput := by
  unfold Program.tokensOf at h
  exact Token.all_ends (mapError_eq_ok.mp h)

/-- Two lists that end where the input does are split at the same place. -/
theorem split_at_end {us vs rest : List Token} {t u : Token} (h : us ++ [t] = vs ++ u :: rest)
    (ht : t.kind = .endOfInput) (hus : ∀ a ∈ us, a.kind ≠ .endOfInput) (hu : u.kind = .endOfInput)
    (hvs : ∀ a ∈ vs, a.kind ≠ .endOfInput) : us = vs := by
  rcases List.append_eq_append_iff.mp h with ⟨as, rfl, hc⟩ | ⟨cs, rfl, hc⟩
  · cases as with
    | nil => simp
    | cons a as =>
      obtain ⟨rfl, _⟩ := List.cons.inj hc
      exact absurd ht (hvs t (by simp))
  · cases cs with
    | nil => simp
    | cons c cs =>
      obtain ⟨rfl, _⟩ := List.cons.inj hc
      exact absurd hu (hus u (by simp))

/-! ## Registered signatures -/

namespace Registry

variable {κ β : Type} [DecidableEq κ]

/-- What is registered is what was written last. -/
theorem get?_ofList (es : List (κ × β)) (k : κ) :
    (ofList es).get? k = (es.findRev? (·.1 = k)).map (·.2) := by
  have hstep : ∀ (es : List (κ × β)) (r : Registry κ β),
      (es.foldl (fun r e => r.insert e.1 e.2) r).get? k =
        ((es.findRev? (·.1 = k)).map (·.2)).or (r.get? k) := by
    intro es
    induction es with
    | nil => intro r; simp
    | cons e rest ih =>
      intro r
      rw [List.foldl_cons, ih, get?_insert]
      by_cases h : e.1 = k
      · cases hf : List.find? (fun x => decide (x.1 = k)) rest.reverse <;>
          simp [List.find?_append, h, hf]
      · simp [List.find?_append, h]
  rw [ofList, hstep]
  simp [empty, get?]

end Registry

namespace Grammar

/-- A name is registered with the signature of the function that it finds. -/
theorem signatures_get? (ps : List Procedure) (f : Name) :
    (signatures ps).get? f = (ps.findRev? (·.name = f)).map (·.prototype) := by
  unfold signatures Program.ofProcedures
  rw [Registry.get?_ofList]
  simp [← List.map_reverse, List.find?_map, Function.comp_def]

/-- Where no two functions have one name, a name finds its function. -/
theorem findRev?_of_nodup {p : Procedure} : ∀ {ps : List Procedure}, (ps.map (·.name)).Nodup →
    p ∈ ps → ps.findRev? (·.name = p.name) = some p
  | q :: rest, hn, hp => by
    rw [List.map_cons, List.nodup_cons] at hn
    rw [List.findRev?_eq_find?_reverse, List.reverse_cons, List.find?_append,
      ← List.findRev?_eq_find?_reverse]
    rcases List.mem_cons.mp hp with rfl | hp
    · have hnone : rest.findRev? (·.name = p.name) = none := by
        rw [List.findRev?_eq_find?_reverse, List.find?_eq_none]
        intro x hx
        simp only [decide_eq_true_eq]
        intro he
        exact hn.1 (he ▸ List.mem_map_of_mem (List.mem_reverse.mp hx))
      rw [hnone]
      simp
    · rw [findRev?_of_nodup hn.2 hp]
      rfl

/-- Where no two functions have one name, every function is registered. -/
theorem signatures_of_mem {ps : List Procedure} (hn : (ps.map (·.name)).Nodup) {p : Procedure}
    (hp : p ∈ ps) : (signatures ps).get? p.name = some p.prototype := by
  rw [signatures_get?, findRev?_of_nodup hn hp]
  rfl

end Grammar

/-! ## The pass over the headers -/

namespace Header

open Grammar

/-- The types of derived formals are read up to the closing parenthesis. -/
theorem formals_derived {closing : Token} (hc : closing.kind = .symbol .rightParen)
    (more : List Token) : ∀ (items : List (List Token × Binding)) {ts : List Token},
      Separated (items.map (·.1)) ts → (∀ i ∈ items, FormalDerives i.1 i.2) →
      ∃ tys : List Ty, formals (ts ++ closing :: more) = some (tys, closing :: more) ∧
        tys.map some = items.map (·.2.ty)
  | [], _, hs, _ => by
    cases hs
    exact ⟨[], by simp [formals, hc, Token.Kind.ty?], rfl⟩
  | (fts, b) :: items, ts, hs, hf => by
    have hfirst : FormalDerives fts b := hf (fts, b) (by simp)
    cases hfirst with | @typed ty name T hT hn =>
    rw [List.map_cons] at hs
    generalize hparts : items.map (·.1) = parts at hs
    cases hs with
    | one =>
      obtain rfl : items = [] := List.map_eq_nil_iff.mp hparts
      exact ⟨[T], by simp [formals, hT, hn, hc], rfl⟩
    | @more part parts comma us hcomma hp hs =>
      obtain ⟨tys, htys, hmap⟩ := formals_derived hc more items (hparts ▸ hs)
        fun i hi => hf i (List.mem_cons_of_mem _ hi)
      refine ⟨T :: tys, ?_, by simp [hmap, Binding.declared]⟩
      simp [formals, hT, hn, hcomma, htys]

/-- The header of a derived function announces its signature. -/
theorem read_function {known : Signatures} {ts : List Token} {p : Procedure}
    (h : FunctionDerives known ts p) : ∃ t us, ts = t :: us ∧ t.kind = .keyword .function ∧
      (∀ u ∈ us, u.kind ≠ .keyword .function) ∧
      ∀ more, ∃ nameAt, read (us ++ more) = some ⟨p.prototype, nameAt⟩ := by
  cases h with
  | @function t ty name opening closing end_ T ts items body ht hT hn ho hs hf hc hb he =>
  have hdeclaration : Declaration _ :=
    (FunctionDerives.function ht hT hn ho hs hf hc hb he).declaration
  refine ⟨t, _, rfl, ht, hdeclaration.no_function, fun more => ⟨name.pos, ?_⟩⟩
  obtain ⟨tys, htys, hmap⟩ := formals_derived hc (tokensOf body ++ [end_] ++ more) items hs hf
  have hrest : ts ++ closing :: (tokensOf body ++ [end_]) ++ more =
      ts ++ closing :: (tokensOf body ++ [end_] ++ more) := by simp
  simp only [List.cons_append, read, hT, hn, ho, and_self, if_true, hrest, htys, hc, hmap]
  simp [Procedure.ofParts, Function.comp_def]

end Header

namespace Prototype

open Grammar

/-- The signatures that a pass has registered, or the error that it ended with. -/
def gathered (pass : Trace PrototypeReport (Except CompileError Unit)) :
    Except CompileError (List Prototype) :=
  pass.value.map fun _ => pass.reports.filterMap (·.prototype)

theorem all_eq (tokens : List Token) : all tokens = gathered (collectFrom 0 [] tokens) := by
  unfold all collect gathered
  rw [Trace.collect_eq]
  cases (collectFrom 0 [] tokens).value <;> rfl

theorem gathered_emit (r : PrototypeReport)
    (next : Unit → Trace PrototypeReport (Except CompileError Unit)) :
    gathered (.emit r next) = (gathered (next ())).map (r.prototype.toList ++ ·) := by
  unfold gathered
  simp only [Trace.value, Trace.reports]
  cases (next ()).value with
  | error e => rfl
  | ok u => cases h : r.prototype <;> simp [Except.map, h]

/-- A token that announces no function registers nothing. -/
theorem gathered_skip (seen : List Name) (rest : List Token) : ∀ (us : List Token) (index : Nat),
    (∀ u ∈ us, u.kind ≠ .keyword .function) →
    gathered (collectFrom index seen (us ++ rest)) =
      gathered (collectFrom (index + us.length) seen rest)
  | [], _, _ => rfl
  | u :: us, index, h => by
    have hu : u.kind ≠ .keyword .function := h u (by simp)
    rw [List.cons_append, collectFrom]
    simp only [hu, if_false]
    rw [gathered_emit, gathered_skip seen rest us _ fun v hv => h v (by simp [hv])]
    simp only [List.length_cons, Nat.add_assoc, Nat.add_comm 1]
    cases gathered (collectFrom (index + (us.length + 1)) seen rest) <;> rfl

/-- **The pass registers the signatures of the functions in order, or finds a name twice.** -/
theorem gathered_functions {known : Signatures} {rest : List Token}
    (hrest : ∀ u ∈ rest, u.kind ≠ .keyword .function) :
    ∀ (items : List (List Token × Procedure)) (seen : List Name) (index : Nat)
      (ps : List Prototype), (∀ i ∈ items, FunctionDerives known i.1 i.2) →
      (gathered (collectFrom index seen (tokensOf items ++ rest)) = .ok ps ↔
        ps = items.map (·.2.prototype) ∧ (items.map (·.2.name)).Nodup ∧
          ∀ i ∈ items, i.2.name ∉ seen)
  | [], seen, index, ps, _ => by
    have hskip := gathered_skip seen [] rest index hrest
    rw [List.append_nil] at hskip
    simp only [tokensOf, List.map_nil, List.flatten_nil, List.nil_append, hskip]
    simp [collectFrom, gathered, Trace.value, Trace.reports, Except.map, eq_comm]
  | i :: items, seen, index, ps, hd => by
    obtain ⟨t, us, hts, ht, hus, hread⟩ := Header.read_function (hd i (by simp))
    obtain ⟨nameAt, hread⟩ := hread (tokensOf items ++ rest)
    have hsplit : tokensOf (i :: items) ++ rest = t :: (us ++ (tokensOf items ++ rest)) := by
      simp [tokensOf, hts]
    rw [hsplit, collectFrom]
    simp only [ht, if_true, hread]
    by_cases hseen : i.2.name ∈ seen
    · have hseen' : i.2.prototype.name ∈ seen := hseen
      simp [hseen', hseen, gathered, Trace.value, Except.map]
    · have hseen' : i.2.prototype.name ∉ seen := hseen
      simp only [hseen', if_false]
      rw [gathered_emit, gathered_skip _ _ us _ hus]
      have ih := fun ps => gathered_functions hrest items (i.2.prototype.name :: seen)
        (index + 1 + us.length) ps fun j hj => hd j (by simp [hj])
      have hfresh : (∀ j ∈ items, j.2.name ∉ i.2.prototype.name :: seen) ↔
          i.2.name ∉ items.map (·.2.name) ∧ ∀ j ∈ items, j.2.name ∉ seen := by
        simp only [List.mem_cons, not_or, List.mem_map, not_exists, not_and]
        exact ⟨fun h => ⟨fun j hj he => (h j hj).1 he, fun j hj => (h j hj).2⟩,
          fun h j hj => ⟨fun he => h.1 j hj he, h.2 j hj⟩⟩
      simp only [List.map_cons, List.nodup_cons, List.forall_mem_cons]
      cases hrec : gathered (collectFrom (index + 1 + us.length) (i.2.prototype.name :: seen)
          (tokensOf items ++ rest)) with
      | error e =>
        simp only [Except.map, reduceCtorEq, false_iff]
        rintro ⟨-, ⟨hnew, hnodup⟩, -, hall⟩
        have := (ih _).mpr ⟨rfl, hnodup, hfresh.mpr ⟨hnew, hall⟩⟩
        rw [hrec] at this
        cases this
      | ok qs =>
        obtain ⟨rfl, hnodup, hall⟩ := (ih qs).mp hrec
        obtain ⟨hnew, hall⟩ := hfresh.mp hall
        simp only [Except.map, Option.toList_some, List.singleton_append, Except.ok.injEq]
        exact ⟨fun h => ⟨h.symm, ⟨hnew, hnodup⟩, hseen, hall⟩, fun h => h.1.symm⟩

/-- The signatures of derived functions: all of them in order, unless two have one name. -/
theorem all_functions {known : Signatures} {rest : List Token}
    (hrest : ∀ u ∈ rest, u.kind ≠ .keyword .function) (items : List (List Token × Procedure))
    (hd : ∀ i ∈ items, FunctionDerives known i.1 i.2) (ps : List Prototype) :
    Program.prototypesOf (tokensOf items ++ rest) = .ok ps ↔
      ps = items.map (·.2.prototype) ∧ (items.map (·.2.name)).Nodup := by
  have h := gathered_functions hrest items [] 0 ps hd
  unfold Program.prototypesOf
  rw [all_eq, mapError_eq_ok, h]
  simp

/-- The statements of a script announce no function. -/
theorem all_statements {known : Signatures} {items : List (List Token × Stmt)} {t : Token}
    (ht : t.kind = .endOfInput) (hd : ∀ i ∈ items, StmtDerives known i.1 i.2)
    (ps : List Prototype) : Program.prototypesOf (tokensOf items ++ [t]) = .ok ps ↔ ps = [] := by
  have hno : ∀ u ∈ tokensOf items ++ [t], u.kind ≠ .keyword .function := by
    rw [List.forall_mem_append]
    exact ⟨forall_mem_tokensOf fun i hi => (hd i hi).no_function, by simp [ht]⟩
  simpa [tokensOf] using @all_functions known (tokensOf items ++ [t]) hno [] (by simp) ps

end Prototype

/-! ## Exactness -/

open Grammar

/-- The rules of the language accept the text and read it as these functions: the text has tokens,
these derive the functions, no two functions have one name, and every body is admissible. -/
def Accepted (source : String) (ps : List Procedure) : Prop :=
  ∃ (tokens : List Token) (t : Token), Program.tokensOf source = .ok (tokens ++ [t]) ∧
    t.kind = .endOfInput ∧ ProgramDerives tokens ps ∧ (ps.map (·.name)).Nodup ∧
    ∀ p ∈ ps, p.Admits HasType

/-- The registered signatures of a list of headers. -/
abbrev registered (headers : List Prototype) : Signatures :=
  .ofList (headers.map fun p => (p.name, p))

theorem registered_eq (ps : List Procedure) :
    registered (ps.map (·.prototype)) = signatures ps := by
  rw [registered, List.map_map]
  rfl

theorem registered_items {α : Type} (items : List (α × Procedure)) :
    registered (items.map (·.2.prototype)) = signatures (items.map (·.2)) := by
  rw [← registered_eq, List.map_map]
  rfl

theorem ofTokens_eq (tokens : List Token) (headers : List Prototype) :
    Program.ofTokens frames tokens headers =
      (outcome (program (registered headers) frames) (.start tokens)).map (·.1) := by
  unfold Program.ofTokens Program.parse
  exact Trace.value_bind _ _

/-- A text that has no tokens is not looked at any further. -/
theorem compile_untokenized {source : String} {stop : Stop}
    (htokens : Program.tokensOf source = .error stop) (frames : Nat) :
    Program.compile frames source = .error stop := by
  unfold Program.compile
  rw [htokens]
  rfl

/-- Behind the tokens the compiler no longer looks at the text. -/
theorem compile_of_tokens {source : String} {tokens : List Token}
    (htokens : Program.tokensOf source = .ok tokens) (frames : Nat) :
    Program.compile frames source =
      Program.prototypesOf tokens >>= Program.ofTokens frames tokens := by
  unfold Program.compile
  rw [htokens]
  rfl

/-- Tokens whose signatures cannot be registered are not parsed. -/
theorem compile_unregistered {source : String} {tokens : List Token} {stop : Stop}
    (htokens : Program.tokensOf source = .ok tokens)
    (hheaders : Program.prototypesOf tokens = .error stop) (frames : Nat) :
    Program.compile frames source = .error stop := by
  rw [compile_of_tokens htokens, hheaders]
  rfl

/-- Behind the tokens and the headers the compiler is the parser. -/
theorem compile_eq {source : String} {tokens : List Token} {headers : List Prototype}
    (htokens : Program.tokensOf source = .ok tokens)
    (hheaders : Program.prototypesOf tokens = .ok headers) :
    Program.compile frames source =
      (outcome (program (registered headers) frames) (.start tokens)).map (·.1) := by
  rw [compile_of_tokens htokens, hheaders]
  exact ofTokens_eq tokens headers

/-- A text that compiles has passed all stages. -/
theorem compile_stages {source : String} {prog : Program}
    (h : Program.compile frames source = .ok prog) : ∃ tokens headers s',
      Program.tokensOf source = .ok tokens ∧ Program.prototypesOf tokens = .ok headers ∧
        outcome (program (registered headers) frames) (.start tokens) = .ok (prog, s') := by
  cases htokens : Program.tokensOf source with
  | error e =>
    rw [compile_untokenized htokens] at h
    cases h
  | ok tokens =>
    cases hheaders : Program.prototypesOf tokens with
    | error e =>
      rw [compile_unregistered htokens hheaders] at h
      cases h
    | ok headers =>
      rw [compile_eq htokens hheaders] at h
      rcases ho : outcome (program (registered headers) frames) (.start tokens) with stop | ⟨a, s'⟩
      · rw [ho] at h
        cases h
      · rw [ho] at h
        cases h
        exact ⟨tokens, headers, s', rfl, hheaders, ho⟩

/-- A text that does not compile fails at one of them. -/
theorem compile_fails {source : String} {stop : Stop}
    (h : Program.compile frames source = .error stop) :
    Program.tokensOf source = .error stop ∨
      (∃ tokens, Program.tokensOf source = .ok tokens ∧
        Program.prototypesOf tokens = .error stop) ∨
      ∃ tokens headers, Program.tokensOf source = .ok tokens ∧
        Program.prototypesOf tokens = .ok headers ∧
          outcome (program (registered headers) frames) (.start tokens) = .error stop := by
  cases htokens : Program.tokensOf source with
  | error e =>
    rw [compile_untokenized htokens] at h
    cases h
    exact .inl rfl
  | ok tokens =>
    cases hheaders : Program.prototypesOf tokens with
    | error e =>
      rw [compile_unregistered htokens hheaders] at h
      cases h
      exact .inr (.inl ⟨tokens, rfl, hheaders⟩)
    | ok headers =>
      rw [compile_eq htokens hheaders] at h
      rcases ho : outcome (program (registered headers) frames) (.start tokens) with stop' | r
      · rw [ho] at h
        cases h
        exact .inr (.inr ⟨tokens, headers, rfl, hheaders, ho⟩)
      · rw [ho] at h
        cases h

theorem admits_procedure_bare {known : Signatures} {p : Procedure}
    (h : p.Admits (Settled known)) : p.bare.Admits HasType :=
  admitsAll_bareAll h

theorem signatures_bare (ps : List Procedure) :
    signatures (ps.map Procedure.bare) = signatures ps := by
  rw [← registered_eq, ← registered_eq, List.map_map]
  rfl

/-- What a program that was compiled is like: its functions as they were written are those that the
rules read, the signatures are those of the functions, and all types are recorded. -/
structure Compiled (source : String) (prog : Program) : Prop where
  accepted : Accepted source (prog.procedures.map Procedure.bare)
  signatures_eq : prog.prototypes = signatures prog.procedures
  settled : ∀ p ∈ prog.procedures, p.Admits (Settled prog.prototypes)

/-- **The functions that were read are the ones that were derived, once the headers are known**: the
registered signature of each function is the one in its own header. -/
theorem derives_of_read {t : Token} {headers : List Prototype}
    {items : List (List Token × Procedure)} (ht : t.kind = .endOfInput)
    (hheaders : Program.prototypesOf (tokensOf items ++ [t]) = .ok headers)
    (hall : ∀ i ∈ items, FunctionRead (registered headers) i.1 i.2) :
    (∀ i ∈ items, FunctionDerives (registered headers) i.1 i.2.bare) ∧
      headers = items.map (·.2.prototype) ∧ (items.map (·.2.name)).Nodup := by
  have hchoice : ∀ i : List Token × Procedure, ∃ q, i ∈ items →
      FunctionDerives (registered headers) i.1 q ∧
        (registered headers).get? q.name = some i.2.prototype ∧
        i.2.bare = { q with prototype := i.2.prototype } ∧
        i.2.Admits (Settled (registered headers)) := by
    intro i
    by_cases hi : i ∈ items
    · obtain ⟨q, hq⟩ := hall i hi
      exact ⟨q, fun _ => hq⟩
    · exact ⟨i.2, fun h => absurd h hi⟩
  obtain ⟨f, hf⟩ := Classical.skolem.mp hchoice
  let derived := items.map fun i => (i.1, f i)
  have htoks : tokensOf derived = tokensOf items := by simp [tokensOf, derived, Function.comp_def]
  have hd : ∀ i ∈ derived, FunctionDerives (registered headers) i.1 i.2 :=
    List.forall_mem_map.mpr fun i hi => (hf i hi).1
  rw [← htoks] at hheaders
  obtain ⟨hnames, hnodup⟩ := (Prototype.all_functions (by simp [ht]) derived hd _).mp hheaders
  have hnodup' : ((derived.map (·.2)).map (·.name)).Nodup := by rwa [List.map_map]
  have hbare : ∀ i ∈ items, i.2.bare = f i := by
    intro i hi
    obtain ⟨_, hget, hb, _⟩ := hf i hi
    have hmem : f i ∈ derived.map (·.2) := by
      simp only [derived, List.map_map]
      exact List.mem_map_of_mem hi
    rw [hnames, registered_items derived, signatures_of_mem hnodup' hmem] at hget
    rw [hb, ← Option.some.inj hget]
  have hderived : derived = items.map fun i => (i.1, i.2.bare) :=
    List.map_congr_left fun i hi => by rw [hbare i hi]
  rw [hderived, List.map_map] at hnames hnodup
  exact ⟨fun i hi => hbare i hi ▸ (hf i hi).1, hnames, hnodup⟩

theorem compiled_of_functions {source : String} {tokens : List Token} {t : Token}
    {headers : List Prototype} {prog : Program}
    (htokens : Program.tokensOf source = .ok (tokens ++ [t])) (ht : t.kind = .endOfInput)
    (hheaders : Program.prototypesOf (tokens ++ [t]) = .ok headers)
    (h : FunctionsRead (registered headers) tokens prog) : Compiled source prog := by
  obtain ⟨items, hne, rfl, hall, rfl⟩ := h
  obtain ⟨hd, rfl, hnodup⟩ := derives_of_read ht hheaders hall
  let derived := items.map fun i => (i.1, i.2.bare)
  have htoks : tokensOf derived = tokensOf items := by simp [tokensOf, derived, Function.comp_def]
  have hps : (items.map (·.2)).map Procedure.bare = derived.map (·.2) := by
    simp only [derived, List.map_map, Function.comp_def]
  have hknown : registered (items.map (·.2.prototype)) = signatures (items.map (·.2)) :=
    registered_items items
  refine ⟨⟨tokensOf items, t, htokens, ht, ?_, ?_, ?_⟩, hknown, ?_⟩
  · rw [hps, ← htoks]
    refine .functions (by simpa [derived] using hne) ?_
    rw [← hps, signatures_bare, ← hknown]
    exact List.forall_mem_map.mpr hd
  · rw [List.map_map, List.map_map]
    exact hnodup
  · refine List.forall_mem_map.mpr (List.forall_mem_map.mpr fun i hi => ?_)
    obtain ⟨_, _, _, _, hadmits⟩ := hall i hi
    exact admits_procedure_bare hadmits
  · refine List.forall_mem_map.mpr fun i hi => ?_
    obtain ⟨_, _, _, _, hadmits⟩ := hall i hi
    exact hadmits

/-- A script that was read is the one that was derived. -/
theorem compiled_of_script {source : String} {tokens : List Token} {t : Token}
    {headers : List Prototype} {prog : Program}
    (htokens : Program.tokensOf source = .ok (tokens ++ [t])) (ht : t.kind = .endOfInput)
    (hheaders : Program.prototypesOf (tokens ++ [t]) = .ok headers)
    (h : ScriptRead (scriptSignatures (registered headers)) tokens prog) :
    Compiled source prog := by
  obtain ⟨items, p, rfl, hd, hbare, hadm, rfl⟩ := h
  obtain rfl : headers = [] := (Prototype.all_statements ht hd headers).mp hheaders
  have hknown : scriptSignatures (registered []) = signatures [p] := by
    rw [← signatures_bare, List.map_singleton, hbare]
    rfl
  refine ⟨⟨tokensOf items, t, htokens, ht, ?_, by simp, ?_⟩, hknown, ?_⟩
  · rw [List.map_singleton, hbare]
    refine .script ?_
    rw [← hbare, ← List.map_singleton, signatures_bare, ← hknown]
    exact hd
  · simpa using admits_procedure_bare hadm
  · simpa using hadm

/-- **What the compiler returns is what the rules say.** -/
theorem compile_sound {source : String} {prog : Program}
    (h : Program.compile frames source = .ok prog) : Compiled source prog := by
  obtain ⟨_, headers, s', htokens, hheaders, ho⟩ := compile_stages h
  obtain ⟨tokens, stop, rfl, hinside⟩ := tokensOf_ends htokens
  obtain ⟨ts, hm, hread, u, rest, hrest, hu⟩ := Ends.of_ok ho reads_program
  have hsplit : tokens ++ [Token.atEnd stop] = ts ++ u :: rest := by
    rw [← hrest]
    exact hm.rest
  obtain rfl : tokens = ts := split_at_end hsplit rfl hinside hu hm.inside
  rcases hread with hread | hread
  · exact compiled_of_functions htokens rfl hheaders hread
  · exact compiled_of_script htokens rfl hheaders hread

/-- **What the rules accept compiles, unless it is nested too deeply.** -/
theorem compile_complete {source : String} {ps : List Procedure} (h : Accepted source ps) :
    (∃ prog, Program.compile frames source = .ok prog ∧ prog.procedures.map Procedure.bare = ps) ∨
      ∃ stop, Program.compile frames source = .error stop ∧ stop.tooDeep := by
  obtain ⟨tokens, t, htokens, ht, hd, hnodup, hadm⟩ := h
  have hparse : ∀ headers : List Prototype, Program.prototypesOf (tokens ++ [t]) = .ok headers →
      Accepts (program (registered headers) frames) (.start (tokens ++ [t])) tokens
        (fun prog _ => prog.procedures.map Procedure.bare = ps) True →
      (∃ prog, Program.compile frames source = .ok prog ∧ prog.procedures.map Procedure.bare = ps) ∨
        ∃ stop, Program.compile frames source = .error stop ∧ stop.tooDeep := by
    intro headers hheaders hacc
    rw [compile_eq htokens hheaders]
    rcases hacc.outcome with ⟨prog, s', ho, _, hps⟩ | ⟨stop, ho, hdeep, _⟩
    · exact .inl ⟨prog, by rw [ho]; rfl, hps⟩
    · exact .inr ⟨stop, by rw [ho]; rfl, hdeep⟩
  cases hd with
  | @functions items hne hd =>
    rw [← registered_items] at hd
    have hnames : (items.map (·.2.name)).Nodup := by
      rw [List.map_map] at hnodup
      exact hnodup
    have hheaders := (@Prototype.all_functions _ [t] (by simp [ht]) items hd _).mpr ⟨rfl, hnames⟩
    refine hparse _ hheaders ((accepts_functions hne hd (fun i hi => ?_)
      (fun i hi => hadm _ (List.mem_map_of_mem hi)) rfl ht).mono (fun _ _ _ h => h.1) id)
    rw [registered_items]
    exact signatures_of_mem hnodup (List.mem_map_of_mem hi)
  | @script items hd =>
    have hheaders := (Prototype.all_statements ht hd []).mpr rfl
    have hacc := @accepts_script (registered []) frames (.start (tokensOf items ++ [t])) items t []
      hd (hadm _ (by simp)) rfl ht
    exact hparse [] hheaders (hacc.mono (fun _ _ _ h => h.1) id)

/-- **A text compiles exactly if the rules of the language accept it**, texts that are nested too
deeply apart.  The functions of the program are then, as they were written, exactly those that the
rules read in the text; the signatures are registered in their order; and on every expression the
types are recorded that the rules give it. -/
theorem compile_exact (source : String)
    (hdeep : ∀ stop, Program.compile frames source = .error stop → ¬ stop.tooDeep) :
    ((∃ prog, Program.compile frames source = .ok prog) ↔ ∃ ps, Accepted source ps) ∧
    ∀ prog, Program.compile frames source = .ok prog →
      (∀ ps, Accepted source ps ↔ ps = prog.procedures.map Procedure.bare) ∧
      prog.prototypes = signatures prog.procedures ∧
      ∀ p ∈ prog.procedures, p.Admits (Settled prog.prototypes) := by
  have hcomplete : ∀ ps, Accepted source ps → ∃ prog,
      Program.compile frames source = .ok prog ∧ prog.procedures.map Procedure.bare = ps := by
    intro ps hps
    rcases compile_complete hps with h | ⟨stop, hstop, htoo⟩
    · exact h
    · exact absurd htoo (hdeep stop hstop)
  refine ⟨⟨?_, ?_⟩, ?_⟩
  · rintro ⟨prog, h⟩
    exact ⟨_, (compile_sound h).accepted⟩
  · rintro ⟨ps, hps⟩
    obtain ⟨prog, h, _⟩ := hcomplete ps hps
    exact ⟨prog, h⟩
  · intro prog h
    have hc := compile_sound h
    refine ⟨fun ps => ⟨fun hps => ?_, fun hps => hps ▸ hc.accepted⟩, hc.signatures_eq, hc.settled⟩
    obtain ⟨prog', h', hps'⟩ := hcomplete ps hps
    rw [h] at h'
    cases h'
    exact hps'.symm

theorem ok_of_toOption {ε α β : Type} {f : α → β} {b : β} {x : Except ε α}
    (h : x.toOption.map f = some b) : ∃ a, x = .ok a ∧ f a = b := by
  cases x with
  | error e => cases h
  | ok a => exact ⟨a, rfl, Option.some.inj h⟩

/-- A call may come before the function that it names, but a name has to be declared before it is
assigned, be it in another branch. -/
theorem compile_exact_forward :
    (∃ ps, Accepted
      "FUNCTION NUMERIC MAIN() PRINT NOT(TRUE); END FUNCTION BOOLEAN NOT(BOOLEAN a) RETURN !a; END"
        ps ∧ ps.map (·.name) = [some "MAIN", some "NOT"]) ∧
    ¬ ∃ ps, Accepted "IF TRUE THEN b = TRUE; ELSE BOOLEAN b; ENDIF" ps := by
  constructor
  · obtain ⟨prog, hprog, hnames⟩ : ∃ prog, Program.compile 100
      "FUNCTION NUMERIC MAIN() PRINT NOT(TRUE); END FUNCTION BOOLEAN NOT(BOOLEAN a) RETURN !a; END"
        = .ok prog ∧ prog.procedures.map (·.name) = [some "MAIN", some "NOT"] := by
      refine ok_of_toOption ?_
      decide +kernel
    obtain ⟨hexact, _⟩ := (compile_exact _ fun stop hstop => by
      rw [hprog] at hstop
      cases hstop).2 prog hprog
    refine ⟨_, (hexact _).mpr rfl, ?_⟩
    rw [List.map_map]
    exact hnames
  · have hstop : (match Program.compile 100 "IF TRUE THEN b = TRUE; ELSE BOOLEAN b; ENDIF" with
        | .ok _ => none
        | .error stop => some stop) = some (.error ⟨.undefinedSymbol (some "b"), some 13⟩) := by
      decide +kernel
    split at hstop
    · cases hstop
    · rename_i stop herror
      cases hstop
      rw [← (compile_exact _ fun stop hstop => ?_).1]
      · rintro ⟨prog, hprog⟩
        rw [herror] at hprog
        cases hprog
      · rw [herror] at hstop
        cases hstop
        simp [Stop.tooDeep]

end Slang
