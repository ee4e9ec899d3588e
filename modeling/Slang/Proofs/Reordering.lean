import Mathlib.Data.List.Perm.Basic
import Mathlib.Data.List.SplitBy
import Slang.Proofs.Layout

/-!
# The order of declarations does not matter

A function is read from its own tokens.  Of all that the parser has met before nothing decides about
it but the registered signatures, and these are registered before any body is read.

* `Pairing.across` — compare two readings of one declaration, whatever lies behind it.
* `ReadAs known frames ts p` — somewhere in a text the tokens were read as this function.
* `Procedure.unmarked` — a function without offsets and numbers.
* `declarations` — the tokens of a text, cut behind every END.

Principal results: `ReadAs.elsewhere` — a declaration that was read somewhere is read everywhere, as
the same function up to marks; `declarations_reorder` — the declarations of a text that compiles may
be put in any order.
-/

set_option autoImplicit false

namespace Slang

open Grammar

variable {frames : Nat}

/-- Compare two readings of one declaration, with these tokens behind it. -/
def Pairing.across (behind behind' : List Token) : Pairing where
  place _ _ := True
  numbered := false
  named := false
  behind := behind
  behind' := behind'
  last := .keyword .end_
  last_eq := .inr rfl

/-- A function without the offsets and the numbers of its nodes. -/
def Procedure.unmarked (p : Procedure) : Procedure := p.mapMarks fun _ => ⟨none, none⟩

/-! ## One declaration -/

namespace Grammar

variable {c : Pairing} {known known' : Signatures} {ts ts' : List Token} {p : Procedure}

theorem outcome_closed (i : Nat) (p : Procedure) {s : State} (hs : s.rest ≠ []) :
    outcome (do
      relabel i p.label
      finish i
      return p) s = .ok (p, { s with parents := removeOpen i s.parents }) := by
  have hopen : ({ s with parents := removeOpen i s.parents } : State).rest ≠ [] := hs
  simp only [relabel, finish, outcome_bind, outcome_modify, outcome_report _ _ hs,
    outcome_report _ _ hopen]
  rfl

/-- Behind the END of a declaration the readings part. -/
theorem closes_function (hlast : c.last = .keyword .end_) (hb : c.behind ≠ [])
    (hb' : c.behind' ≠ []) {i j : Nat} {p p' : Procedure} (hp : p.Like c p') :
    ReadsTo c (functionClose i p) (functionClose j p') fun q q' _ t' =>
      q.Like c q' ∧ t'.rest = c.behind' := by
  intro s s' hs
  have hexpect : EndsAlike c (expectKeyword .end_) (expectKeyword .end_) s s' fun _ _ t t' =>
      t.rest = c.behind ∧ t'.rest = c.behind' := by
    refine EndsAlike.look hs fun t t' rest hr ht => ?_
    rw [ht.kind, ht.lexeme]
    by_cases hk : t.kind ∈ [Token.Kind.keyword .end_]
    · rw [if_pos hk, if_pos hk]
      have hk : t.kind = .keyword .end_ := by simpa using hk
      obtain ⟨rfl, u, hu, hkind⟩ := (hr ▸ hs.ahead).of_last (hk.trans hlast.symm)
      have hend : t.kind ≠ .endOfInput := by simp [hk]
      exact .of_ok (outcome_advance _ hr) (outcome_advance _ hu)
        ⟨rest_step hr hend, rest_step hu (hkind ▸ hend)⟩
    · rw [if_neg hk, if_neg hk]
      exact alike_reject _ ht.place s s' hs
  refine hexpect.bind_outcome fun _ _ t t' _ _ ⟨hrest, hrest'⟩ => ?_
  exact .of_ok (outcome_closed i p (hrest ▸ hb)) (outcome_closed j p' (hrest' ▸ hb')) ⟨hp, hrest'⟩

/-- Somewhere in a text that goes on behind them, the tokens were read as this function. -/
def ReadAs (known : Signatures) (frames : Nat) (ts : List Token) (p : Procedure) : Prop :=
  ∃ s s', Moved s ts s' ∧ s'.rest ≠ [] ∧ outcome (function known frames) s = .ok (p, s')

theorem like_across (behind behind' : List Token)
    (h : ts'.map Token.content = ts.map Token.content) :
    List.Forall₂ (Token.Like (.across behind behind')) ts ts' := by
  rw [eq_comm, ← List.forall₂_eq_eq_eq, List.forall₂_map_left_iff, List.forall₂_map_right_iff] at h
  refine h.imp fun t t' hcontent => ?_
  obtain ⟨hkind, hvalue⟩ := Prod.mk.inj hcontent
  exact ⟨hkind.symm, hvalue.symm, trivial⟩

/-- A declaration ends with its only END. -/
theorem Declaration.closed (h : Declaration ts) : ∃ us u, ts = us ++ [u] ∧
    u.kind = .keyword .end_ ∧ ∀ v ∈ us, v.kind ≠ .keyword .end_ := by
  obtain ⟨t, us, u, rfl, ht, hu, hus⟩ := h
  refine ⟨t :: us, u, rfl, hu, ?_⟩
  simp only [List.mem_cons]
  rintro v (rfl | hv)
  · simp [ht]
  · exact fun hk => hus v hv (.inr hk)

/-- **A declaration that was read somewhere is read everywhere**, as the same function up to marks:
with the same signatures, in another layout, behind and before other tokens. -/
theorem ReadAs.elsewhere (h : ReadAs known frames ts p) (hd : Declaration ts)
    (hsame : ts'.map Token.content = ts.map Token.content) (hknown : SameSignatures known known')
    {s : State} {more : List Token} (hr : s.rest = ts' ++ more) (hmore : more ≠ []) :
    Accepts (function known' frames) s ts' (fun p' _ => p'.unmarked = p.unmarked) False := by
  obtain ⟨s₁, s₂, hm, hne, ho⟩ := h
  obtain ⟨us, u, rfl, hu, hus⟩ := hd.closed
  have hahead : Ahead (.across s₂.rest more) s₁.rest s.rest := by
    have hlike := ahead_of_forall₂ hu (like_across s₂.rest more hsame) hus
    rw [hm.rest, hr]
    simpa [Pairing.across] using hlike
  have hclose := fun i j p p' hp => @closes_function (Pairing.across s₂.rest more).naming
    rfl hne hmore i j p p' hp
  have halike : ReadsTo (.across s₂.rest more) (function known frames) (function known' frames) _ :=
    alike_function hknown hclose
  have hends := halike s₁ s ⟨hahead, nofun, nofun, nofun⟩
  unfold EndsAlike at hends
  rw [ho] at hends
  rcases ho' : outcome (function known' frames) s with stop | ⟨p', s'⟩
  · rw [ho'] at hends
    exact hends.elim
  · rw [ho'] at hends
    obtain ⟨hp, hrest⟩ := hends
    obtain ⟨us', hm', _⟩ := Ends.of_ok ho' (reads_function s)
    have htokens : ts' = us' := by
      have happend := hm'.rest
      rw [hr, hrest] at happend
      exact List.append_cancel_right happend
    unfold Accepts Ends
    rw [ho', htokens]
    exact ⟨hm', hp⟩

/-- Where the end of the input is still ahead, what is read as a function can be read again. -/
theorem reads_readAs {s : State} (hs : ∃ t ∈ s.rest, t.kind = .endOfInput) :
    Reads (function known frames) s fun ts p s' => ts ≠ [] ∧
      (FunctionRead known ts p ∧ ReadAs known frames ts p) ∧
        ∃ t ∈ s'.rest, t.kind = .endOfInput := by
  refine (reads_function s).with_outcome.mono ?_
  rintro ts p s' hm ⟨⟨hne, hread⟩, ho⟩
  obtain ⟨t, hmem, ht⟩ := hs
  rw [hm.rest] at hmem
  have hahead : t ∈ s'.rest :=
    (List.mem_append.mp hmem).resolve_left fun hts => hm.inside t hts ht
  exact ⟨hne, ⟨hread, s, s', hm, List.ne_nil_of_mem hahead, ho⟩, t, hahead, ht⟩

/-! ## Many declarations -/

/-- The tokens before the end of the input, cut behind every END. -/
def declarations (tokens : List Token) : List (List Token) :=
  tokens.dropLast.splitBy fun t _ => t.kind ≠ .keyword .end_

/-- Declarations are cut where they were joined. -/
theorem declarations_flatten {parts : List (List Token)} (h : ∀ ts ∈ parts, Declaration ts)
    (e : Token) : declarations (parts.flatten ++ [e]) = parts := by
  unfold declarations
  rw [List.dropLast_concat]
  refine List.splitBy_flatten ?_ ?_ ?_
  · intro hnil
    obtain ⟨us, u, hts, _⟩ := (h [] hnil).closed
    simp at hts
  · intro ts hts
    obtain ⟨us, u, rfl, _, hus⟩ := (h ts hts).closed
    have hpairs : (us ++ [u]).Pairwise fun v _ => v.kind ≠ .keyword .end_ :=
      List.pairwise_append.mpr ⟨List.pairwise_of_forall_mem_list fun v hv _ _ => hus v hv,
        List.pairwise_singleton .., fun v hv _ _ => hus v hv⟩
    simpa using hpairs.isChain
  · refine (List.pairwise_of_forall_mem_list fun ts hts ts' hts' => ?_).isChain
    obtain ⟨us, u, rfl, hu, _⟩ := (h ts hts).closed
    obtain ⟨us', u', rfl, _⟩ := (h ts' hts').closed
    exact ⟨by simp, by simp, by simp [hu]⟩

theorem flatten_declarations (us : List Token) (e : Token) :
    (declarations (us ++ [e])).flatten = us := by
  unfold declarations
  rw [List.dropLast_concat, List.flatten_splitBy]

/-- Of functions with different names a name finds the same one, whatever their order. -/
theorem findRev?_perm {ps ps' : List Procedure} (h : ps'.Perm ps)
    (hn : (ps.map (·.name)).Nodup) (name : Name) :
    ps'.findRev? (·.name = name) = ps.findRev? (·.name = name) := by
  have hn' : (ps'.map (·.name)).Nodup := (h.map _).nodup_iff.mpr hn
  by_cases hfound : ∃ p ∈ ps, p.name = name
  · obtain ⟨p, hp, rfl⟩ := hfound
    rw [findRev?_of_nodup hn hp, findRev?_of_nodup hn' (h.mem_iff.mpr hp)]
  · have hnone : ∀ qs : List Procedure, (∀ q ∈ qs, q ∈ ps) →
        qs.findRev? (·.name = name) = none := by
      intro qs hqs
      rw [List.findRev?_eq_find?_reverse, List.find?_eq_none]
      intro q hq hname
      exact hfound ⟨q, hqs q (List.mem_reverse.mp hq), by simpa using hname⟩
    rw [hnone ps fun _ hq => hq, hnone ps' fun _ hq => h.mem_iff.mp hq]

/-- What functions with different names are up to marks, a name finds in every order. -/
theorem find?_unmarked_perm {prog prog' : Program}
    (h : (prog'.procedures.map Procedure.unmarked).Perm (prog.procedures.map Procedure.unmarked))
    (hn : (prog.procedures.map (·.name)).Nodup) (name : Name) :
    (prog'.find? name).map Procedure.unmarked = (prog.find? name).map Procedure.unmarked := by
  unfold Procedure.unmarked
  rw [← Program.find?_mapMarks, ← Program.find?_mapMarks]
  refine findRev?_perm h ?_ name
  rw [List.map_map]
  exact hn

/-- Signatures registered in another order are the same for every name. -/
theorem sameSignatures_perm {ps ps' : List Procedure} (h : ps'.Perm ps)
    (hn : (ps.map (·.name)).Nodup) : SameSignatures (signatures ps) (signatures ps') := by
  intro f
  rw [signatures_get?, signatures_get?, findRev?_perm h hn]

/-- Tokens that say the same as those of some items are cut into parts that say the same. -/
theorem exists_items {α γ : Type} (view : α → γ) : ∀ (items : List (List Token × α))
    {ts : List Token}, ts.map Token.content = (tokensOf items).map Token.content →
      ∃ parts : List (List Token × γ), ts = tokensOf parts ∧
        parts.map (·.2) = items.map (fun i => view i.2) ∧
        ∀ part ∈ parts, ∃ i ∈ items, part.1.map Token.content = i.1.map Token.content ∧
          part.2 = view i.2
  | [], ts, h => ⟨[], List.map_eq_nil_iff.mp h, rfl, by simp⟩
  | i :: items, ts, h => by
    simp only [tokensOf, List.map_cons, List.flatten_cons, List.map_append] at h
    obtain ⟨us, vs, rfl, hus, hvs⟩ := List.map_eq_append_iff.mp h
    obtain ⟨parts, rfl, hvalues, hall⟩ := exists_items view items hvs
    refine ⟨(us, view i.2) :: parts, by simp [tokensOf], by simp [hvalues], ?_⟩
    simp only [List.forall_mem_cons]
    refine ⟨⟨i, by simp, hus, rfl⟩, fun part hpart => ?_⟩
    obtain ⟨j, hj, hsame⟩ := hall part hpart
    exact ⟨j, List.mem_cons_of_mem _ hj, hsame⟩

end Grammar

section Texts

variable {items items' : List (List Token × Procedure)} {e : Token} {source' : String}
  {tokens' : List Token}

/-- The pass over the headers registers the signatures of derived functions, in whatever layout. -/
theorem prototypesOf_items {known : Signatures} (he : e.kind = .endOfInput)
    (hd : ∀ i ∈ items, FunctionDerives known i.1 i.2.bare) (hn : (items.map (·.2.name)).Nodup)
    (hsame : tokens'.map Token.content = (tokensOf items ++ [e]).map Token.content) :
    Program.prototypesOf tokens' = .ok (items.map (·.2.prototype)) := by
  have hheaders : Program.prototypesOf (tokensOf items ++ [e]) =
      .ok (items.map (·.2.prototype)) := by
    have h := @Prototype.all_functions known [e] (by simp [he])
      (items.map fun i => (i.1, i.2.bare)) (List.forall_mem_map.mpr hd)
      (items.map (·.2.prototype))
    simp only [tokensOf, List.map_map, Function.comp_def] at h
    exact h.mpr ⟨rfl, hn⟩
  unfold Program.prototypesOf at hheaders ⊢
  have hlike := Prototype.all_like (like_across [] [] hsame)
  rw [mapError_eq_ok.mp hheaders] at hlike
  generalize Prototype.all tokens' = x at hlike
  cases hlike with
  | ok => rfl

/-- **Declarations that were read together compile in every order and layout**, to the same
functions up to marks. -/
theorem compile_items (he : e.kind = .endOfInput) (hne : items ≠ [])
    (hd : ∀ i ∈ items, FunctionDerives (signatures (items.map (·.2))) i.1 i.2.bare)
    (hread : ∀ i ∈ items, ReadAs (signatures (items.map (·.2))) frames i.1 i.2)
    (hn : (items.map (·.2.name)).Nodup) (hperm : items'.Perm items)
    (htokens' : Program.tokensOf source' = .ok tokens')
    (hsame : tokens'.map Token.content = (tokensOf items' ++ [e]).map Token.content) :
    ∃ prog', Program.compile frames source' = .ok prog' ∧
      prog'.procedures.map Procedure.unmarked = items'.map fun i => i.2.unmarked := by
  have hn' : (items'.map (·.2.name)).Nodup := (hperm.map _).nodup_iff.mpr hn
  have hheaders := prototypesOf_items he (fun i hi => hd i (hperm.mem_iff.mp hi)) hn' hsame
  have hknown : SameSignatures (signatures (items.map (·.2))) (signatures (items'.map (·.2))) :=
    sameSignatures_perm (hperm.map _) (by rwa [List.map_map])
  -- cut the tokens at the ends of the declarations
  rw [List.map_append] at hsame
  obtain ⟨us, vs, rfl, hus, hvs⟩ := List.map_eq_append_iff.mp hsame
  obtain ⟨e', rfl, hcontent⟩ := List.map_eq_singleton_iff.mp hvs
  have he' : e'.kind = .endOfInput := (Prod.mk.inj hcontent).1.trans he
  obtain ⟨parts, rfl, hvalues, hparts⟩ := exists_items Procedure.unmarked items' hus
  have hacc : Accepts (program (signatures (items'.map (·.2))) frames)
      (.start (tokensOf parts ++ [e'])) (tokensOf parts) (fun prog' _ =>
        prog'.procedures.map Procedure.unmarked = parts.map (·.2) ∧
          prog'.prototypes = signatures (items'.map (·.2))) False := by
    refine accepts_each ?_ ?_ ?_ rfl he'
    · rintro rfl
      exact hne (List.map_eq_nil_iff.mp hvalues.symm ▸ hperm).nil_eq.symm
    · intro part hpart
      obtain ⟨i, hi, hpart, _⟩ := hparts part hpart
      obtain ⟨t, ts, u, hts, ht, _⟩ := (hd i (hperm.mem_iff.mp hi)).declaration
      rw [hts, List.map_cons] at hpart
      obtain ⟨t', ts', heq, hcontent, _⟩ := List.map_eq_cons_iff.mp hpart
      exact ⟨t', ts', heq, (Prod.mk.inj hcontent).1.trans ht⟩
    · intro part hpart s more hr hmore
      obtain ⟨i, hi, hpart, hvalue⟩ := hparts part hpart
      have hi := hperm.mem_iff.mp hi
      rw [hvalue]
      exact (hread i hi).elsewhere (hd i hi).declaration hpart hknown hr hmore
  rw [compile_eq htokens' hheaders, registered_items]
  rcases hacc.outcome with ⟨prog', s', ho, _, hprocedures, _⟩ | ⟨_, _, _, hfalse⟩
  · exact ⟨prog', by rw [ho]; rfl, hprocedures.trans hvalues⟩
  · exact hfalse.elim

/-- A text that compiles and begins with a function was read as declarations. -/
theorem items_of_compile {source : String} {prog : Program} {tokens : List Token}
    (hcompile : Program.compile frames source = .ok prog)
    (htokens : Program.tokensOf source = .ok tokens)
    (hform : tokens.head?.map Token.kind = some (.keyword .function)) :
    ∃ (items : List (List Token × Procedure)) (stop : Int),
      tokens = tokensOf items ++ [Token.atEnd stop] ∧ items ≠ [] ∧
      prog.procedures = items.map (·.2) ∧
      (∀ i ∈ items, FunctionDerives (signatures (items.map (·.2))) i.1 i.2.bare) ∧
      (∀ i ∈ items, ReadAs (signatures (items.map (·.2))) frames i.1 i.2) ∧
      (items.map (·.2.name)).Nodup := by
  obtain ⟨_, headers, s', hstage, hheaders, ho⟩ := compile_stages hcompile
  obtain rfl := Except.ok.inj (htokens.symm.trans hstage)
  obtain ⟨us, stop, rfl, hus⟩ := tokensOf_ends htokens
  obtain ⟨t, hhead, ht⟩ := Option.map_eq_some_iff.mp hform
  obtain ⟨rest, hcons⟩ := List.head?_eq_some_iff.mp hhead
  have hend : ∃ u ∈ (State.start (us ++ [Token.atEnd stop])).rest, u.kind = .endOfInput :=
    ⟨Token.atEnd stop, by simp [State.start], rfl⟩
  obtain ⟨ts, hm, ⟨items, hne, rfl, hitems, rfl⟩, u, more, hrest, hu⟩ :=
    Ends.of_ok ho (reads_each hcons ht (fun s hs => reads_readAs hs) hend)
  obtain rfl : us = tokensOf items := by
    have hboth : us ++ [Token.atEnd stop] = tokensOf items ++ u :: more := hrest ▸ hm.rest
    exact split_at_end hboth rfl hus hu hm.inside
  obtain ⟨hd, rfl, hn⟩ := derives_of_read rfl hheaders fun i hi => (hitems i hi).1
  rw [registered_items] at hd hitems
  exact ⟨items, stop, rfl, hne, rfl, hd, fun i hi => (hitems i hi).2, hn⟩

end Texts

/-- **The order of declarations does not matter.**  The tokens of a text that compiles and begins
with a function are declarations, each from a FUNCTION to its END.  Every text that has the same
declarations in any order, wherever their tokens stand, compiles as well; its functions are the same
up to offsets and numbers, the same one for every name; and it does the same under all limits and on
all arguments. -/
theorem declarations_reorder {source source' : String} {prog : Program}
    {tokens tokens' : List Token} (hcompile : Program.compile frames source = .ok prog)
    (htokens : Program.tokensOf source = .ok tokens)
    (hform : tokens.head?.map Token.kind = some (.keyword .function))
    (htokens' : Program.tokensOf source' = .ok tokens')
    (hreorder : ((declarations tokens').map (List.map Token.content)).Perm
      ((declarations tokens).map (List.map Token.content))) :
    (∀ ts ∈ declarations tokens, Declaration ts) ∧
    ∃ prog', Program.compile frames source' = .ok prog' ∧
      (prog'.procedures.map Procedure.unmarked).Perm (prog.procedures.map Procedure.unmarked) ∧
      (∀ name, (prog'.find? name).map Procedure.unmarked =
        (prog.find? name).map Procedure.unmarked) ∧
      (∀ limits actuals, prog'.execute limits actuals = prog.execute limits actuals) ∧
      ∀ limits, (Outcome.ofSource ⟨frames, limits⟩ source').shown =
        (Outcome.ofSource ⟨frames, limits⟩ source).shown := by
  obtain ⟨items, stop, rfl, hne, hprog, hd, hread, hn⟩ := items_of_compile hcompile htokens hform
  obtain ⟨us', stop', rfl, -⟩ := tokensOf_ends htokens'
  have hall : ∀ ts ∈ items.map (·.1), Declaration ts :=
    List.forall_mem_map.mpr fun i hi => (hd i hi).declaration
  rw [tokensOf, declarations_flatten hall] at hreorder ⊢
  refine ⟨hall, ?_⟩
  -- the declarations of the other text belong to the functions in some order
  rw [List.map_map] at hreorder
  obtain ⟨items', hparts, hperm⟩ := (congrFun₂ (List.eq_map_comp_perm _) _ items).mpr hreorder
  have hsame : (us' ++ [Token.atEnd stop']).map Token.content =
      (tokensOf items' ++ [Token.atEnd stop]).map Token.content := by
    have hflat := congrArg List.flatten hparts
    rw [← List.map_flatten, flatten_declarations, ← List.map_map, ← List.map_flatten] at hflat
    rw [List.map_append, hflat, List.map_append]
    rfl
  obtain ⟨prog', hcompile', hprocedures⟩ :=
    compile_items rfl hne hd hread hn hperm htokens' hsame
  have hfunctions : (prog'.procedures.map Procedure.unmarked).Perm
      (prog.procedures.map Procedure.unmarked) := by
    rw [hprocedures, hprog, List.map_map]
    exact hperm.map _
  have hnames : (prog.procedures.map (·.name)).Nodup := by rwa [hprog, List.map_map]
  have hfind := fun name => find?_unmarked_perm hfunctions hnames name
  have hexecute := execute_of_find hfind
  exact ⟨prog', hcompile', hfunctions, hfind, hexecute,
    shown_of_execute hcompile hcompile' fun limits => hexecute limits []⟩

/-- A function may come before or after the one that calls it. -/
theorem declarations_reorder_swapped : ∃ prog prog',
    Program.compile 100 ("FUNCTION NUMERIC MAIN() PRINT F(); END " ++
      "FUNCTION BOOLEAN F() RETURN TRUE; END") = .ok prog ∧
    Program.compile 100 ("FUNCTION BOOLEAN F() RETURN TRUE; END " ++
      "FUNCTION NUMERIC MAIN() PRINT F(); END") = .ok prog' ∧
    prog.procedures.map (·.name) = [some "MAIN", some "F"] ∧
    ∀ limits actuals, prog'.execute limits actuals = prog.execute limits actuals := by
  obtain ⟨prog, hprog, hnames⟩ : ∃ prog, Program.compile 100
      "FUNCTION NUMERIC MAIN() PRINT F(); END FUNCTION BOOLEAN F() RETURN TRUE; END" = .ok prog ∧
        prog.procedures.map (·.name) = [some "MAIN", some "F"] := by
    refine ok_of_toOption ?_
    decide +kernel
  obtain ⟨tokens, htokens, hform⟩ : ∃ tokens, Program.tokensOf
      "FUNCTION NUMERIC MAIN() PRINT F(); END FUNCTION BOOLEAN F() RETURN TRUE; END" = .ok tokens ∧
        tokens.head?.map Token.kind = some (.keyword .function) := by
    refine ok_of_toOption ?_
    decide +kernel
  have hswap : (Program.tokensOf
        "FUNCTION BOOLEAN F() RETURN TRUE; END FUNCTION NUMERIC MAIN() PRINT F(); END").toOption.map
          (fun ts => (declarations ts).map (List.map Token.content)) =
      (Program.tokensOf
        "FUNCTION NUMERIC MAIN() PRINT F(); END FUNCTION BOOLEAN F() RETURN TRUE; END").toOption.map
          fun ts => ((declarations ts).map (List.map Token.content)).reverse := by
    cbv
  rw [htokens] at hswap
  obtain ⟨tokens', htokens', hparts⟩ := ok_of_toOption hswap
  obtain ⟨-, prog', hprog', -, -, hexecute, -⟩ :=
    declarations_reorder hprog htokens hform htokens' (hparts ▸ List.reverse_perm _)
  exact ⟨prog, prog', hprog, hprog', hnames, hexecute⟩

end Slang
