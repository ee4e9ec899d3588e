import Slang.Proofs.Forward
import Slang.Proofs.ParseErrors

/-!
# What counts as a header

Two readers look at the header of a function: the pass that registers signatures before anything is
parsed, and the parser itself. The pass forgives a comma behind the last formal and the parser does
not; on everything else they agree.

* `Header.Begins trailing tokens header` — the tokens begin with a header, in which `trailing`
  stands between the last formal and the closing parenthesis.
* `Header.Dangles` — a comma stands there.
* `formals_spelled`, `formals_dangling` — what the loop over the formals has passed, and that it
  passes a comma behind the last one.
* `functionHead` — the part of the parser that reads a header.
* `reads_functionHead`, `accepts_functionHead`, `functionHead_dangling` — it reads headers, all of
  them, and stops behind a comma that no formal follows.

Principal result: `header_recognition` — the signature that each header announces, and where the two
readers part.
-/

set_option autoImplicit false

namespace Slang

open Grammar

variable {frames : Nat}

namespace Header

/-- The tokens begin with the header of a function, in which `trailing` stands between the last
formal and the closing parenthesis. Nothing stands there if there is no formal. -/
inductive Begins (trailing : List Token) : List Token → Header → Prop
  | header {t ty name opening closing : Token} {T : Ty} {formals : List (List Token × Binding)}
      {ts rest : List Token} (h : Opening t ty name opening T)
      (hs : Separated (formals.map (·.1)) ts) (hf : ∀ f ∈ formals, FormalDerives f.1 f.2)
      (hne : formals = [] → trailing = []) (hc : closing.kind = .symbol .rightParen) :
      Begins trailing (t :: ty :: name :: opening :: (ts ++ (trailing ++ closing :: rest)))
        ⟨⟨some name.valueText, some T, formals.map (·.2.ty)⟩, name.pos⟩

/-- A header with a comma behind its last formal. -/
def Dangles (tokens : List Token) (header : Header) : Prop :=
  ∃ comma : Token, comma.kind = .symbol .comma ∧ Begins [comma] tokens header

/-! ## The pass over the headers -/

/-- What the loop over the formals has passed: formals between commas, and perhaps a comma more. -/
theorem formals_spelled (ts : List Token) : ∀ {tys : List Ty} {left : List Token},
    formals ts = some (tys, left) →
    ∃ (items : List (List Token × Binding)) (us trailing : List Token),
      Separated (items.map (·.1)) us ∧ (∀ f ∈ items, FormalDerives f.1 f.2) ∧
      items.map (·.2.ty) = tys.map some ∧ ts = us ++ (trailing ++ left) ∧
      (trailing = [] ∨ items ≠ [] ∧ ∃ comma, comma.kind = .symbol .comma ∧ trailing = [comma]) := by
  induction ts using formals.induct with
  | case1 t rest hty =>
    intro tys left h
    simp only [formals, hty, Option.some.injEq, Prod.mk.injEq] at h
    obtain ⟨rfl, rfl⟩ := h
    exact ⟨[], [], [], .nil, by simp, rfl, rfl, .inl rfl⟩
  | case2 t ty hty name hname comma rest hcomma ih =>
    intro tys left h
    have hformal : FormalDerives [t, name] (.declared name.valueText ty) := .typed hty hname
    simp only [formals, hty, hname, hcomma, if_true, Option.map_eq_some_iff] at h
    obtain ⟨⟨tys', left'⟩, hrest, heq⟩ := h
    cases heq
    obtain ⟨items, us, trailing, hs, hf, htys, rfl, htrailing⟩ := ih hrest
    cases items with
    | nil =>
      -- No formal behind the comma: it is the one that trails.
      cases hs
      obtain rfl : trailing = [] := by simpa using htrailing
      refine ⟨[([t, name], .declared name.valueText ty)], [t, name], [comma], .one _, ?_, ?_, rfl,
        .inr ⟨by simp, comma, hcomma, rfl⟩⟩
      · simpa using hformal
      · simpa [Binding.declared] using htys
    | cons f items =>
      refine ⟨([t, name], .declared name.valueText ty) :: f :: items, [t, name] ++ comma :: us,
        trailing, .more hcomma (by simp) hs, ?_, ?_, by simp, ?_⟩
      · exact List.forall_mem_cons.2 ⟨hformal, hf⟩
      · simpa [Binding.declared] using htys
      · rcases htrailing with rfl | ⟨-, hcomma'⟩
        · exact .inl rfl
        · exact .inr ⟨by simp, hcomma'⟩
  | case3 t ty hty name hname comma rest hcomma =>
    intro tys left h
    simp only [formals, hty, hname, hcomma, if_true, if_false, Option.some.injEq,
      Prod.mk.injEq] at h
    obtain ⟨rfl, rfl⟩ := h
    exact ⟨[([t, name], .declared name.valueText ty)], [t, name], [], .one _,
      by simpa using FormalDerives.typed hty hname, rfl, rfl, .inl rfl⟩
  | case4 t ty hty name hname =>
    intro tys left h
    simp only [formals, hty, hname, if_true, Option.some.injEq, Prod.mk.injEq] at h
    obtain ⟨rfl, rfl⟩ := h
    exact ⟨[([t, name], .declared name.valueText ty)], [t, name], [], .one _,
      by simpa using FormalDerives.typed hty hname, rfl, rfl, .inl rfl⟩
  | case5 t ty hty name rest hname => simp [formals, hty, hname]
  | case6 t ty hty => simp [formals, hty]
  | case7 =>
    intro tys left h
    simp only [formals, Option.some.injEq, Prod.mk.injEq] at h
    obtain ⟨rfl, rfl⟩ := h
    exact ⟨[], [], [], .nil, by simp, rfl, rfl, .inl rfl⟩

/-- The loop passes a comma behind the last formal. -/
theorem formals_dangling {comma closing : Token} (hcomma : comma.kind = .symbol .comma)
    (hc : closing.kind = .symbol .rightParen) (more : List Token) :
    ∀ (items : List (List Token × Binding)) {ts : List Token}, items ≠ [] →
      Separated (items.map (·.1)) ts → (∀ i ∈ items, FormalDerives i.1 i.2) →
      ∃ tys : List Ty, formals (ts ++ comma :: closing :: more) = some (tys, closing :: more) ∧
        tys.map some = items.map (·.2.ty)
  | [], _, hne, _, _ => absurd rfl hne
  | (fts, b) :: items, ts, _, hs, hf => by
    have hfirst : FormalDerives fts b := hf (fts, b) (by simp)
    cases hfirst with | @typed ty name T hT hn =>
    rw [List.map_cons] at hs
    generalize hparts : items.map (·.1) = parts at hs
    cases hs with
    | one =>
      obtain rfl : items = [] := List.map_eq_nil_iff.mp hparts
      have hclosing : formals (closing :: more) = some ([], closing :: more) := by
        simp [formals, hc, Token.Kind.ty?]
      exact ⟨[T], by simp [formals, hT, hn, hcomma, hclosing], rfl⟩
    | @more part parts between us hbetween hp hs =>
      have hitems : items ≠ [] := fun h => hp (by rw [← hparts, h, List.map_nil])
      obtain ⟨tys, htys, hmap⟩ := formals_dangling hcomma hc more items hitems (hparts ▸ hs)
        fun i hi => hf i (List.mem_cons_of_mem _ hi)
      refine ⟨T :: tys, ?_, by simp [hmap, Binding.declared]⟩
      simp [formals, hT, hn, hbetween, htys]

/-- **What the pass takes for a header.** Behind the word FUNCTION it reads headers, also those with
a comma behind the last formal, and the signature is the one that they announce. -/
theorem read_iff {t : Token} {ts : List Token} {header : Header}
    (ht : t.kind = .keyword .function) :
    read ts = some header ↔ Begins [] (t :: ts) header ∨ Dangles (t :: ts) header := by
  constructor
  · intro h
    unfold read at h
    split at h
    · rename_i ty name opening rest
      split at h
      · rename_i T hT
        split at h
        · rename_i hkinds
          split at h
          · rename_i tys closing more hformals
            split at h
            · rename_i hc
              cases h
              obtain ⟨items, us, trailing, hs, hf, htys, rfl, htrailing⟩ :=
                formals_spelled rest hformals
              have hopening : Opening t ty name opening T := ⟨ht, hT, hkinds.1, hkinds.2⟩
              rw [← htys]
              rcases htrailing with rfl | ⟨hne, comma, hcomma, rfl⟩
              · exact .inl (.header hopening hs hf (fun _ => rfl) hc)
              · exact .inr ⟨comma, hcomma, .header hopening hs hf (fun h => absurd h hne) hc⟩
            · cases h
          · cases h
        · cases h
      · cases h
    · cases h
  · intro h
    rcases h with h | ⟨comma, hcomma, h⟩
    · cases h with
      | header hopening hs hf _ hc =>
        exact read_header hopening.type hopening.name hopening.paren hs hf hc _
    · cases h with
      | @header _ _ _ _ closing _ formals _ rest hopening hs hf hne hc =>
        have hformals : formals ≠ [] := fun hnil => absurd (hne hnil) (by simp)
        obtain ⟨tys, htys, hmap⟩ := formals_dangling hcomma hc rest formals hformals hs hf
        simp only [List.singleton_append]
        simp only [read, hopening.type, hopening.name, hopening.paren, and_self, if_true, htys, hc,
          hmap]

end Header

/-! ## The parser -/

namespace Grammar

variable {α β : Type} {s : State}

/-- The part of the parser that reads the header of a function. -/
def functionHead : Reader (Token × Token × Nat × List Binding) := do
  let (t, name, id) ← functionOpening
  let params ← parameters
  let _ ← expectSymbol .rightParen
  return (t, name, id, params)

/-- A function is its header and what is behind it. -/
theorem function_eq_head (known : Signatures) (frames : Nat) :
    function known frames = functionHead >>= fun (t, name, id, params) =>
      functionBody known frames t name id params := by
  rw [function_eq]
  simp only [functionHead, functionEnd, bind_assoc, pure_bind]

/-- What is read as a header is one. -/
theorem reads_functionHead : Reads functionHead s fun ts _ s' =>
    ∃ header, Header.Begins [] (ts ++ s'.rest) header := by
  unfold functionHead
  refine Reads.bind reads_functionOpening ?_
  rintro _ _ s₁ _ ⟨t, ty, name, opening, T, id, rfl, rfl, hopening⟩
  refine Reads.bind reads_parameters ?_
  rintro ts _ s₂ _ ⟨formals, hs, hf, rfl⟩
  refine Reads.bind Reads.expectSymbol ?_
  rintro _ closing s₃ _ ⟨rfl, hc, _⟩
  have hbegins := @Header.Begins.header [] t ty name opening closing T formals ts s₃.rest hopening
    hs hf (fun _ => rfl) hc
  exact Reads.pure ⟨_, by simpa using hbegins⟩

/-- Every header is read. -/
theorem accepts_functionHead {header : Header} (h : Header.Begins [] s.rest header) :
    ∃ out, outcome functionHead s = .ok out := by
  generalize hr : s.rest = tokens at h
  cases h with
  | @header t ty name opening closing T formals ts rest hopening hs hf _ hc =>
  have haccepts : Accepts functionHead s ([t, ty, name, opening] ++ (ts ++ [closing]))
      (fun _ _ => True) False := by
    unfold functionHead
    refine (accepts_functionOpening hopening hr).bind (ts ++ [closing]) ?_
    rintro _ s₁ hm₁ ⟨id, rfl⟩
    have hr₁ : s₁.rest = ts ++ closing :: rest := hm₁.ahead hr
    refine (accepts_parameters hs hf hc hr₁).bind [closing] ?_
    rintro _ s₂ hm₂ rfl
    refine (Accepts.expectSymbol (hm₂.ahead hr₁) hc).bind_nil ?_
    intro _ s₃ _ _
    exact Accepts.pure trivial
  rcases haccepts.outcome with ⟨out, s', ho, -⟩ | ⟨_, _, _, hfalse⟩
  · exact ⟨(out, s'), ho⟩
  · exact hfalse.elim

/-! ### A comma that no formal follows -/

/-- What stops the parser where it wants a type and finds another token. -/
def typeWanted (t : Token) : Stop :=
  .error ⟨.expected [.keyword .numeric, .keyword .string, .keyword .boolean] t.lexeme, t.pos⟩

/-- Behind something that is accepted, the parser stops where it goes on to. -/
theorem stops_behind {r : Reader α} {f : α → Reader β} {ts : List Token} {P : α → State → Prop}
    {stop : Stop} (h : Accepts r s ts P False)
    (hf : ∀ a s', Moved s ts s' → P a s' → outcome (f a) s' = .error stop) :
    outcome (r >>= f) s = .error stop := by
  rcases h.outcome with ⟨a, s', ho, hm, hp⟩ | ⟨_, _, _, hfalse⟩
  · rw [outcome_bind_ok ho]
    exact hf a s' hm hp
  · exact hfalse.elim

theorem formal_wants_type {t : Token} {rest : List Token} (hr : s.rest = t :: rest)
    (ht : t.kind.ty? = none) : outcome formal s = .error (typeWanted t) := by
  have hkinds : t.kind ∉
      [Token.Kind.keyword .numeric, .keyword .string, .keyword .boolean] := by
    intro hmem
    have hsome := ty?_of_mem hmem
    rw [ht] at hsome
    cases hsome
  have hends : Ends (expect [.keyword .numeric, .keyword .string, .keyword .boolean]) s
      (fun _ _ => False) (fun stop => stop = typeWanted t) := by
    rw [ends_expect]
    refine ⟨fun hnil => by simp [hr] at hnil, ?_⟩
    intro u us hu
    obtain ⟨rfl, rfl⟩ : t = u ∧ rest = us := by simpa [hr] using hu
    exact ⟨fun hmem => hkinds hmem, fun _ => rfl⟩
  have hexpect : outcome (expect [.keyword .numeric, .keyword .string, .keyword .boolean]) s =
      .error (typeWanted t) := by
    cases ho : outcome (expect [.keyword .numeric, .keyword .string, .keyword .boolean]) s with
    | ok out => exact absurd (Ends.of_ok ho hends) not_false
    | error stop => rw [Ends.of_error ho hends]
  exact outcome_bind_error (outcome_bind_error hexpect)

/-- The formals are read one by one up to the comma behind the last of them, and then one more is
wanted. The induction is on the formals. -/
theorem separated_dangling {comma closing : Token} {rest : List Token}
    (hcomma : comma.kind = .symbol .comma) (hc : closing.kind = .symbol .rightParen) :
    ∀ (items : List (List Token × Binding)) (ts : List Token) (n : Nat) (before : List Binding)
      (s : State), items ≠ [] → Separated (items.map (·.1)) ts →
      (∀ i ∈ items, FormalDerives i.1 i.2) → s.rest = ts ++ comma :: closing :: rest →
      items.length < n → outcome (separated formal n before) s = .error (typeWanted closing)
  | [], _, _, _, _, hne, _, _, _, _ => absurd rfl hne
  | i :: items, ts, 0, _, _, _, _, _, _, hn => absurd hn (by simp)
  | i :: items, ts, n + 1, before, s, _, hs, hf, hr, hn => by
    have hlater : items.length < n := by simpa using hn
    rw [List.map_cons] at hs
    generalize hparts : items.map (·.1) = parts at hs
    unfold separated
    cases hs with
    | one =>
      obtain rfl : items = [] := List.map_eq_nil_iff.mp hparts
      refine stops_behind (accepts_formal (hf i (by simp)) hr) ?_
      rintro b s₁ hm₁ ⟨rfl, _⟩
      have hr₁ : s₁.rest = comma :: closing :: rest := hm₁.ahead hr
      refine stops_behind (Accepts.acceptSymbol_true hr₁ hcomma) ?_
      rintro found s₂ hm₂ ⟨rfl, _⟩
      have hr₂ : s₂.rest = closing :: rest := hm₂.ahead hr₁
      obtain ⟨m, rfl⟩ : ∃ m, n = m + 1 := ⟨n - 1, by simp at hlater; omega⟩
      exact outcome_bind_error (formal_wants_type hr₂ (by rw [hc]; rfl))
    | @more part parts between us hbetween hp hs =>
      have hr' : s.rest = i.1 ++ (between :: (us ++ comma :: closing :: rest)) := by
        rw [hr, List.append_assoc, List.cons_append]
      refine stops_behind (accepts_formal (hf i (by simp)) hr') ?_
      rintro b s₁ hm₁ ⟨rfl, _⟩
      have hr₁ := hm₁.ahead hr'
      refine stops_behind (Accepts.acceptSymbol_true hr₁ hbetween) ?_
      rintro found s₂ hm₂ ⟨rfl, _⟩
      have hitems : items ≠ [] := fun h => hp (by rw [← hparts, h, List.map_nil])
      exact separated_dangling hcomma hc items us n (_ :: before) s₂ hitems (hparts ▸ hs)
        (fun j hj => hf j (List.mem_cons_of_mem _ hj)) (hm₂.ahead hr₁) hlater

/-- Behind a comma that no formal follows the parser stops, at the closing parenthesis. -/
theorem functionHead_dangling {header : Header} (h : Header.Dangles s.rest header) :
    ∃ closing ∈ s.rest, closing.kind = .symbol .rightParen ∧
      outcome functionHead s = .error (typeWanted closing) := by
  obtain ⟨comma, hcomma, h⟩ := h
  generalize hr : s.rest = tokens at h
  cases h with
  | @header t ty name opening closing T formals ts rest hopening hs hf hne hc =>
  refine ⟨closing, by simp, hc, ?_⟩
  unfold functionHead
  refine stops_behind (accepts_functionOpening hopening hr) ?_
  rintro _ s₁ hm₁ ⟨id, rfl⟩
  have hr₁ : s₁.rest = ts ++ comma :: closing :: rest := hm₁.ahead hr
  cases formals with
  | nil => exact absurd (hne rfl) (by simp)
  | cons f fs =>
    obtain ⟨u, us, hu, hparen⟩ := (hf f (by simp)).head
    have hhead := hs
    rw [List.map_cons, hu] at hhead
    obtain ⟨vs, hv⟩ := hhead.head
    have hcurrent : s₁.rest = u :: (vs ++ comma :: closing :: rest) := by
      rw [hr₁, hv, List.cons_append]
    have hlength : (f :: fs).length < s₁.rest.length := by
      have := hs.length_le
      rw [hr₁]
      simp only [List.length_map, List.length_cons, List.length_append] at this ⊢
      omega
    apply outcome_bind_error
    unfold parameters
    refine stops_behind (Accepts.current hcurrent) ?_
    rintro _ _ _ ⟨rfl, rfl⟩
    rw [if_neg hparen]
    refine stops_behind Accepts.remaining ?_
    rintro _ _ _ ⟨rfl, rfl⟩
    exact separated_dangling hcomma hc (f :: fs) ts _ [] _ (by simp) hs hf hr₁ hlength

end Grammar

/-! ## Both together -/

/-- **Headers are recognised up to a comma.** Take any token FUNCTION of a token list. The pass over
the headers finds a signature there exactly if the tokens from there on begin with a header, where a
comma behind the last formal is forgiven, and it is the signature that the header announces. The
parser, which reads a function by reading its header first, gets past the closing parenthesis
exactly if they begin with a header without such a comma; and where there is one it stops at the
closing parenthesis, because a type is wanted there. -/
theorem header_recognition {tokens : List Token} {i : Nat} {t : Token}
    (ht : tokens[i]? = some t) (hk : t.kind = .keyword .function) :
    (∀ header, Header.read (tokens.drop (i + 1)) = some header ↔
      Header.Begins [] (tokens.drop i) header ∨ Header.Dangles (tokens.drop i) header) ∧
    (∀ known frames, function known frames = functionHead >>= fun (t, name, id, params) =>
      functionBody known frames t name id params) ∧
    ∀ s : State, s.rest = tokens.drop i →
      ((∃ out, outcome functionHead s = .ok out) ↔
        ∃ header, Header.Begins [] (tokens.drop i) header) ∧
      ∀ header, Header.Dangles (tokens.drop i) header →
        ∃ closing ∈ tokens, closing.kind = .symbol .rightParen ∧
          outcome functionHead s = .error (typeWanted closing) := by
  obtain ⟨hi, rfl⟩ := List.getElem?_eq_some_iff.1 ht
  refine ⟨?_, function_eq_head, ?_⟩
  · intro header
    rw [List.drop_eq_getElem_cons hi]
    exact Header.read_iff hk
  · intro s hs
    rw [← hs]
    refine ⟨⟨?_, ?_⟩, ?_⟩
    · intro h
      obtain ⟨out, ho⟩ := h
      obtain ⟨ts, hm, hbegins⟩ := Ends.of_ok ho reads_functionHead
      rw [hm.rest]
      exact hbegins
    · intro h
      obtain ⟨header, hbegins⟩ := h
      exact accepts_functionHead hbegins
    · intro header hdangles
      obtain ⟨closing, hmem, hc, ho⟩ := functionHead_dangling hdangles
      rw [hs] at hmem
      exact ⟨closing, List.mem_of_mem_drop hmem, hc, ho⟩

/-- Of two functions the first has a header, and the second one with a comma too many: the parser
reads the former, and the signature of the latter is found all the same. -/
theorem header_recognition_second :
    ∃ tokens, Token.all "FUNCTION BOOLEAN g(STRING a) END FUNCTION NUMERIC f(NUMERIC a,) END".toList
        = .ok tokens ∧
      (∃ header, Header.Begins [] (tokens.drop 0) header) ∧
      Header.Dangles (tokens.drop 8) ⟨⟨some "f", some .numeric, [some .numeric]⟩, 50⟩ := by
  obtain ⟨tokens, htokens, heval⟩ : ∃ tokens, Token.all
      "FUNCTION BOOLEAN g(STRING a) END FUNCTION NUMERIC f(NUMERIC a,) END".toList = .ok tokens ∧
      ((tokens.map (·.kind))[0]?, (tokens.map (·.kind))[8]?,
        (outcome functionHead (.start (tokens.drop 0))).toOption.isSome,
        (outcome functionHead (.start (tokens.drop 8))).toOption.isSome,
        Header.read (tokens.drop 9)) =
      (some (.keyword .function), some (.keyword .function), true, false,
        some ⟨⟨some "f", some .numeric, [some .numeric]⟩, 50⟩) := by
    apply ok_of_toOption
    decide +kernel
  simp only [Prod.mk.injEq, List.getElem?_map, Option.map_eq_some_iff] at heval
  obtain ⟨⟨t, ht, hk⟩, ⟨u, hu, hk'⟩, hfirst, hsecond, hread⟩ := heval
  refine ⟨tokens, htokens, ?_, ?_⟩
  · obtain ⟨out, hout⟩ := Option.isSome_iff_exists.1 hfirst
    obtain ⟨-, -, hparser⟩ := header_recognition ht hk
    apply (hparser (.start (tokens.drop 0)) rfl).1.1
    cases ho : outcome functionHead (.start (tokens.drop 0)) with
    | ok out => exact ⟨out, rfl⟩
    | error stop =>
      rw [ho] at hout
      cases hout
  · obtain ⟨hpass, -, hparser⟩ := header_recognition hu hk'
    rcases (hpass _).1 hread with hbegins | hdangles
    · obtain ⟨out, ho⟩ := (hparser (.start (tokens.drop 8)) rfl).1.2 ⟨_, hbegins⟩
      rw [ho] at hsecond
      cases hsecond
    · exact hdangles

/-- A comma behind the last formal: the pass registers a function whose header the parser does not
accept. -/
theorem header_comma :
    ∃ tokens, Token.all "FUNCTION NUMERIC f(NUMERIC a,) RETURN 1; END".toList = .ok tokens ∧
      (tokens.map (·.kind))[0]? = some (.keyword .function) ∧
      Header.read (tokens.drop 1) = some ⟨⟨some "f", some .numeric, [some .numeric]⟩, 17⟩ ∧
      (∀ header, ¬ Header.Begins [] (tokens.drop 0) header) ∧
      ∀ out, outcome functionHead (.start tokens) ≠ .ok out := by
  obtain ⟨tokens, htokens, heval⟩ : ∃ tokens, Token.all
      "FUNCTION NUMERIC f(NUMERIC a,) RETURN 1; END".toList = .ok tokens ∧
      ((tokens.map (·.kind))[0]?, (outcome functionHead (.start tokens)).toOption.isSome,
        Header.read (tokens.drop 1)) =
      (some (.keyword .function), false,
        some ⟨⟨some "f", some .numeric, [some .numeric]⟩, 17⟩) := by
    apply ok_of_toOption
    decide +kernel
  simp only [Prod.mk.injEq] at heval
  obtain ⟨hkind, hparser, hread⟩ := heval
  have hstops : ∀ out, outcome functionHead (.start tokens) ≠ .ok out := by
    intro out ho
    rw [ho] at hparser
    cases hparser
  refine ⟨tokens, htokens, hkind, hread, ?_, hstops⟩
  intro header hbegins
  obtain ⟨out, ho⟩ := accepts_functionHead (s := .start tokens) hbegins
  exact hstops out ho

end Slang
