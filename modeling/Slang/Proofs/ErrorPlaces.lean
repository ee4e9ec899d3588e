import Slang.Proofs.Forward
import Slang.Proofs.Layout
import Slang.Proofs.ParseErrors
import Slang.Proofs.Tokenization

/-!
# What an error points at

* `Token.Cuts pos text stop rest` — a text is cut into blanks and tokens up to an offset.
* `Token.Unscannable rest` — no token starts here, and no blank.
* `tokensFrom_unscannable` — a text without tokens is cut up to the first such place.
* `longest_identifier` — line breaks that become spaces do not touch an identifier.
* `Header.read_name`, `Prototype.collectFrom_about` — a repeated function is reported at its name.
* `pointing tokens` — to stop only with an error about one of the tokens is a discipline.

Principal result: `compile_error_place` — every text that does not compile has an error with an
offset inside the text: where no token can be scanned, or where a token is, and the name that it is
about if it is about one.
-/

set_option autoImplicit false

namespace Slang

variable {frames : Nat}

/-! ## Texts without tokens -/

namespace Token

/-- A text that starts at offset `pos` is cut up to the offset `stop`, where `rest` is left: a blank
is passed over, and elsewhere the longest token is cut off. -/
inductive Cuts : Nat → List Char → Nat → List Char → Prop
  | here (pos : Nat) (text : List Char) : Cuts pos text pos text
  | blank {pos stop : Nat} {c : Char} {text rest : List Char} (hc : isBlank c = true)
      (h : Cuts (pos + 1) text stop rest) : Cuts pos (c :: text) stop rest
  | token {pos stop : Nat} {w text rest : List Char} {kind : Kind} {value : Payload}
      (hw : Longest w kind value (w ++ text)) (h : Cuts (pos + w.length) text stop rest) :
      Cuts pos (w ++ text) stop rest

/-- Something is left that starts neither with a blank nor with a token. -/
def Unscannable (rest : List Char) : Prop :=
  ∃ c cs, rest = c :: cs ∧ isBlank c = false ∧
    ∀ (w : List Char) (kind : Kind) (value : Payload), w <+: rest → ¬ Spells w kind value

/-- Cutting a text does not lose characters. -/
theorem Cuts.length {pos stop : Nat} {text rest : List Char} (h : Cuts pos text stop rest) :
    stop + rest.length = pos + text.length := by
  induction h with
  | here => rfl
  | blank _ _ ih =>
    rw [ih, List.length_cons]
    omega
  | token _ _ ih =>
    rw [ih, List.length_append]
    omega

/-- **A text without tokens has an error at the first place where none can be scanned.**  The
induction is on the length of what is left. -/
theorem tokensFrom_unscannable (length : Nat) : ∀ (pos : Nat) (text : List Char) {e : CompileError},
    text.length ≤ length → (tokensFrom pos 0 text).value = .error e →
      ∃ (stop : Nat) (rest : List Char), Cuts pos text stop rest ∧ Unscannable rest ∧
        e.position = some (stop : Int) := by
  induction length with
  | zero =>
    intro pos text e hlength hvalue
    rw [List.eq_nil_of_length_eq_zero (Nat.le_zero.1 hlength)] at hvalue
    cases hvalue
  | succ length ih =>
    intro pos text e hlength hvalue
    cases text with
    | nil => cases hvalue
    | cons c rest =>
      by_cases hc : isBlank c = true
      · rw [tokensFrom, if_pos hc] at hvalue
        obtain ⟨stop, left, hcuts, hleft⟩ := ih _ _ (Nat.le_of_succ_le_succ hlength) hvalue
        exact ⟨stop, left, .blank hc hcuts, hleft⟩
      · cases hfirst : Lexeme.first c rest with
        | error cause =>
          rw [tokensFrom, if_neg hc, hfirst] at hvalue
          cases hvalue
          refine ⟨pos, c :: rest, .here pos _, ⟨c, rest, rfl, by simpa using hc, ?_⟩, rfl⟩
          intro w kind value hw hspells
          obtain ⟨l, hl, -⟩ := hspells.first hw
          rw [hfirst] at hl
          cases hl
        | ok l =>
          obtain ⟨w, -, hw⟩ := Lexeme.first_iff.1 hfirst
          obtain ⟨d, ds, hne, -⟩ := hw.spells.head
          obtain ⟨behind, hbehind⟩ := hw.starts
          have hshorter : behind.length ≤ length := by
            have := congrArg List.length hbehind
            simp only [hne, List.length_append, List.length_cons] at this hlength
            omega
          rw [← hbehind] at hw hvalue ⊢
          rw [tokensFrom_token hw] at hvalue
          obtain ⟨stop, left, hcuts, hleft⟩ := ih _ _ hshorter hvalue
          exact ⟨stop, left, .token hw hcuts, hleft⟩

theorem all_eq_error {source : List Char} {e : CompileError} :
    Token.all source = .error e ↔ (tokenize source).value = .error e := by
  unfold Token.all
  rw [Trace.collect_eq]
  cases (tokenize source).value with
  | ok done => simp
  | error e => simp

/-! ## Identifiers before and after normalising -/

theorem takeWhile_normalize (cs : List Char) :
    (Source.normalize cs).takeWhile isWordPart = cs.takeWhile isWordPart := by
  induction cs with
  | nil => rfl
  | cons c cs ih =>
    show (Source.flatten c :: Source.normalize cs).takeWhile isWordPart = _
    by_cases hbreak : c = '\r' ∨ c = '\n'
    · have hspace : Source.flatten c = ' ' := if_pos hbreak
      have hc : isWordPart c = false := by
        rcases hbreak with rfl | rfl <;> decide
      rw [hspace, List.takeWhile_cons_of_neg (by decide), List.takeWhile_cons_of_neg (by simp [hc])]
    · have hsame : Source.flatten c = c := if_neg hbreak
      rw [hsame, List.takeWhile_cons, List.takeWhile_cons, ih]

/-- An identifier is spelled as its payload says. -/
theorem Spells.identifier_value {w : List Char} {value : Payload}
    (h : Spells w .identifier value) : value = .text (String.ofList w) ∧
      ∃ c cs, w = c :: cs ∧ isLetter c = true := by
  cases h with
  | identifier hc _ _ => exact ⟨rfl, _, _, rfl, hc⟩

theorem flatten_of_letter {c : Char} (h : isLetter (Source.flatten c) = true) :
    Source.flatten c = c := by
  refine if_neg fun hbreak => ?_
  rw [show Source.flatten c = ' ' from if_pos hbreak] at h
  exact absurd h (by decide)

/-- Line breaks that become spaces do not touch an identifier. -/
theorem longest_identifier {w text : List Char} {value : Payload}
    (h : Longest w .identifier value (Source.normalize text)) :
    Longest w .identifier value text := by
  obtain ⟨rfl, c, cs, rfl, hletter⟩ := h.spells.identifier_value
  cases text with
  | nil => exact absurd h.starts (by simp [Source.normalize])
  | cons d rest =>
    have hhead : Source.flatten d :: Source.normalize rest = Source.normalize (d :: rest) := rfl
    rw [← hhead] at h
    obtain rfl : c = Source.flatten d := (List.cons_prefix_cons.1 h.starts).1
    have hsame := flatten_of_letter hletter
    have hfirst : Lexeme.first (Source.flatten d) (Source.normalize rest) = .ok ⟨.identifier,
        .text (String.ofList (Source.flatten d :: cs)), (Source.flatten d :: cs).length⟩ :=
      Lexeme.first_iff.2 ⟨_, rfl, h⟩
    have hword : word (Source.flatten d :: Source.normalize rest) = word (d :: rest) := by
      unfold word
      rw [hhead, takeWhile_normalize]
    rw [Lexeme.first, if_pos hletter, hword] at hfirst
    rw [hsame] at hletter hfirst ⊢
    have hfirst' : Lexeme.first d rest = .ok (word (d :: rest)) := if_pos hletter
    obtain ⟨v, hlength, hv⟩ := Lexeme.first_iff.1 (hfirst'.trans hfirst)
    obtain ⟨hvalue, -⟩ := hv.spells.identifier_value
    obtain rfl : d :: cs = v := String.ofList_injective (by simpa using hvalue)
    exact hv

end Token

/-! ## Places of tokens -/

/-- What can be said of the offset of a token in the source. -/
structure Token.Stands (t : Token) (source : String) (p : Nat) : Prop where
  pos : t.pos = p
  inside : p ≤ source.length
  finish : t.kind = .endOfInput → p = source.length
  name : t.kind = .identifier →
    Token.Longest t.valueText.toList .identifier (.text t.valueText) (source.toList.drop p)

theorem tokensOf_stands {source : String} {tokens : List Token} {t : Token}
    (h : Program.tokensOf source = .ok tokens) (ht : t ∈ tokens) : ∃ p, t.Stands source p := by
  obtain ⟨hreports, hlossless⟩ := Token.tokenize_lossless (mapError_eq_ok.mp h)
  have hlength : (Source.normalize source.toList).length = source.length := by
    rw [Source.normalize, List.length_map, String.length_toList]
  rw [← hreports] at ht
  obtain ⟨r, hr, rfl⟩ := List.mem_map.mp ht
  by_cases hend : r.token.kind = .endOfInput
  · obtain ⟨before, hsplit, hbefore⟩ := hlossless.ends
    rw [hsplit] at hr
    rcases List.mem_append.mp hr with hr | hr
    · exact absurd hend (hbefore r hr)
    · rw [List.mem_singleton.mp hr, hlength]
      exact ⟨source.length, rfl, Nat.le_refl _, fun _ => rfl, fun hk => by cases hk⟩
  · obtain ⟨start, value, htoken, hlt, hle, hlongest⟩ := hlossless.munched r hr hend
    refine ⟨start, ?_, ?_, fun h => absurd h hend, fun hk => ?_⟩
    · rw [htoken]
    · omega
    · rw [hk] at hlongest htoken
      rw [Source.normalize, ← List.map_drop] at hlongest
      have hname := Token.longest_identifier hlongest
      obtain ⟨rfl, -⟩ := hname.spells.identifier_value
      have htext : r.token.valueText = String.ofList
          (((source.toList.drop start).map Source.flatten).take (r.stop - start)) := by
        rw [htoken]
        rfl
      rw [htext, String.toList_ofList]
      exact hname

/-! ## Names that are announced twice -/

/-- A header is announced under the name that stands in it, behind the return type. -/
theorem Header.read_name {ts : List Token} {header : Header} (h : Header.read ts = some header) :
    ∃ name, ts[1]? = some name ∧ name.kind = .identifier ∧ header.nameAt = name.pos ∧
      header.prototype.name = some name.valueText := by
  unfold Header.read at h
  split at h
  · rename_i ty name paren rest
    split at h
    · split at h
      · rename_i hkinds
        split at h
        · split at h
          · cases h
            exact ⟨name, rfl, hkinds.1, rfl, rfl⟩
          · cases h
        · cases h
      · cases h
    · cases h
  · cases h

namespace Prototype

/-- A name that is announced twice is reported where it stands the second time. -/
theorem collectFrom_about : ∀ (tokens : List Token) (index : Nat) (seen : List Name)
    {e : CompileError}, (collectFrom index seen tokens).value = .error e →
    ∃ t ∈ tokens, e.About t
  | [], _, _, _, h => by cases h
  | u :: rest, index, seen, e, h => by
    have hlater : ∀ (i : Nat) (names : List Name), (collectFrom i names rest).value = .error e →
        ∃ t ∈ u :: rest, e.About t := by
      intro i names hrest
      obtain ⟨t, ht, habout⟩ := collectFrom_about rest i names hrest
      exact ⟨t, List.mem_cons_of_mem u ht, habout⟩
    unfold collectFrom at h
    split at h
    · split at h
      · exact hlater _ _ h
      · rename_i p nameAt hread
        split at h
        · cases h
          obtain ⟨name, hsecond, hk, hat, hname⟩ := Header.read_name hread
          have hmem := List.mem_of_getElem? hsecond
          refine ⟨name, List.mem_cons_of_mem u hmem, congrArg some hat, nofun, fun _ => ⟨hk, hname⟩⟩
        · exact hlater _ _ h
    · exact hlater _ _ h

theorem all_about {tokens : List Token} {e : CompileError} (h : Prototype.all tokens = .error e) :
    ∃ t ∈ tokens, e.About t := by
  rw [all_eq] at h
  unfold gathered at h
  cases hv : (collectFrom 0 [] tokens).value with
  | error err =>
    rw [hv] at h
    cases h
    exact collectFrom_about tokens 0 [] hv
  | ok u =>
    rw [hv] at h
    cases h

end Prototype

/-! ## Errors of the parser -/

namespace Grammar

variable {α β : Type} {s : State} {seen : Token → Prop}

/-- From tokens that have been seen, the reader goes on to tokens that have been seen, and an error
is about one of them. -/
def Points (seen : Token → Prop) (V : α → Prop) (r : Reader α) : Prop :=
  ∀ s, (∀ t ∈ s.rest, seen t) → Ends r s (fun a s' => V a ∧ ∀ t ∈ s'.rest, seen t)
    fun stop => ∀ e, stop = .error e → ∃ t, seen t ∧ e.About t

/-- Where the tokens run out there is no error. -/
theorem points_starved (e : CompileError) (h : Stop.outOfTokens = .error e) :
    ∃ t, seen t ∧ e.About t := by
  cases h

theorem Points.bind {V : α → Prop} {W : β → Prop} {r : Reader α} {f : α → Reader β}
    (h : Points seen V r) (hf : ∀ a, V a → Points seen W (f a)) : Points seen W (r >>= f) := by
  intro s hs
  rw [ends_bind]
  exact Ends.mono (h s hs) (fun a s' ⟨ha, hs'⟩ => hf a ha s' hs') fun _ he => he

/-- To look at a token is to have seen it. -/
theorem points_current : Points seen seen current := by
  intro s hs
  rw [ends_current]
  exact ⟨fun _ => points_starved, fun t rest hr => ⟨hs t (by simp [hr]), hs⟩⟩

theorem mem_rest_step {t : Token} (h : t ∈ (step s).rest) : t ∈ s.rest := by
  unfold step at h
  split at h
  · rename_i u rest hr
    split at h
    · exact h
    · rw [hr]
      exact List.mem_cons_of_mem u h
  · exact h

theorem points_advance (message : String) : Points seen (fun _ => True) (advance message) := by
  intro s hs
  rw [ends_advance]
  exact ⟨fun _ => points_starved, fun _ _ _ => ⟨trivial, fun t ht => hs t (mem_rest_step ht)⟩⟩

theorem points_report (message : String) (event : Option TreeEvent) :
    Points seen (fun _ => True) (report message event) := by
  intro s hs
  rw [ends_report]
  exact ⟨fun _ => points_starved, fun _ _ _ => ⟨trivial, hs⟩⟩

theorem points_error {V : α → Prop} {t : Token} {e : CompileError} (ht : seen t)
    (he : e.About t) : Points seen V (throw (.error e)) := by
  intro s _ e' heq
  cases heq
  exact ⟨t, ht, he⟩

/-- **To stop only with an error about a token that has been seen is a discipline.** -/
def pointing (seen : Token → Prop) : Discipline := StepDiscipline.withLoops
  { seen := seen
    holds := Points seen
    returns := fun ha _ hs => ⟨ha, hs⟩
    sequences := Points.bind
    looks := points_current
    consumes := points_advance
    reports := fun message event => points_report message (some event)
    starves := fun _ _ => points_starved
    stops := fun ht he _ => points_error ht he
    rejects := fun ht he _ => (points_report _ _).bind fun _ _ => points_error ht he
    inspects := fun _ h s => h s s
    changes := fun _ _ hs => ⟨trivial, hs⟩ }
  fun h s => h s.rest.length s

/-- An error of the parser is about one of its tokens. -/
theorem ofTokens_about {tokens : List Token} {prototypes : List Prototype} {e : CompileError}
    (h : Program.ofTokens frames tokens prototypes = .error (.error e)) :
    ∃ t ∈ tokens, e.About t := by
  have hpoints : Points (· ∈ tokens) (fun _ => True) (program (registered prototypes) frames) :=
    (pointing (· ∈ tokens)).follows_program
  rw [ofTokens_eq] at h
  rcases ho : outcome (program (registered prototypes) frames) (.start tokens) with stop | out
  · rw [ho] at h
    cases h
    exact Ends.of_error ho (hpoints (.start tokens) fun t ht => ht) e rfl
  · rw [ho] at h
    cases h

end Grammar

open Grammar

/-- Behind the tokens, every error is about one of them. -/
theorem compile_about {source : String} {tokens : List Token} {stop : Stop}
    (htokens : Program.tokensOf source = .ok tokens)
    (h : Program.compile frames source = .error stop) :
    ∃ e, stop = .error e ∧ ∃ t ∈ tokens, e.About t := by
  rw [compile_of_tokens htokens] at h
  cases hheaders : Program.prototypesOf tokens with
  | error stop' =>
    rw [hheaders] at h
    cases h
    obtain ⟨e, rfl, hall⟩ := mapError_eq_error.mp hheaders
    exact ⟨e, rfl, Prototype.all_about hall⟩
  | ok headers =>
    rw [hheaders] at h
    have h : Program.ofTokens frames tokens headers = .error stop := h
    obtain ⟨us, last, rfl, -⟩ := tokensOf_ends htokens
    have hlast : Token.atEnd last ∈ us ++ [Token.atEnd last] := by simp
    rcases ofTokens_settled headers ⟨_, hlast, rfl⟩ with ⟨prog, hprog⟩ | ⟨e, he⟩
    · rw [hprog] at h
      cases h
    · rw [he] at h
      cases h
      exact ⟨e, rfl, ofTokens_about he⟩

/-- **Every compile error points at the text that it is about.**  A text that does not compile has
an error, with an offset inside the text.  A lexical error stands at the first place where no token
can be scanned; every other one at a token, which is the end of the input only at the end of the
text.  And where the error is about a name, the source itself has the name there, as a whole
identifier. -/
theorem compile_error_place {source : String} {stop : Stop}
    (h : Program.compile frames source = .error stop) :
    ∃ (e : CompileError) (p : Nat), stop = .error e ∧ e.position = some (p : Int) ∧
      p ≤ source.length ∧
      (e.kind = .lexical → ∃ rest, Token.Cuts 0 (Source.normalize source.toList) p rest ∧
        Token.Unscannable rest) ∧
      (e.kind ≠ .lexical → ∃ tokens t, Program.tokensOf source = .ok tokens ∧ t ∈ tokens ∧
        t.pos = p ∧ (t.kind = .endOfInput → p = source.length)) ∧
      (e.kind = .undeclared ∨ e.kind = .duplicate → ∃ name, e.symbol = some name ∧
        Token.Longest name.toList .identifier (.text name) (source.toList.drop p)) := by
  cases htokens : Program.tokensOf source with
  | error stop' =>
    rw [compile_untokenized htokens] at h
    cases h
    obtain ⟨e, rfl, hall⟩ := mapError_eq_error.mp htokens
    have hkind := Token.all_error hall
    obtain ⟨p, rest, hcuts, hrest, hposition⟩ := Token.tokensFrom_unscannable _ 0 _ (Nat.le_refl _)
      (Token.all_eq_error.mp hall)
    have hlength := hcuts.length
    rw [Source.normalize, List.length_map, String.length_toList] at hlength
    exact ⟨e, p, rfl, hposition, by omega, fun _ => ⟨rest, hcuts, hrest⟩,
      fun hne => absurd hkind hne, by simp [hkind]⟩
  | ok tokens =>
    obtain ⟨e, rfl, t, ht, habout⟩ := compile_about htokens h
    obtain ⟨p, hstands⟩ := tokensOf_stands htokens ht
    refine ⟨e, p, rfl, by rw [habout.position, hstands.pos], hstands.inside,
      fun hk => absurd hk habout.kind, fun _ => ⟨tokens, t, rfl, ht, hstands.pos, hstands.finish⟩,
      fun hname => ?_⟩
    obtain ⟨hk, hsymbol⟩ := habout.symbol hname
    exact ⟨t.valueText, hsymbol, hstands.name hk⟩

/-- Behind a line break and between parentheses, which the tree does not keep, an undeclared name is
found where it stands. -/
theorem compile_error_place_parentheses :
    let source := "NUMERIC a;\nPRINT (a) + (ab);"
    ∃ e, Program.compile 100 source = .error (.error e) ∧ e.position = some 24 ∧
      e.symbol = some "ab" ∧
      Token.Longest "ab".toList .identifier (.text "ab") (source.toList.drop 24) := by
  intro source
  have heval : (fun _ => ()) <$> Program.compile 100 source =
      .error (.error ⟨.undefinedSymbol "ab", some 24⟩) := by decide +kernel
  cases hcompile : Program.compile 100 source with
  | ok program =>
    rw [hcompile] at heval
    cases heval
  | error stop =>
    rw [hcompile] at heval
    cases heval
    obtain ⟨e, p, he, hp, -, -, -, hname⟩ := compile_error_place hcompile
    cases he
    cases hp
    obtain ⟨name, hsome, hlongest⟩ := hname (.inl rfl)
    cases hsome
    exact ⟨_, rfl, rfl, rfl, hlongest⟩

end Slang
