import Slang.Proofs.ErrorPlaces

/-!
# Where texts are joined and cut

What the scanner looks at behind a token never reaches over a blank, and what it has reported before
an error does not depend on the error.

* `Fronts rest pos front reports` — in front of `rest`, the characters `front` are cut into tokens
  with these reports.
* `Fronts.run` — the stream of a whole text reports its front and goes on behind it.
* `Fronts.alone` — the front is cut in the same way when nothing is behind it.
* `Fronts.before_blank` — and it is cut in the same way when a blank is behind it.
* `tokensFrom_shift` — a text that starts later has the same tokens later, and the same error later.
* `Flaw rest cause` — what is wrong at a place where no token starts.

Principal results: `all_across_blanks` — the tokens of two texts with blanks between them are the
tokens of both; `tokenize_error_iff` — a text has an error exactly at the first flaw, and what is
reported before it are the tokens of the text up to there.
-/

set_option autoImplicit false

namespace Slang

/-! ## Shifting -/

/-- The same token, `n` characters later. -/
def Token.shift (n : Nat) (t : Token) : Token := { t with pos := t.pos + n }

/-- The same report, `n` characters later. -/
def TokenReport.shift (n : Nat) (r : TokenReport) : TokenReport := ⟨r.token.shift n, r.stop + n⟩

/-- The same error, `n` characters later. -/
def CompileError.shift (n : Nat) (e : CompileError) : CompileError :=
  { e with position := e.position.map (· + n) }

@[simp] theorem TokenReport.shift_token (n : Nat) (r : TokenReport) :
    (r.shift n).token = r.token.shift n := rfl

namespace Token

variable {pos : Nat} {front rest text : List Char} {reports : List TokenReport}

/-- **A text that starts later has the same tokens later, and the same error later.** -/
theorem tokensFrom_shift (n : Nat) : ∀ (text : List Char) (pos skip : Nat),
    (tokensFrom (pos + n) skip text).reports =
        (tokensFrom pos skip text).reports.map (TokenReport.shift n) ∧
      (tokensFrom (pos + n) skip text).value =
        (tokensFrom pos skip text).value.mapError (CompileError.shift n) := by
  intro text
  induction text with
  | nil =>
    intro pos skip
    simp [tokensFrom, Trace.reports, Trace.value, atEnd, TokenReport.shift, Token.shift,
      Except.mapError]
  | cons c rest ih =>
    intro pos skip
    have hpos : pos + n + 1 = pos + 1 + n := by omega
    cases skip with
    | succ skip =>
      simp only [tokensFrom, hpos]
      exact ih (pos + 1) skip
    | zero =>
      simp only [tokensFrom, hpos]
      split
      · exact ih (pos + 1) 0
      · cases Lexeme.first c rest with
        | error cause => simp [Trace.reports, Trace.value, Except.mapError, CompileError.shift]
        | ok l =>
          obtain ⟨hreports, hvalue⟩ := ih (pos + 1) (l.size - 1)
          have hstop : pos + n + l.size = pos + l.size + n := by omega
          simp [Trace.reports, Trace.value, hreports, hvalue, hstop, TokenReport.shift,
            Token.shift, Lexeme.toToken]

/-! ## The front of a text -/

theorem offset_cons (pos : Nat) (c : Char) (cs : List Char) :
    pos + (c :: cs).length = pos + 1 + cs.length := by
  rw [List.length_cons]
  omega

theorem offset_append (pos : Nat) (w cs : List Char) :
    pos + (w ++ cs).length = pos + w.length + cs.length := by
  rw [List.length_append]
  omega

/-- How the characters in front of `rest` are cut into tokens: a blank is passed over, and elsewhere
the longest token of the whole text is cut off. -/
inductive Fronts (rest : List Char) : Nat → List Char → List TokenReport → Prop
  | nil (pos : Nat) : Fronts rest pos [] []
  | blank {pos : Nat} {c : Char} {front : List Char} {reports : List TokenReport}
      (hc : isBlank c = true) (h : Fronts rest (pos + 1) front reports) :
      Fronts rest pos (c :: front) reports
  | token {pos : Nat} {w front : List Char} {kind : Kind} {value : Payload}
      {reports : List TokenReport} (hw : Longest w kind value (w ++ (front ++ rest)))
      (h : Fronts rest (pos + w.length) front reports) :
      Fronts rest pos (w ++ front) (⟨⟨kind, some value, pos⟩, pos + w.length⟩ :: reports)

/-- The stream of a whole text reports its front and goes on behind it. -/
theorem Fronts.run (h : Fronts rest pos front reports) :
    (tokensFrom pos 0 (front ++ rest)).reports =
        reports ++ (tokensFrom (pos + front.length) 0 rest).reports ∧
      (tokensFrom pos 0 (front ++ rest)).value =
        (tokensFrom (pos + front.length) 0 rest).value := by
  induction h with
  | nil pos => exact ⟨rfl, rfl⟩
  | blank hc h ih =>
    rw [List.cons_append, tokensFrom, if_pos hc, offset_cons]
    exact ih
  | token hw h ih =>
    rw [List.append_assoc, tokensFrom_token hw, offset_append]
    exact ⟨congrArg (List.cons _) ih.1, ih.2⟩

/-- A text whose tokens end well is a front of nothing. -/
theorem Tiles.fronts (h : Tiles pos text reports) :
    ∃ own, reports = own ++ [⟨atEnd ((pos + text.length : Nat) : Int), pos + text.length⟩] ∧
      Fronts [] pos text own := by
  induction h with
  | finish pos => exact ⟨[], rfl, .nil pos⟩
  | blank hc h ih =>
    obtain ⟨own, hreports, hfronts⟩ := ih
    rw [← offset_cons] at hreports
    exact ⟨own, hreports, .blank hc hfronts⟩
  | token hw h ih =>
    obtain ⟨own, hreports, hfronts⟩ := ih
    rw [← offset_append] at hreports
    refine ⟨_ :: own, congrArg (List.cons _) hreports, .token ?_ hfronts⟩
    rw [List.append_nil]
    exact hw

/-- A text that is cut up to an offset is a front of what is left. -/
theorem Cuts.fronts {stop : Nat} (h : Cuts pos text stop rest) :
    ∃ front reports, text = front ++ rest ∧ stop = pos + front.length ∧
      Fronts rest pos front reports := by
  induction h with
  | here pos text => exact ⟨[], [], rfl, rfl, .nil pos⟩
  | blank hc h ih =>
    rename_i c text rest
    obtain ⟨front, reports, rfl, rfl, hfronts⟩ := ih
    exact ⟨c :: front, reports, rfl, (offset_cons ..).symm, .blank hc hfronts⟩
  | token hw h ih =>
    rename_i w text rest kind value
    obtain ⟨front, reports, rfl, rfl, hfronts⟩ := ih
    exact ⟨w ++ front, _, (List.append_assoc ..).symm, (offset_append ..).symm, .token hw hfronts⟩

/-! ### Nothing behind it -/

/-- A token that is the longest one stays the longest one when the text is cut off behind it. -/
theorem Longest.alone {w : List Char} {kind : Kind} {value : Payload}
    (h : Longest w kind value (w ++ (front ++ rest))) : Longest w kind value (w ++ front) := by
  refine ⟨List.prefix_append w front, h.spells, ?_⟩
  intro v k p hv hspells
  apply h.longest _ hspells
  rw [← List.append_assoc]
  exact hv.trans (List.prefix_append _ rest)

theorem Fronts.alone (h : Fronts rest pos front reports) : Fronts [] pos front reports := by
  induction h with
  | nil pos => exact .nil pos
  | blank hc h ih => exact .blank hc ih
  | token hw h ih =>
    refine .token ?_ ih
    rw [List.append_nil]
    exact hw.alone

/-- The tokens of a front by itself are its reports and the end of the input. -/
theorem Fronts.tokenize (h : Fronts rest 0 front reports) :
    (tokenize front).value = .ok () ∧
      (tokenize front).reports = reports ++ [⟨atEnd front.length, front.length⟩] := by
  obtain ⟨hreports, hvalue⟩ := h.alone.run
  rw [List.append_nil, Nat.zero_add] at hreports hvalue
  exact ⟨hvalue, hreports⟩

/-! ### A blank behind it -/

theorem not_blank_of_wordPart {c : Char} (h : isWordPart c = true) : isBlank c = false := by
  apply Bool.eq_false_iff.2
  intro hblank
  rcases isBlank_eq hblank with rfl | rfl <;> revert h <;> decide

theorem not_blank_of_numeral {c : Char} (h : c ∈ Number.numeralChars) : isBlank c = false := by
  have hall : ∀ c ∈ Number.numeralChars, isBlank c = false :=
    List.all_iff_forall_prop.1 (by decide)
  exact hall c h

theorem not_blank_of_symbol (s : Symbol) : ∀ c ∈ s.spelling.toList, isBlank c = false := by
  cases s <;> exact List.all_iff_forall_prop.1 (by decide)

/-- A token with a blank in it is a string literal. -/
theorem Spells.quoted_of_blank {w : List Char} {k : Kind} {p : Payload} {c : Char}
    (h : Spells w k p) (hmem : c ∈ w) (hc : isBlank c = true) :
    ∃ body, w = '"' :: body ++ ['"'] ∧ '"' ∉ body := by
  cases h with
  | keyword k =>
    obtain ⟨d, ds, hspelling, -, hparts⟩ := Keyword.spelling_word k
    rw [hspelling] at hmem
    rw [not_blank_of_wordPart (hparts c hmem)] at hc
    cases hc
  | identifier hletter hparts =>
    have hpart : isWordPart c = true := by
      rcases List.mem_cons.1 hmem with rfl | hmem
      · exact isWordPart_of_letter hletter
      · exact hparts c hmem
    rw [not_blank_of_wordPart hpart] at hc
    cases hc
  | number hne hwhole hpart =>
    rw [not_blank_of_numeral (Number.mem_numeralChars hwhole hpart c hmem)] at hc
    cases hc
  | string hbody => exact ⟨_, rfl, hbody⟩
  | symbol s =>
    rw [not_blank_of_symbol s c hmem] at hc
    cases hc

/-- A token that starts with a quote is a string literal. -/
theorem Spells.quoted {w cs : List Char} {k : Kind} {p : Payload} (h : Spells w k p)
    (hw : w = '"' :: cs) : ∃ body, cs = body ++ ['"'] ∧ '"' ∉ body := by
  cases h with
  | keyword k =>
    obtain ⟨d, ds, hspelling, hletter, -⟩ := Keyword.spelling_word k
    rw [hspelling] at hw
    cases hw
    exact absurd hletter (by decide)
  | identifier hletter =>
    cases hw
    exact absurd hletter (by decide)
  | number hne hwhole =>
    obtain ⟨d, ds, hnumeral, hdigit⟩ := Number.numeral_eq_cons _ hne hwhole
    rw [hnumeral] at hw
    cases hw
    exact absurd hdigit (by decide)
  | string hbody =>
    cases hw
    exact ⟨_, rfl, hbody⟩
  | symbol s =>
    obtain ⟨d, ds, hspelling, -, -, -, hquote⟩ := Symbol.spelling_special s
    rw [hspelling] at hw
    cases hw
    exact absurd rfl hquote

/-- A token that is the longest one stays the longest one when a blank and anything else is put
behind the text: only a string literal could reach over the blank, and of two string literals at one
place neither is longer. -/
theorem Longest.before_blank {w : List Char} {kind : Kind} {value : Payload} {c : Char}
    (h : Longest w kind value (w ++ front)) (hc : isBlank c = true) (rest : List Char) :
    Longest w kind value (w ++ (front ++ c :: rest)) := by
  refine ⟨List.prefix_append w _, h.spells, ?_⟩
  intro v k p hv hspells
  rw [← List.append_assoc] at hv
  by_cases hlength : v.length ≤ (w ++ front).length
  · exact h.longest (List.prefix_of_prefix_length_le hv (List.prefix_append _ _) hlength) hspells
  · -- Otherwise the blank is a character of `v`.
    exfalso
    obtain ⟨cs, rfl⟩ : w ++ front ++ [c] <+: v := by
      apply List.prefix_of_prefix_length_le _ hv
      · rw [List.length_append, List.length_singleton]
        omega
      · have hcons : w ++ front ++ c :: rest = w ++ front ++ [c] ++ rest := by simp
        rw [hcons]
        exact List.prefix_append _ rest
    obtain ⟨body, hbody, hfree⟩ := hspells.quoted_of_blank (c := c) (by simp) hc
    obtain ⟨d, ds, rfl, -⟩ := h.spells.head
    simp only [List.cons_append, List.append_assoc, List.cons.injEq] at hbody
    obtain ⟨rfl, hbody⟩ := hbody
    obtain ⟨inner, rfl, -⟩ := h.spells.quoted rfl
    -- The closing quote of `w` stands inside the body of `v`.
    have hinner : inner ++ ['"'] <+: body := by
      have hstart : inner ++ ['"'] <+: body ++ ['"'] := ⟨front ++ c :: cs, hbody⟩
      have hlonger := congrArg List.length hbody
      simp only [List.length_append, List.length_cons, List.length_nil] at hlonger
      apply List.prefix_of_prefix_length_le hstart (List.prefix_append _ _)
      simp only [List.length_append, List.length_cons, List.length_nil]
      omega
    exact hfree (hinner.subset (by simp))

/-- **No scanner looks over a blank.** A text is cut in the same way when a blank and anything else
is put behind it. -/
theorem Fronts.before_blank {c : Char} (h : Fronts [] pos front reports) (hc : isBlank c = true)
    (rest : List Char) : Fronts (c :: rest) pos front reports := by
  induction h with
  | nil pos => exact .nil pos
  | blank hb h ih => exact .blank hb ih
  | token hw h ih =>
    rw [List.append_nil] at hw
    exact .token (hw.before_blank hc rest) ih

/-- Blanks in front of a text are passed over. -/
theorem tokensFrom_blanks {blanks : List Char} (h : ∀ c ∈ blanks, isBlank c = true) (pos : Nat)
    (rest : List Char) :
    tokensFrom pos 0 (blanks ++ rest) = tokensFrom (pos + blanks.length) 0 rest := by
  induction blanks generalizing pos with
  | nil => rfl
  | cons c blanks ih =>
    rw [List.forall_mem_cons] at h
    rw [List.cons_append, tokensFrom, if_pos h.1, ih h.2, offset_cons]

/-! ## Joining two texts -/

/-- The stream of two texts with blanks between them. -/
theorem tokenize_across_blanks {blanks : List Char} (behind : List Char)
    (hfront : Fronts [] 0 front reports) (hne : blanks ≠ [])
    (hblanks : ∀ c ∈ blanks, isBlank c = true) :
    (tokenize (front ++ blanks ++ behind)).reports = reports ++
        (tokenize behind).reports.map (TokenReport.shift (front.length + blanks.length)) ∧
      (tokenize (front ++ blanks ++ behind)).value =
        (tokenize behind).value.mapError
          (CompileError.shift (front.length + blanks.length)) := by
  have hseam : Fronts (blanks ++ behind) 0 front reports := by
    cases blanks with
    | nil => exact absurd rfl hne
    | cons c blanks => exact hfront.before_blank (hblanks c (by simp)) _
  obtain ⟨hreports, hvalue⟩ := hseam.run
  obtain ⟨hshifted, hshiftedValue⟩ := tokensFrom_shift (front.length + blanks.length) behind 0 0
  rw [tokensFrom_blanks hblanks, Nat.zero_add] at hreports hvalue
  rw [Nat.zero_add] at hshifted hshiftedValue
  rw [hshifted] at hreports
  rw [hshiftedValue] at hvalue
  rw [List.append_assoc]
  exact ⟨hreports, hvalue⟩

/-- **Tokens compose over blanks.** Let a text have tokens, and put at least one blank and any other
text behind it. The whole has tokens exactly if the other text has some, and they are the tokens of
the first one up to its end, followed by those of the other one with their offsets moved by what is
in front of it; and it has an error exactly if the other text has one, which is the same error, with
its offset moved in the same way. -/
theorem all_across_blanks {blanks : List Char} {tokens : List Token} (behind : List Char)
    (hfront : Token.all front = .ok tokens) (hne : blanks ≠ [])
    (hblanks : ∀ c ∈ blanks, isBlank c = true) :
    ∃ own, tokens = own ++ [atEnd front.length] ∧
      (∀ whole, Token.all (front ++ blanks ++ behind) = .ok whole ↔
        ∃ more, Token.all behind = .ok more ∧
          whole = own ++ more.map (Token.shift (front.length + blanks.length))) ∧
      (∀ e, Token.all (front ++ blanks ++ behind) = .error e ↔
        ∃ e', Token.all behind = .error e' ∧
          e = e'.shift (front.length + blanks.length)) := by
  obtain ⟨hvalue, rfl⟩ := all_eq_ok.1 hfront
  obtain ⟨own, hown, hfronts⟩ := (tokenize_iff.1 ⟨hvalue, rfl⟩).fronts
  obtain ⟨hreports, hwhole⟩ := tokenize_across_blanks behind hfronts hne hblanks
  rw [Nat.zero_add] at hown
  refine ⟨own.map (·.token), by simp [hown], ?_, ?_⟩
  · intro whole
    simp only [all_eq_ok, hreports, hwhole]
    cases (tokenize behind).value with
    | error e => simp [Except.mapError]
    | ok done => simp [Except.mapError, Function.comp_def, eq_comm]
  · intro e
    simp only [all_eq_error, hwhole]
    cases (tokenize behind).value with
    | error e' => simp [Except.mapError, eq_comm]
    | ok done => simp [Except.mapError]

/-- Behind a number that a point would continue and in front of an unknown operator: the tokens of
both texts, and the error of the other one, four characters later. -/
theorem all_across_blanks_seam :
    (∃ own, Token.all "x=1".toList = .ok (own ++ [atEnd 3]) ∧
      ∃ more, Token.all "5;".toList = .ok more ∧
        Token.all "x=1\t5;".toList = .ok (own ++ more.map (Token.shift 4))) ∧
    Token.all "x=1 .5".toList = .error ⟨.unexpectedCharacter '.', some 4⟩ := by
  obtain ⟨tokens, htokens, -⟩ : ∃ tokens, Token.all "x=1".toList = .ok tokens ∧
      tokens.map (·.kind) = [.identifier, .symbol .assign, .number, .endOfInput] := by
    apply ok_of_toOption
    decide +kernel
  obtain ⟨more, hmore, -⟩ : ∃ more, Token.all "5;".toList = .ok more ∧
      more.map (·.kind) = [.number, .symbol .semicolon, .endOfInput] := by
    apply ok_of_toOption
    decide +kernel
  have hpoint : Token.all ".5".toList = .error ⟨.unexpectedCharacter '.', some 0⟩ := by rfl
  have htab : ∀ c ∈ ['\t'], isBlank c = true := List.forall_mem_singleton.2 rfl
  have hspace : ∀ c ∈ [' '], isBlank c = true := List.forall_mem_singleton.2 rfl
  obtain ⟨own, rfl, hwhole, -⟩ := all_across_blanks "5;".toList htokens (by simp) htab
  obtain ⟨-, -, -, herror⟩ := all_across_blanks ".5".toList htokens (by simp) hspace
  exact ⟨⟨own, htokens, more, hmore, (hwhole _).2 ⟨more, hmore, rfl⟩⟩,
    (herror _).2 ⟨_, hpoint, rfl⟩⟩

/-! ## Flaws -/

/-- What is wrong where neither a blank nor a token starts: a character that starts nothing, a quote
without a second one, or half of an operator. -/
inductive Flaw : List Char → CompileError.Cause → Prop
  | stray {c : Char} {cs : List Char} (hblank : isBlank c = false) (hletter : isLetter c = false)
      (hdigit : Number.isDigit c = false) (hquote : c ≠ '"') (hspecial : isSpecial c = false) :
      Flaw (c :: cs) (.unexpectedCharacter c)
  | unterminated {cs : List Char} (h : '"' ∉ cs) : Flaw ('"' :: cs) .unterminatedString
  | half {c : Char} {cs : List Char} (hc : c = '&' ∨ c = '|') (h : cs.head? ≠ some c) :
      Flaw (c :: cs) (.unknownOperator c)

theorem stringBody_eq_error {cs : List Char} {cause : CompileError.Cause} :
    stringBody cs = .error cause ↔ '"' ∉ cs ∧ cause = .unterminatedString := by
  by_cases hquote : '"' ∈ cs
  · obtain ⟨body, behind, rfl, hbody⟩ := List.eq_append_cons_of_mem hquote
    rw [stringBody_of_body hbody]
    simp
  · have hall : cs.takeWhile (· ≠ '"') = cs := by
      apply List.takeWhile_eq_self_iff.2
      intro d hd
      simpa using fun h : d = '"' => hquote (h ▸ hd)
    unfold stringBody
    rw [hall]
    simp [hquote, eq_comm]

/-- A special character is a symbol by itself, or half of one. -/
theorem single_or_half {c : Char} (hc : isSpecial c = true) :
    (∃ s : Symbol, s.spelling.toList = [c]) ∨
      (c = '&' ∨ c = '|') ∧ ∃ s : Symbol, s.spelling.toList = [c, c] := by
  have hall : ∀ c ∈ "+-*/();,=<>!&|".toList,
      (Symbol.all.any (·.spelling.toList == [c]) ||
        (c == '&' || c == '|') && Symbol.all.any (·.spelling.toList == [c, c])) = true :=
    List.all_iff_forall_prop.1 (by decide)
  have hfound := hall c (by simpa [isSpecial] using hc)
  simp only [Bool.or_eq_true, Bool.and_eq_true, List.any_eq_true, beq_iff_eq] at hfound
  rcases hfound with ⟨s, -, hs⟩ | ⟨hhalf, s, -, hs⟩
  · exact .inl ⟨s, hs⟩
  · exact .inr ⟨hhalf, s, hs⟩

/-- A symbol that starts with half of one is that half twice. -/
theorem spelling_of_half (s : Symbol) {c : Char} {cs : List Char} (hc : c = '&' ∨ c = '|')
    (hs : s.spelling.toList = c :: cs) : cs = [c] := by
  have hall : ∀ s ∈ Symbol.all, (s.spelling.toList.head? = some '&' → s = .and) ∧
      (s.spelling.toList.head? = some '|' → s = .or) := List.all_iff_forall_prop.1 (by decide)
  obtain ⟨hand, hor⟩ := hall s (Symbol.mem_all s)
  rcases hc with rfl | rfl
  · obtain rfl := hand (by rw [hs]; rfl)
    exact (List.cons.inj hs).2.symm
  · obtain rfl := hor (by rw [hs]; rfl)
    exact (List.cons.inj hs).2.symm

/-- No symbol starts with a special character exactly if it is half of one and the other half does
not follow. -/
theorem symbol?_eq_none {c : Char} {cs : List Char} (hc : isSpecial c = true) :
    symbol? (c :: cs) = none ↔ (c = '&' ∨ c = '|') ∧ cs.head? ≠ some c := by
  constructor
  · intro hnone
    have hno : ∀ s : Symbol, ¬ s.spelling.toList <+: c :: cs := by
      intro s hs
      obtain ⟨t, ht⟩ := symbol?_of_prefix hs
      rw [hnone] at ht
      cases ht
    rcases single_or_half hc with ⟨s, hs⟩ | ⟨hhalf, s, hs⟩
    · exact absurd ⟨cs, by rw [hs]; rfl⟩ (hno s)
    · refine ⟨hhalf, ?_⟩
      intro hhead
      obtain ⟨ds, rfl⟩ := List.head?_eq_some_iff.1 hhead
      exact hno s ⟨ds, by rw [hs]; rfl⟩
  · intro h
    obtain ⟨hhalf, hhead⟩ := h
    cases hfound : symbol? (c :: cs) with
    | none => rfl
    | some s =>
      obtain ⟨d, ds, hspelling, -⟩ := Symbol.spelling_special s
      have hstart := (symbol?_spec hfound).1
      rw [hspelling, List.cons_prefix_cons] at hstart
      obtain ⟨rfl, hstart⟩ := hstart
      rw [spelling_of_half s hhalf hspelling] at hstart
      obtain ⟨es, rfl⟩ := hstart
      exact absurd rfl hhead

/-- The scanner finds no token exactly where there is a flaw. -/
theorem Lexeme.first_eq_error {c : Char} {cs : List Char} {cause : CompileError.Cause}
    (hblank : isBlank c = false) :
    Lexeme.first c cs = .error cause ↔ Flaw (c :: cs) cause := by
  constructor
  · intro h
    unfold Lexeme.first at h
    split at h
    · cases h
    · rename_i hletter
      split at h
      · cases h
      · rename_i hdigit
        split at h
        · rename_i hquote
          subst hquote
          obtain ⟨hfree, rfl⟩ := stringBody_eq_error.1 h
          exact .unterminated hfree
        · rename_i hquote
          split at h
          · rename_i hspecial
            split at h
            · cases h
            · rename_i hnone
              cases h
              obtain ⟨hc, hhead⟩ := (symbol?_eq_none hspecial).1 hnone
              exact .half hc hhead
          · rename_i hspecial
            cases h
            exact .stray hblank (by simpa using hletter) (by simpa using hdigit) hquote
              (by simpa using hspecial)
  · intro h
    cases h with
    | stray _ hletter hdigit hquote hspecial =>
      simp [Lexeme.first, hletter, hdigit, hquote, hspecial]
    | unterminated hfree => exact stringBody_eq_error.2 ⟨hfree, rfl⟩
    | half hc hhead =>
      have hspecial : isSpecial c = true := by
        rcases hc with rfl | rfl <;> decide
      have hnone := (symbol?_eq_none hspecial).2 ⟨hc, hhead⟩
      rcases hc with rfl | rfl <;> simp [Lexeme.first, isLetter, Number.isDigit, hspecial, hnone]

theorem Flaw.head {rest : List Char} {cause : CompileError.Cause} (h : Flaw rest cause) :
    ∃ c cs, rest = c :: cs ∧ isBlank c = false := by
  cases h with
  | stray hblank => exact ⟨_, _, rfl, hblank⟩
  | unterminated => exact ⟨_, _, rfl, by decide⟩
  | half hc =>
    refine ⟨_, _, rfl, ?_⟩
    rcases hc with rfl | rfl <;> decide

/-- At a flaw the stream stops and has nothing to report. -/
theorem tokensFrom_flaw {cause : CompileError.Cause} (h : Flaw rest cause) (pos : Nat) :
    tokensFrom pos 0 rest = .done (.error ⟨cause, some pos⟩) := by
  obtain ⟨c, cs, rfl, hblank⟩ := h.head
  have hfirst := (Lexeme.first_eq_error hblank).2 h
  simp [tokensFrom, hblank, hfirst]

/-- Where no token can be scanned there is a flaw. -/
theorem Unscannable.flaw (h : Unscannable rest) : ∃ cause, Flaw rest cause := by
  obtain ⟨c, cs, rfl, hblank, hnone⟩ := h
  cases hfirst : Lexeme.first c cs with
  | error cause => exact ⟨cause, (Lexeme.first_eq_error hblank).1 hfirst⟩
  | ok l =>
    obtain ⟨w, -, hw⟩ := Lexeme.first_iff.1 hfirst
    exact absurd hw.spells (hnone w _ _ hw.starts)

/-- A text is cut up to a flaw: the stream reports what is in front of it, and the error there. -/
theorem Cuts.tokenize {p : Nat} {cause : CompileError.Cause} (h : Cuts 0 text p rest)
    (hflaw : Flaw rest cause) :
    rest = text.drop p ∧ (tokenize text).value = .error ⟨cause, some p⟩ ∧
      (tokenize (text.take p)).value = .ok () ∧
      (tokenize (text.take p)).reports = (tokenize text).reports ++ [⟨atEnd p, p⟩] := by
  obtain ⟨front, reports, rfl, hstop, hfronts⟩ := h.fronts
  obtain ⟨hreports, hvalue⟩ := hfronts.run
  obtain ⟨halone, haloneReports⟩ := hfronts.tokenize
  rw [Nat.zero_add] at hstop hreports hvalue
  subst hstop
  rw [tokensFrom_flaw hflaw] at hreports hvalue
  have hempty : (tokenize (front ++ rest)).reports = reports := by
    rw [Token.tokenize, hreports]
    exact List.append_nil reports
  rw [List.take_left, List.drop_left, hempty]
  exact ⟨rfl, hvalue, halone, haloneReports⟩

/-- **Lexical errors are exact and keep what is in front of them.** A text has an error at an offset
exactly if the rule of the longest token cuts it up to there, and there is a flaw; the error says
which. No other errors occur, and what is reported before one are the tokens of the text up to its
offset, without their end of the input. -/
theorem tokenize_error_iff (text : List Char) :
    (∀ (cause : CompileError.Cause) (p : Nat),
      (tokenize text).value = .error ⟨cause, some (p : Int)⟩ ↔
        Cuts 0 text p (text.drop p) ∧ Flaw (text.drop p) cause) ∧
    ∀ e, (tokenize text).value = .error e → ∃ p : Nat,
      e.position = some (p : Int) ∧ e.kind = .lexical ∧ p < text.length ∧
      (tokenize (text.take p)).value = .ok () ∧
      (tokenize (text.take p)).reports = (tokenize text).reports ++ [⟨atEnd p, p⟩] := by
  have hcut : ∀ e, (tokenize text).value = .error e → ∃ (p : Nat) (cause : CompileError.Cause),
      e = ⟨cause, some (p : Int)⟩ ∧ Cuts 0 text p (text.drop p) ∧ Flaw (text.drop p) cause := by
    intro e he
    obtain ⟨p, rest, hcuts, hrest, -⟩ := tokensFrom_unscannable _ 0 text (Nat.le_refl _) he
    obtain ⟨cause, hflaw⟩ := hrest.flaw
    obtain ⟨rfl, hvalue, -⟩ := hcuts.tokenize hflaw
    rw [he] at hvalue
    cases hvalue
    exact ⟨p, cause, rfl, hcuts, hflaw⟩
  constructor
  · intro cause p
    constructor
    · intro he
      obtain ⟨q, cause', heq, hcuts, hflaw⟩ := hcut _ he
      simp only [CompileError.mk.injEq, Option.some.injEq, Nat.cast_inj] at heq
      obtain ⟨rfl, rfl⟩ := heq
      exact ⟨hcuts, hflaw⟩
    · intro h
      exact (h.1.tokenize h.2).2.1
  · intro e he
    obtain ⟨p, cause, rfl, hcuts, hflaw⟩ := hcut e he
    obtain ⟨-, -, halone, hreports⟩ := hcuts.tokenize hflaw
    have hkind := Token.all_error (all_eq_error.2 he)
    refine ⟨p, rfl, hkind, ?_, halone, hreports⟩
    obtain ⟨c, cs, hrest, -⟩ := hflaw.head
    have hlength := hcuts.length
    rw [hrest, List.length_cons] at hlength
    omega

/-- A point that no digit follows is not part of the number before it, whether the text goes on or
is cut off there. -/
theorem tokenize_error_iff_point :
    (tokenize "x=1.;".toList).value = .error ⟨.unexpectedCharacter '.', some 3⟩ ∧
      Cuts 0 "x=1.;".toList 3 ".;".toList ∧ Flaw ".;".toList (.unexpectedCharacter '.') ∧
      (tokenize "x=1".toList).reports =
        (tokenize "x=1.;".toList).reports ++ [⟨atEnd 3, 3⟩] := by
  have hvalue : (tokenize "x=1.;".toList).value =
      .error ⟨.unexpectedCharacter '.', some ((3 : Nat) : Int)⟩ := by rfl
  obtain ⟨hiff, hbefore⟩ := tokenize_error_iff "x=1.;".toList
  obtain ⟨hcuts, hflaw⟩ := (hiff _ 3).1 hvalue
  obtain ⟨p, hposition, -, -, -, hreports⟩ := hbefore _ hvalue
  cases hposition
  exact ⟨hvalue, hcuts, hflaw, hreports⟩

end Token

end Slang
