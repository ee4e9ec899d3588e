import Slang.Proofs.Acceptance
import Slang.Proofs.Spelling

/-!
# A text and its tokens

The tokens of a text lie side by side with nothing but blanks between them, and each is the longest
one that starts at its place.

* `Tiles pos text reports` — the rule by which a text that starts at offset `pos` is cut: a blank
  is passed over, and elsewhere the longest token is cut off.
* `tokensFrom_drop`, `tokensFrom_token` — what one step of the stream does.
* `tokenize_iff` — the stream succeeds with some reports exactly if the rule cuts the text so.
* `Tiles.ends`, `Tiles.ordered`, `Tiles.munched`, `Tiles.blank_outside`, `Tiles.recovered` — what
  the rule says about the offsets, by induction on the cuts.
* `Lossless source reports` — all of this together.

Principal result: `tokenize_lossless` — the reports of a text that has tokens lose nothing of it.
-/

set_option autoImplicit false

namespace Slang

/-- The characters of a text that a report is about. -/
def TokenReport.spelled (r : TokenReport) (source : List Char) : List Char :=
  (source.drop r.token.pos.toNat).take (r.stop - r.token.pos.toNat)

namespace Token

/-- How a text that starts at offset `pos` is cut into tokens. -/
inductive Tiles : Nat → List Char → List TokenReport → Prop
  | finish (pos : Nat) : Tiles pos [] [⟨atEnd pos, pos⟩]
  | blank {pos : Nat} {c : Char} {text : List Char} {reports : List TokenReport}
      (hc : isBlank c = true) (h : Tiles (pos + 1) text reports) : Tiles pos (c :: text) reports
  | token {pos : Nat} {w text : List Char} {kind : Kind} {value : Payload}
      {reports : List TokenReport} (hw : Longest w kind value (w ++ text))
      (h : Tiles (pos + w.length) text reports) :
      Tiles pos (w ++ text) (⟨⟨kind, some value, pos⟩, pos + w.length⟩ :: reports)

variable {pos : Nat} {source text : List Char} {reports : List TokenReport} {r : TokenReport}

/-! ## The stream of tokens -/

theorem isBlank_eq {c : Char} (h : isBlank c = true) : c = ' ' ∨ c = '\t' := by
  simpa [isBlank] using h

/-- No token starts with a blank, so that at each place one rule applies at most. -/
theorem Spells.head {w : List Char} {k : Kind} {p : Payload} (h : Spells w k p) :
    ∃ c cs, w = c :: cs ∧ isBlank c = false := by
  have hclass : ∀ c : Char, isLetter c = true ∨ Number.isDigit c = true ∨ isSpecial c = true →
      isBlank c = false := by
    intro c hc
    apply Bool.eq_false_iff.2
    intro hblank
    rcases isBlank_eq hblank with rfl | rfl <;> revert hc <;> decide
  cases h with
  | keyword k =>
    obtain ⟨c, cs, hspelling, hc, -⟩ := Keyword.spelling_word k
    exact ⟨c, cs, hspelling, hclass c (.inl hc)⟩
  | identifier hc => exact ⟨_, _, rfl, hclass _ (.inl hc)⟩
  | number hne hwhole =>
    obtain ⟨d, ds, hnumeral, hd⟩ := Number.numeral_eq_cons _ hne hwhole
    exact ⟨d, ds, hnumeral, hclass d (.inr (.inl hd))⟩
  | string => exact ⟨_, _, rfl, by decide⟩
  | symbol s =>
    obtain ⟨c, cs, hspelling, hc, -⟩ := Symbol.spelling_special s
    exact ⟨c, cs, hspelling, hclass c (.inr (.inr hc))⟩

/-- Passing over characters. -/
theorem tokensFrom_drop (pos skip : Nat) (text : List Char) (h : skip ≤ text.length) :
    tokensFrom pos skip text = tokensFrom (pos + skip) 0 (text.drop skip) := by
  induction skip generalizing pos text with
  | zero => rfl
  | succ skip ih =>
    cases text with
    | nil => simp at h
    | cons c text =>
      rw [tokensFrom, ih _ _ (Nat.le_of_succ_le_succ h), List.drop_succ_cons]
      congr 1
      omega

/-- A token at the start of a text is reported, and the stream goes on behind it. -/
theorem tokensFrom_token {w : List Char} {kind : Kind} {value : Payload}
    (hw : Longest w kind value (w ++ text)) :
    tokensFrom pos 0 (w ++ text) =
      .emit ⟨⟨kind, some value, pos⟩, pos + w.length⟩ fun _ =>
        tokensFrom (pos + w.length) 0 text := by
  obtain ⟨c, cs, rfl, hc⟩ := hw.spells.head
  have hfirst : Lexeme.first c (cs ++ text) = .ok ⟨kind, value, (c :: cs).length⟩ :=
    Lexeme.first_iff.2 ⟨c :: cs, rfl, hw⟩
  have hdrop := tokensFrom_drop (pos + 1) cs.length (cs ++ text) (by simp)
  have hpos : pos + 1 + cs.length = pos + (cs.length + 1) := by omega
  rw [List.drop_left, hpos] at hdrop
  simp only [List.cons_append, tokensFrom, hc, hfirst, Bool.false_eq_true, if_false,
    Lexeme.toToken, List.length_cons, Nat.add_sub_cancel, hdrop]

/-- A stream that ends well has cut its text. The induction is on the length of what is left. -/
theorem tiles_of_tokensFrom (length : Nat) : ∀ (pos : Nat) (text : List Char),
    text.length ≤ length → (tokensFrom pos 0 text).value = .ok () →
      Tiles pos text (tokensFrom pos 0 text).reports := by
  induction length with
  | zero =>
    intro pos text hlength _
    rw [List.eq_nil_of_length_eq_zero (Nat.le_zero.1 hlength)]
    exact .finish pos
  | succ length ih =>
    intro pos text hlength hvalue
    cases text with
    | nil => exact .finish pos
    | cons c rest =>
      by_cases hc : isBlank c = true
      · rw [tokensFrom, if_pos hc] at hvalue ⊢
        exact .blank hc (ih _ _ (Nat.le_of_succ_le_succ hlength) hvalue)
      · cases hfirst : Lexeme.first c rest with
        | error cause =>
          rw [tokensFrom, if_neg hc, hfirst] at hvalue
          cases hvalue
        | ok l =>
          obtain ⟨w, -, hw⟩ := Lexeme.first_iff.1 hfirst
          obtain ⟨d, ds, hne, -⟩ := hw.spells.head
          obtain ⟨behind, hbehind⟩ := hw.starts
          have hshorter : behind.length ≤ length := by
            have := congrArg List.length hbehind
            simp only [hne, List.length_append, List.length_cons] at this hlength
            omega
          rw [← hbehind] at hw hvalue ⊢
          rw [tokensFrom_token hw] at hvalue ⊢
          exact .token hw (ih _ _ hshorter hvalue)

theorem tokensFrom_of_tiles (h : Tiles pos text reports) :
    (tokensFrom pos 0 text).value = .ok () ∧ (tokensFrom pos 0 text).reports = reports := by
  induction h with
  | finish pos => exact ⟨rfl, rfl⟩
  | blank hc h ih =>
    rw [tokensFrom, if_pos hc]
    exact ih
  | token hw h ih =>
    rw [tokensFrom_token hw]
    exact ⟨ih.1, congrArg _ ih.2⟩

/-- **The stream and the rule.** The tokens of a text end well with some reports exactly if the
text is cut into them. -/
theorem tokenize_iff :
    ((tokenize text).value = .ok () ∧ (tokenize text).reports = reports) ↔
      Tiles 0 text reports := by
  constructor
  · intro h
    obtain ⟨hvalue, rfl⟩ := h
    exact tiles_of_tokensFrom text.length 0 text (Nat.le_refl _) hvalue
  · intro h
    exact tokensFrom_of_tiles h

/-! ## Offsets -/

theorem Longest.kind {w : List Char} {kind : Kind} {value : Payload}
    (h : Longest w kind value text) : kind ≠ .endOfInput := by
  cases h.spells <;> simp

theorem Tiles.ends (h : Tiles pos text reports) :
    ∃ tokens, reports = tokens ++ [⟨atEnd ((pos + text.length : Nat) : Int), pos + text.length⟩] ∧
      ∀ r ∈ tokens, r.token.kind ≠ .endOfInput := by
  induction h with
  | finish pos => exact ⟨[], rfl, by simp⟩
  | blank hc h ih =>
    rename_i pos c text reports
    obtain ⟨tokens, hreports, htokens⟩ := ih
    have hstop : pos + 1 + text.length = pos + (c :: text).length := by
      rw [List.length_cons]
      omega
    rw [hstop] at hreports
    exact ⟨tokens, hreports, htokens⟩
  | token hw h ih =>
    rename_i pos w text kind value reports
    obtain ⟨tokens, hreports, htokens⟩ := ih
    have hstop : pos + w.length + text.length = pos + (w ++ text).length := by
      rw [List.length_append]
      omega
    rw [hstop] at hreports
    refine ⟨_ :: tokens, congrArg (List.cons _) hreports, ?_⟩
    exact List.forall_mem_cons.2 ⟨hw.kind, htokens⟩

/-- Nothing is reported before the offset at which the text starts. -/
theorem Tiles.pos_le (h : Tiles pos text reports) : ∀ r ∈ reports, (pos : Int) ≤ r.token.pos := by
  induction h with
  | finish pos => simp [atEnd]
  | blank hc h ih =>
    intro r hr
    have := ih r hr
    omega
  | token hw h ih =>
    intro r hr
    rcases List.mem_cons.1 hr with rfl | hr
    · exact Int.le_refl _
    · have := ih r hr
      omega

theorem Tiles.ordered (h : Tiles pos text reports) :
    reports.Pairwise fun a b => (a.stop : Int) ≤ b.token.pos := by
  induction h with
  | finish pos => exact List.pairwise_singleton _ _
  | blank hc h ih => exact ih
  | token hw h ih => exact List.pairwise_cons.2 ⟨h.pos_le, ih⟩

/-- Each report but the last is about the longest token at its offset. -/
theorem Tiles.munched (h : Tiles pos text reports) :
    ∀ before : List Char, before.length = pos → ∀ r ∈ reports, r.token.kind ≠ .endOfInput →
      ∃ (start : Nat) (value : Payload), r.token = ⟨r.token.kind, some value, start⟩ ∧
        start < r.stop ∧ r.stop ≤ (before ++ text).length ∧
          Longest (((before ++ text).drop start).take (r.stop - start)) r.token.kind value
            ((before ++ text).drop start) := by
  induction h with
  | finish pos =>
    intro before _ r hr hkind
    rw [List.mem_singleton.1 hr] at hkind
    exact absurd rfl hkind
  | blank hc h ih =>
    rename_i pos c text reports
    intro before hbefore
    have htext := ih (before ++ [c]) (by simp [hbefore])
    rw [List.append_assoc, List.singleton_append] at htext
    exact htext
  | token hw h ih =>
    rename_i pos w text kind value reports
    intro before hbefore r hr hkind
    rcases List.mem_cons.1 hr with rfl | hr
    · obtain ⟨c, cs, hne, -⟩ := hw.spells.head
      have hpositive : 0 < w.length := by simp [hne]
      refine ⟨pos, value, rfl, Nat.lt_add_of_pos_right hpositive, ?_, ?_⟩
      · simp only [List.length_append]
        omega
      · rw [← hbefore, List.drop_left, Nat.add_sub_cancel_left, List.take_left]
        exact hw
    · have htext := ih (before ++ w) (by simp [hbefore])
      rw [List.append_assoc] at htext
      exact htext r hr hkind

/-- What no report is about is blank. -/
theorem Tiles.blank_outside (h : Tiles pos text reports) :
    ∀ (i : Nat) (c : Char), text[i]? = some c →
      (∀ r ∈ reports, ¬ (r.token.pos ≤ (pos + i : Nat) ∧ pos + i < r.stop)) →
        isBlank c = true := by
  induction h with
  | finish pos =>
    intro i c hc
    simp at hc
  | blank hblank h ih =>
    rename_i pos b text reports
    intro i c hc houtside
    cases i with
    | zero =>
      rw [List.getElem?_cons_zero] at hc
      exact Option.some.inj hc ▸ hblank
    | succ i =>
      apply ih i c (by simpa using hc)
      have hpos : pos + (i + 1) = pos + 1 + i := by omega
      rw [hpos] at houtside
      exact houtside
  | token hw h ih =>
    rename_i pos w text kind value reports
    intro i c hc houtside
    rw [List.forall_mem_cons] at houtside
    obtain ⟨hnot, houtside⟩ := houtside
    have hbehind : w.length ≤ i := by
      dsimp only at hnot
      omega
    apply ih (i - w.length) c
    · rw [List.getElem?_append_right hbehind] at hc
      exact hc
    · have hpos : pos + w.length + (i - w.length) = pos + i := by omega
      rw [hpos]
      exact houtside

/-- The blanks before each report and the characters that it is about are, in turn, the text. -/
theorem Tiles.recovered (h : Tiles pos text reports) :
    ∀ before : List Char, before.length = pos →
      ∃ gaps : List (List Char), gaps.length = reports.length ∧
        (∀ gap ∈ gaps, ∀ c ∈ gap, isBlank c = true) ∧
          text = (List.zipWith (fun gap r => gap ++ r.spelled (before ++ text)) gaps
            reports).flatten := by
  induction h with
  | finish pos =>
    intro before _
    exact ⟨[[]], rfl, by simp, by simp [TokenReport.spelled, atEnd]⟩
  | blank hc h ih =>
    rename_i pos c text reports
    intro before hbefore
    obtain ⟨gaps, hlength, hgaps, htext⟩ := ih (before ++ [c]) (by simp [hbefore])
    obtain ⟨tokens, hreports, -⟩ := h.ends
    cases gaps with
    | nil => simp [hreports] at hlength
    | cons gap gaps =>
      cases reports with
      | nil => simp at hlength
      | cons r reports =>
        refine ⟨(c :: gap) :: gaps, hlength, ?_, ?_⟩
        · simpa [hc] using hgaps
        · simp only [List.append_assoc, List.singleton_append, List.zipWith_cons_cons,
            List.flatten_cons] at htext
          simp only [List.zipWith_cons_cons, List.flatten_cons, List.cons_append]
          exact congrArg (List.cons c) (by simpa using htext)
  | token hw h ih =>
    rename_i pos w text kind value reports
    intro before hbefore
    obtain ⟨gaps, hlength, hgaps, htext⟩ := ih (before ++ w) (by simp [hbefore])
    rw [List.append_assoc] at htext
    have hspelled : TokenReport.spelled ⟨⟨kind, some value, pos⟩, pos + w.length⟩
        (before ++ (w ++ text)) = w := by
      simp [TokenReport.spelled, ← hbefore]
    refine ⟨[] :: gaps, by simp [hlength], ?_, ?_⟩
    · simpa using hgaps
    · rw [List.zipWith_cons_cons, List.flatten_cons, List.nil_append, hspelled, ← htext]

/-! ## Nothing is lost -/

/-- What the reports of a text say about it. -/
structure Lossless (source : List Char) (reports : List TokenReport) : Prop where
  /-- The last report and no other is the end of the input, behind the last character. -/
  ends : ∃ tokens, reports = tokens ++ [⟨atEnd source.length, source.length⟩] ∧
    ∀ r ∈ tokens, r.token.kind ≠ .endOfInput
  /-- Reports come in the order of the text and do not overlap. -/
  ordered : reports.Pairwise fun a b => (a.stop : Int) ≤ b.token.pos
  /-- A report is about one character at least: the longest token that starts at its offset. -/
  munched : ∀ r ∈ reports, r.token.kind ≠ .endOfInput →
    ∃ (start : Nat) (value : Payload), r.token = ⟨r.token.kind, some value, start⟩ ∧
      start < r.stop ∧ r.stop ≤ source.length ∧
        Longest ((source.drop start).take (r.stop - start)) r.token.kind value (source.drop start)
  /-- What no report is about is blank. -/
  blank : ∀ (i : Nat) (c : Char), source[i]? = some c →
    (∀ r ∈ reports, ¬ (r.token.pos ≤ i ∧ i < r.stop)) → isBlank c = true
  /-- The text is what the reports are about, with blanks in between. -/
  recovered : ∃ gaps : List (List Char), gaps.length = reports.length ∧
    (∀ gap ∈ gaps, ∀ c ∈ gap, isBlank c = true) ∧
      source = (List.zipWith (fun gap r => gap ++ r.spelled source) gaps reports).flatten

theorem Tiles.lossless (h : Tiles 0 source reports) : Lossless source reports where
  ends := by
    have hends := h.ends
    rw [Nat.zero_add] at hends
    exact hends
  ordered := h.ordered
  munched := h.munched [] rfl
  blank := by
    intro i c hc houtside
    apply h.blank_outside i c hc
    rw [Nat.zero_add]
    exact houtside
  recovered := h.recovered [] rfl

theorem all_eq_ok {tokens : List Token} :
    Token.all source = .ok tokens ↔ (tokenize source).value = .ok () ∧
      (tokenize source).reports.map (·.token) = tokens := by
  unfold Token.all
  rw [Trace.collect_eq]
  cases hvalue : (tokenize source).value with
  | ok done => simp
  | error e => simp

/-- **Tokens lose nothing.** If a text has tokens, their reports are in the order of the text and
apart, with blanks and nothing else between them; the last one and no other is the end of the
input; and each other one is the longest token at its offset, of the kind and with the payload that
its characters have. -/
theorem tokenize_lossless {tokens : List Token} (h : Token.all source = .ok tokens) :
    (tokenize source).reports.map (·.token) = tokens ∧
      Lossless source (tokenize source).reports := by
  obtain ⟨hvalue, htokens⟩ := all_eq_ok.1 h
  have htiles := tokenize_iff.1 ⟨hvalue, rfl⟩
  exact ⟨htokens, htiles.lossless⟩

/-- A reserved word is none inside a longer word, an operator of two characters is one token, and
a point between digits belongs to the number. -/
theorem tokenize_lossless_munch : ∃ tokens, Token.all "IFx<=1.5 IF\t".toList = .ok tokens ∧
    tokens.map (fun t => (t.kind, t.pos)) =
      [(.identifier, 0), (.symbol .le, 3), (.number, 5), (.keyword .if_, 9), (.endOfInput, 12)] ∧
    Lossless "IFx<=1.5 IF\t".toList (tokenize "IFx<=1.5 IF\t".toList).reports := by
  obtain ⟨tokens, htokens, hkinds⟩ : ∃ tokens, Token.all "IFx<=1.5 IF\t".toList = .ok tokens ∧
      tokens.map (fun t => (t.kind, t.pos)) =
        [(.identifier, 0), (.symbol .le, 3), (.number, 5), (.keyword .if_, 9),
          (.endOfInput, 12)] := by
    apply ok_of_toOption
    decide +kernel
  exact ⟨tokens, htokens, hkinds, (tokenize_lossless htokens).2⟩

end Token

end Slang
