import Slang.Proofs.Rereading
import Slang.Proofs.Seams

/-!
# Tokens that are written and read again

* `respelling ts` — the lexemes of all tokens but the end of the input, with single spaces between
  them.
* `Reads w cs` — by themselves, the characters `w` are cut into tokens with the contents `cs`.
* `Reads.join` — what is behind a space does not change how a text is cut.
* `reads_spelled` — the characters of a token are read as this token.
* `reads_exponent`, `reads_infinity` — what becomes of the lexemes of the other numbers.

Principal result: `lexemes_reread` — the lexemes of a text always have tokens. They have the kinds
and the payloads of the tokens of the text exactly if every number of the text is finite and is zero
or no smaller than `10 ^ -4`.
-/

set_option autoImplicit false

namespace Slang.Token

/-- The lexemes of all tokens but the end of the input, with single spaces between them. -/
def respelling (ts : List Token) : String :=
  " ".intercalate ((ts.filter fun t => t.kind ≠ .endOfInput).map lexeme)

/-- By themselves, the characters are cut into tokens with these kinds and payloads. -/
def Reads (w : List Char) (cs : List (Kind × Option Payload)) : Prop :=
  ∀ pos, ∃ reports, Fronts [] pos w reports ∧ reports.map (·.token.content) = cs

/-! ## Joined texts -/

variable {w text rest : List Char} {cs ds : List (Kind × Option Payload)}

theorem Fronts.append {pos : Nat} {front behind : List Char} {own more : List TokenReport}
    (h : Fronts (behind ++ rest) pos front own)
    (h' : Fronts rest (pos + front.length) behind more) :
    Fronts rest pos (front ++ behind) (own ++ more) := by
  induction h with
  | nil pos => exact h'
  | blank hc h ih =>
    rw [offset_cons] at h'
    exact .blank hc (ih h')
  | token hw h ih =>
    rw [offset_append] at h'
    rw [List.append_assoc]
    refine .token ?_ (ih h')
    rw [List.append_assoc]
    exact hw

theorem reads_nil : Reads [] [] := fun pos => ⟨[], .nil pos, rfl⟩

/-- What is behind a space does not change how a text is cut. -/
theorem Reads.join (h : Reads w cs) (h' : Reads text ds) :
    Reads (w ++ ' ' :: text) (cs ++ ds) := by
  intro pos
  obtain ⟨own, hown, rfl⟩ := h pos
  obtain ⟨more, hmore, rfl⟩ := h' (pos + w.length + 1)
  have hfront : Fronts (' ' :: text ++ []) pos w own := by
    rw [List.append_nil]
    exact hown.before_blank rfl text
  exact ⟨own ++ more, hfront.append (.blank rfl hmore), List.map_append⟩

/-! ## Single lexemes -/

/-- The characters of a token are read as this token. -/
theorem reads_spelled {k : Kind} {p : Payload} (h : Spells w k p) : Reads w [(k, some p)] := by
  intro pos
  have hlongest : Longest w k p (w ++ ([] ++ [])) := by
    rw [List.append_nil, List.append_nil]
    exact ⟨List.prefix_rfl, h, fun hv _ => hv.length_le⟩
  have hfront := Fronts.token hlongest (.nil (pos + w.length))
  rw [List.append_nil] at hfront
  exact ⟨_, hfront, rfl⟩

/-- Digits behind a point end in front of what is no digit. -/
theorem fraction_digits {part : List Char} {c : Char}
    (hpart : ∀ d ∈ part, Number.isDigit d = true) (hc : Number.isDigit c = false) :
    fraction ('.' :: (part ++ c :: rest)) = part := by
  cases part with
  | nil => simp [fraction, hc]
  | cons d part =>
    rw [List.forall_mem_cons] at hpart
    have hend : (part ++ c :: rest).takeWhile Number.isDigit = part := by
      rw [List.takeWhile_append_of_pos hpart.2, List.takeWhile_cons_of_neg (by simp [hc]),
        List.append_nil]
    simp only [List.cons_append, fraction, hpart.1, if_true, hend]

/-- A numeral ends in front of what neither is a digit nor a point. -/
theorem longest_numeral {whole part : List Char} {c : Char} (hne : whole ≠ [])
    (hwhole : ∀ d ∈ whole, Number.isDigit d = true) (hpart : ∀ d ∈ part, Number.isDigit d = true)
    (hc : Number.isDigit c = false) (hpoint : c ≠ '.') :
    Longest (numeral whole part) .number (.number (Number.ofDecimal whole part))
      (numeral whole part ++ c :: rest) := by
  obtain ⟨behind, hbehind, hend, hfraction⟩ : ∃ behind,
      numeral whole part ++ c :: rest = whole ++ behind ∧
        (whole ++ behind).takeWhile Number.isDigit = whole ∧ fraction behind = part := by
    cases part with
    | nil =>
      refine ⟨c :: rest, rfl, ?_, ?_⟩
      · rw [List.takeWhile_append_of_pos hwhole, List.takeWhile_cons_of_neg (by simp [hc]),
          List.append_nil]
      · simp [fraction, hpoint]
    | cons d part =>
      have hdigit : Number.isDigit '.' = false := rfl
      refine ⟨'.' :: (d :: part ++ c :: rest), by simp, ?_, fraction_digits hpart hc⟩
      rw [List.takeWhile_append_of_pos hwhole, List.takeWhile_cons_of_neg (by simp [hdigit]),
        List.append_nil]
  have hnumber := number_eq hend
  rw [hfraction, ← hbehind] at hnumber
  obtain ⟨d, ds, hnumeral, hd⟩ := Number.numeral_eq_cons part hne hwhole
  rw [hnumeral] at hnumber ⊢
  refine longest_of_first ?_
  rw [Lexeme.first, if_neg (by simp [Number.not_letter hd]), if_pos hd, ← List.cons_append, hnumber]

/-- **A number with an exponent** is read as four tokens: the digits in front of the mark, the mark
as a word, a minus, and the digits of the exponent. -/
theorem reads_exponent {whole part digits : List Char} (hne : whole ≠ [])
    (hwhole : ∀ d ∈ whole, Number.isDigit d = true) (hpart : ∀ d ∈ part, Number.isDigit d = true)
    (hne' : digits ≠ []) (hdigits : ∀ d ∈ digits, Number.isDigit d = true) :
    Reads (numeral whole part ++ 'e' :: '-' :: digits)
      [(.number, some (.number (Number.ofDecimal whole part))), (.identifier, some (.text "e")),
        (.symbol .minus, some (.text "-")),
        (.number, some (.number (Number.ofDecimal digits [])))] := by
  intro pos
  have hnone : ∀ d ∈ ([] : List Char), Number.isDigit d = true := List.forall_mem_nil _
  have hnumber : Longest (numeral whole part) .number (.number (Number.ofDecimal whole part))
      (numeral whole part ++ (['e'] ++ (['-'] ++ digits) ++ [])) := by
    rw [List.append_nil]
    exact longest_numeral hne hwhole hpart rfl (by decide)
  have hmark : Longest ['e'] .identifier (.text "e") (['e'] ++ (['-'] ++ digits ++ [])) :=
    @longest_of_first 'e' [] _ _ _ rfl
  have hminus : Longest ['-'] (.symbol .minus) (.text "-") (['-'] ++ (digits ++ [])) :=
    @longest_of_first '-' [] _ _ _ rfl
  have hvalue := Number.readFloat?_numeral hne' hdigits hnone
  obtain ⟨last, hlast, hcontent⟩ := reads_spelled (.number hne' hdigits hnone hvalue)
    (pos + (numeral whole part).length + ['e'].length + ['-'].length)
  refine ⟨_, .token hnumber (.token hmark (.token hminus hlast)), ?_⟩
  rw [List.map_cons, List.map_cons, List.map_cons, hcontent]
  rfl

/-- **The text of an infinity** is read as a name. -/
theorem reads_infinity : Reads "Infinity".toList [(.identifier, some (.text "Infinity"))] := by
  apply reads_spelled
  refine @Spells.identifier 'I' "nfinity".toList rfl ?_ ?_
  · exact List.all_iff_forall_prop.1 (by decide)
  · intro k
    cases k <;> decide

/-! ## The lexemes of a text -/

/-- The number that digits spell is a magnitude. -/
theorem ofDecimal_eq (whole part : List Char) : ∃ bits, bits ≤ Number.infiniteBits ∧
    Number.ofDecimal whole part = Number.ofMagnitude false bits :=
  ⟨_, Number.scaledBits_le _ _, rfl⟩

/-- What becomes of the lexeme of a number. -/
theorem reads_number (whole part : List Char) :
    ∃ cs, Reads (Number.display (Number.ofDecimal whole part)).toList cs ∧ cs ≠ [] ∧
      (cs = [(.number, some (.number (Number.ofDecimal whole part)))] ↔
        Number.Writable (Number.ofDecimal whole part)) := by
  obtain ⟨bits, hle, hx⟩ := ofDecimal_eq whole part
  rw [hx]
  cases Number.denotation hle with
  | infinite hbits hexact =>
    have hreads := reads_infinity
    rw [← Number.display_infinite hexact] at hreads
    refine ⟨_, hreads, List.cons_ne_nil _ _, iff_of_false (by simp) ?_⟩
    intro h
    obtain ⟨m, e, hfinite, -⟩ := h
    rw [hexact] at hfinite
    cases hfinite
  | @finite m e hd hbits hexact =>
    by_cases hw : m = 0 ∨ Number.leastPositional ≤ m * 2 ^ e
    · have hspells := Number.display_writable hd hexact (by rw [hbits]) hw
      exact ⟨_, reads_spelled hspells, List.cons_ne_nil _ _, iff_of_true rfl ⟨m, e, hexact, hw⟩⟩
    · rw [not_or, not_le] at hw
      obtain ⟨whole', part', digits, htext, hne, hwhole, hpart, hne', hdigits⟩ :=
        Number.display_small hd hexact (Nat.pos_of_ne_zero hw.1) hw.2
      have hreads := reads_exponent hne hwhole hpart hne' hdigits
      rw [← htext] at hreads
      refine ⟨_, hreads, List.cons_ne_nil _ _, iff_of_false (by simp) ?_⟩
      intro h
      obtain ⟨m', e', hfinite, hw'⟩ := h
      rw [hexact] at hfinite
      cases hfinite
      exact absurd hw' (not_or.mpr ⟨hw.1, not_le_of_gt hw.2⟩)

/-- No number of the token is too small for its lexeme or infinite. -/
def Rereadable (t : Token) : Prop := ∀ x, t.value = some (.number x) → Number.Writable x

/-- What becomes of the lexeme of a token. -/
theorem reads_lexeme {t : Token} {p : Payload} (hv : t.value = some p) (h : Spells w t.kind p) :
    ∃ cs, Reads t.lexeme.toList cs ∧ cs ≠ [] ∧ (cs = [t.content] ↔ t.Rereadable) := by
  obtain ⟨kind, value, pos⟩ := t
  subst hv
  have htext : ∀ {s : String}, p = .text s →
      (lexeme ⟨kind, some p, pos⟩).toList = w →
        ∃ cs, Reads (lexeme ⟨kind, some p, pos⟩).toList cs ∧ cs ≠ [] ∧
          (cs = [content ⟨kind, some p, pos⟩] ↔ Rereadable ⟨kind, some p, pos⟩) := by
    intro s hp hlexeme
    rw [hlexeme]
    refine ⟨_, reads_spelled h, List.cons_ne_nil _ _, iff_of_true rfl ?_⟩
    intro x hx
    rw [hp] at hx
    cases hx
  cases h with
  | keyword k => exact htext rfl rfl
  | identifier hc hcs hfree => exact htext rfl String.toList_ofList
  | number hne hwhole hpart hx =>
    rw [Number.readFloat?_numeral hne hwhole hpart] at hx
    cases hx
    obtain ⟨cs, hreads, hne, hiff⟩ := reads_number _ _
    refine ⟨cs, hreads, hne, hiff.trans ?_⟩
    constructor
    · intro hw x hx
      cases hx
      exact hw
    · intro hall
      exact hall _ rfl
  | string hbody =>
    refine htext rfl ?_
    simp [lexeme, lexeme?, valueText, Payload.shown]
  | symbol s => exact htext rfl rfl

/-- A token with the characters that it was read from. -/
def Written (t : Token) : Prop := ∃ w p, t.value = some p ∧ Spells w t.kind p

/-- **What becomes of the lexemes of tokens**, with spaces between them. There is a token at least
for each of them, so that all are as before only if each is. -/
theorem reads_lexemes : ∀ {ts : List Token}, (∀ t ∈ ts, t.Written) →
    ∃ cs, Reads ([' '].intercalate (ts.map (·.lexeme.toList))) cs ∧ ts.length ≤ cs.length ∧
      (cs = ts.map content ↔ ∀ t ∈ ts, t.Rereadable)
  | [], _ => ⟨[], reads_nil, Nat.le_refl _, by simp⟩
  | t :: ts, h => by
    rw [List.forall_mem_cons] at h
    obtain ⟨⟨w, p, hv, hspells⟩, hts⟩ := h
    obtain ⟨cs, hcs, hne, hiff⟩ := reads_lexeme hv hspells
    obtain ⟨ds, hds, hlength, hall⟩ := reads_lexemes hts
    have hreads : Reads ([' '].intercalate ((t :: ts).map (·.lexeme.toList))) (cs ++ ds) := by
      cases ts with
      | nil =>
        have hnone : ds = [] := hall.mpr (List.forall_mem_nil _)
        rw [hnone, List.append_nil, List.map_singleton, List.intercalate_singleton]
        exact hcs
      | cons u us =>
        have hjoin := hcs.join hds
        rw [List.map_cons, List.map_cons, List.intercalate_cons_cons, List.append_assoc]
        exact hjoin
    have hpos : 0 < cs.length := List.length_pos_iff.mpr hne
    refine ⟨cs ++ ds, hreads, ?_, ?_⟩
    · rw [List.length_append, List.length_cons]
      omega
    · rw [List.forall_mem_cons, ← hiff, ← hall]
      constructor
      · intro heq
        have hsize := congrArg List.length heq
        rw [List.length_append, List.length_map, List.length_cons] at hsize
        have hone : cs.length = [t.content].length := by
          rw [List.length_singleton]
          omega
        exact List.append_inj heq hone
      · intro heq
        rw [heq.1, heq.2]
        rfl

/-- The tokens of a text are the end of the input behind tokens that are written in it. -/
theorem written_of_all {source : List Char} {ts : List Token} (h : all source = .ok ts) :
    ∃ own, ts = own ++ [atEnd source.length] ∧ ∀ t ∈ own, t.Written ∧ t.kind ≠ .endOfInput := by
  obtain ⟨hvalue, rfl⟩ := all_eq_ok.mp h
  have htiles := tokenize_iff.mp ⟨hvalue, rfl⟩
  obtain ⟨tokens, hreports, hkinds⟩ := htiles.ends
  have hmunched := htiles.munched [] rfl
  rw [Nat.zero_add] at hreports
  rw [hreports] at hmunched ⊢
  refine ⟨tokens.map (·.token), by simp, ?_⟩
  rw [List.forall_mem_map]
  intro r hr
  obtain ⟨start, value, htoken, -, -, hlongest⟩ :=
    hmunched r (List.mem_append_left _ hr) (hkinds r hr)
  exact ⟨⟨_, value, by rw [htoken], hlongest.spells⟩, hkinds r hr⟩

/-- **Lexemes that are read again.** Put single spaces between the lexemes of all tokens of a text
but the end of the input. The result always has tokens, and they have the kinds and the payloads of
the tokens of the text exactly if each number of the text is finite and is zero or no smaller than
`10 ^ -4`. -/
theorem lexemes_reread {source : List Char} {ts : List Token} (h : all source = .ok ts) :
    ∃ ts', all (respelling ts).toList = .ok ts' ∧ (ts'.map content = ts.map content ↔
      ∀ t ∈ ts, ∀ x, t.value = some (.number x) → Number.Writable x) := by
  obtain ⟨own, rfl, hown⟩ := written_of_all h
  obtain ⟨cs, hreads, -, hall⟩ := reads_lexemes fun t ht => (hown t ht).1
  have hfilter : (own ++ [atEnd source.length]).filter (fun t => t.kind ≠ .endOfInput) = own := by
    have hkept : own.filter (fun t => t.kind ≠ .endOfInput) = own :=
      List.filter_eq_self.mpr fun t ht => decide_eq_true (hown t ht).2
    rw [List.filter_append, hkept]
    exact List.append_nil own
  have htext : (respelling (own ++ [atEnd source.length])).toList =
      [' '].intercalate (own.map (·.lexeme.toList)) := by
    rw [respelling, hfilter, String.toList_intercalate, List.map_map]
    rfl
  obtain ⟨reports, hfronts, hcontent⟩ := hreads 0
  obtain ⟨hvalue, hreports⟩ := hfronts.tokenize
  rw [htext]
  refine ⟨_, all_eq_ok.mpr ⟨hvalue, rfl⟩, ?_⟩
  have hsame (stop : TokenReport) (hstop : stop.token.content = (.endOfInput, none)) :
      ((reports ++ [stop]).map (·.token)).map content =
        (own ++ [atEnd source.length]).map content ↔ cs = own.map content := by
    rw [List.map_map, List.map_append, List.map_append, ← hcontent, List.map_singleton]
    simp only [Function.comp_apply, hstop]
    exact List.append_left_inj _
  have hstop : (atEnd source.length).Rereadable := by
    intro x hx
    cases hx
  rw [hreports, hsame _ rfl, hall, List.forall_mem_append, List.forall_mem_singleton]
  exact (and_iff_left hstop).symm

/-- The least number that is written without an exponent. -/
theorem lexemes_reread_least : ∃ ts ts', all "x>=\t0.00010".toList = .ok ts ∧
    respelling ts = "x >= 0.0001" ∧ all "x >= 0.0001".toList = .ok ts' ∧
    ts'.map content = ts.map content := by
  obtain ⟨ts, hts, hfacts⟩ : ∃ ts, all "x>=\t0.00010".toList = .ok ts ∧
      (respelling ts, ts.map fun t => Number.Exact.ofFloat (Grammar.numberOf t)) =
        ("x >= 0.0001", [.finite false 0 (-1074), .finite false 0 (-1074),
          .finite false 7378697629483821 (-66), .finite false 0 (-1074)]) := by
    refine ok_of_toOption ?_
    decide +kernel
  obtain ⟨htext, hnumbers⟩ := Prod.mk.inj hfacts
  obtain ⟨ts', hts', hiff⟩ := lexemes_reread hts
  rw [htext] at hts'
  refine ⟨ts, ts', hts, htext, hts', hiff.mpr fun t ht x hx => ?_⟩
  have hexact := List.mem_map_of_mem (f := fun t => Number.Exact.ofFloat (Grammar.numberOf t)) ht
  rw [hnumbers, Grammar.numberOf, hx] at hexact
  simp only [List.mem_cons, List.not_mem_nil, or_false] at hexact
  rcases hexact with hzero | hzero | hleast | hzero
  · exact ⟨_, _, hzero, .inl rfl⟩
  · exact ⟨_, _, hzero, .inl rfl⟩
  · refine ⟨_, _, hleast, .inr ?_⟩
    unfold Number.leastPositional Number.literalLayout
    norm_num
  · exact ⟨_, _, hzero, .inl rfl⟩

/-- A smaller number: its lexeme is read as four tokens. -/
theorem lexemes_reread_exponent : ∃ ts ts', all "0.00001".toList = .ok ts ∧
    respelling ts = "1e-05" ∧ all "1e-05".toList = .ok ts' ∧
    ts'.map content ≠ ts.map content := by
  obtain ⟨ts, hts, hfacts⟩ : ∃ ts, all "0.00001".toList = .ok ts ∧
      (respelling ts, ts.map (·.kind)) = ("1e-05", [.number, .endOfInput]) := by
    refine ok_of_toOption ?_
    decide +kernel
  obtain ⟨ts', hts', hkinds'⟩ : ∃ ts', all "1e-05".toList = .ok ts' ∧
      ts'.map (·.kind) = [.number, .identifier, .symbol .minus, .number, .endOfInput] := by
    refine ok_of_toOption ?_
    decide +kernel
  obtain ⟨htext, hkinds⟩ := Prod.mk.inj hfacts
  refine ⟨ts, ts', hts, htext, hts', fun hsame => ?_⟩
  have hlength := congrArg List.length hsame
  rw [List.length_map, List.length_map] at hlength
  have hfew := congrArg List.length hkinds
  have hmany := congrArg List.length hkinds'
  rw [List.length_map] at hfew hmany
  rw [hfew, hmany] at hlength
  cases hlength

end Slang.Token
