import Mathlib.Data.Bool.AllAny
import Mathlib.Data.List.Nodup
import Mathlib.Data.List.TakeWhile
import Mathlib.Tactic.IntervalCases
import Slang.Token.Scan

/-!
# How tokens are written

* `Token.numeral whole part` — digits, and behind a point perhaps more of them.
* `Number.readFloat?_numeral` — as a double, such a numeral is the number nearest to its digits.
* `Token.Spells w kind value` — the characters `w` are a token of this kind with this payload, told
  from the characters alone and without a scanner.
* `Token.Longest w kind value text` — `w` is the longest start of the text that is a token.
* `Lexeme.Taken`, `Lexeme.first_taken` — what the scanner takes is a token.
* `Lexeme.Covers`, `Spells.first` — where a token starts the scanner takes one, and takes no less.

Principal result: `Lexeme.first_iff` — the scanner takes exactly the longest token at the start of
a text.
-/

set_option autoImplicit false

namespace Slang

/-! ## Numerals -/

namespace Token

/-- Digits before a point and digits behind it. Without the latter there is no point. -/
def numeral (whole part : List Char) : List Char :=
  if part = [] then whole else whole ++ '.' :: part

@[simp] theorem numeral_nil (whole : List Char) : numeral whole [] = whole := rfl

@[simp] theorem numeral_cons (whole : List Char) (d : Char) (part : List Char) :
    numeral whole (d :: part) = whole ++ '.' :: d :: part := rfl

end Token

namespace Number

/-- The characters that a numeral may consist of. -/
def numeralChars : List Char := '.' :: "0123456789".toList

variable {whole part cs : List Char}

theorem mem_digits {d : Char} (h : isDigit d = true) : d ∈ "0123456789".toList := by
  have hrange : 48 ≤ d.toNat ∧ d.toNat ≤ 57 := by
    simpa [isDigit, Char.le_def, UInt32.le_iff_toNat_le] using h
  obtain ⟨hlow, hhigh⟩ := hrange
  rw [← Char.ofNat_toNat d]
  generalize d.toNat = n at hlow hhigh
  interval_cases n <;> decide

theorem not_letter {d : Char} (h : isDigit d = true) : Token.isLetter d = false := by
  have hdigits : ∀ c ∈ "0123456789".toList, Token.isLetter c = false :=
    List.all_iff_forall_prop.1 (by decide)
  exact hdigits d (mem_digits h)

theorem mem_numeralChars (hwhole : ∀ d ∈ whole, isDigit d = true)
    (hpart : ∀ d ∈ part, isDigit d = true) : ∀ c ∈ Token.numeral whole part, c ∈ numeralChars := by
  intro c hc
  cases part with
  | nil => exact List.mem_cons_of_mem _ (mem_digits (hwhole c hc))
  | cons d part =>
    rw [Token.numeral_cons] at hc
    rcases List.mem_append.1 hc with h | h
    · exact List.mem_cons_of_mem _ (mem_digits (hwhole c h))
    · rcases List.mem_cons.1 h with rfl | h
      · exact List.mem_cons_self ..
      · exact List.mem_cons_of_mem _ (mem_digits (hpart c h))

theorem mapM_plainChar? (h : ∀ c ∈ cs, c ∈ numeralChars) : cs.mapM plainChar? = some cs := by
  induction cs with
  | nil => rfl
  | cons c cs ih =>
    have hplain : ∀ c ∈ numeralChars, plainChar? c = some c :=
      List.all_iff_forall_prop.1 (by decide)
    have hc := hplain c (h c (List.mem_cons_self ..))
    have hcs := ih fun d hd => h d (List.mem_cons_of_mem c hd)
    simp [List.mapM_cons, hc, hcs]

theorem ungroup?_eq (h : ∀ c ∈ cs, c ∈ numeralChars) : ungroup? cs = some cs := by
  have hunder : '_' ∉ cs := by
    intro hmem
    exact absurd (h '_' hmem) (by decide)
  clear h
  fun_induction ungroup? cs with
  | case1 => rfl
  | case2 rest => simp at hunder
  | case3 c d rest hdigits ih => simp at hunder
  | case4 c d rest hdigits => simp at hunder
  | case5 c rest hhead hgroup ih => simp [ih fun hmem => hunder (List.mem_cons_of_mem c hmem)]

theorem dropWhile_blank_eq (h : ∀ c ∈ cs, c ∈ numeralChars) : cs.dropWhile Text.isBlank = cs := by
  cases cs with
  | nil => rfl
  | cons c cs =>
    have hblank : ∀ c ∈ numeralChars, Text.isBlank c = false :=
      List.all_iff_forall_prop.1 (by decide)
    simp [hblank c (h c (List.mem_cons_self ..))]

theorem plain?_eq (h : ∀ c ∈ cs, c ∈ numeralChars) : plain? (String.ofList cs) = some cs := by
  have hback : ∀ c ∈ cs.reverse, c ∈ numeralChars := fun c hc => h c (List.mem_reverse.1 hc)
  have htrim : Text.trim cs = cs := by
    rw [Text.trim, dropWhile_blank_eq h, dropWhile_blank_eq hback, List.reverse_reverse]
  simp [plain?, mapM_plainChar? h, ungroup?_eq h, htrim]

/-- What starts with a digit has no sign, and is no word for an infinity or a NaN. -/
theorem unsigned_of_digit {d : Char} (cs : List Char) (hd : isDigit d = true) :
    splitSign (d :: cs) = (false, d :: cs) ∧ word? false (d :: cs) = none := by
  have hd := mem_digits hd
  constructor
  · have hsign : ∀ c ∈ "0123456789".toList, c ≠ '-' ∧ c ≠ '+' :=
      List.all_iff_forall_prop.1 (by decide)
    obtain ⟨hminus, hplus⟩ := hsign d hd
    simp [splitSign, hminus, hplus]
  · have hletter : ∀ c ∈ "0123456789".toList, c.toLower ≠ 'i' ∧ c.toLower ≠ 'n' :=
      List.all_iff_forall_prop.1 (by decide)
    have hother : ∀ (c : Char) (w : List Char), d.toLower ≠ c →
        String.ofList ((d :: cs).map Char.toLower) ≠ String.ofList (c :: w) := by
      intro c w hc heq
      have hlist := String.ofList_injective heq
      exact hc (List.cons.inj hlist).1
    obtain ⟨hi, hn⟩ := hletter d hd
    have hinf := hother 'i' ['n', 'f'] hi
    have hinfinity := hother 'i' ['n', 'f', 'i', 'n', 'i', 't', 'y'] hi
    have hnan := hother 'n' ['a', 'n'] hn
    unfold word?
    simp only [Bool.or_eq_true, decide_eq_true_eq]
    rw [if_neg (not_or.2 ⟨hinf, hinfinity⟩), if_neg hnan]

theorem takeWhile_numeral (part : List Char) (hwhole : ∀ d ∈ whole, isDigit d = true) :
    (Token.numeral whole part).takeWhile isDigit = whole ∧
      fractionOf ((Token.numeral whole part).dropWhile isDigit) =
        (part.takeWhile isDigit, part.dropWhile isDigit) := by
  cases part with
  | nil =>
    have hdrop : whole.dropWhile isDigit = [] := by
      simpa [List.dropWhile_eq_nil_iff] using hwhole
    simp [List.takeWhile_eq_self_iff.2 hwhole, hdrop, fractionOf]
  | cons d part =>
    have hpoint : isDigit '.' = false := by decide
    rw [Token.numeral_cons, List.takeWhile_append_of_pos hwhole,
      List.dropWhile_append_of_pos hwhole]
    simp [hpoint, fractionOf]

theorem numeral_eq_cons (part : List Char) (hne : whole ≠ [])
    (hwhole : ∀ d ∈ whole, isDigit d = true) :
    ∃ d ds, Token.numeral whole part = d :: ds ∧ isDigit d = true := by
  obtain ⟨d, ds, rfl⟩ := List.exists_cons_of_ne_nil hne
  have hd := hwhole d (List.mem_cons_self ..)
  cases part with
  | nil => exact ⟨d, ds, rfl, hd⟩
  | cons e part => exact ⟨d, ds ++ '.' :: e :: part, rfl, hd⟩

/-- **The double of a numeral.** Reading a numeral as a double and rounding its digits are one. -/
theorem readFloat?_numeral (hne : whole ≠ []) (hwhole : ∀ d ∈ whole, isDigit d = true)
    (hpart : ∀ d ∈ part, isDigit d = true) :
    readFloat? (String.ofList (Token.numeral whole part)) = some (ofDecimal whole part) := by
  have hdecimal : decimal? false (Token.numeral whole part) = some (ofDecimal whole part) := by
    obtain ⟨htake, hfraction⟩ := takeWhile_numeral part hwhole
    have hrest : part.dropWhile isDigit = [] := by
      simpa [List.dropWhile_eq_nil_iff] using hpart
    simp [decimal?, htake, hfraction, hne, hrest, List.takeWhile_eq_self_iff.2 hpart, exponent?,
      ofDecimal]
  have hplain := plain?_eq (mem_numeralChars hwhole hpart)
  obtain ⟨d, ds, hnumeral, hd⟩ := numeral_eq_cons part hne hwhole
  obtain ⟨hsign, hword⟩ := unsigned_of_digit ds hd
  unfold readFloat?
  rw [hplain]
  rw [hnumeral] at hdecimal ⊢
  simp only [Option.bind_eq_bind, Option.bind_some, hsign, hword, hdecimal]

end Number

/-! ## Tokens and their spellings -/

theorem Symbol.mem_all (s : Symbol) : s ∈ Symbol.all := by
  cases s <;> decide

/-- The reserved word of a spelling. -/
theorem Keyword.ofSpelling?_eq_some {word : String} {k : Keyword} :
    Keyword.ofSpelling? word = some k ↔ k.spelling = word := by
  constructor
  · intro h
    simpa using List.find?_some h
  · intro h
    subst h
    cases k <;> decide

theorem Keyword.ofSpelling?_eq_none {word : String} :
    Keyword.ofSpelling? word = none ↔ ∀ k : Keyword, k.spelling ≠ word := by
  simp only [Option.eq_none_iff_forall_not_mem, Option.mem_def, Keyword.ofSpelling?_eq_some, ne_eq]

/-- A reserved word is a word. -/
theorem Keyword.spelling_word (k : Keyword) :
    ∃ c cs, k.spelling.toList = c :: cs ∧ Token.isLetter c = true ∧
      ∀ d ∈ c :: cs, Token.isWordPart d = true := by
  cases k <;> exact ⟨_, _, rfl, by decide, List.all_eq_true.1 (by decide)⟩

/-- The first character of a symbol starts nothing else. -/
theorem Symbol.spelling_special (s : Symbol) :
    ∃ c cs, s.spelling.toList = c :: cs ∧ Token.isSpecial c = true ∧ Token.isLetter c = false ∧
      Number.isDigit c = false ∧ c ≠ '"' := by
  cases s <;> exact ⟨_, _, rfl, by decide, by decide, by decide, by decide⟩

theorem Symbol.all_descending :
    Symbol.all.Pairwise fun s t => t.spelling.length ≤ s.spelling.length := by
  decide

theorem Symbol.spelling_injective {s t : Symbol} (h : s.spelling = t.spelling) : s = t := by
  have hnodup : (Symbol.all.map Symbol.spelling).Nodup := by decide
  exact List.inj_on_of_nodup_map hnodup (Symbol.mem_all s) (Symbol.mem_all t) h

namespace Token

/-- The characters that a token is written with. A word is reserved as a whole or not at all, a
number is what its digits read as, and a string literal has no quote inside. -/
inductive Spells : List Char → Kind → Payload → Prop
  | keyword (k : Keyword) : Spells k.spelling.toList (.keyword k) (.text k.spelling)
  | identifier {c : Char} {cs : List Char} (hc : isLetter c = true)
      (hcs : ∀ d ∈ cs, isWordPart d = true)
      (hfree : ∀ k : Keyword, k.spelling ≠ String.ofList (c :: cs)) :
      Spells (c :: cs) .identifier (.text (String.ofList (c :: cs)))
  | number {whole part : List Char} {x : Float} (hne : whole ≠ [])
      (hwhole : ∀ d ∈ whole, Number.isDigit d = true)
      (hpart : ∀ d ∈ part, Number.isDigit d = true)
      (hx : Number.readFloat? (String.ofList (numeral whole part)) = some x) :
      Spells (numeral whole part) .number (.number x)
  | string {body : List Char} (hbody : '"' ∉ body) :
      Spells ('"' :: body ++ ['"']) .stringLiteral (.text (String.ofList body))
  | symbol (s : Symbol) : Spells s.spelling.toList (.symbol s) (.text s.spelling)

/-- The longest start of a text that is a token, and the token that it is. -/
structure Longest (w : List Char) (kind : Kind) (value : Payload) (text : List Char) : Prop where
  starts : w <+: text
  spells : Spells w kind value
  longest : ∀ {v : List Char} {k : Kind} {p : Payload}, v <+: text → Spells v k p →
    v.length ≤ w.length

/-- The scanner's choice is a start of the text that is a token. -/
def Lexeme.Taken (l : Lexeme) (text : List Char) : Prop :=
  ∃ w, w <+: text ∧ w.length = l.size ∧ Spells w l.kind l.value

/-- The scanner's choice is no shorter than `w`, and is the token that `w` is if it is no longer. -/
def Lexeme.Covers (l : Lexeme) (w : List Char) (kind : Kind) (value : Payload) : Prop :=
  w.length ≤ l.size ∧ (l.size = w.length → l.kind = kind ∧ l.value = value)

variable {w cs rest : List Char} {c : Char} {l : Lexeme} {k : Kind} {p : Payload}

/-- A start of a list that satisfies a test throughout lies within the longest one that does. -/
theorem prefix_takeWhile {test : Char → Bool} (hw : ∀ d ∈ w, test d = true) (h : w <+: cs) :
    w <+: cs.takeWhile test := by
  obtain ⟨rest, rfl⟩ := h
  rw [List.takeWhile_append_of_pos hw]
  exact List.prefix_append w _

/-! ### Words -/

theorem isWordPart_of_letter (h : isLetter c = true) : isWordPart c = true := by
  simp [isWordPart, h]

theorem word_taken (hc : isLetter c = true) : (word (c :: rest)).Taken (c :: rest) := by
  have hword : (c :: rest).takeWhile isWordPart = c :: rest.takeWhile isWordPart := by
    rw [List.takeWhile_cons_of_pos (isWordPart_of_letter hc)]
  refine ⟨(c :: rest).takeWhile isWordPart, List.takeWhile_prefix _, rfl, ?_⟩
  simp only [word]
  rw [hword]
  cases hk : Keyword.ofSpelling? (String.ofList (c :: rest.takeWhile isWordPart)) with
  | some k =>
    have hspelling := Keyword.ofSpelling?_eq_some.1 hk
    have hkeyword := Spells.keyword k
    rw [hspelling, String.toList_ofList] at hkeyword
    exact hkeyword
  | none =>
    have hfree := Keyword.ofSpelling?_eq_none.1 hk
    exact .identifier hc (fun d hd => List.mem_takeWhile_imp hd) hfree

theorem word_covers (hw : ∀ d ∈ w, isWordPart d = true) (h : w <+: cs) :
    (word cs).Covers w (((Keyword.ofSpelling? (String.ofList w)).map Kind.keyword).getD .identifier)
      (.text (String.ofList w)) := by
  have hstart := prefix_takeWhile hw h
  refine ⟨hstart.length_le, ?_⟩
  intro hsize
  have heq : w = cs.takeWhile isWordPart := hstart.eq_of_length hsize.symm
  rw [heq]
  exact ⟨rfl, rfl⟩

/-! ### Numbers -/

theorem fraction_eq (cs : List Char) :
    fraction cs = [] ∨ ∃ rest, cs = '.' :: rest ∧ fraction cs = rest.takeWhile Number.isDigit := by
  unfold fraction
  split
  · rename_i d rest
    split
    · rename_i hd
      exact .inr ⟨d :: rest, rfl, (List.takeWhile_cons_of_pos hd).symm⟩
    · exact .inl rfl
  · exact .inl rfl

theorem isDigit_of_fraction {d : Char} (h : d ∈ fraction cs) : Number.isDigit d = true := by
  rcases fraction_eq cs with hnone | ⟨rest, _, hrest⟩
  · rw [hnone] at h
    cases h
  · rw [hrest] at h
    exact List.mem_takeWhile_imp h

/-- A text is the digits at its start, the fraction behind them, and the rest. -/
theorem numeral_starts (whole cs : List Char) : numeral whole (fraction cs) <+: whole ++ cs := by
  rcases fraction_eq cs with hnone | ⟨rest, rfl, hrest⟩
  · rw [hnone]
    exact List.prefix_append whole cs
  · unfold numeral
    split
    · exact List.prefix_append whole _
    · rw [hrest, List.prefix_append_right_inj, List.cons_prefix_cons]
      exact ⟨rfl, List.takeWhile_prefix _⟩

/-- What the scanner takes for a number, where `whole` are the digits at the start of the text. -/
theorem number_eq {whole : List Char} (hwhole : (whole ++ cs).takeWhile Number.isDigit = whole) :
    number (whole ++ cs) = ⟨.number, .number (Number.ofDecimal whole (fraction cs)),
      (numeral whole (fraction cs)).length⟩ := by
  simp only [number, hwhole, List.drop_left]
  cases fraction cs with
  | nil => rfl
  | cons d part => simp [Nat.add_assoc, Nat.add_comm 1]

/-- The same for the digits that the scanner finds by itself. -/
theorem number_takeWhile (cs : List Char) :
    number cs = ⟨.number,
      .number (Number.ofDecimal (cs.takeWhile Number.isDigit)
        (fraction (cs.dropWhile Number.isDigit))),
      (numeral (cs.takeWhile Number.isDigit) (fraction (cs.dropWhile Number.isDigit))).length⟩ := by
  have htext : cs.takeWhile Number.isDigit ++ cs.dropWhile Number.isDigit = cs :=
    List.takeWhile_append_dropWhile
  have hwhole : (cs.takeWhile Number.isDigit ++ cs.dropWhile Number.isDigit).takeWhile
      Number.isDigit = cs.takeWhile Number.isDigit := by
    rw [htext]
  have heq := number_eq hwhole
  rw [htext] at heq
  exact heq

theorem number_taken (rest : List Char) (hc : Number.isDigit c = true) :
    (number (c :: rest)).Taken (c :: rest) := by
  have hne : (c :: rest).takeWhile Number.isDigit ≠ [] := by
    rw [List.takeWhile_cons_of_pos hc]
    exact List.cons_ne_nil _ _
  have hwhole : ∀ d ∈ (c :: rest).takeWhile Number.isDigit, Number.isDigit d = true :=
    fun d hd => List.mem_takeWhile_imp hd
  have hpart : ∀ d ∈ fraction ((c :: rest).dropWhile Number.isDigit), Number.isDigit d = true :=
    fun d hd => isDigit_of_fraction hd
  have hstart := numeral_starts ((c :: rest).takeWhile Number.isDigit)
    ((c :: rest).dropWhile Number.isDigit)
  rw [List.takeWhile_append_dropWhile] at hstart
  rw [number_takeWhile]
  exact ⟨_, hstart, rfl, .number hne hwhole hpart (Number.readFloat?_numeral hne hwhole hpart)⟩

theorem length_le_numeral (whole part : List Char) :
    whole.length ≤ (numeral whole part).length := by
  unfold numeral
  split
  · exact Nat.le_refl _
  · exact (List.prefix_append ..).length_le

/-- A number at the start of a text is no longer than the one that the scanner takes. -/
theorem number_longest {whole part : List Char} (hwhole : ∀ d ∈ whole, Number.isDigit d = true)
    (hpart : ∀ d ∈ part, Number.isDigit d = true) (h : numeral whole part <+: cs) :
    (numeral whole part).length ≤ (number cs).size := by
  cases part with
  | nil =>
    have hstart := prefix_takeWhile hwhole h
    rw [number_takeWhile]
    exact hstart.length_le.trans (length_le_numeral _ _)
  | cons d part =>
    -- The point ends the digits in front of it, so that the scanner finds the same ones.
    obtain ⟨tail, rfl⟩ := h
    have hpoint : Number.isDigit '.' = false := by decide
    have hsplit : (whole ++ '.' :: (d :: part ++ tail)).takeWhile Number.isDigit = whole := by
      rw [List.takeWhile_append_of_pos hwhole]
      simp [hpoint]
    have hfraction : fraction ('.' :: (d :: part ++ tail)) =
        d :: part ++ tail.takeWhile Number.isDigit := by
      rw [← List.takeWhile_append_of_pos hpart]
      simp [fraction, hpart d (List.mem_cons_self ..)]
    have hnumber := number_eq hsplit
    rw [hfraction] at hnumber
    simp only [numeral_cons, List.append_assoc, List.cons_append] at hnumber ⊢
    rw [hnumber]
    simp only [List.length_append, List.length_cons]
    omega

theorem Spells.number_value (h : Spells w .number p) :
    (Number.readFloat? (String.ofList w)).map Payload.number = some p := by
  cases h with
  | number hne hwhole hpart hx => rw [hx, Option.map_some]

theorem number_covers {whole part : List Char} {x : Float} (hne : whole ≠ [])
    (hwhole : ∀ d ∈ whole, Number.isDigit d = true) (hpart : ∀ d ∈ part, Number.isDigit d = true)
    (hx : Number.readFloat? (String.ofList (numeral whole part)) = some x)
    (h : numeral whole part <+: c :: rest) :
    (number (c :: rest)).Covers (numeral whole part) .number (.number x) := by
  refine ⟨number_longest hwhole hpart h, ?_⟩
  intro hsize
  refine ⟨rfl, ?_⟩
  -- Two numerals of one length at one place are the same characters and hence the same number.
  obtain ⟨d, ds, hnumeral, hd⟩ := Number.numeral_eq_cons part hne hwhole
  have hc : Number.isDigit c = true := by
    rw [hnumeral, List.cons_prefix_cons] at h
    exact h.1 ▸ hd
  obtain ⟨v, hv, hlength, hspells⟩ := number_taken rest hc
  have heq : v = numeral whole part := by
    apply (List.prefix_of_prefix_length_le hv h (by omega)).eq_of_length
    omega
  have hvalue := Spells.number_value hspells
  rw [heq, hx] at hvalue
  exact (Option.some.inj hvalue).symm

/-! ### Strings -/

theorem takeWhile_body {body : List Char} (hbody : '"' ∉ body) (rest : List Char) :
    (body ++ '"' :: rest).takeWhile (· ≠ '"') = body := by
  rw [List.takeWhile_append_of_pos]
  · simp
  · intro d hd
    simpa using fun h : d = '"' => hbody (h ▸ hd)

theorem stringBody_taken (h : stringBody rest = .ok l) : l.Taken ('"' :: rest) := by
  unfold stringBody at h
  dsimp only at h
  split at h
  · rename_i hlength
    cases h
    have hrest : rest.takeWhile (· ≠ '"') ++ rest.dropWhile (· ≠ '"') = rest :=
      List.takeWhile_append_dropWhile
    generalize hbody : rest.takeWhile (· ≠ '"') = body at *
    cases hbehind : rest.dropWhile (· ≠ '"') with
    | nil =>
      rw [hbehind, List.append_nil] at hrest
      rw [hrest] at hlength
      exact absurd hlength (Nat.lt_irrefl _)
    | cons d behind =>
      have hquote : d = '"' := by
        have hne : rest.dropWhile (· ≠ '"') ≠ [] := by
          rw [hbehind]
          exact List.cons_ne_nil d behind
        have hhead := List.head_dropWhile_not (· ≠ '"') hne
        simp only [hbehind, List.head_cons] at hhead
        simpa using hhead
      rw [hbehind, hquote] at hrest
      refine ⟨'"' :: body ++ ['"'], ?_, by simp, .string ?_⟩
      · rw [← hrest]
        exact ⟨behind, by simp⟩
      · intro hmem
        rw [← hbody] at hmem
        simpa using List.mem_takeWhile_imp hmem
  · cases h

theorem stringBody_of_body {body : List Char} (hbody : '"' ∉ body) (rest : List Char) :
    stringBody (body ++ '"' :: rest) =
      .ok ⟨.stringLiteral, .text (String.ofList body), body.length + 2⟩ := by
  unfold stringBody
  rw [takeWhile_body hbody]
  simp

/-! ### Symbols -/

/-- The symbol that the scanner finds is a start of the text, and no other one is longer. -/
theorem symbol?_spec {s : Symbol} (h : symbol? cs = some s) :
    s.spelling.toList <+: cs ∧
      ∀ t : Symbol, t.spelling.toList <+: cs → t.spelling.length ≤ s.spelling.length := by
  obtain ⟨hs, before, behind, hall, hbefore⟩ := List.find?_eq_some_iff_append.1 h
  refine ⟨List.isPrefixOf_iff_prefix.1 hs, ?_⟩
  intro t ht
  have hmem := Symbol.mem_all t
  have hpairs := Symbol.all_descending
  rw [hall] at hmem hpairs
  rcases List.mem_append.1 hmem with ht' | ht'
  · have hno := hbefore t ht'
    rw [List.isPrefixOf_iff_prefix.2 ht] at hno
    cases hno
  · rcases List.mem_cons.1 ht' with rfl | ht'
    · exact Nat.le_refl _
    · exact List.rel_of_pairwise_cons (List.pairwise_append.1 hpairs).2.1 ht'

theorem symbol?_of_prefix {s : Symbol} (h : s.spelling.toList <+: cs) :
    ∃ t, symbol? cs = some t := by
  apply Option.isSome_iff_exists.1
  rw [symbol?, List.find?_isSome]
  exact ⟨s, Symbol.mem_all s, List.isPrefixOf_iff_prefix.2 h⟩

/-! ### Any token -/

/-- What the scanner takes is a token. -/
theorem Lexeme.first_taken (h : Lexeme.first c rest = .ok l) : l.Taken (c :: rest) := by
  unfold Lexeme.first at h
  split at h
  · rename_i hc
    cases h
    exact word_taken hc
  · split at h
    · rename_i hc
      cases h
      exact number_taken rest hc
    · split at h
      · rename_i hc
        subst hc
        exact stringBody_taken h
      · split at h
        · split at h
          · rename_i s hs
            cases h
            exact ⟨s.spelling.toList, (symbol?_spec hs).1, String.length_toList, .symbol s⟩
          · cases h
        · cases h

/-- Where a token starts the scanner takes one, and takes no less. -/
theorem Spells.first (h : Spells w k p) (hw : w <+: c :: rest) :
    ∃ l, Lexeme.first c rest = .ok l ∧ l.Covers w k p := by
  cases h with
  | keyword k =>
    obtain ⟨d, ds, hspelling, hd, hparts⟩ := Keyword.spelling_word k
    rw [hspelling] at hw ⊢
    obtain ⟨rfl, -⟩ := List.cons_prefix_cons.1 hw
    refine ⟨_, if_pos hd, ?_⟩
    have hcovers := word_covers hparts hw
    have hkeyword : Keyword.ofSpelling? (String.ofList (d :: ds)) = some k := by
      rw [← hspelling, String.ofList_toList, Keyword.ofSpelling?_eq_some]
    rw [hkeyword] at hcovers
    rw [← String.ofList_toList (s := k.spelling), hspelling]
    exact hcovers
  | identifier hd hparts hfree =>
    obtain ⟨rfl, -⟩ := List.cons_prefix_cons.1 hw
    refine ⟨_, if_pos hd, ?_⟩
    have hall : ∀ e ∈ _ :: _, isWordPart e = true :=
      List.forall_mem_cons.2 ⟨isWordPart_of_letter hd, hparts⟩
    have hcovers := word_covers hall hw
    rw [Keyword.ofSpelling?_eq_none.2 hfree] at hcovers
    exact hcovers
  | number hne hwhole hpart hx =>
    rename_i whole part x
    have hcovers := number_covers hne hwhole hpart hx hw
    obtain ⟨d, ds, hnumeral, hd⟩ := Number.numeral_eq_cons part hne hwhole
    rw [hnumeral] at hw
    obtain ⟨rfl, -⟩ := List.cons_prefix_cons.1 hw
    refine ⟨_, ?_, hcovers⟩
    rw [Lexeme.first, if_neg (by simp [Number.not_letter hd]), if_pos hd]
  | string hbody =>
    rename_i body
    obtain ⟨tail, htail⟩ := hw
    simp only [List.cons_append, List.append_assoc] at htail
    obtain ⟨rfl, rfl⟩ := List.cons.inj htail
    refine ⟨_, stringBody_of_body hbody tail, ?_, ?_⟩
    · simp
    · intro _
      exact ⟨rfl, rfl⟩
  | symbol s =>
    obtain ⟨t, ht⟩ := symbol?_of_prefix hw
    obtain ⟨htext, hlongest⟩ := symbol?_spec ht
    obtain ⟨d, ds, hspelling, hspecial, hletter, hdigit, hquote⟩ := Symbol.spelling_special s
    have hd : c = d := by
      rw [hspelling, List.cons_prefix_cons] at hw
      exact hw.1.symm
    subst hd
    refine ⟨⟨.symbol t, .text t.spelling, t.spelling.length⟩, ?_, ?_, ?_⟩
    · simp [Lexeme.first, hletter, hdigit, hquote, hspecial, ht]
    · rw [String.length_toList]
      exact hlongest s hw
    · intro hsize
      have hst : s.spelling.toList = t.spelling.toList := by
        apply (List.prefix_of_prefix_length_le hw htext ?_).eq_of_length
        · exact hsize.symm.trans String.length_toList.symm
        · exact (hsize.symm.trans String.length_toList.symm).le
      have heq := Symbol.spelling_injective (String.toList_injective hst)
      rw [heq]
      exact ⟨rfl, rfl⟩

/-- **The longest token.** The scanner takes the longest start of a text that is a token, and it
takes something wherever there is one. -/
theorem Lexeme.first_iff :
    Lexeme.first c rest = .ok l ↔
      ∃ w, w.length = l.size ∧ Longest w l.kind l.value (c :: rest) := by
  constructor
  · intro h
    obtain ⟨w, hw, hlength, hspells⟩ := Lexeme.first_taken h
    refine ⟨w, hlength, hw, hspells, ?_⟩
    intro v k p hv hv'
    obtain ⟨m, hm, hcovers⟩ := hv'.first hv
    rw [h] at hm
    cases hm
    rw [hlength]
    exact hcovers.1
  · intro h
    obtain ⟨w, hlength, hw⟩ := h
    obtain ⟨m, hm, hle, hsame⟩ := hw.spells.first hw.starts
    obtain ⟨v, hv, hvlength, hvspells⟩ := Lexeme.first_taken hm
    have hvw := hw.longest hv hvspells
    obtain ⟨hkind, hvalue⟩ := hsame (by omega)
    rw [hm]
    cases l
    cases m
    simp only at hkind hvalue hlength hle hvlength hvw
    simp only [hkind, hvalue, Except.ok.injEq, Lexeme.mk.injEq, true_and]
    omega

/-- What the scanner takes is the longest token. -/
theorem longest_of_first {c : Char} {cs rest : List Char} {kind : Kind} {value : Payload}
    (h : Lexeme.first c (cs ++ rest) = .ok ⟨kind, value, (c :: cs).length⟩) :
    Longest (c :: cs) kind value (c :: cs ++ rest) := by
  obtain ⟨w, hlength, hw⟩ := Lexeme.first_iff.mp h
  have hsame : w = c :: cs := by
    have hprefix : c :: cs <+: c :: cs ++ rest := List.prefix_append _ _
    exact (List.prefix_of_prefix_length_le hw.starts hprefix hlength.le).eq_of_length hlength
  rw [hsame] at hw
  exact hw

end Token

end Slang
