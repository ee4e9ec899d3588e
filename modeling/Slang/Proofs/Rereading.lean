import Slang.Proofs.NumberTexts
import Slang.Proofs.ShortestDecimals

/-!
# Numbers that are read back from their texts

* `natOfDigits_append`, `natOfDigits_chars` — digits and the numbers that they spell.
* `Denotes whole part d` — the digits of a numeral are a decimal.
* `positional_numeral` — what is written in positional notation is a numeral.
* `shortest_side` — a double and its shortest decimal lie on one side of `10 ^ -4`.
* `Denotation bits` — a magnitude is a finite double or the infinity.
* `Writable x` — zero, and what is finite and no smaller than `10 ^ -4`.

Principal results: `display_writable` — the text of a number that is writable is a numeral, and this
numeral is read as the number again; `display_small`, `display_infinite` — the texts of all others
are no numerals.
-/

set_option autoImplicit false

namespace Slang.Number

/-! ## Digits and what they spell -/

theorem natOfDigits_append (cs ds : List Char) :
    natOfDigits (cs ++ ds) = 10 ^ ds.length * natOfDigits cs + natOfDigits ds := by
  show Nat.ofDigitChars 10 (cs ++ ds) 0 = _
  rw [Nat.ofDigitChars_append, Nat.ofDigitChars_eq_ofDigitChars_zero]
  rfl

theorem natOfDigits_zeros (n : Nat) : natOfDigits (List.replicate n '0') = 0 := by
  show Nat.ofDigitChars 10 (List.replicate n '0') 0 = 0
  rw [Nat.ofDigitChars_replicate_zero, Nat.mul_zero]

theorem natOfDigits_chars (n : Nat) : natOfDigits (Digits.chars n) = n :=
  Nat.ofDigitChars_ten_toDigits

theorem isDigit_chars {n : Nat} : ∀ d ∈ Digits.chars n, isDigit d = true := by
  intro d hd
  exact isDigit_iff.mpr (Nat.isDigit_of_mem_toDigits (by omega) (by omega) hd)

theorem isDigit_zeros {n : Nat} : ∀ d ∈ List.replicate n '0', isDigit d = true := by
  intro d hd
  rw [List.eq_of_mem_replicate hd]
  decide

/-! ## Decimals in positional notation -/

/-- The digits around a point are those of a decimal. -/
structure Denotes (whole part : List Char) (d : Digits) : Prop where
  nonempty : whole ≠ []
  whole_digits : ∀ c ∈ whole, isDigit c = true
  part_digits : ∀ c ∈ part, isDigit c = true
  value : (natOfDigits (whole ++ part) : ℚ) * 10 ^ (-(part.length : Int)) = d.value

theorem numeral_of_ne_nil {whole part : List Char} (h : part ≠ []) :
    Token.numeral whole part = whole ++ '.' :: part := if_neg h

section Layouts

variable {cs : List Char} {d : Digits}

/-- All digits behind the point, with zeros in front of them. -/
theorem denotes_behind (hdigits : ∀ c ∈ cs, isDigit c = true)
    (hvalue : natOfDigits cs = d.coefficient) (zeros : Nat)
    (hexponent : d.exponent = -((zeros + cs.length : Nat) : Int)) :
    Denotes ['0'] (List.replicate zeros '0' ++ cs) d := by
  refine ⟨List.cons_ne_nil _ _, List.forall_mem_singleton.mpr rfl,
    List.forall_mem_append.mpr ⟨isDigit_zeros, hdigits⟩, ?_⟩
  have hspelled : natOfDigits (['0'] ++ (List.replicate zeros '0' ++ cs)) = d.coefficient := by
    rw [← List.append_assoc, natOfDigits_append, natOfDigits_append, natOfDigits_zeros, hvalue]
    show 10 ^ cs.length * (10 ^ _ * 0 + 0) + d.coefficient = d.coefficient
    omega
  rw [hspelled, List.length_append, List.length_replicate, ← hexponent]
  rfl

/-- A whole number with zeros behind its digits, marked by a fraction of zero. -/
theorem denotes_whole (hcs : cs ≠ []) (hdigits : ∀ c ∈ cs, isDigit c = true)
    (hvalue : natOfDigits cs = d.coefficient) (zeros : Nat) (hexponent : d.exponent = zeros) :
    Denotes (cs ++ List.replicate zeros '0') ['0'] d := by
  refine ⟨List.append_ne_nil_of_left_ne_nil hcs _,
    List.forall_mem_append.mpr ⟨hdigits, isDigit_zeros⟩, List.forall_mem_singleton.mpr rfl, ?_⟩
  have hspelled : natOfDigits (cs ++ List.replicate zeros '0' ++ ['0']) =
      10 * (10 ^ zeros * d.coefficient) := by
    rw [natOfDigits_append, natOfDigits_append, natOfDigits_zeros, hvalue, List.length_replicate]
    rfl
  rw [hspelled, Digits.value, hexponent, zpow_natCast]
  simp only [List.length_singleton, Nat.cast_mul, Nat.cast_pow, Nat.cast_ofNat, Nat.cast_one,
    zpow_neg_one]
  ring

/-- Digits on both sides of the point. -/
theorem denotes_around (hdigits : ∀ c ∈ cs, isDigit c = true)
    (hvalue : natOfDigits cs = d.coefficient) (size : Nat) (hsize : 0 < size)
    (hcut : size < cs.length) (hexponent : d.exponent = -((cs.length - size : Nat) : Int)) :
    Denotes (cs.take size) (cs.drop size) d := by
  refine ⟨?_, fun c hc => hdigits c (List.mem_of_mem_take hc),
    fun c hc => hdigits c (List.mem_of_mem_drop hc), ?_⟩
  · rw [Ne, List.take_eq_nil_iff]
    rintro (hzero | rfl)
    · omega
    · exact absurd hcut (Nat.not_lt_zero _)
  · rw [List.take_append_drop, hvalue, List.length_drop, ← hexponent]
    rfl

end Layouts

/-- **Positional notation.** What is written is a numeral with the value of the decimal. -/
theorem positional_numeral (d : Digits) : ∃ whole part,
    (literalLayout.positional (Digits.chars d.coefficient) d.lead).toList =
      Token.numeral whole part ∧ Denotes whole part d := by
  have hvalue := natOfDigits_chars d.coefficient
  have hdigits := isDigit_chars (n := d.coefficient)
  have hlead : d.lead = d.exponent + (Digits.chars d.coefficient).length - 1 := rfl
  have hcs : Digits.chars d.coefficient ≠ [] := Nat.toDigits_ne_nil
  generalize Digits.chars d.coefficient = cs at hvalue hdigits hlead hcs
  generalize d.lead = lead at hlead
  have hlength : 0 < cs.length := List.length_pos_iff.mpr hcs
  unfold Layout.positional
  split
  case isTrue hneg =>
    refine ⟨_, _, ?_, denotes_behind hdigits hvalue (-lead - 1).toNat (by omega)⟩
    rw [String.toList_ofList, numeral_of_ne_nil (List.append_ne_nil_of_right_ne_nil _ hcs)]
    rfl
  case isFalse hpos =>
    dsimp only
    split
    case isTrue hfits =>
      refine ⟨_, _, ?_,
        denotes_whole hcs hdigits hvalue (lead.toNat + 1 - cs.length) (by omega)⟩
      rw [String.toList_append, String.toList_ofList]
      rfl
    case isFalse hcut =>
      refine ⟨_, _, ?_,
        denotes_around hdigits hvalue (lead.toNat + 1) (by omega) (by omega) (by omega)⟩
      have hpart : cs.drop (lead.toNat + 1) ≠ [] := by
        rw [Ne, List.drop_eq_nil_iff]
        omega
      rw [String.toList_ofList, numeral_of_ne_nil hpart]

/-! ## The least number in positional notation -/

/-- The least number that is written in positional notation, `10 ^ -4`. -/
def leastPositional : ℚ := 10 ^ literalLayout.leastPositional

variable {m : Nat} {e : Int}

/-- Only one double has this number in its window. It is a little larger, and this number is its
shortest decimal. -/
theorem eq_of_holds_least (hd : IsDouble m e) (hm : 0 < m)
    (h : (Exact.window m e).Holds leastPositional) : m = 7378697629483821 ∧ e = -66 := by
  have hquotient : leastPositional = (1 : Nat) / (10000 : Nat) := by
    unfold leastPositional literalLayout
    norm_num
  rw [hquotient] at h
  have hbits := magnitude?_eq hd hm (by omega) h
  have hleast : magnitude? 1 10000 = some (bitsOf 7378697629483821 (-66)) := by decide +kernel
  rw [hleast, Option.some.injEq] at hbits
  exact hd.bitsOf_inj ⟨by omega, by omega, by omega, .inr (by omega)⟩ hbits.symm

/-- **A double and its shortest decimal lie on one side of the least positional number.** -/
theorem shortest_side (hd : IsDouble m e) (hm : 0 < m) :
    leastPositional ≤ (Exact.shortest m e).value ↔ leastPositional ≤ m * 2 ^ e := by
  have hself := window_self hm e
  have hshortest := shortest_holds hd hm
  by_cases h : (Exact.window m e).Holds leastPositional
  · obtain ⟨rfl, rfl⟩ := eq_of_holds_least hd hm h
    have hdigits : Exact.shortest 7378697629483821 (-66) = ⟨1, -4⟩ := by decide +kernel
    rw [hdigits, Digits.value, leastPositional, literalLayout]
    norm_num
  · constructor
    · intro hle
      by_contra hlt
      exact h (hself.convex hshortest (le_of_not_ge hlt) hle)
    · intro hle
      by_contra hlt
      exact h (hshortest.convex hself (le_of_not_ge hlt) hle)

/-- **Where positional notation is used.** A decimal is written so if it is no smaller than the
least number and smaller than the first one beyond. -/
theorem spellDigits_eq {d : Digits} (hd : 0 < d.coefficient) (hhigh : d.value < 10 ^ (16 : Int)) :
    literalLayout.spellDigits d =
      if leastPositional ≤ d.value then literalLayout.positional (Digits.chars d.coefficient) d.lead
      else literalLayout.scientific (Digits.chars d.coefficient) d.lead := by
  obtain ⟨hlow, hnext⟩ := d.lead_bounds hd
  have hten : (1 : ℚ) < 10 := by norm_num
  have hend : d.lead < 16 := (zpow_lt_zpow_iff_right₀ hten).mp (hlow.trans_lt hhigh)
  have hstart : -4 ≤ d.lead ↔ leastPositional ≤ d.value := by
    constructor
    · intro hle
      exact (zpow_le_zpow_right₀ hten.le hle).trans hlow
    · intro hle
      have hlt := (zpow_lt_zpow_iff_right₀ hten).mp (hle.trans_lt hnext)
      exact Int.le_of_lt_add_one hlt
  show (if -4 ≤ d.lead ∧ d.lead < 16 then
      literalLayout.positional (Digits.chars d.coefficient) d.lead
    else literalLayout.scientific (Digits.chars d.coefficient) d.lead) = _
  simp only [hstart, hend, and_true]

/-! ## Magnitudes -/

theorem magnitude?_le {num den bits : Nat} (h : magnitude? num den = some bits) :
    bits ≤ infiniteBits := by
  unfold magnitude? at h
  split at h
  case isTrue =>
    cases h
    exact Nat.zero_le _
  case isFalse =>
    dsimp only at h
    split at h
    case isTrue hlt =>
      cases h
      exact hlt.le
    case isFalse => cases h

theorem scaledBits_le (c : Nat) (n : Int) : scaledBits c n ≤ infiniteBits := by
  unfold scaledBits
  split
  · exact Nat.zero_le _
  · split
    · exact le_rfl
    · split
      · exact Nat.zero_le _
      · cases h : magnitude? (c * pow10 n.toNat) (pow10 (-n).toNat) with
        | none => exact le_rfl
        | some bits => exact magnitude?_le h

/-- The number that a double is, if it is a number and has no sign. -/
inductive Denotation (bits : Nat) : Prop
  | infinite (hbits : bits = infiniteBits)
      (hx : Exact.ofFloat (ofMagnitude false bits) = .infinite false)
  | finite {m : Nat} {e : Int} (hd : IsDouble m e) (hbits : bits = bitsOf m e)
      (hx : Exact.ofFloat (ofMagnitude false bits) = .finite false m e)

theorem denotation {bits : Nat} (h : bits ≤ infiniteBits) : Denotation bits := by
  have hx := ofFloat_ofMagnitude h
  rcases h.lt_or_eq with hlt | rfl
  · obtain ⟨m, e, hd, hexact, hbits⟩ := ofBits_of_lt hlt
    exact .finite hd hbits (hx.trans hexact)
  · exact .infinite rfl (hx.trans rfl)

/-! ## Reading a text back -/

/-- What is written in positional notation and is finite: zero, and what is no smaller than
`10 ^ -4`. -/
def Writable (x : Float) : Prop :=
  ∃ m e, Exact.ofFloat x = .finite false m e ∧ (m = 0 ∨ leastPositional ≤ m * 2 ^ e)

theorem whole?_eq_some {n : Nat} (h : Exact.whole? m e = some n) : (n : ℚ) = m * 2 ^ e := by
  unfold Exact.whole? at h
  split at h
  case isTrue hpos =>
    cases h
    obtain ⟨k, rfl⟩ := Int.eq_ofNat_of_zero_le hpos
    rw [pow2_eq]
    push_cast
    rfl
  case isFalse hneg =>
    dsimp only at h
    split at h
    case isTrue hdvd =>
      cases h
      obtain ⟨k, rfl⟩ := Nat.dvd_of_mod_eq_zero hdvd
      have hpow : 0 < pow2 (-e).toNat := Nat.pow_pos (by omega)
      have hscale : ((pow2 (-e).toNat : Nat) : ℚ) * 2 ^ e = 1 := by
        have hcancel : (2 : ℚ) ^ (-e).toNat * 2 ^ e = 2 ^ (((-e).toNat : Int) + e) := by
          rw [zpow_add₀ (by norm_num), zpow_natCast]
        have hzero : ((-e).toNat : Int) + e = 0 := by omega
        rw [hzero, zpow_zero] at hcancel
        rw [pow2_eq]
        exact_mod_cast hcancel
      rw [Nat.mul_div_cancel_left k hpow]
      push_cast
      rw [mul_right_comm, hscale, one_mul]
    case isFalse => cases h

/-- What is no whole number is positive and has bits behind the point. -/
theorem whole?_eq_none (h : Exact.whole? m e = none) : 0 < m ∧ e < 0 := by
  unfold Exact.whole? at h
  split at h
  case isTrue hpos => cases h
  case isFalse hneg =>
    dsimp only at h
    split at h
    case isTrue => cases h
    case isFalse hrest =>
      refine ⟨Nat.pos_of_ne_zero ?_, Int.lt_of_not_ge hneg⟩
      rintro rfl
      exact hrest (Nat.zero_mod _)

/-- The digits of a decimal in the window of a double are read as this double. -/
theorem Denotes.read {whole part : List Char} {d : Digits} (h : Denotes whole part d)
    (hd : IsDouble m e) (hm : 0 < m) (hd' : (Exact.window m e).Holds d.value) :
    ofDecimal whole part = ofMagnitude false (bitsOf m e) := by
  rw [← h.value] at hd'
  rw [ofDecimal, ofScaled, scaledBits_eq hd hm hd']

/-- A whole number is read back from its digits. -/
theorem ofDecimal_whole {n : Nat} (hd : IsDouble m e) (hn : (n : ℚ) = m * 2 ^ e) :
    ofDecimal (Digits.chars n) [] = ofMagnitude false (bitsOf m e) := by
  have hs : (0 : ℚ) < 2 ^ e := by positivity
  rw [ofDecimal, List.append_nil, natOfDigits_chars, ofScaled]
  rcases Nat.eq_zero_or_pos m with rfl | hm
  · obtain rfl : n = 0 := by simpa using hn
    have hleast : e = -1074 := by
      rcases hd.normal with he | he
      · exact he
      · omega
    subst hleast
    rfl
  · have hself := window_self hm e
    rw [← hn] at hself
    rw [scaledBits_eq hd hm]
    simpa using hself

/-- The shortest decimal of what is no whole number. -/
theorem shortest_bounds (hd : IsDouble m e) (hm : 0 < m) (he : e < 0) :
    0 < (Exact.shortest m e).coefficient ∧ (Exact.shortest m e).value < 10 ^ (16 : Int) := by
  have hholds := shortest_holds hd hm
  constructor
  · apply Nat.pos_of_ne_zero
    intro hzero
    have hpos := pos_of_window hm hholds
    rw [Digits.value, hzero] at hpos
    simp at hpos
  · have hlt : (m : ℚ) + 1 ≤ 2 ^ 53 := by exact_mod_cast hd.mantissa_lt
    rw [window_holds hm] at hholds
    calc (Exact.shortest m e).value ≤ (m + 1 / 2) * 2 ^ e := hholds.high.le
      _ ≤ 2 ^ 53 * 2 ^ (0 : Int) := by
          apply mul_le_mul (by linarith) (zpow_le_zpow_right₀ (by norm_num) he.le) (by positivity)
            (by positivity)
      _ < 10 ^ (16 : Int) := by norm_num

section Texts

variable {x : Float}

theorem display_finite (hx : Exact.ofFloat x = .finite false m e) :
    display x = match Exact.whole? m e with
      | some n => toString n
      | none => literalLayout.spellDigits (Exact.shortest m e) := by
  unfold display
  rw [hx]
  dsimp only
  cases Exact.whole? m e <;> rfl

/-- **A number that is written in positional notation is read back from its text.** -/
theorem display_writable (hd : IsDouble m e) (hx : Exact.ofFloat x = .finite false m e)
    (hbits : x = ofMagnitude false (bitsOf m e)) (hw : m = 0 ∨ leastPositional ≤ m * 2 ^ e) :
    Token.Spells (display x).toList .number (.number x) := by
  rw [display_finite hx]
  cases hwhole : Exact.whole? m e with
  | some n =>
    have hread := ofDecimal_whole hd (whole?_eq_some hwhole)
    rw [← hbits] at hread
    have hne : Digits.chars n ≠ [] := Nat.toDigits_ne_nil
    have hnone : ∀ c ∈ ([] : List Char), isDigit c = true := List.forall_mem_nil _
    have hvalue := readFloat?_numeral hne isDigit_chars hnone
    rw [hread] at hvalue
    rw [show (toString n).toList = Token.numeral (Digits.chars n) [] from Nat.toList_repr]
    exact .number hne isDigit_chars hnone hvalue
  | none =>
    obtain ⟨hm, he⟩ := whole?_eq_none hwhole
    obtain ⟨hcoefficient, hhigh⟩ := shortest_bounds hd hm he
    have hleast := (shortest_side hd hm).mpr (hw.resolve_left hm.ne')
    obtain ⟨whole, part, htext, hdenotes⟩ := positional_numeral (Exact.shortest m e)
    have hread := hdenotes.read hd hm (shortest_holds hd hm)
    rw [← hbits] at hread
    have hvalue := readFloat?_numeral hdenotes.nonempty hdenotes.whole_digits hdenotes.part_digits
    rw [hread] at hvalue
    dsimp only
    rw [spellDigits_eq hcoefficient hhigh, if_pos hleast, htext]
    exact .number hdenotes.nonempty hdenotes.whole_digits hdenotes.part_digits hvalue

theorem scientific_toList {cs : List Char} {lead : Int} (h : lead < 0) :
    (literalLayout.scientific cs lead).toList = Token.numeral (cs.take 1) (cs.drop 1) ++
      'e' :: '-' :: Layout.padded 2 (Digits.chars lead.natAbs) := by
  have hfraction : cs.take 1 ++ (if cs.length ≤ 1 then [] else '.' :: cs.drop 1) =
      Token.numeral (cs.take 1) (cs.drop 1) := by
    unfold Token.numeral
    by_cases hlength : cs.length ≤ 1
    · rw [if_pos hlength, if_pos (List.drop_eq_nil_iff.mpr hlength), List.append_nil]
    · rw [if_neg hlength, if_neg (mt List.drop_eq_nil_iff.mp hlength)]
  unfold Layout.scientific
  rw [String.toList_ofList, hfraction, if_pos h]
  rfl

/-- **A smaller number is written with an exponent.** -/
theorem display_small (hd : IsDouble m e) (hx : Exact.ofFloat x = .finite false m e) (hm : 0 < m)
    (hsmall : m * 2 ^ e < leastPositional) : ∃ whole part digits,
      (display x).toList = Token.numeral whole part ++ 'e' :: '-' :: digits ∧
        whole ≠ [] ∧ (∀ c ∈ whole, isDigit c = true) ∧ (∀ c ∈ part, isDigit c = true) ∧
        digits ≠ [] ∧ ∀ c ∈ digits, isDigit c = true := by
  have hpos : (0 : ℚ) < m * 2 ^ e := by
    have : (0 : ℚ) < m := by exact_mod_cast hm
    positivity
  have hone : leastPositional < 1 := by
    unfold leastPositional literalLayout
    norm_num
  rw [display_finite hx]
  cases hwhole : Exact.whole? m e with
  | some n =>
    rw [← whole?_eq_some hwhole] at hpos hsmall
    have : 0 < n := by exact_mod_cast hpos
    have : n < 1 := by exact_mod_cast hsmall.trans hone
    omega
  | none =>
    obtain ⟨-, he⟩ := whole?_eq_none hwhole
    obtain ⟨hcoefficient, hhigh⟩ := shortest_bounds hd hm he
    have hside := mt (shortest_side hd hm).mp (not_le_of_gt hsmall)
    dsimp only
    rw [spellDigits_eq hcoefficient hhigh, if_neg hside]
    obtain ⟨hlow, -⟩ := (Exact.shortest m e).lead_bounds hcoefficient
    have hlead : (Exact.shortest m e).lead < 0 := by
      rw [← zpow_lt_zpow_iff_right₀ (show (1 : ℚ) < 10 by norm_num), zpow_zero]
      exact (hlow.trans_lt (lt_of_not_ge hside)).trans hone
    have hne : Digits.chars (Exact.shortest m e).coefficient ≠ [] := Nat.toDigits_ne_nil
    have hexponent : Digits.chars (Exact.shortest m e).lead.natAbs ≠ [] := Nat.toDigits_ne_nil
    refine ⟨_, _, _, scientific_toList hlead, ?_,
      fun c hc => isDigit_chars c (List.mem_of_mem_take hc),
      fun c hc => isDigit_chars c (List.mem_of_mem_drop hc),
      List.append_ne_nil_of_right_ne_nil _ hexponent,
      List.forall_mem_append.mpr ⟨isDigit_zeros, isDigit_chars⟩⟩
    simpa using hne

theorem display_infinite (hx : Exact.ofFloat x = .infinite false) : display x = "Infinity" := by
  unfold display
  rw [hx]
  rfl

end Texts

end Slang.Number
