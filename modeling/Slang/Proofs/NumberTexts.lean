import Slang.Proofs.Spelling

/-!
# What number texts are made of

Numbers are written in two layouts and with four words, and all of these use few characters.

* `alphabet` — the characters of number texts.
* `Spelled cs` — only these characters occur.

Principal results: `spelled_literal`, `spelled_display` — the texts of a number are spelled so.
-/

set_option autoImplicit false

namespace Slang.Number

/-- The characters of number texts: digits, point, exponent mark and signs, and the letters of the
words for infinities and for what is no number. -/
def alphabet : List Char := "0123456789.e+-NaInfity".toList

/-- Only characters of number texts occur. -/
def Spelled (cs : List Char) : Prop := ∀ c ∈ cs, c ∈ alphabet

-- The characters of the text are tested, and not all characters that there are.
instance (cs : List Char) : Decidable (Spelled cs) :=
  List.decidableBAll (fun c => c ∈ alphabet) cs

theorem spelled_append {cs ds : List Char} : Spelled (cs ++ ds) ↔ Spelled cs ∧ Spelled ds :=
  List.forall_mem_append

theorem spelled_cons {c : Char} {cs : List Char} :
    Spelled (c :: cs) ↔ c ∈ alphabet ∧ Spelled cs := List.forall_mem_cons

theorem spelled_zeros (n : Nat) : Spelled (List.replicate n '0') := by
  intro c hc
  rw [List.eq_of_mem_replicate hc]
  decide

theorem isDigit_iff {c : Char} : isDigit c = true ↔ c.isDigit = true := by
  simp [isDigit, Char.isDigit, Char.le_def]

theorem spelled_chars (n : Nat) : Spelled (Digits.chars n) := by
  intro c hc
  have hdigit : c.isDigit = true := Nat.isDigit_of_mem_toDigits (by omega) (by omega) hc
  have hmem : c ∈ "0123456789".toList := mem_digits (isDigit_iff.mpr hdigit)
  exact List.mem_append_left ".e+-NaInfity".toList hmem

theorem Spelled.sublist {cs ds : List Char} (h : Spelled ds) (hsub : cs.Sublist ds) : Spelled cs :=
  fun c hc => h c (hsub.subset hc)

theorem spelled_repr (n : Nat) : Spelled n.repr.toList := by
  rw [Nat.toList_repr]
  exact spelled_chars n

theorem spelled_minus {text : String} (h : Spelled text.toList) :
    Spelled ("-" ++ text).toList := by
  rw [String.toList_append]
  exact spelled_append.mpr ⟨by decide, h⟩

theorem spelled_toString (n : Int) : Spelled (toString n).toList := by
  show Spelled n.repr.toList
  rw [Int.repr_eq_if]
  split
  · exact spelled_repr _
  · exact spelled_minus (spelled_repr _)

theorem Spelled.signed {text : String} (h : Spelled text.toList) (negative : Bool) :
    Spelled (Layout.signed negative text).toList := by
  cases negative with
  | false => exact h
  | true => exact spelled_minus h

theorem spelled_positional (cs : List Char) (lead : Int) (h : Spelled cs) :
    Spelled (literalLayout.positional cs lead).toList := by
  unfold Layout.positional
  split
  · rw [String.toList_ofList, spelled_cons, spelled_cons, spelled_append]
    exact ⟨by decide, by decide, spelled_zeros _, h⟩
  · dsimp only
    split
    · rw [String.toList_append, String.toList_ofList, spelled_append, spelled_append]
      exact ⟨⟨h, spelled_zeros _⟩, by decide⟩
    · rw [String.toList_ofList, spelled_append, spelled_cons]
      exact ⟨h.sublist (List.take_sublist _ _), by decide, h.sublist (List.drop_sublist _ _)⟩

theorem spelled_scientific (cs : List Char) (lead : Int) (h : Spelled cs) :
    Spelled (literalLayout.scientific cs lead).toList := by
  have hfraction : Spelled (if cs.length ≤ 1 then [] else '.' :: cs.drop 1) := by
    split
    · exact fun c hc => absurd hc List.not_mem_nil
    · exact spelled_cons.mpr ⟨by decide, h.sublist (List.drop_sublist _ _)⟩
  have hsign : (if lead < 0 then '-' else '+') ∈ alphabet := by
    split <;> decide
  unfold Layout.scientific Layout.padded
  rw [String.toList_ofList, spelled_append, spelled_append, spelled_cons, spelled_cons,
    spelled_append]
  exact ⟨⟨h.sublist (List.take_sublist _ _), hfraction⟩, by decide, hsign, spelled_zeros _,
    spelled_chars _⟩

theorem spelled_spellDigits (d : Digits) : Spelled (literalLayout.spellDigits d).toList := by
  unfold Layout.spellDigits
  dsimp only
  split
  · exact spelled_positional _ _ (spelled_chars _)
  · exact spelled_scientific _ _ (spelled_chars _)

/-- **What a double is written with as a double.** -/
theorem spelled_literal (x : Float) : Spelled (literal x).toList := by
  unfold literal Layout.spell
  split
  · decide
  · exact Spelled.signed (by decide) _
  · exact (spelled_spellDigits _).signed _

/-- **What a NUMERIC value is written with.** -/
theorem spelled_display (x : Float) : Spelled (display x).toList := by
  unfold display
  split
  · decide
  · exact Spelled.signed (by decide) _
  · split
    · exact (spelled_repr _).signed _
    · exact (spelled_spellDigits _).signed _

end Slang.Number
