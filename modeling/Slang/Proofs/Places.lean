import Mathlib.Data.List.Basic
import Slang.Source

/-!
# Offsets and places

A text is a row of characters, and it is a stack of lines.  A diagnostic goes from the one to the
other, and nothing is lost on the way.

* `lines`, `lineStart` — a text cut at its line feeds, and the offsets at which its lines begin.
* `Place.offset`, `Place.char?` — the offset of a place and the character that stands there, both
  told from the lines.
* `Place.Within source place` — the place is a column of a line of the text, the one behind its last
  character included.
* `Place.Before` — reading order.
* `lineColumn_succ` — one step: the place of the next offset.
* `Cut source p earlier left right later` — how an offset cuts the lines of a text.

Principal result: `lineColumn_inverts` — the places of a text are those of its offsets, in the same
order and with the same characters.
-/

set_option autoImplicit false

namespace Slang.Source

/-! ## Lines and places -/

/-- The text cut at its line feeds. -/
def lines (source : List Char) : List (List Char) := source.splitOn '\n'

/-- The length of some lines, each with its line feed. -/
def extent : List (List Char) → Nat
  | [] => 0
  | l :: ls => l.length + 1 + extent ls

/-- The offset at which the line behind the first `n` lines begins. -/
def lineStart (source : List Char) (n : Nat) : Nat := extent ((lines source).take n)

namespace Place

/-- The offset of a place: what the earlier lines take, and the columns in front of it. -/
def offset (source : List Char) (place : Place) : Int :=
  lineStart source (place.line - 1) + (place.column - 1)

/-- The character that stands at a place, found by its line and its column. -/
def char? (source : List Char) (place : Place) : Option Char :=
  (lines source)[place.line - 1]?.bind fun l => l[(place.column - 1).toNat]?

/-- The place is a column of a line of the text, or it is right behind the line. -/
structure Within (source : List Char) (place : Place) : Prop where
  line_pos : 1 ≤ place.line
  line_le : place.line ≤ (lines source).length
  column_pos : 1 ≤ place.column
  column_le : ∃ l, (lines source)[place.line - 1]? = some l ∧ place.column ≤ l.length + 1

/-- A place comes before another one in reading order. -/
def Before (a b : Place) : Prop := a.line < b.line ∨ a.line = b.line ∧ a.column < b.column

/-- Where a text goes on behind this character, or past its end. -/
def next (place : Place) (c : Option Char) : Place :=
  if c = some '\n' then ⟨place.line + 1, 1⟩ else ⟨place.line, place.column + 1⟩

variable {a b c : Place}

theorem Before.trans (h : a.Before b) (h' : b.Before c) : a.Before c := by
  unfold Before at *
  omega

theorem before_next (place : Place) (c : Option Char) : place.Before (place.next c) := by
  unfold next Before
  split
  · exact .inl (Nat.lt_succ_self _)
  · exact .inr ⟨rfl, Int.lt_succ _⟩

end Place

variable {source : List Char} {p : Nat}

/-! ## One step -/

theorem sinceBreak_concat (cs : List Char) (c : Char) :
    sinceBreak (cs ++ [c]) = if c = '\n' then 0 else sinceBreak cs + 1 := by
  unfold sinceBreak
  by_cases hc : c = '\n' <;> simp [hc]

theorem sinceBreak_le (cs : List Char) : sinceBreak cs ≤ cs.length := by
  have hle := (List.takeWhile_prefix (· ≠ '\n') (l := cs.reverse)).length_le
  rwa [List.length_reverse] at hle

theorem offset_nat (size n : Nat) : offset size n = n := by
  rw [offset, if_neg (Int.not_lt.mpr (Int.natCast_nonneg n)), Int.toNat_natCast]

theorem lineColumn_zero (source : List Char) : lineColumn source (0 : Nat) = ⟨1, 1⟩ := by
  simp [lineColumn, offset, sinceBreak]

/-- **One step.** The next offset is on a new line behind a line feed, and otherwise one column
further, also past the end. -/
theorem lineColumn_succ (source : List Char) (p : Nat) :
    lineColumn source (p + 1 : Nat) = (lineColumn source p).next source[p]? := by
  unfold lineColumn
  simp only [offset_nat, List.take_add_one]
  have hle := sinceBreak_le (source.take p)
  cases hc : source[p]? with
  | none =>
    simp only [Option.toList_none, List.append_nil, Place.next, reduceCtorEq, if_false,
      Place.mk.injEq, true_and]
    omega
  | some c =>
    have hlength : (source.take p).length = p := by
      rw [List.length_take]
      exact Nat.min_eq_left (Nat.le_of_lt (List.getElem?_eq_some_iff.mp hc).1)
    by_cases hbreak : c = '\n'
    · simp [Place.next, sinceBreak_concat, hbreak, hlength]
    · simp [Place.next, sinceBreak_concat, hbreak]
      omega

/-- **Later offsets have later places**, also past the end. -/
theorem lineColumn_before (source : List Char) {p q : Nat} (h : p < q) :
    (lineColumn source p).Before (lineColumn source q) := by
  induction q with
  | zero => exact absurd h (Nat.not_lt_zero p)
  | succ q ih =>
    have hstep : (lineColumn source q).Before (lineColumn source (q + 1 : Nat)) := by
      rw [lineColumn_succ]
      exact Place.before_next ..
    rcases Nat.lt_succ_iff_lt_or_eq.mp h with hlt | rfl
    · exact (ih hlt).trans hstep
    · exact hstep

/-! ## The lines around an offset -/

theorem lines_break (rest : List Char) : lines ('\n' :: rest) = [] :: lines rest := by
  simp [lines, List.splitOn_cons_eq_if_modifyHead]

theorem lines_cons {c : Char} (hc : c ≠ '\n') {rest l : List Char} {ls : List (List Char)}
    (h : lines rest = l :: ls) : lines (c :: rest) = (c :: l) :: ls := by
  unfold lines at h
  simp [lines, List.splitOn_cons_eq_if_modifyHead, hc, h]

theorem exists_lines (source : List Char) : ∃ l ls, lines source = l :: ls :=
  List.exists_cons_of_ne_nil (List.splitOn_ne_nil '\n' source)

theorem extent_append (ls ks : List (List Char)) : extent (ls ++ ks) = extent ls + extent ks := by
  induction ls with
  | nil => simp only [List.nil_append, extent, Nat.zero_add]
  | cons l ls ih => simp only [List.cons_append, extent, ih, Nat.add_assoc]

/-- An offset is in a line, with something to the left and something to the right of it.  Here
`right :: later` is all that is left of the text. -/
structure Cut (source : List Char) (p : Nat) (earlier : List (List Char)) (left right : List Char)
    (later : List (List Char)) : Prop where
  lines_eq : lines source = earlier ++ (left ++ right) :: later
  rest : lines (source.drop p) = right :: later
  extent_eq : extent earlier + left.length = p
  place : lineColumn source p = ⟨earlier.length + 1, left.length + 1⟩

/-- A cut behind a line feed is in front of a new line, and a cut behind another character has this
character to the left. -/
theorem Cut.step {earlier later : List (List Char)} {left right : List Char}
    (h : Cut source p earlier left right later) {c : Char} (hc : source[p]? = some c) :
    ∃ earlier' left' right' later', Cut source (p + 1) earlier' left' right' later' ∧
      right = (if c = '\n' then [] else c :: right') := by
  obtain ⟨l, ls, hl⟩ := exists_lines (source.drop (p + 1))
  have hdrop : source.drop p = c :: source.drop (p + 1) := by
    obtain ⟨hlt, hget⟩ := List.getElem?_eq_some_iff.mp hc
    rw [List.drop_eq_getElem_cons hlt, hget]
  have hrest := h.rest
  rw [hdrop] at hrest
  have hextent := h.extent_eq
  by_cases hbreak : c = '\n'
  · -- The line ends here: nothing is to the right, and what was to the left is the whole line.
    rw [hbreak, lines_break, hl] at hrest
    obtain ⟨rfl, rfl⟩ := List.cons.inj hrest
    refine ⟨earlier ++ [left], [], l, ls, ⟨?_, hl, ?_, ?_⟩, (if_pos hbreak).symm⟩
    · rw [h.lines_eq]
      simp
    · rw [extent_append]
      simp only [extent, List.length_nil]
      omega
    · rw [lineColumn_succ, h.place, hc, hbreak]
      simp [Place.next]
  · -- The character changes sides.
    rw [lines_cons hbreak hl] at hrest
    obtain ⟨rfl, rfl⟩ := List.cons.inj hrest
    refine ⟨earlier, left ++ [c], l, ls, ⟨?_, hl, ?_, ?_⟩, (if_neg hbreak).symm⟩
    · rw [h.lines_eq]
      simp
    · rw [List.length_append, List.length_singleton]
      omega
    · rw [lineColumn_succ, h.place, hc]
      simp [Place.next, hbreak]

/-- **Every offset cuts a line.** -/
theorem exists_cut (h : p ≤ source.length) :
    ∃ earlier left right later, Cut source p earlier left right later := by
  induction p with
  | zero =>
    obtain ⟨l, ls, hl⟩ := exists_lines source
    exact ⟨[], [], l, ls, hl, hl, rfl, lineColumn_zero source⟩
  | succ p ih =>
    obtain ⟨earlier, left, right, later, hcut⟩ := ih (Nat.le_of_succ_le h)
    obtain ⟨earlier', left', right', later', hnext, -⟩ :=
      hcut.step (List.getElem?_eq_getElem (Nat.lt_of_succ_le h))
    exact ⟨earlier', left', right', later', hnext⟩

section Cut

variable {earlier later : List (List Char)} {left right : List Char}

theorem Cut.line (h : Cut source p earlier left right later) :
    (lines source)[earlier.length]? = some (left ++ right) := by
  rw [h.lines_eq, List.getElem?_append_right (Nat.le_refl _), Nat.sub_self]
  rfl

theorem Cut.within (h : Cut source p earlier left right later) :
    (lineColumn source p).Within source := by
  rw [h.place]
  refine ⟨Nat.succ_pos _, ?_, ?_, left ++ right, h.line, ?_⟩
  · rw [h.lines_eq, List.length_append, List.length_cons]
    dsimp only
    omega
  · dsimp only
    omega
  · rw [List.length_append]
    push_cast
    omega

theorem Cut.offset (h : Cut source p earlier left right later) :
    (lineColumn source p).offset source = p := by
  have htake : (lines source).take earlier.length = earlier := by
    rw [h.lines_eq, List.take_left]
  have hextent := h.extent_eq
  rw [h.place, Place.offset]
  simp only [Nat.add_sub_cancel, lineStart, htake]
  omega

/-- Counted in lines a line feed is no character: it stands right behind its line. -/
theorem Cut.char? (h : Cut source p earlier left right later) {c : Char}
    (hc : source[p]? = some c) :
    (lineColumn source p).char? source = if c = '\n' then none else some c := by
  obtain ⟨-, -, right', -, -, hright⟩ := h.step hc
  have hcolumn : ((left.length + 1 : Int) - 1).toNat = left.length := by omega
  rw [h.place, Place.char?, Nat.add_sub_cancel, h.line, Option.bind_some, hcolumn, hright,
    List.getElem?_append_right (Nat.le_refl _), Nat.sub_self]
  split <;> rfl

end Cut

/-! ## Every place has an offset -/

/-- A text has its lines in it, with a line feed behind each but the last. -/
theorem extent_lines (source : List Char) : extent (lines source) = source.length + 1 := by
  induction source with
  | nil => rfl
  | cons c rest ih =>
    obtain ⟨l, ls, hl⟩ := exists_lines rest
    rw [hl] at ih
    by_cases hc : c = '\n'
    · rw [hc, lines_break, hl]
      simp only [extent, List.length_nil, List.length_cons] at ih ⊢
      omega
    · rw [lines_cons hc hl]
      simp only [extent, List.length_cons] at ih ⊢
      omega

theorem lineStart_succ {n : Nat} {l : List Char} (h : (lines source)[n]? = some l) :
    lineStart source (n + 1) = lineStart source n + (l.length + 1) := by
  simp only [lineStart, List.take_add_one, h, Option.toList_some, extent_append, extent,
    Nat.add_zero]

theorem lineStart_mono (source : List Char) {m n : Nat} (h : m ≤ n) :
    lineStart source m ≤ lineStart source n := by
  obtain ⟨k, rfl⟩ := Nat.exists_eq_add_of_le h
  rw [lineStart, lineStart, List.take_add, extent_append]
  exact Nat.le_add_right _ _

theorem lineStart_le (source : List Char) (n : Nat) : lineStart source n ≤ source.length + 1 := by
  have hall := congrArg extent (List.take_append_drop n (lines source))
  rw [extent_append, extent_lines] at hall
  unfold lineStart
  omega

namespace Place

variable {a b : Place}

/-- A place is behind the start of its line and in front of the start of the next one. -/
theorem Within.bounds (h : a.Within source) :
    (lineStart source (a.line - 1) : Int) ≤ a.offset source ∧
      a.offset source < lineStart source a.line := by
  obtain ⟨l, hl, hcolumn⟩ := h.column_le
  have hstart := lineStart_succ hl
  rw [Nat.sub_add_cancel h.line_pos] at hstart
  have hpos := h.column_pos
  unfold offset
  omega

theorem Within.le_line (ha : a.Within source) (hb : b.Within source)
    (h : a.offset source = b.offset source) : a.line ≤ b.line := by
  by_contra hlt
  have hmono := lineStart_mono source (Nat.le_sub_one_of_lt (Nat.lt_of_not_le hlt))
  have hafter := ha.bounds.1
  have hbefore := hb.bounds.2
  omega

/-- Two places of a text with one offset are the same place. -/
theorem Within.eq_of_offset (ha : a.Within source) (hb : b.Within source)
    (h : a.offset source = b.offset source) : a = b := by
  have hline : a.line = b.line := Nat.le_antisymm (ha.le_line hb h) (hb.le_line ha h.symm)
  unfold offset at h
  rw [hline] at h
  cases a
  cases b
  simp only [mk.injEq] at hline ⊢
  exact ⟨hline, by dsimp only at h; omega⟩

theorem Within.exists_offset (h : a.Within source) :
    ∃ p : Nat, p ≤ source.length ∧ lineColumn source p = a := by
  obtain ⟨hlow, hhigh⟩ := h.bounds
  have hend := lineStart_le source a.line
  obtain ⟨p, hp⟩ := Int.eq_ofNat_of_zero_le (Int.le_trans (Int.natCast_nonneg _) hlow)
  have hle : p ≤ source.length := by omega
  obtain ⟨earlier, left, right, later, hcut⟩ := exists_cut hle
  exact ⟨p, hle, hcut.within.eq_of_offset h (hcut.offset.trans hp.symm)⟩

end Place

/-! ## Line breaks that become spaces -/

theorem normalize_length (source : List Char) : (normalize source).length = source.length := by
  rw [normalize, List.length_map]

theorem normalize_getElem? (source : List Char) (p : Nat) :
    (normalize source)[p]? = source[p]?.map flatten := by
  rw [normalize, List.getElem?_map]

/-- **Lines and columns invert to offsets.** Take a text and the lines that it is cut into at its
line feeds.  The line and the column of each of its offsets, the end included, are a line of the
text and a column of this line or the one right behind it, and counting them back gives the offset;
each such place is the place of an offset.  Of two offsets, past the end too, the later one has the
later place.  The character at an offset stands at its place, where a line feed is right behind its
line, and it stands at the same offset of the normalized text, where it is a space if it is a line
break. -/
theorem lineColumn_inverts (source : List Char) :
    (∀ p : Nat, p ≤ source.length → (lineColumn source p).Within source ∧
      (lineColumn source p).offset source = p) ∧
    (∀ place : Place, place.Within source →
      ∃ p : Nat, p ≤ source.length ∧ lineColumn source p = place) ∧
    (∀ p q : Nat, p < q → (lineColumn source p).Before (lineColumn source q)) ∧
    (normalize source).length = source.length ∧
    ∀ (p : Nat) (c : Char), source[p]? = some c →
      (lineColumn source p).char? source = (if c = '\n' then none else some c) ∧
      (c ≠ '\r' → c ≠ '\n' → (normalize source)[p]? = some c) ∧
      (c = '\r' ∨ c = '\n' → (normalize source)[p]? = some ' ') := by
  refine ⟨?_, ?_, ?_, normalize_length source, ?_⟩
  · intro p hp
    obtain ⟨earlier, left, right, later, hcut⟩ := exists_cut hp
    exact ⟨hcut.within, hcut.offset⟩
  · intro place hplace
    exact hplace.exists_offset
  · intro p q hpq
    exact lineColumn_before source hpq
  · intro p c hc
    have hnormalize : (normalize source)[p]? = some (flatten c) := by
      rw [normalize_getElem?, hc, Option.map_some]
    refine ⟨?_, ?_, ?_⟩
    · have hp : p < source.length := (List.getElem?_eq_some_iff.mp hc).1
      obtain ⟨earlier, left, right, later, hcut⟩ := exists_cut (Nat.le_of_lt hp)
      exact hcut.char? hc
    · intro hreturn hbreak
      rwa [flatten, if_neg (not_or.mpr ⟨hreturn, hbreak⟩)] at hnormalize
    · intro hbreak
      rwa [flatten, if_pos hbreak] at hnormalize

/-- In a text with an empty line, the line feed of this line is its first column, the end of the
text is right behind the last line, and the carriage return is shown as a space. -/
theorem lineColumn_inverts_breaks :
    4 ≤ "ab\r\n\ncd".toList.length ∧
    lineColumn "ab\r\n\ncd".toList 4 = ⟨2, 1⟩ ∧
    (lineColumn "ab\r\n\ncd".toList 4).Within "ab\r\n\ncd".toList ∧
    (lineColumn "ab\r\n\ncd".toList 4).offset "ab\r\n\ncd".toList = 4 ∧
    (∃ p : Nat, p ≤ "ab\r\n\ncd".toList.length ∧ lineColumn "ab\r\n\ncd".toList p = ⟨3, 3⟩) ∧
    (lineColumn "ab\r\n\ncd".toList 7).Before (lineColumn "ab\r\n\ncd".toList 9) ∧
    (normalize "ab\r\n\ncd".toList)[2]? = some ' ' ∧
    (normalize "ab\r\n\ncd".toList)[5]? = some 'c' ∧
    (⟨3, 1⟩ : Place).char? "ab\r\n\ncd".toList = some 'c' := by
  obtain ⟨hinverts, hplaces, hordered, -, hsame⟩ := lineColumn_inverts "ab\r\n\ncd".toList
  obtain ⟨hwithin, hoffset⟩ := hinverts 4 (by decide)
  have hend : (⟨3, 3⟩ : Place).Within "ab\r\n\ncd".toList :=
    ⟨by decide, by decide, by decide, ['c', 'd'], by decide, by decide⟩
  obtain ⟨-, -, hreturn⟩ := hsame 2 '\r' (by decide)
  obtain ⟨hchar, hletter, -⟩ := hsame 5 'c' (by decide)
  have hplace : lineColumn "ab\r\n\ncd".toList (5 : Nat) = ⟨3, 1⟩ := by decide
  rw [hplace] at hchar
  exact ⟨by decide, by decide, hwithin, hoffset, hplaces _ hend, hordered 7 9 (by decide),
    hreturn (.inl rfl), hletter (by decide) (by decide), hchar⟩

end Slang.Source
