import Slang.Proofs.PrintedRuns
import Slang.Proofs.Rooms
import Slang.Proofs.Seams

/-!
# Texts that are joined and printed

A program of one PRINT that joins string literals is followed through all phases, from the
characters of the source to the event of the run.

* `Spaced ws text` — the words `ws` in their order, with any blank space around them.
* `Piece`, `Piece.Closed` — a token with its characters, and one that ends where it ends whatever
  stands behind it.
* `Joins texts ts e` — the tokens `ts` of the sum `e` of some string literals.
* `Joins.accepts` — the parser reads such a sum exactly if it has two frames more than literals.
* `accepts_single` — what becomes of its only statement becomes of a script.
* `Joins.tells` — the sum is worth the joined text.

Principal result: `join_prints` — within the frames that are left to the parser the joined text is
printed, and beyond them the program is nested too deeply.
-/

set_option autoImplicit false

namespace Slang

variable {frames : Nat}

/-! ## Words with blank space around them -/

/-- Spaces, tabs and line breaks, any number of them. -/
def BlankSpace (gap : List Char) : Prop := ∀ c ∈ gap, c = ' ' ∨ c = '\t' ∨ c = '\r' ∨ c = '\n'

instance (gap : List Char) : Decidable (BlankSpace gap) :=
  List.decidableBAll (fun c => c = ' ' ∨ c = '\t' ∨ c = '\r' ∨ c = '\n') gap

/-- Words in their order, with blank space before, between and behind them. -/
inductive Spaced : List (List Char) → List Char → Prop
  | nil {gap : List Char} (hgap : BlankSpace gap) : Spaced [] gap
  | cons {gap w text : List Char} {ws : List (List Char)} (hgap : BlankSpace gap)
      (h : Spaced ws text) : Spaced (w :: ws) (gap ++ w ++ text)

theorem isBlank_flatten {gap : List Char} (h : BlankSpace gap) :
    ∀ c ∈ Source.normalize gap, Token.isBlank c = true := by
  refine List.forall_mem_map.mpr fun c hc => ?_
  rcases h c hc with rfl | rfl | rfl | rfl <;> decide

namespace Token

/-- A token with the characters that it is written with. -/
structure Piece where
  chars : List Char
  kind : Kind
  value : Payload

namespace Piece

/-- Kind and payload of a piece. -/
def content (p : Piece) : Kind × Option Payload := (p.kind, some p.value)

/-- There is no line break in the piece, and nothing behind it can make it longer. -/
structure Closed (p : Piece) : Prop where
  flat : Source.normalize p.chars = p.chars
  longest : ∀ rest, Longest p.chars p.kind p.value (p.chars ++ rest)

/-- A string literal. -/
def quoted (t : String) : Piece := ⟨'"' :: t.toList ++ ['"'], .stringLiteral, .text t⟩

/-- A symbol. -/
def ofSymbol (s : Symbol) : Piece := ⟨s.spelling.toList, .symbol s, .text s.spelling⟩

end Piece

variable {pos : Nat} {text : List Char} {reports : List TokenReport}

theorem Tiles.behind_blanks {blanks : List Char} (hblanks : ∀ c ∈ blanks, isBlank c = true) :
    ∀ {pos : Nat}, Tiles (pos + blanks.length) text reports →
      Tiles pos (blanks ++ text) reports := by
  induction blanks with
  | nil => exact fun h => h
  | cons c blanks ih =>
    intro pos h
    rw [List.forall_mem_cons] at hblanks
    rw [offset_cons] at h
    exact .blank hblanks.1 (ih hblanks.2 h)

theorem normalize_append (cs ds : List Char) :
    Source.normalize (cs ++ ds) = Source.normalize cs ++ Source.normalize ds := List.map_append

/-- **Closed pieces are found in a text again**, with any blank space around them. -/
theorem tiles_of_spaced : ∀ {ps : List Piece}, (∀ p ∈ ps, p.Closed) →
    ∀ {text : List Char}, Spaced (ps.map (·.chars)) text → ∀ pos : Nat,
      ∃ reports, Tiles pos (Source.normalize text) reports ∧
        reports.map (·.token.content) = ps.map Piece.content ++ [(.endOfInput, none)]
  | [], _, _, .nil hgap, pos => by
    have htiles := Tiles.behind_blanks (isBlank_flatten hgap) (.finish (pos + _))
    rw [List.append_nil] at htiles
    exact ⟨_, htiles, rfl⟩
  | p :: ps, hclosed, _, .cons hgap h, pos => by
    rename_i gap text
    rw [List.forall_mem_cons] at hclosed
    obtain ⟨reports, htiles, hcontent⟩ := tiles_of_spaced hclosed.2 h
      (pos + (Source.normalize gap).length + p.chars.length)
    rw [normalize_append, normalize_append, hclosed.1.flat, List.append_assoc]
    refine ⟨_, (Tiles.token (hclosed.1.longest _) htiles).behind_blanks (isBlank_flatten hgap), ?_⟩
    rw [List.map_cons, hcontent]
    rfl

theorem isWordPart_of_blank {c : Char} (h : isBlank c = true) : isWordPart c = false := by
  refine Bool.eq_false_iff.mpr fun hpart => ?_
  rw [not_blank_of_wordPart hpart] at h
  cases h

/-- Where words are behind blank space, a text starts with a blank or with the first of them. -/
theorem head_of_spaced {ps : List Piece} {text : List Char} (hps : ∀ p ∈ ps, p.Closed)
    (hfirst : ∀ p ∈ ps.head?, ∃ c cs, p.chars = c :: cs ∧ isWordPart c = false)
    (h : Spaced (ps.map (·.chars)) text) :
    ∀ c ∈ (Source.normalize text).head?, isWordPart c = false := by
  intro c hc
  have hgap : ∀ {gap : List Char}, BlankSpace gap → c ∈ Source.normalize gap →
      isWordPart c = false := fun hgap hc => isWordPart_of_blank (isBlank_flatten hgap c hc)
  cases ps with
  | nil =>
    cases h with
    | nil hblank => exact hgap hblank (List.mem_of_mem_head? hc)
  | cons p ps =>
    cases h with
    | @cons gap _ text _ hblank h =>
      obtain ⟨d, ds, hchars, hd⟩ := hfirst p rfl
      have hflat := (hps p (List.mem_cons_self ..)).flat
      rw [normalize_append, normalize_append, hflat, hchars, List.append_assoc] at hc
      cases gap with
      | nil =>
        obtain rfl : d = c := by simpa [Source.normalize] using hc
        exact hd
      | cons b gap =>
        refine hgap hblank ?_
        obtain rfl : Source.flatten b = c := by simpa [Source.normalize] using hc
        exact List.mem_cons_self ..

/-- A word in front of the pieces, which ends where no part of a word follows. -/
theorem tiles_of_word {w : Piece} {ps : List Piece} (hflat : Source.normalize w.chars = w.chars)
    (hlongest : ∀ rest, (∀ c ∈ rest.head?, isWordPart c = false) →
      Longest w.chars w.kind w.value (w.chars ++ rest))
    (hps : ∀ p ∈ ps, p.Closed)
    (hfirst : ∀ p ∈ ps.head?, ∃ c cs, p.chars = c :: cs ∧ isWordPart c = false)
    {text : List Char} (h : Spaced ((w :: ps).map (·.chars)) text) :
    ∃ reports, Tiles 0 (Source.normalize text) reports ∧
      reports.map (·.token.content) = (w :: ps).map Piece.content ++ [(.endOfInput, none)] := by
  cases h with
  | @cons gap _ text _ hgap h =>
    obtain ⟨reports, htiles, hcontent⟩ := tiles_of_spaced hps h
      (0 + (Source.normalize gap).length + w.chars.length)
    have hhead := head_of_spaced hps hfirst h
    rw [normalize_append, normalize_append, hflat, List.append_assoc]
    refine ⟨_, (Tiles.token (hlongest _ hhead) htiles).behind_blanks (isBlank_flatten hgap), ?_⟩
    rw [List.map_cons, hcontent]
    rfl

/-! ### The pieces of a sum -/

theorem normalize_eq_self {cs : List Char} (h : ∀ c ∈ cs, c ≠ '\r' ∧ c ≠ '\n') :
    Source.normalize cs = cs := by
  have hflat : ∀ c ∈ cs, Source.flatten c = c := fun c hc => if_neg (not_or.mpr (h c hc))
  exact (List.map_congr_left hflat).trans (List.map_id _)

/-- Only a quote ends a string literal. -/
theorem closed_quoted {t : String} (h : ∀ c ∈ t.toList, c ≠ '"' ∧ c ≠ '\r' ∧ c ≠ '\n') :
    (Piece.quoted t).Closed := by
  constructor
  · refine normalize_eq_self ?_
    have hquote : ∀ c ∈ ['"'], c ≠ '\r' ∧ c ≠ '\n' := List.all_iff_forall_prop.1 (by decide)
    exact List.forall_mem_append.mpr
      ⟨List.forall_mem_cons.mpr ⟨by decide, fun c hc => (h c hc).2⟩, hquote⟩
  · intro rest
    have hbody : '"' ∉ t.toList := fun hmem => (h _ hmem).1 rfl
    have hfirst : Lexeme.first '"' (t.toList ++ '"' :: rest) =
        .ok ⟨.stringLiteral, .text (String.ofList t.toList), t.toList.length + 2⟩ :=
      stringBody_of_body hbody rest
    rw [String.ofList_toList] at hfirst
    have hlongest := @longest_of_first '"' (t.toList ++ ['"']) rest .stringLiteral (.text t)
      (by simpa using hfirst)
    exact hlongest

theorem closed_plus : (Piece.ofSymbol .plus).Closed :=
  ⟨by decide, fun rest => @longest_of_first '+' [] rest _ _ rfl⟩

theorem closed_semicolon : (Piece.ofSymbol .semicolon).Closed :=
  ⟨by decide, fun rest => @longest_of_first ';' [] rest _ _ rfl⟩

/-- A reserved word ends where no part of a word follows. -/
theorem longest_print {rest : List Char} (h : ∀ c ∈ rest.head?, isWordPart c = false) :
    Longest "PRINT".toList (.keyword .print) (.text "PRINT") ("PRINT".toList ++ rest) := by
  have hword : ("PRINT".toList ++ rest).takeWhile isWordPart = "PRINT".toList := by
    rw [List.takeWhile_append_of_pos (List.all_iff_forall_prop.1 (by decide))]
    cases rest with
    | nil => rfl
    | cons c rest => rw [List.takeWhile_cons_of_neg (by simp [h c rfl]), List.append_nil]
  have hfirst : Lexeme.first 'P' ("RINT".toList ++ rest) =
      .ok (word ("PRINT".toList ++ rest)) := rfl
  rw [word, hword] at hfirst
  exact longest_of_first hfirst

end Token

/-! ## Sums of string literals -/

/-- The tokens spell a sum of string literals, which is grouped to the right. -/
inductive Joins : List String → List Token → Expr → Prop
  | one {q : Token} {t : String} (hq : q.content = (.stringLiteral, some (.text t))) :
      Joins [t] [q] (.text (.ofPos q.pos) t)
  | more {q plus : Token} {t : String} {texts : List String} {ts : List Token} {e : Expr}
      (hq : q.content = (.stringLiteral, some (.text t))) (hp : plus.kind = .symbol .plus)
      (h : Joins texts ts e) :
      Joins (t :: texts) (q :: plus :: ts)
        (.arith (.ofPos plus.pos) none .add (.text (.ofPos q.pos) t) e)

/-- The pieces of a sum of string literals. -/
def sumPieces : List String → List Token.Piece
  | [] => []
  | [t] => [.quoted t]
  | t :: u :: rest => .quoted t :: .ofSymbol .plus :: sumPieces (u :: rest)

theorem chars_sumPieces : ∀ texts : List String, (sumPieces texts).map (·.chars) =
    (texts.map fun t => '"' :: t.toList ++ ['"']).intersperse ['+']
  | [] => rfl
  | [t] => rfl
  | t :: u :: rest => by
    rw [sumPieces, List.map_cons, List.map_cons, chars_sumPieces (u :: rest)]
    rfl

theorem closed_sumPieces : ∀ {texts : List String},
    (∀ t ∈ texts, ∀ c ∈ t.toList, c ≠ '"' ∧ c ≠ '\r' ∧ c ≠ '\n') →
      ∀ p ∈ sumPieces texts, p.Closed
  | [], _ => by simp [sumPieces]
  | [t], h => List.forall_mem_singleton.mpr (Token.closed_quoted (h t (by simp)))
  | t :: u :: rest, h => by
    rw [List.forall_mem_cons] at h
    exact List.forall_mem_cons.mpr ⟨Token.closed_quoted h.1,
      List.forall_mem_cons.mpr ⟨Token.closed_plus, closed_sumPieces h.2⟩⟩

/-- Tokens with the content of a sum spell one. -/
theorem joins_of_content : ∀ {texts : List String} {ts : List Token}, texts ≠ [] →
    ts.map Token.content = (sumPieces texts).map Token.Piece.content → ∃ e, Joins texts ts e
  | [], _, hne, _ => absurd rfl hne
  | [t], ts, _, h => by
    obtain ⟨q, rfl, hq⟩ := List.map_eq_singleton_iff.mp h
    exact ⟨_, .one hq⟩
  | t :: u :: rest, ts, _, h => by
    obtain ⟨q, _, rfl, hq, h⟩ := List.map_eq_cons_iff.mp h
    obtain ⟨plus, ts, rfl, hp, h⟩ := List.map_eq_cons_iff.mp h
    obtain ⟨e, he⟩ := joins_of_content (List.cons_ne_nil u rest) h
    exact ⟨_, .more hq (congrArg Prod.fst hp) he⟩

namespace Joins

open Grammar

variable {texts : List String} {ts : List Token} {e : Expr}

theorem length_pos (h : Joins texts ts e) : 0 < texts.length := by cases h <;> simp

theorem text_of_content {q : Token} {t : String}
    (hq : q.content = (.stringLiteral, some (.text t))) :
    q.kind = .stringLiteral ∧ q.valueText = t := by
  obtain ⟨kind, value, pos⟩ := q
  cases hq
  exact ⟨rfl, rfl⟩

theorem derives_text {known : Signatures} {q : Token} {t : String}
    (hq : q.content = (.stringLiteral, some (.text t))) :
    Derives known .term [q] (.text (.ofPos q.pos) t) := by
  obtain ⟨hk, rfl⟩ := text_of_content hq
  exact .operand rfl (.text hk)

theorem pick_plus {plus : Token} (hp : plus.kind = .symbol .plus) :
    operator Level.sum.pick plus.kind = some .add := by
  rw [hp]
  rfl

theorem derives {known : Signatures} (h : Joins texts ts e) : Derives known .sum ts e := by
  induction h with
  | one hq => exact .operand rfl (derives_text hq)
  | @more q plus t texts ts e hq hp _ ih => exact .chain rfl (derives_text hq) (pick_plus hp) ih

theorem hasType {Γ : Types} (h : Joins texts ts e) : HasType Γ e (some .string) := by
  induction h with
  | one => exact .text
  | more _ _ _ ih => exact .join .text ih

/-! ### How many frames a sum takes -/

section Frames

variable {known : Signatures} {s : State}

/-- Whatever becomes of a level becomes of the one around it, with one frame more. -/
theorem accepts_outer {l m : Level} {rest : List Token} {k : Nat} (hl : l.inner = some m)
    (hne : ts ≠ []) (hr : s.rest = ts ++ rest) (hs : l.Stops rest)
    (h : ∀ n, Accepts (m.read known n) s ts (fun e' s' => Returned s e e' s' ∧ k ≤ n) (¬ k ≤ n))
    (n : Nat) : Accepts (l.read known n) s ts (fun e' s' => Returned s e e' s' ∧ k + 1 ≤ n)
      (¬ k + 1 ≤ n) := by
  cases n with
  | zero =>
    obtain ⟨t, us, rfl⟩ := List.exists_cons_of_ne_nil hne
    rw [Level.read_zero]
    exact Accepts.tooDeep hr (by omega)
  | succ n =>
    rw [Level.read_succ hl]
    refine accepts_chain_operand hr hs ((h n).mono (fun e' s' _ h => ?_) ?_)
    · exact ⟨h.1, by omega⟩
    · omega

/-- A string literal takes a frame for the operand and one for the level around it. -/
theorem accepts_text {q : Token} {t : String} {rest : List Token}
    (hq : q.content = (.stringLiteral, some (.text t))) (hr : s.rest = [q] ++ rest)
    (hs : Level.Stops .term rest) (n : Nat) :
    Accepts (Level.term.read known n) s [q]
      (fun e' s' => Returned s (.text (.ofPos q.pos) t) e' s' ∧ 2 ≤ n) (¬ 2 ≤ n) := by
  refine accepts_outer rfl (List.cons_ne_nil q []) hr hs (fun n => ?_) n
  obtain ⟨hk, rfl⟩ := text_of_content hq
  cases n with
  | zero =>
    rw [Level.read_zero]
    exact Accepts.tooDeep hr (by omega)
  | succ n =>
    simp only [Level.read, factor]
    refine Accepts.look hr ?_
    simp only [hk]
    exact (accepts_literal hr (by simp [hk])).mono (fun e' s' _ h => ⟨h, by omega⟩) id

/-- **The parser reads a sum exactly if it has two frames more than there are literals.** -/
theorem accepts (h : Joins texts ts e) : ∀ (m : Nat) (s : State) (rest : List Token),
    s.rest = ts ++ rest → Level.Stops .sum rest →
      Accepts (Level.sum.read known m) s ts
        (fun e' s' => Returned s e e' s' ∧ texts.length + 2 ≤ m) (¬ texts.length + 2 ≤ m) := by
  induction h with
  | @one q t hq =>
    intro m s rest hr hs
    exact accepts_outer rfl (List.cons_ne_nil q []) hr hs (accepts_text hq hr (hs.inner rfl)) m
  | @more q plus t texts ts e hq hp hjoins ih =>
    have hpos := hjoins.length_pos
    rintro (_ | m) s rest hr hs
    · rw [Level.read_zero]
      exact Accepts.tooDeep hr (by omega)
    · have hstops : Level.Stops .term (plus :: (ts ++ rest)) := stops_operator _ rfl (pick_plus hp)
      rw [Level.read_succ rfl]
      refine accepts_chain hr (pick_plus hp) ((accepts_text hq hr hstops m).mono
        (fun e' s' _ h => h.1) fun h => ?_) fun s' hr' htable =>
          (ih m s' rest hr' hs).mono ?_ fun h => ?_
      · simp only [List.length_cons]
        omega
      · rintro e' s'' _ ⟨⟨rfl, htable'⟩, hm⟩
        refine ⟨⟨rfl, htable'.trans htable⟩, ?_⟩
        simp only [List.length_cons]
        omega
      · simp only [List.length_cons]
        omega

theorem accepts_logical (h : Joins texts ts e) {rest : List Token} (hr : s.rest = ts ++ rest)
    (hs : Level.Stops .logical rest) (m : Nat) :
    Accepts (logical known m) s ts
      (fun e' s' => Returned s e e' s' ∧ texts.length + 4 ≤ m) (¬ texts.length + 4 ≤ m) := by
  have hne : ts ≠ [] := (@derives _ _ _ known h).ne_nil
  have hs' : Level.Stops .comparison rest := hs.inner rfl
  exact accepts_outer (l := .logical) rfl hne hr hs
    (accepts_outer rfl hne hr hs' fun n => h.accepts n s rest hr (hs'.inner rfl)) m

end Frames

/-! ### What a sum is worth -/

/-- A tree that was written as a string literal is one. -/
theorem eq_text_of_bare {e : Expr} {m : Mark} {t : String} (h : e.bare = .text m t) :
    ∃ m', e = .text m' t := by
  cases e with
  | text m' u =>
    cases h
    exact ⟨m', rfl⟩
  | _ => cases h

theorem eq_arith_of_bare {e l r : Expr} {m : Mark} {ty : Tag} {op : Operator}
    (h : e.bare = .arith m ty op l r) :
    ∃ m' ty' l' r', e = .arith m' ty' op l' r' ∧ l'.bare = l ∧ r'.bare = r := by
  cases e with
  | arith m' ty' op' l' r' =>
    cases h
    exact ⟨m', ty', l', r', rfl, rfl, rfl⟩
  | _ => cases h

/-- **The sum is worth the joined text**, whatever types and numbers are recorded in the tree. -/
theorem tells {invoke : Invoke} {table : Table} (h : Joins texts ts e) : ∀ {e' : Expr},
    e'.bare = e → Tells (e'.eval invoke table) []
      (.ok (.result (some .string) (.text (String.join texts)))) := by
  induction h with
  | one =>
    intro e' he
    obtain ⟨m, rfl⟩ := eq_text_of_bare he
    rw [String.join_cons, String.join_nil, String.append_empty]
    exact tells_pure.mpr ⟨rfl, rfl⟩
  | @more q plus t texts ts e hq hp hjoins ih =>
    intro e' he
    obtain ⟨m, ty, l, r, rfl, hl, hr⟩ := eq_arith_of_bare he
    obtain ⟨m', rfl⟩ := eq_text_of_bare hl
    rw [Expr.eval, String.join_cons]
    have hleft : Tells (Expr.eval invoke table (.text m' t)) []
        (.ok (.result (some .string) (.text t))) := tells_pure.mpr ⟨rfl, rfl⟩
    exact hleft.bind ((ih hr).bind (tells_pure.mpr ⟨rfl, rfl⟩))

end Joins

/-! ## A script of one statement -/

namespace Grammar

section Single

variable {α : Type} {known : Signatures} {scope : Scope} {s : State} {t : Token}
  {ts rest : List Token} {P short : Prop}

/-- Behind the last item nothing more is read, whatever the bound. -/
theorem accepts_many_stop {begins : Token.Kind → Bool} {item : Reader α} {before : List α}
    (hr : s.rest = t :: rest) (ht : begins t.kind = false) (n : Nat) :
    Accepts (many begins item n before) s [] (fun as _ => as = before.reverse) short := by
  cases n with
  | zero =>
    unfold many
    refine Accepts.look hr ?_
    rw [if_neg (by simp [ht])]
    exact Accepts.pure rfl
  | succ n =>
    unfold many
    refine Accepts.look hr ?_
    rw [if_neg (by simp [ht])]
    exact Accepts.pure rfl

/-- Whatever becomes of its only statement, with a frame less, becomes of a block. -/
theorem accepts_block_single {title : String} {u : Token} {us : List Token}
    (hts : ts = u :: us) (hu : endsBlock u.kind = false) (ht : endsBlock t.kind = true)
    (hr : s.rest = ts ++ t :: rest) (hshort : frames = 0 → short)
    (hstatement : ∀ n s', frames = n + 1 → s'.rest = ts ++ t :: rest → s'.table = s.table →
      Accepts (statement scope n) s' ts (fun _ _ => P) short) :
    Accepts (block scope title frames) s ts (fun _ _ => P) short := by
  have hcur : ts ++ t :: rest = u :: (us ++ t :: rest) := by rw [hts, List.cons_append]
  cases frames with
  | zero => exact Accepts.tooDeep (hr.trans hcur) (hshort rfl)
  | succ n =>
    unfold block
    refine (still_begin _).accepts_bind (by simp [hr]) fun id s₁ hr₁ ht₁ => ?_
    rw [hr] at hr₁
    refine Accepts.look (hr₁.trans hcur) ?_
    refine Accepts.remaining.bind ts ?_
    rintro _ s₂ _ ⟨rfl, rfl⟩
    have hmany : Accepts (many (fun k => !endsBlock k) (statement scope n) s₂.rest.length []) s₂ ts
        (fun _ _ => P) short := by
      rw [hr₁, hcur, List.length_cons]
      unfold many
      refine Accepts.look (hr₁.trans hcur) ?_
      rw [if_pos (by simp [hu])]
      refine (hstatement n s₂ rfl hr₁ ht₁).bind_nil ?_
      intro a s₃ hm₃ hP
      exact (accepts_many_stop (hm₃.ahead hr₁) (by simp [ht]) _).mono (fun _ _ _ _ => hP) fun h => h
    refine hmany.bind_nil ?_
    intro body s₃ hm₃ hP
    have hr₃ : s₃.rest = t :: rest := hm₃.ahead hr₁
    exact (still_finish _).accepts_bind (by simp [hr₃]) fun _ s₄ _ _ => Accepts.pure hP

/-- **Whatever becomes of its only statement, with a frame less, becomes of a script.** -/
theorem accepts_single {u : Token} {us : List Token} (hts : ts = u :: us)
    (hu : endsBlock u.kind = false) (hfunction : u.kind ≠ .keyword .function)
    (ht : t.kind = .endOfInput) (hr : s.rest = ts ++ t :: rest) (hshort : frames = 0 → short)
    (hstatement : ∀ n s', frames = n + 1 → s'.rest = ts ++ t :: rest → s'.table = Table.empty →
      Accepts (statement ⟨scriptSignatures known, scriptPrototype⟩ n) s' ts (fun _ _ => P) short) :
    Accepts (program known frames) s ts (fun _ _ => P) short := by
  have hcur : ts ++ t :: rest = u :: (us ++ t :: rest) := by rw [hts, List.cons_append]
  unfold program
  refine Accepts.look (hr.trans hcur) ?_
  rw [if_neg hfunction]
  unfold script
  refine (still_begin _).accepts_bind (by simp [hr]) fun id s₁ hr₁ _ => ?_
  rw [hr] at hr₁
  refine Accepts.bind (Accepts.modify (P := fun _ s' => s'.rest = s₁.rest ∧
    s'.table = Table.empty) rfl rfl ⟨rfl, rfl⟩) ts ?_
  rintro _ s₂ _ ⟨hr₂, ht₂⟩
  rw [hr₁] at hr₂
  refine (accepts_block_single hts hu (by rw [ht]; rfl) hr₂ hshort fun n s' hn hr' ht' =>
    hstatement n s' hn hr' (ht'.trans ht₂)).bind_nil ?_
  intro body s₃ hm₃ hP
  have hr₃ : s₃.rest = t :: rest := hm₃.ahead hr₂
  refine (Accepts.expect_end hr₃ ht (by simp)).bind_nil ?_
  rintro _ _ _ rfl
  exact (still_finish _).accepts_bind (by simp [hr₃]) fun _ s₄ _ _ => Accepts.pure hP

end Single

end Grammar

/-! ## The program -/

open Grammar

/-- The words of a program that prints the sum of some string literals. -/
def joinWords (texts : List String) : List (List Char) :=
  "PRINT".toList ::
    ((texts.map fun t => '"' :: t.toList ++ ['"']).intersperse ['+'] ++ [";".toList])

variable {texts : List String} {source : String}

/-- The tokens of the program, wherever the blank space is. -/
theorem tokensOf_join (hne : texts ≠ [])
    (htexts : ∀ t ∈ texts, ∀ c ∈ t.toList, c ≠ '"' ∧ c ≠ '\r' ∧ c ≠ '\n')
    (hsource : Spaced (joinWords texts) source.toList) :
    ∃ (print semicolon stop : Token) (ts : List Token) (e : Expr),
      Program.tokensOf source = .ok (print :: (ts ++ [semicolon]) ++ [stop]) ∧
        print.kind = .keyword .print ∧ Joins texts ts e ∧
        semicolon.kind = .symbol .semicolon ∧ stop.kind = .endOfInput := by
  let first : Token.Piece := ⟨"PRINT".toList, .keyword .print, .text "PRINT"⟩
  let ps : List Token.Piece := sumPieces texts ++ [.ofSymbol .semicolon]
  have hwords : joinWords texts = (first :: ps).map (·.chars) := by
    rw [List.map_cons, List.map_append, chars_sumPieces]
    rfl
  have hclosed : ∀ p ∈ ps, p.Closed := List.forall_mem_append.mpr
    ⟨closed_sumPieces htexts, List.forall_mem_singleton.mpr Token.closed_semicolon⟩
  have hfirst : ∀ p ∈ ps.head?, ∃ c cs, p.chars = c :: cs ∧ Token.isWordPart c = false := by
    have hquote : Token.isWordPart '"' = false := by decide
    obtain ⟨t, rest, rfl⟩ := List.exists_cons_of_ne_nil hne
    cases rest <;> exact fun p hp => Option.some.inj hp ▸ ⟨'"', _, rfl, hquote⟩
  rw [hwords] at hsource
  obtain ⟨reports, htiles, hcontent⟩ := Token.tiles_of_word (w := first) (by decide)
    (fun rest => Token.longest_print) hclosed hfirst hsource
  have htokens : Program.tokensOf source = .ok (reports.map (·.token)) :=
    mapError_eq_ok.mpr (Token.all_eq_ok.mpr
      ⟨(Token.tokenize_iff.mpr htiles).1, by rw [(Token.tokenize_iff.mpr htiles).2]⟩)
  -- The reports are cut up in the way in which the contents are put together.
  simp only [ps, List.map_cons, List.map_append, List.append_assoc, List.cons_append,
    List.map_nil, List.nil_append] at hcontent
  obtain ⟨print, _, rfl, hprint, hcontent⟩ := List.map_eq_cons_iff.mp hcontent
  obtain ⟨sum, _, rfl, hsum, hcontent⟩ := List.map_eq_append_iff.mp hcontent
  obtain ⟨semicolon, _, rfl, hsemicolon, hcontent⟩ := List.map_eq_cons_iff.mp hcontent
  obtain ⟨stop, rfl, hstop⟩ := List.map_eq_singleton_iff.mp hcontent
  obtain ⟨e, he⟩ := @joins_of_content texts (sum.map (·.token)) hne
    (by rw [List.map_map]; exact hsum)
  refine ⟨print.token, semicolon.token, stop.token, sum.map (·.token), e, ?_,
    congrArg Prod.fst hprint, he, congrArg Prod.fst hsemicolon, congrArg Prod.fst hstop⟩
  rw [htokens]
  simp

section Program

variable {print semicolon stop : Token} {ts : List Token} {e : Expr}

/-- The statement of the program. -/
theorem derives_print {known : Signatures} (hp : print.kind = .keyword .print)
    (he : Joins texts ts e) (hs : semicolon.kind = .symbol .semicolon) :
    StmtDerives known (print :: (ts ++ [semicolon])) (.print (.ofPos print.pos) e) :=
  .print hp (.operand rfl (.operand rfl he.derives)) hs

/-- The program compiles exactly if the frames of the parser suffice. -/
theorem compile_join
    (htokens : Program.tokensOf source = .ok (print :: (ts ++ [semicolon]) ++ [stop]))
    (hp : print.kind = .keyword .print) (he : Joins texts ts e)
    (hs : semicolon.kind = .symbol .semicolon) (hstop : stop.kind = .endOfInput) :
    (∃ program, Program.compile frames source = .ok program ∧ texts.length + 6 ≤ frames) ∨
      ∃ reason, Program.compile frames source = .error reason ∧ reason.tooDeep ∧
        ¬ texts.length + 6 ≤ frames := by
  have hheaders : Program.prototypesOf (print :: (ts ++ [semicolon]) ++ [stop]) = .ok [] := by
    have hitems : ∀ i ∈ [(print :: (ts ++ [semicolon]), Stmt.print (.ofPos print.pos) e)],
        StmtDerives Registry.empty i.1 i.2 :=
      List.forall_mem_singleton.mpr (derives_print hp he hs)
    have hnone := (Prototype.all_statements hstop hitems []).mpr rfl
    simpa [tokensOf] using hnone
  have haccepts : Accepts (program (registered []) frames)
      (.start (print :: (ts ++ [semicolon]) ++ [stop])) (print :: (ts ++ [semicolon]))
      (fun _ _ => texts.length + 6 ≤ frames) (¬ texts.length + 6 ≤ frames) := by
    refine accepts_single rfl (by rw [hp]; rfl) (by simp [hp]) hstop rfl (by omega) ?_
    rintro (_ | n) s rfl hr ht
    · exact Accepts.tooDeep hr (by omega)
    unfold statement
    refine Accepts.look hr ?_
    simp only [hp]
    have hexpression : ∀ s', s'.rest = ts ++ semicolon :: [stop] → s'.table = s.table →
        Accepts (expression (scriptSignatures (registered [])) n) s' ts
          (fun r s'' => (r.1.bare = e.bare ∧ s''.table = s'.table) ∧ texts.length + 4 ≤ n)
          (¬ texts.length + 4 ≤ n) := by
      intro s' hr' _
      have hstops : Level.Stops .logical (semicolon :: [stop]) :=
        stops_symbol [stop] hs (.inr (.inr rfl))
      refine (accepts_checked (he.accepts_logical hr' hstops n) he.hasType hr'
        (by simp)).mono ?_ id
      rintro r s'' _ ⟨⟨hbare, -, htable⟩, hfits⟩
      exact ⟨⟨hbare, htable⟩, hfits⟩
    refine (accepts_print hp hs hr (by simp) hexpression).mono (fun _ _ _ h => ?_) fun hshort => ?_
    · have hfits : texts.length + 4 ≤ n := h.2
      omega
    · omega
  rw [compile_eq htokens hheaders]
  rcases haccepts.outcome with ⟨program, s', ho, -, hfits⟩ | ⟨reason, ho, hdeep, hshort⟩
  · exact .inl ⟨program, by rw [ho]; rfl, hfits⟩
  · exact .inr ⟨reason, by rw [ho]; rfl, hdeep, hshort⟩

theorem eq_print_of_bare {s : Stmt} {m : Mark} {e : Expr} (h : s.bare = .print m e) :
    ∃ m' e', s = .print m' e' ∧ e'.bare = e := by
  cases s with
  | print m' e' =>
    cases h
    exact ⟨m', e', rfl, rfl⟩
  | _ => cases h

/-- The only function of the program is MAIN, with the PRINT as its body. -/
theorem main_of_join {program : Program}
    (htokens : Program.tokensOf source = .ok (print :: (ts ++ [semicolon]) ++ [stop]))
    (hp : print.kind = .keyword .print) (he : Joins texts ts e)
    (hs : semicolon.kind = .symbol .semicolon) (hstop : stop.kind = .endOfInput)
    (h : Program.compile frames source = .ok program) :
    ∃ p m e', program.find? entryPoint = some p ∧ p.formals = [] ∧ p.body = [.print m e'] ∧
      e'.bare = e := by
  have haccepted : Accepted source [scriptMain [.print (.ofPos print.pos) e]] := by
    refine ⟨print :: (ts ++ [semicolon]), stop, htokens, hstop, ?_, by simp, ?_⟩
    · have hitems : ∀ i ∈ [(print :: (ts ++ [semicolon]), Stmt.print (.ofPos print.pos) e)],
          StmtDerives (signatures [scriptMain [.print (.ofPos print.pos) e]]) i.1 i.2 :=
        List.forall_mem_singleton.mpr (derives_print hp he hs)
      have hscript := ProgramDerives.script hitems
      simpa [tokensOf] using hscript
    · refine List.forall_mem_singleton.mpr ?_
      exact ⟨⟨_, he.hasType⟩, trivial⟩
  rcases compile_complete haccepted with ⟨program', h', hbare⟩ | ⟨reason, h', -⟩
  · rw [h] at h'
    cases h'
    obtain ⟨p, hprocedures, hmain⟩ := List.map_eq_singleton_iff.mp hbare
    have hbody : Stmt.bareAll p.body = [.print (.ofPos print.pos) e] :=
      congrArg Procedure.body hmain
    rw [Stmt.bareAll_eq] at hbody
    obtain ⟨statement, hstatement, hprint⟩ := List.map_eq_singleton_iff.mp hbody
    obtain ⟨m, e', rfl, hbare⟩ := eq_print_of_bare hprint
    refine ⟨p, m, e', ?_, congrArg Procedure.formals hmain, hstatement, hbare⟩
    have hname : p.name = entryPoint := congrArg Procedure.name hmain
    rw [Program.find?, hprocedures]
    simp [hname]
  · rw [h] at h'
    cases h'

end Program

/-- **A program that prints a sum of string literals**, with any blank space around its tokens. As
long as the parser has enough frames for the literals and MAIN can be called at all, the run ends
well, it has no value, and it prints once: the literals one after the other, character for
character, as a STRING. With more literals the program is nested too deeply. -/
theorem join_prints {room : Room} {limits : Limits} (hne : texts ≠ [])
    (htexts : ∀ t ∈ texts, ∀ c ∈ t.toList, c ≠ '"' ∧ c ≠ '\r' ∧ c ≠ '\n')
    (hsource : Spaced (joinWords texts) source.toList) :
    (texts.length + 6 ≤ room.frames → room.limits = .ok limits → 0 < limits.activations →
      ∃ program, Outcome.ofSource room source = .finished program
        [⟨some .string, some (.text (String.join texts)), String.join texts⟩] none) ∧
    (room.frames < texts.length + 6 → ∃ reason, Outcome.ofSource room source = .rejected reason ∧
      reason.tooDeep) := by
  obtain ⟨frames, runs⟩ := room
  obtain ⟨print, semicolon, stop, ts, e, htokens, hp, he, hs, hstop⟩ :=
    tokensOf_join hne htexts hsource
  rcases @compile_join frames _ _ _ _ _ _ _ htokens hp he hs hstop with
    ⟨program, hcompile, hfits⟩ | ⟨reason, hcompile, hdeep, hfits⟩
  · refine ⟨?_, fun hmany => absurd hfits (Nat.not_le.mpr hmany)⟩
    rintro - rfl hcalls
    obtain ⟨p, m, e', hfind, hformals, hbody, hbare⟩ :=
      main_of_join htokens hp he hs hstop hcompile
    have hrun : program.execute limits [] =
        ⟨[⟨some .string, some (.text (String.join texts)), String.join texts⟩], .ok none,
          Table.empty⟩ := by
      refine (execute_main hfind (Nat.succ_pred_eq_of_pos hcalls).symm).mpr
        (does_run.mpr ⟨.ok .next, ?_, rfl⟩)
      rw [hbody, hformals]
      exact (does_print (he.tells hbare) rfl).followed does_nil
    refine ⟨program, ?_⟩
    rw [ofSource_of_compile hcompile]
    exact outcomeOf_eq_finished.mpr ⟨rfl, congrArg Execution.events hrun,
      congrArg Execution.result hrun⟩
  · exact ⟨fun hfew => absurd hfew hfits, fun _ => ⟨reason, ofSource_of_error hcompile runs, hdeep⟩⟩

/-- An empty text, a blank that counts and blank space that does not. -/
theorem join_prints_three : ∃ program,
    Outcome.ofSource ⟨9, .ok ⟨1, 0⟩⟩ "PRINT\"é \"\n+\t\"\"+\"x\" ;" =
      .finished program [⟨some .string, some (.text "é x"), "é x"⟩] none := by
  have hsource : Spaced (joinWords ["é ", "", "x"])
      ([] ++ "PRINT".toList ++ ([] ++ "\"é \"".toList ++ (['\n'] ++ ['+'] ++
        (['\t'] ++ "\"\"".toList ++ ([] ++ ['+'] ++ ([] ++ "\"x\"".toList ++
          ([' '] ++ [';'] ++ []))))))) :=
    .cons (by decide) (.cons (by decide) (.cons (by decide) (.cons (by decide) (.cons (by decide)
      (.cons (by decide) (.cons (by decide) (.nil (by decide))))))))
  obtain ⟨hprints, -⟩ := @join_prints ["é ", "", "x"] "PRINT\"é \"\n+\t\"\"+\"x\" ;"
    ⟨9, .ok ⟨1, 0⟩⟩ ⟨1, 0⟩ (List.cons_ne_nil _ _) (by simp) hsource
  exact hprints (by decide) rfl (by decide)

end Slang
