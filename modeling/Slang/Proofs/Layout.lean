import Slang.Proofs.TwinParsing

/-!
# Layout does not matter

Blanks and line breaks move tokens, and that is all they do.

* `Header.read_like`, `Prototype.all_like` — the pass over the headers announces the same signatures
  for tokens that are alike, or finds a name twice at places that correspond.
* `Pairing.byIndex` — offsets correspond if they are those of tokens at one index.
* `Program.unplaced`, `Outline.unplaced` — a program and its displayed tree without offsets.
* `Outcome.shown` — what becomes of a text, apart from the program.

Principal result: `compile_layout` — two texts whose tokens have the same kinds and values compile
to programs that are equal up to offsets and that do the same, or they are rejected for the same
cause at tokens of the same index.
-/

set_option autoImplicit false

namespace Slang

open Grammar

variable {c : Pairing} {frames : Nat}

/-! ## The pass over the headers -/

namespace Header

theorem formals_like (ts : List Token) : ∀ {ts' : List Token},
    List.Forall₂ (Token.Like c) ts ts' →
      Option.Rel (fun r r' => r'.1 = r.1 ∧ List.Forall₂ (Token.Like c) r.2 r'.2) (formals ts)
        (formals ts') := by
  induction ts using formals.induct with
  | case1 t rest hty =>
    rintro _ (_ | ⟨ht, hrest⟩)
    simp only [formals, ht.kind, hty]
    exact .some ⟨rfl, .cons ht hrest⟩
  | case2 t ty hty name hname comma rest hcomma ih =>
    rintro _ (_ | ⟨ht, _ | ⟨hn, _ | ⟨hc, hrest⟩⟩⟩)
    simp only [formals, ht.kind, hn.kind, hc.kind, hty, hname, hcomma, if_true]
    have hformals := ih hrest
    revert hformals
    generalize formals rest = r
    generalize formals _ = r'
    rintro (⟨htys, hmore⟩ | _)
    · exact .some ⟨congrArg (ty :: ·) htys, hmore⟩
    · exact .none
  | case3 t ty hty name hname comma rest hcomma =>
    rintro _ (_ | ⟨ht, _ | ⟨hn, _ | ⟨hc, hrest⟩⟩⟩)
    simp only [formals, ht.kind, hn.kind, hc.kind, hty, hname, hcomma, if_true, if_false]
    exact .some ⟨rfl, .cons hc hrest⟩
  | case4 t ty hty name hname =>
    rintro _ (_ | ⟨ht, _ | ⟨hn, _ | _⟩⟩)
    simp only [formals, ht.kind, hn.kind, hty, hname, if_true]
    exact .some ⟨rfl, .nil⟩
  | case5 t ty hty name rest hname =>
    rintro _ (_ | ⟨ht, _ | ⟨hn, hrest⟩⟩)
    simp only [formals, ht.kind, hn.kind, hty, hname, if_false]
    exact .none
  | case6 t ty hty =>
    rintro _ (_ | ⟨ht, _ | _⟩)
    simp only [formals, ht.kind, hty]
    exact .none
  | case7 =>
    rintro _ ⟨⟩
    exact .some ⟨rfl, .nil⟩

/-- Headers of tokens that are alike announce the same signature. -/
theorem read_like {ts ts' : List Token} (h : List.Forall₂ (Token.Like c) ts ts') :
    Option.Rel (fun r r' => r'.prototype = r.prototype ∧ c.place r.nameAt r'.nameAt) (read ts)
      (read ts') := by
  rcases h with _ | ⟨hty, _ | ⟨hname, _ | ⟨hparen, hrest⟩⟩⟩
  · exact .none
  · exact .none
  · exact .none
  · rename_i ty _ name _ paren _ rest rest'
    simp only [read, hty.kind, hname.kind, hparen.kind, hname.valueText]
    cases ty.kind.ty? with
    | none => exact .none
    | some returns =>
      have hformals := formals_like rest hrest
      revert hformals
      generalize formals rest = r
      generalize formals rest' = r'
      dsimp only
      split
      · rintro (@⟨⟨tys, more⟩, ⟨_, more'⟩, rfl, _ | ⟨hclose, _⟩⟩ | _)
        · exact .none
        · dsimp only
          rw [hclose.kind]
          split
          · exact .some ⟨rfl, hname.place⟩
          · exact .none
        · exact .none
      · exact fun _ => .none

end Header

namespace Prototype

/-- **The pass over the headers finds the same in tokens that are alike**: the same signatures, or
the same name twice, at places that correspond. -/
theorem gathered_like {ts ts' : List Token} (h : List.Forall₂ (Token.Like c) ts ts')
    (index index' : Nat) (seen : List Name) :
    AnswerLike c (gathered (collectFrom index seen ts))
      (gathered (collectFrom index' seen ts')) := by
  induction h generalizing index index' seen with
  | nil => exact .ok _
  | @cons t t' rest rest' ht hrest ih =>
    rw [collectFrom, collectFrom, ht.kind]
    by_cases hk : t.kind = .keyword .function
    · rw [if_pos hk, if_pos hk]
      have hread := Header.read_like hrest
      revert hread
      generalize Header.read rest = r
      generalize Header.read rest' = r'
      rintro (@⟨⟨_, nameAt⟩, ⟨p, nameAt'⟩, rfl, hplace⟩ | _)
      · dsimp only
        by_cases hseen : p.name ∈ seen
        · rw [if_pos hseen, if_pos hseen]
          exact .error ⟨rfl, nameAt, nameAt', rfl, rfl, hplace⟩
        · rw [if_neg hseen, if_neg hseen, gathered_emit, gathered_emit]
          exact (ih _ _ _).map
      · dsimp only
        rw [gathered_emit, gathered_emit]
        exact (ih _ _ _).map
    · rw [if_neg hk, if_neg hk, gathered_emit, gathered_emit]
      exact (ih _ _ _).map

theorem all_like {ts ts' : List Token} (h : List.Forall₂ (Token.Like c) ts ts') :
    AnswerLike c (all ts) (all ts') := by
  rw [all_eq, all_eq]
  exact gathered_like h 0 0 []

end Prototype

/-! ## Tokens at one index -/

/-- Offsets correspond if they are those of tokens at one index of two lists, and everything else
has to agree up to the end of the input. -/
def Pairing.byIndex (tokens tokens' : List Token) : Pairing where
  place i j := ∃ (n : Nat) (t t' : Token),
    tokens[n]? = some t ∧ tokens'[n]? = some t' ∧ t.pos = i ∧ t'.pos = j
  numbered := true
  named := true
  behind := []
  behind' := []
  last := .endOfInput
  last_eq := .inl rfl

theorem like_byIndex {tokens tokens' : List Token}
    (h : tokens'.map Token.content = tokens.map Token.content) :
    List.Forall₂ (Token.Like (.byIndex tokens tokens')) tokens tokens' := by
  have hlength : tokens'.length = tokens.length := by simpa using congrArg List.length h
  refine List.forall₂_iff_get.mpr ⟨hlength.symm, fun n hn hn' => ?_⟩
  have hcontent : (tokens'.get ⟨n, hn'⟩).content = (tokens.get ⟨n, hn⟩).content := by
    have hget := congrArg (·[n]?) h
    simpa [hn, hn'] using hget
  obtain ⟨hkind, hvalue⟩ := Prod.mk.inj hcontent
  exact ⟨hkind, hvalue, n, _, _, List.getElem?_eq_getElem hn, List.getElem?_eq_getElem hn',
    rfl, rfl⟩

/-- Errors that are alike say the same, each at the token of one index. -/
theorem CompileError.Like.byIndex {tokens tokens' : List Token} {e e' : CompileError}
    (h : e.Like (.byIndex tokens tokens') e') :
    e'.cause = e.cause ∧ e'.kind = e.kind ∧ e'.message = e.message ∧ e'.symbol = e.symbol ∧
      ∃ (n : Nat) (t t' : Token), tokens[n]? = some t ∧ tokens'[n]? = some t' ∧
        e.position = some t.pos ∧ e'.position = some t'.pos := by
  obtain ⟨hcause, i, j, hi, hj, n, t, t', ht, ht', rfl, rfl⟩ := h
  exact ⟨hcause, congrArg Cause.kind hcause, congrArg Cause.message hcause,
    congrArg Cause.symbol hcause, n, t, t', ht, ht', hi, hj⟩

/-- Programs are read alike from lists whose tokens say the same. -/
theorem alike_tokens (frames : Nat) {us tokens' : List Token} {t : Token}
    (ht : t.kind = .endOfInput) (hus : ∀ u ∈ us, u.kind ≠ .endOfInput)
    (h : tokens'.map Token.content = (us ++ [t]).map Token.content) (known : Signatures) :
    EndsAlike (.byIndex (us ++ [t]) tokens') (program known frames) (program known frames)
      (.start (us ++ [t])) (.start tokens')
      (Alike (.byIndex (us ++ [t]) tokens') (Program.Like (.byIndex (us ++ [t]) tokens'))) := by
  refine alike_program rfl rfl known _ _ ⟨?_, fun _ => rfl, fun _ => rfl, fun _ => ⟨[], rfl⟩⟩
  have hahead : Ahead (.byIndex (us ++ [t]) tokens') (us ++ [t]) (tokens' ++ []) :=
    ahead_of_forall₂ (c := .byIndex (us ++ [t]) tokens') ht (like_byIndex h) hus
  rwa [List.append_nil] at hahead

/-! ## Texts -/

/-- Leave out where a node stands. -/
def Mark.unplaced (m : Mark) : Mark := ⟨none, m.id⟩

/-- A program without the offsets of its nodes. -/
def Program.unplaced (p : Program) : Program := p.mapMarks Mark.unplaced

/-- A displayed tree without the offsets of its nodes. -/
def Outline.unplaced (o : Outline) : Outline := o.mapMarks Mark.unplaced

/-- What becomes of a text, apart from the program: nothing if it is rejected, else what it printed
and how it ended. -/
def Outcome.shown : Outcome → Option (List PrintEvent × Except Failure (Option Binding))
  | rejected _ => none
  | failed _ events failure => some (events, .error failure)
  | finished _ events value => some (events, .ok value)

section Texts

variable {source source' : String} {prog prog' : Program}

theorem shown_ofSource (h : Program.compile frames source = .ok prog)
    (limits : Except StackError Limits) :
    (Outcome.ofSource ⟨frames, limits⟩ source).shown = some (match limits with
      | .error reason => ([], .error (.noStack reason))
      | .ok limits => ((prog.execute limits []).events, (prog.execute limits []).result)) := by
  unfold Outcome.ofSource
  rw [h]
  cases limits with
  | error reason => rfl
  | ok limits =>
    dsimp only
    cases (prog.execute limits []).result <;> rfl

theorem outline_unplaced (h : prog'.unplaced = prog.unplaced) :
    prog'.outline.unplaced = prog.outline.unplaced := by
  have hprocedures := congrArg Program.procedures h
  unfold Outline.unplaced
  rw [Program.outline_mapMarks, Program.outline_mapMarks]
  exact congrArg (fun ps => Outline.node _ _ _ _ (ps.map Procedure.outline)) hprocedures

/-- Texts whose programs do the same show the same. -/
theorem shown_of_execute (hcompile : Program.compile frames source = .ok prog)
    (hcompile' : Program.compile frames source' = .ok prog')
    (h : ∀ limits, prog'.execute limits [] = prog.execute limits [])
    (limits : Except StackError Limits) :
    (Outcome.ofSource ⟨frames, limits⟩ source').shown =
      (Outcome.ofSource ⟨frames, limits⟩ source).shown := by
  rw [shown_ofSource hcompile, shown_ofSource hcompile']
  simp only [h]

end Texts

/-- **Layout does not matter.**  Of two texts whose tokens have the same kinds and the same values,
wherever they stand, either both compile, to programs that are equal up to offsets and are displayed
as trees that are equal up to offsets, and a run prints the same and ends in the same under every
stack; or both are rejected for the same cause, at tokens of the same index. -/
theorem compile_layout (frames : Nat) {source source' : String} {tokens tokens' : List Token}
    (htokens : Program.tokensOf source = .ok tokens)
    (htokens' : Program.tokensOf source' = .ok tokens')
    (hsame : tokens'.map Token.content = tokens.map Token.content) :
    (∃ prog prog', Program.compile frames source = .ok prog ∧
      Program.compile frames source' = .ok prog' ∧
      prog'.unplaced = prog.unplaced ∧ prog'.outline.unplaced = prog.outline.unplaced ∧
      ∀ limits, (Outcome.ofSource ⟨frames, limits⟩ source').shown =
        (Outcome.ofSource ⟨frames, limits⟩ source).shown) ∨
    ∃ e e', Program.compile frames source = .error (.error e) ∧
      Program.compile frames source' = .error (.error e') ∧
      e'.cause = e.cause ∧ e'.kind = e.kind ∧ e'.message = e.message ∧ e'.symbol = e.symbol ∧
      ∃ (n : Nat) (t t' : Token), tokens[n]? = some t ∧ tokens'[n]? = some t' ∧
        e.position = some t.pos ∧ e'.position = some t'.pos := by
  obtain ⟨us, stop, rfl, hus⟩ := tokensOf_ends htokens
  have hcompile := compile_of_tokens htokens frames
  have hcompile' := compile_of_tokens htokens' frames
  have hheaders := Prototype.all_like (like_byIndex hsame)
  unfold Program.prototypesOf at hcompile hcompile'
  generalize Prototype.all (us ++ [Token.atEnd stop]) = x at hcompile hheaders
  generalize Prototype.all tokens' = x' at hcompile' hheaders
  cases hheaders with
  | @error e e' he => exact .inr ⟨e, e', hcompile, hcompile', he.byIndex⟩
  | ok headers =>
    have hparse := hcompile.trans (ofTokens_eq _ headers)
    have hparse' := hcompile'.trans (ofTokens_eq _ headers)
    have hends := alike_tokens frames rfl hus hsame (registered headers)
    unfold EndsAlike at hends
    split at hends
    · rename_i prog s prog' s' ho ho'
      rw [ho] at hparse
      rw [ho'] at hparse'
      have hunplaced : prog'.unplaced = prog.unplaced := hends.1
      exact .inl ⟨prog, prog', hparse, hparse', hunplaced, outline_unplaced hunplaced,
        shown_of_execute hparse hparse' fun limits => execute_of_mapMarks hunplaced limits []⟩
    · rename_i e e' ho ho'
      rw [ho] at hparse
      rw [ho'] at hparse'
      exact .inr ⟨e, e', hparse, hparse', hends.byIndex⟩
    · exact hends.elim

/-- Blanks and line breaks move the offsets of a program and of an error, and nothing else. -/
theorem compile_layout_moved :
    (∃ prog prog', Program.compile 100 "PRINT TRUE;" = .ok prog ∧
      Program.compile 100 "PRINT\n  TRUE ;" = .ok prog' ∧ prog'.unplaced = prog.unplaced) ∧
    ∃ e e', Program.compile 100 "PRINT x;" = .error (.error e) ∧
      Program.compile 100 "PRINT\n  x ;" = .error (.error e') ∧ e'.message = e.message := by
  constructor
  · obtain ⟨prog, hprog, -⟩ : ∃ prog, Program.compile 100 "PRINT TRUE;" = .ok prog ∧
        prog.procedures.length = 1 := by
      refine ok_of_toOption ?_
      decide +kernel
    obtain ⟨tokens, _, _, htokens, _⟩ := compile_stages hprog
    have hmoved : (Program.tokensOf "PRINT\n  TRUE ;").toOption.map (List.map Token.content) =
        (Program.tokensOf "PRINT TRUE;").toOption.map (List.map Token.content) := by
      cbv
    rw [htokens] at hmoved
    obtain ⟨tokens', htokens', hsame⟩ := ok_of_toOption hmoved
    rcases compile_layout 100 htokens htokens' hsame with
      ⟨prog, prog', h, h', hunplaced, _⟩ | ⟨e, _, h, _⟩
    · exact ⟨prog, prog', h, h', hunplaced⟩
    · rw [hprog] at h
      cases h
  · have hnone : (Program.compile 100 "PRINT x;").toOption.isNone := by decide +kernel
    have hmoved : (Program.tokensOf "PRINT\n  x ;").toOption.map (List.map Token.content) =
        (Program.tokensOf "PRINT x;").toOption.map (List.map Token.content) := by
      cbv
    obtain ⟨tokens, htokens, -⟩ : ∃ tokens, Program.tokensOf "PRINT x;" = .ok tokens ∧
        tokens.length = 4 := by
      refine ok_of_toOption ?_
      decide +kernel
    rw [htokens] at hmoved
    obtain ⟨tokens', htokens', hsame⟩ := ok_of_toOption hmoved
    rcases compile_layout 100 htokens htokens' hsame with
      ⟨prog, _, h, _⟩ | ⟨e, e', h, h', -, -, hmessage, -⟩
    · rw [h] at hnone
      cases hnone
    · exact ⟨e, e', h, h', hmessage⟩

end Slang
