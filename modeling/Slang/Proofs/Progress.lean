import Slang.Proofs.ProgramParsing

/-!
# Progress of the parser

The end of the input stays current for ever, so a reader that succeeds without a token could be
tried for ever.  None of the readers that are repeated is of that kind, whatever lies ahead.

* `Takes n r` — wherever `r` succeeds, it has consumed at least `n` tokens.
* `Takes.bind`, `Takes.first` — tokens taken by either part of a sequence count for the whole.

Principal results: `takes_level`, `takes_statement`, `takes_function` — operands and expressions,
statements and functions take a token.
-/

set_option autoImplicit false

namespace Slang.Grammar

variable {α β : Type} {n : Nat} {frames : Nat}

/-- Wherever the reader succeeds, it has consumed at least `n` tokens. -/
def Takes (n : Nat) (r : Reader α) : Prop :=
  ∀ s, Ends r s (fun _ s' => ∃ ts, Moved s ts s' ∧ n ≤ ts.length) fun _ => True

section Takes

variable {r : Reader α} {f : α → Reader β}

theorem Takes.of_reads {P : State → List Token → α → State → Prop} (h : ∀ s, Reads r s (P s))
    (hP : ∀ s ts a s', P s ts a s' → n ≤ ts.length) : Takes n r := fun s =>
  Ends.mono (h s) (fun a s' ⟨ts, hm, hp⟩ => ⟨ts, hm, hP s ts a s' hp⟩) fun _ _ => trivial

theorem takes_of_reads {P : State → List Token → α → State → Prop} (h : ∀ s, Reads r s (P s)) :
    Takes 0 r := .of_reads h fun _ _ _ _ _ => Nat.zero_le _

theorem Takes.mono {m : Nat} (h : Takes n r) (hm : m ≤ n) : Takes m r := fun s =>
  Ends.mono (h s) (fun _ _ ⟨ts, hmoved, hn⟩ => ⟨ts, hmoved, Nat.le_trans hm hn⟩) fun _ _ => trivial

theorem takes_bind {m : Nat} (h : Takes m r) (hf : ∀ a, Takes n (f a)) :
    Takes (m + n) (r >>= f) := by
  intro s
  rw [ends_bind]
  refine Ends.mono (h s) ?_ fun _ _ => trivial
  rintro a s' ⟨ts, hm, hts⟩
  refine Ends.mono (hf a s') ?_ fun _ _ => trivial
  rintro b s'' ⟨us, hm', hus⟩
  exact ⟨ts ++ us, hm.trans hm', by rw [List.length_append]; omega⟩

/-- What the second reader takes is taken by both. -/
theorem Takes.bind {m : Nat} (h : Takes m r) (hf : ∀ a, Takes n (f a)) : Takes n (r >>= f) :=
  (takes_bind h hf).mono (Nat.le_add_left n m)

/-- What the first reader takes is taken by both. -/
theorem Takes.first (h : Takes n r) (hf : ∀ a, Takes 0 (f a)) : Takes n (r >>= f) :=
  takes_bind h hf

theorem takes_pure (a : α) : Takes 0 (pure a) := fun s => ⟨[], Moved.refl s, Nat.le_refl 0⟩

theorem takes_throw (stop : Stop) : Takes n (throw stop : Reader α) := fun _ => trivial

theorem takes_fail (cause : CompileError.Cause) (pos : Int) : Takes n (fail cause pos : Reader α) :=
  takes_throw _

/-- Nothing is read behind a failure. -/
theorem takes_fail_bind (cause : CompileError.Cause) (pos : Int) : Takes n (fail cause pos >>= f) :=
  takes_throw _

theorem takes_get : Takes 0 (get : Reader State) := fun s => ⟨[], Moved.refl s, Nat.le_refl 0⟩

theorem takes_declare (b : Binding) :
    Takes 0 (modify fun s => { s with table := s.table.declare b }) := fun _ =>
  ⟨[], Moved.of_eq rfl rfl, Nat.le_refl 0⟩

theorem takes_remaining : Takes 0 remaining := takes_get.bind fun _ => takes_pure _

theorem takes_current : Takes 0 current := takes_of_reads fun _ => Reads.current

theorem Still.takes (h : Still r) : Takes 0 r := takes_of_reads fun _ => h.reads

/-- Only the end of the input is not consumed. -/
theorem takes_advance (message : String) : Takes 0 (advance message) := by
  intro s
  rw [ends_advance]
  refine ⟨fun _ => trivial, fun t rest h => ?_⟩
  by_cases hend : t.kind = .endOfInput
  · exact ⟨[], by rw [step_at_end h hend]; exact Moved.refl s, Nat.le_refl 0⟩
  · exact ⟨[t], moved_step h hend, Nat.zero_le _⟩

theorem takes_expect {kinds : List Token.Kind} (h : .endOfInput ∉ kinds) : Takes 1 (expect kinds) :=
  .of_reads (fun _ => Reads.expect h) fun _ _ _ _ ⟨hts, _⟩ => by simp [hts]

theorem takes_expectSymbol (x : Symbol) : Takes 1 (expectSymbol x) := takes_expect (by simp)

theorem takes_expectKeyword (k : Keyword) : Takes 1 (expectKeyword k) := takes_expect (by simp)

theorem takes_accept {pick : Token.Kind → Option β} (h : pick .endOfInput = none) :
    Takes 0 (accept pick) := takes_of_reads fun _ => Reads.accept h

theorem takes_reject (cause : CompileError.Cause) (pos : Int) :
    Takes n (reject cause pos : Reader α) :=
  (still_report _ _).takes.bind fun _ => takes_fail _ _

theorem takes_tooDeep : Takes n (tooDeep : Reader α) := takes_current.bind fun _ => takes_fail _ _

theorem takes_many {begins : Token.Kind → Bool} {item : Reader α} {m : Nat} (h : Takes m item) :
    ∀ (n : Nat) (before : List α), Takes 0 (many begins item n before)
  | 0, before => by
    unfold many
    refine takes_current.bind fun t => ?_
    split
    · exact takes_throw _
    · exact takes_pure _
  | n + 1, before => by
    unfold many
    refine takes_current.bind fun t => ?_
    split
    · exact h.bind fun a => takes_many h n (a :: before)
    · exact takes_pure _

end Takes

variable {known : Signatures} {scope : Scope}

/-- **Operands and whole expressions take a token.** -/
theorem takes_level (l : Level) (n : Nat) : Takes 1 (l.read known n) :=
  .of_reads ((reads_level known n).1 l) fun _ _ _ _ ⟨hd, _⟩ => List.length_pos_iff.mpr hd.ne_nil

theorem takes_expression (n : Nat) : Takes 1 (expression known n) :=
  .of_reads (fun _ => reads_expression n) fun _ _ _ _ ⟨hd, _⟩ => List.length_pos_iff.mpr hd.ne_nil

theorem takes_formal : Takes 1 formal :=
  .of_reads (fun _ => reads_formal) fun _ _ _ _ ⟨hne, _⟩ => List.length_pos_iff.mpr hne

/-- **A function takes a token.** -/
theorem takes_function : Takes 1 (function known frames) :=
  .of_reads reads_function fun _ _ _ _ ⟨hne, _⟩ => List.length_pos_iff.mpr hne

/-! ## Statements -/

theorem takes_declaration : Takes 1 declaration := by
  unfold declaration
  refine (still_begin _).takes.bind fun id => (takes_advance _).bind fun ty => ?_
  refine (takes_expect (by simp)).first fun name => ?_
  refine (takes_expectSymbol _).bind fun _ => ?_
  refine (takes_declare _).bind fun _ => ?_
  exact (still_relabel _ _).takes.bind fun _ => (still_finish _).takes.bind fun _ => takes_pure _

/-- A terminator and the end of the node. -/
theorem takes_close {a : α} {id : Nat} {kinds : List Token.Kind} (h : .endOfInput ∉ kinds) :
    Takes 0 (do
      let _ ← expect kinds
      finish id
      return a) :=
  (takes_expect h).bind fun _ => (still_finish id).takes.bind fun _ => takes_pure a

theorem takes_printStatement (n : Nat) : Takes 1 (printStatement scope n) := by
  unfold printStatement
  refine (still_begin _).takes.bind fun id => (takes_expectKeyword _).first fun t => ?_
  refine (takes_expression n).bind fun r => ?_
  exact takes_close (by simp)

theorem takes_assignment (n : Nat) : Takes 1 (assignment scope n) := by
  unfold assignment
  refine (still_begin _).takes.bind fun id => (takes_expect (by simp)).first fun name => ?_
  refine takes_get.bind fun s => ?_
  dsimp only
  split
  · exact takes_fail _ _
  · refine still_freshId.takes.bind fun targetId => (still_announce _ _).takes.bind fun _ => ?_
    refine (takes_expectSymbol _).bind fun equals => ?_
    refine (takes_expression n).bind fun r => ?_
    split
    · exact takes_fail_bind _ _
    · exact takes_close (by simp)

theorem takes_returnStatement (n : Nat) : Takes 1 (returnStatement scope n) := by
  unfold returnStatement
  refine (still_begin _).takes.bind fun id => (takes_expectKeyword _).first fun t => ?_
  refine takes_current.bind fun u => ?_
  dsimp only
  split
  · exact takes_close (by simp)
  · refine (takes_expression n).bind fun r => ?_
    split
    · exact takes_fail_bind _ _
    · exact takes_close (by simp)

theorem takes_condition (statement : CompileError.Conditional) (n : Nat) :
    Takes 1 (condition scope statement n) := by
  unfold condition
  refine (still_begin _).takes.bind fun id => takes_current.bind fun t => ?_
  refine (takes_expression n).first fun r => ?_
  obtain ⟨e, ty⟩ := r
  dsimp only
  split
  · exact takes_fail_bind _ _
  · exact (still_finish _).takes.bind fun _ => takes_pure _

theorem takes_branch {n : Nat} (hblock : ∀ title, Takes 0 (block scope title n)) :
    Takes 1 (branch scope (n + 1)) := by
  unfold branch
  refine (still_begin _).takes.bind fun id => (takes_expectKeyword _).first fun t => ?_
  refine (takes_condition .if_ n).bind fun c => ?_
  refine (takes_expectKeyword _).bind fun _ => ?_
  refine (hblock _).bind fun r => (takes_accept rfl).bind fun other => ?_
  cases other with
  | some _ => exact (hblock _).bind fun r' => takes_close (by simp)
  | none => exact takes_close (by simp)

theorem takes_loop {n : Nat} (hblock : ∀ title, Takes 0 (block scope title n)) :
    Takes 1 (loop scope (n + 1)) := by
  unfold loop
  refine (still_begin _).takes.bind fun id => (takes_expectKeyword _).first fun t => ?_
  refine (takes_condition .while_ n).bind fun c => ?_
  exact (hblock _).bind fun r => takes_close (by simp)

/-- **A statement takes a token**; a block need not. -/
theorem takes_statement (scope : Scope) : ∀ n : Nat,
    Takes 1 (statement scope n) ∧ (∀ title, Takes 0 (block scope title n)) ∧
      Takes 1 (branch scope n) ∧ Takes 1 (loop scope n)
  | 0 => ⟨takes_tooDeep, fun _ => takes_tooDeep, takes_tooDeep, takes_tooDeep⟩
  | n + 1 => by
    obtain ⟨hstatement, hblock, hbranch, hloop⟩ := takes_statement scope n
    refine ⟨?_, fun title => ?_, takes_branch hblock, takes_loop hblock⟩
    · unfold statement
      refine takes_current.bind fun t => ?_
      split
      · exact takes_declaration
      · exact takes_declaration
      · exact takes_declaration
      · exact takes_printStatement n
      · exact takes_assignment n
      · exact hbranch
      · exact hloop
      · exact takes_returnStatement n
      · exact takes_reject _ _
      · exact takes_reject _ _
    · unfold block
      refine (still_begin _).takes.bind fun id => takes_current.bind fun t => ?_
      refine takes_remaining.bind fun k => ?_
      refine (takes_many hstatement k []).bind fun body => ?_
      exact (still_finish _).takes.bind fun _ => takes_pure _

end Slang.Grammar
