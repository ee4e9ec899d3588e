import Slang.Proofs.Adequacy
import Slang.Proofs.Failures
import Slang.Proofs.Forward
import Slang.Proofs.LargerStacks

/-!
# Texts in less room

How much of its stack a host leaves to the parser and to a run decides how far they come, and
nothing else.

* `Stop.Short` — the ways in which a parser that lacks frames stops.
* `ReadsWithin r r'` — `r` reads as `r'` does, or stops short of it.
* `Outcome.Within o o'` — `o` is `o'`, or it is cut off for want of stack.

Principal results: `program_within` — the parser with fewer frames; `compile_within` — what a text
compiles to does not depend on the frames, as long as there are enough; `Host.outcome_within` — two
entries of one host, of which the second one takes more frames.
-/

set_option autoImplicit false

namespace Slang

namespace Grammar

variable {α β : Type} {known : Signatures} {scope : Scope} {n n' : Nat}

/-! ## Readers that stop short -/

/-- The text is nested too deeply, which is said of a token and needs one. -/
def Stop.Short : Stop → Prop
  | .error e => e.cause = .tooDeep
  | .outOfTokens => True

/-- From here on the first reader does what the second one does, or it stops short of it. -/
inductive WithinFrom (r r' : Reader α) (s : State) : Prop
  | same (hreports : reportsOf r' s = reportsOf r s) (ho : outcome r' s = outcome r s)
  | short {stop : Stop} (ho : outcome r s = .error stop) (hstop : stop.Short)
      (hreports : reportsOf r s <+: reportsOf r' s)

/-- The first reader does what the second one does, or it stops short of it. -/
def ReadsWithin (r r' : Reader α) : Prop := ∀ s, WithinFrom r r' s

theorem ReadsWithin.refl (r : Reader α) : ReadsWithin r r := fun _ => .same rfl rfl

theorem reportsOf_prefix_bind (r : Reader α) (f : α → Reader β) (s : State) :
    reportsOf r s <+: reportsOf (r >>= f) s := by
  rcases ho : outcome r s with stop | ⟨a, s'⟩
  · exact reportsOf_bind_error (f := f) ho ▸ List.prefix_rfl
  · rw [reportsOf_bind_ok ho]
    exact List.prefix_append _ _

/-- Sequencing: what stops short goes no further. -/
theorem ReadsWithin.bind {r r' : Reader α} {f f' : α → Reader β} (h : ReadsWithin r r')
    (hf : ∀ a, ReadsWithin (f a) (f' a)) : ReadsWithin (r >>= f) (r' >>= f') := by
  intro s
  cases h s with
  | short ho hstop hreports =>
    refine .short (outcome_bind_error ho) hstop ?_
    rw [reportsOf_bind_error ho]
    exact hreports.trans (reportsOf_prefix_bind r' f' s)
  | same hreports ho' =>
    rcases ho : outcome r s with stop | ⟨a, t⟩
    · rw [ho] at ho'
      refine .same ?_ ?_
      · rw [reportsOf_bind_error ho, reportsOf_bind_error ho', hreports]
      · rw [outcome_bind_error ho, outcome_bind_error ho']
    · rw [ho] at ho'
      have hall := reportsOf_bind_ok (f := f) ho
      have hall' := reportsOf_bind_ok (f := f') ho'
      rw [hreports] at hall'
      cases hf a t with
      | same hreports₁ ho₁ =>
        refine .same ?_ ?_
        · rw [hall, hall', hreports₁]
        · rw [outcome_bind_ok ho, outcome_bind_ok ho', ho₁]
      | short ho₁ hstop hreports₁ =>
        refine .short ((outcome_bind_ok ho).trans ho₁) hstop ?_
        rw [hall, hall']
        exact (List.prefix_append_right_inj _).mpr hreports₁

/-- The same beginning, and then a reader that may stop short. -/
theorem ReadsWithin.andThen {r : Reader α} {f f' : α → Reader β}
    (hf : ∀ a, ReadsWithin (f a) (f' a)) : ReadsWithin (r >>= f) (r >>= f') :=
  (ReadsWithin.refl r).bind hf

/-- And then the same end. -/
theorem ReadsWithin.before {r r' : Reader α} (f : α → Reader β) (h : ReadsWithin r r') :
    ReadsWithin (r >>= f) (r' >>= f) := h.bind fun a => .refl (f a)

/-- Without frames every reader stops short. -/
theorem tooDeep_within (r : Reader α) : ReadsWithin tooDeep r := by
  rintro ⟨index, rest, nextId, parents, table⟩
  cases rest with
  | nil => exact .short rfl trivial List.nil_prefix
  | cons t rest => exact .short rfl rfl List.nil_prefix

theorem many_within {begins : Token.Kind → Bool} {item item' : Reader α}
    (h : ReadsWithin item item') : ∀ (k : Nat) (before : List α),
      ReadsWithin (many begins item k before) (many begins item' k before)
  | 0, _ => .refl _
  | k + 1, before => by
    unfold many
    refine .andThen fun t => ?_
    split
    · exact h.bind fun a => many_within h k (a :: before)
    · exact .refl _

theorem separated_within {item item' : Reader α} (h : ReadsWithin item item') :
    ∀ (k : Nat) (before : List α), ReadsWithin (separated item k before) (separated item' k before)
  | 0, _ => .refl _
  | k + 1, before => by
    unfold separated
    refine h.bind fun a => .andThen fun found => ?_
    split
    · exact separated_within h k (a :: before)
    · exact .refl _

/-! ## Expressions -/

theorem chain_within {γ : Type} {pick : Symbol → Option γ} {build : Mark → γ → Expr → Expr → Expr}
    {operand operand' again again' : Reader Expr} (ho : ReadsWithin operand operand')
    (ha : ReadsWithin again again') :
    ReadsWithin (chain operand pick again build) (chain operand' pick again' build) := by
  refine ho.bind fun left => .andThen fun found => ?_
  cases found with
  | none => exact .refl _
  | some x => exact ha.before _

theorem factor_within (hfactor : ReadsWithin (factor known n) (factor known n'))
    (hlogical : ReadsWithin (logical known n) (logical known n'))
    (hident : ReadsWithin (identifier known n) (identifier known n')) :
    ReadsWithin (factor known (n + 1)) (factor known (n' + 1)) := by
  unfold factor
  refine .andThen fun t => ?_
  split
  · exact .refl _
  · exact .refl _
  · exact .refl _
  · exact .refl _
  · exact .andThen fun _ => hlogical.before _
  · exact .andThen fun _ => hfactor.before _
  · exact .andThen fun _ => hfactor.before _
  · exact .andThen fun _ => hfactor.before _
  · exact hident
  · exact .refl _

theorem identifier_within (hlogical : ReadsWithin (logical known n) (logical known n')) :
    ReadsWithin (identifier known (n + 1)) (identifier known (n' + 1)) := by
  unfold identifier
  refine .andThen fun t => ?_
  dsimp only
  split
  · exact .refl _
  · refine .andThen fun _ => .andThen fun found => ?_
    split
    · exact .refl _
    · exact .andThen fun k => (separated_within hlogical k []).before _

/-- **Expressions of every level**, by induction on the smaller number of frames. -/
theorem level_within (known : Signatures) : ∀ {n n' : Nat}, n ≤ n' →
    (∀ l : Level, ReadsWithin (l.read known n) (l.read known n')) ∧
      ReadsWithin (identifier known n) (identifier known n')
  | 0, _, _ => ⟨fun l => by rw [l.read_zero]; exact tooDeep_within _, tooDeep_within _⟩
  | n + 1, n' + 1, h => by
    obtain ⟨hlevel, hident⟩ := level_within known (Nat.le_of_succ_le_succ h)
    refine ⟨fun l => ?_, identifier_within (hlevel .logical)⟩
    cases hl : l.inner with
    | none =>
      cases l <;> cases hl
      exact factor_within (hlevel .factor) (hlevel .logical) hident
    | some m =>
      rw [Level.read_succ hl, Level.read_succ hl]
      exact chain_within (hlevel m) (hlevel l)

theorem expression_within (h : n ≤ n') :
    ReadsWithin (expression known n) (expression known n') :=
  ((level_within known h).1 .logical).before _

/-! ## Statements -/

theorem printStatement_within (h : n ≤ n') :
    ReadsWithin (printStatement scope n) (printStatement scope n') :=
  .andThen fun _ => .andThen fun _ => (expression_within h).before _

theorem assignment_within (h : n ≤ n') :
    ReadsWithin (assignment scope n) (assignment scope n') := by
  unfold assignment
  refine .andThen fun id => .andThen fun name => .andThen fun s => ?_
  dsimp only
  split
  · exact .refl _
  · exact .andThen fun _ => .andThen fun _ => .andThen fun _ => (expression_within h).before _

theorem returnStatement_within (h : n ≤ n') :
    ReadsWithin (returnStatement scope n) (returnStatement scope n') := by
  unfold returnStatement
  refine .andThen fun id => .andThen fun t => .andThen fun next => ?_
  dsimp only
  split
  · exact .refl _
  · exact (expression_within h).before _

theorem condition_within (kind : CompileError.Conditional) (h : n ≤ n') :
    ReadsWithin (condition scope kind n) (condition scope kind n') :=
  .andThen fun _ => .andThen fun _ => (expression_within h).before _

theorem block_within {title : String}
    (hstatement : ReadsWithin (statement scope n) (statement scope n')) :
    ReadsWithin (block scope title (n + 1)) (block scope title (n' + 1)) := by
  unfold block
  exact .andThen fun _ => .andThen fun _ => .andThen fun k => (many_within hstatement k []).before _

theorem branch_within (h : n ≤ n')
    (hblock : ∀ title, ReadsWithin (block scope title n) (block scope title n')) :
    ReadsWithin (branch scope (n + 1)) (branch scope (n' + 1)) := by
  unfold branch
  refine .andThen fun id => .andThen fun t => (condition_within .if_ h).bind fun c => ?_
  refine .andThen fun _ => (hblock _).bind fun body => .andThen fun other => ?_
  cases other with
  | some _ => exact (hblock _).before _
  | none => exact .refl _

theorem loop_within (h : n ≤ n')
    (hblock : ∀ title, ReadsWithin (block scope title n) (block scope title n')) :
    ReadsWithin (loop scope (n + 1)) (loop scope (n' + 1)) := by
  unfold loop
  refine .andThen fun id => .andThen fun t => (condition_within .while_ h).bind fun c => ?_
  exact (hblock _).before _

/-- **Statements and blocks.** -/
theorem statement_within (scope : Scope) : ∀ {n n' : Nat}, n ≤ n' →
    ReadsWithin (statement scope n) (statement scope n') ∧
      (∀ title, ReadsWithin (block scope title n) (block scope title n')) ∧
      ReadsWithin (branch scope n) (branch scope n') ∧ ReadsWithin (loop scope n) (loop scope n')
  | 0, _, _ =>
    ⟨tooDeep_within _, fun _ => tooDeep_within _, tooDeep_within _, tooDeep_within _⟩
  | n + 1, n' + 1, h => by
    have hle := Nat.le_of_succ_le_succ h
    obtain ⟨hstatement, hblock, hbranch, hloop⟩ := statement_within scope hle
    refine ⟨?_, fun title => block_within hstatement, branch_within hle hblock,
      loop_within hle hblock⟩
    unfold statement
    refine .andThen fun t => ?_
    split
    · exact .refl _
    · exact .refl _
    · exact .refl _
    · exact printStatement_within hle
    · exact assignment_within hle
    · exact hbranch
    · exact hloop
    · exact returnStatement_within hle
    · exact .refl _
    · exact .refl _

/-! ## Programs -/

theorem function_within (h : n ≤ n') : ReadsWithin (function known n) (function known n') := by
  rw [function_eq, function_eq]
  refine .andThen fun opening => .andThen fun params => .andThen fun _ => ?_
  unfold functionBody
  split
  · exact .refl _
  · refine .andThen fun _ => .andThen fun _ => ?_
    exact ((statement_within _ h).2.1 _).before _

theorem script_within (h : n ≤ n') : ReadsWithin (script known n) (script known n') := by
  unfold script
  exact .andThen fun _ => .andThen fun _ => ((statement_within _ h).2.1 _).before _

/-- **The parser with fewer frames does what it does with more of them, or it stops short of
it.** -/
theorem program_within (h : n ≤ n') : ReadsWithin (program known n) (program known n') := by
  unfold program
  refine .andThen fun t => ?_
  split
  · exact .andThen fun k => (many_within (function_within h) k []).before _
  · exact script_within h

end Grammar

/-! ## Texts -/

section Texts

variable {frames frames' : Nat} {source : String} {program : Program}

/-- **What a text compiles to does not depend on the frames**, as long as there are enough of them
for its nesting. -/
theorem compile_within (h : frames ≤ frames') (source : String) :
    Program.compile frames' source = Program.compile frames source ∨
      ∃ e, Program.compile frames source = .error (.error e) ∧ e.cause = .tooDeep := by
  cases htokens : Program.tokensOf source with
  | error stop =>
    exact .inl ((compile_untokenized htokens _).trans (compile_untokenized htokens _).symm)
  | ok tokens =>
    cases hheaders : Program.prototypesOf tokens with
    | error stop =>
      have hcompile := compile_unregistered htokens hheaders
      exact .inl ((hcompile _).trans (hcompile _).symm)
    | ok headers =>
      have hcompile := @compile_eq frames source tokens headers htokens hheaders
      rw [@compile_eq frames' source tokens headers htokens hheaders, hcompile]
      cases Grammar.program_within h (.start tokens) with
      | same _ ho => exact .inl (congrArg _ ho)
      | short ho hstop _ =>
        rw [ho] at hcompile ⊢
        obtain ⟨e, rfl⟩ := compile_stops hcompile
        exact .inr ⟨e, rfl, hstop⟩

/-- A text that compiles compiles to the same program with more frames. -/
theorem compile_mono (h : frames ≤ frames')
    (hcompile : Program.compile frames source = .ok program) :
    Program.compile frames' source = .ok program := by
  rcases compile_within h source with heq | ⟨e, he, _⟩
  · exact heq.trans hcompile
  · rw [hcompile] at he
    cases he

/-! ## Outcomes -/

/-- The program of a text that is run. -/
def Outcome.program? : Outcome → Option Program
  | rejected _ => none
  | failed program _ _ | finished program _ _ => some program

/-- What becomes of a text in less room: the same; or the text is nested too deeply; or its program
is not run, or is cut off for want of stack, behind the beginning of what it prints otherwise. -/
inductive Outcome.Within : Outcome → Outcome → Prop
  | same {o : Outcome} : Within o o
  | unread {e : CompileError} {o : Outcome} (he : e.cause = .tooDeep) :
      Within (.rejected (.error e)) o
  | cutOff {program : Program} {events : List PrintEvent} {failure : Failure} {o : Outcome}
      (hfailure : failure = .noStack .tooLow ∨ failure = .fault .stackExhausted)
      (hprogram : o.program? = some program) (hevents : events <+: o.events) :
      Within (.failed program events failure) o

/-- A run on a stack that is not larger is the same run, or one that is cut off. -/
theorem execute_within (program : Program) (actuals : List Binding) {limits limits' : Limits}
    (hactivations : limits.activations ≤ limits'.activations)
    (hrounds : limits'.rounds = limits.rounds) :
    program.execute limits' actuals = program.execute limits actuals ∨
      (program.execute limits actuals).result = overflow ∧
        (program.execute limits actuals).events <+: (program.execute limits' actuals).events := by
  obtain ⟨n, k⟩ := limits
  obtain ⟨n', _⟩ := limits'
  cases hrounds
  rcases Nat.lt_or_eq_of_le hactivations with hlt | heq
  · rw [execute_eq, execute_eq]
    cases run_within program ⟨n, k⟩ actuals hlt with
    | same _ _ hreports hvalue =>
      left
      dsimp only at hreports hvalue
      simp only [printed, hreports, hvalue]
    | @longer r rest _ hcut hreports _ =>
      refine .inr ⟨hcut, ?_⟩
      dsimp only at hreports
      simp only [printed, hreports, List.filterMap_append]
      exact List.prefix_append _ _
  · cases heq
    exact .inl rfl

theorem outcomeOf_shows (program : Program) (run : Execution) :
    (outcomeOf program run).program? = some program ∧
      (outcomeOf program run).events = run.events := by
  unfold outcomeOf
  cases run.result <;> exact ⟨rfl, rfl⟩

namespace Host

variable {h : Host} {e e' : Entry}

theorem frames_le (he : e ≤ e') : h.frames e' ≤ h.frames e := by
  have hparsing : e.parsing ≤ e'.parsing := he.1
  exact h.nesting_mono (by omega)

theorem limitsOf_le (he : e ≤ e') (size : Nat) :
    (h.limitsOf e' size).activations ≤ (h.limitsOf e size).activations := by
  have hrunning : e.running ≤ e'.running := he.2.2
  exact h.activations_mono (by omega)

/-- What a run is left on an entry that takes more frames: its stack is too low, or cannot be set up
on either, or is not larger. -/
theorem limits_le (he : e ≤ e') (stack : Stack) :
    h.limits e' stack = .error .tooLow ∨
      (∃ reason, h.limits e stack = .error reason ∧ h.limits e' stack = .error reason) ∨
      ∃ size, h.limits e stack = .ok (h.limitsOf e size) ∧
        h.limits e' stack = .ok (h.limitsOf e' size) := by
  have hsetting : e.setting ≤ e'.setting := he.2.1
  cases stack with
  | usual => exact .inr (.inr ⟨_, rfl, rfl⟩)
  | blank => exact .inr (.inl ⟨_, rfl, rfl⟩)
  | frames n =>
    simp only [limits]
    split
    · exact .inr (.inl ⟨_, rfl, rfl⟩)
    split
    · exact .inr (.inl ⟨_, rfl, rfl⟩)
    split
    · exact .inl rfl
    · rw [if_neg (by omega)]
      exact .inr (.inr ⟨_, rfl, rfl⟩)

/-- **Two entries of one host.** On the one that takes more frames a text has the same outcome, or
one that is cut off for want of stack. -/
theorem outcome_within (h : Host) (he : e ≤ e') (stack : Stack) (source : String) :
    (h.outcome e' stack source).Within (h.outcome e stack source) := by
  show (Outcome.ofSource ⟨h.frames e', h.limits e' stack⟩ source).Within
    (.ofSource ⟨h.frames e, h.limits e stack⟩ source)
  cases hcompile : Program.compile (h.frames e') source with
  | error stop =>
    rw [ofSource_of_error hcompile]
    rcases compile_within (frames_le he) source with heq | ⟨error, herror, hdeep⟩
    · rw [ofSource_of_error (heq.trans hcompile)]
      exact .same
    · rw [hcompile] at herror
      cases herror
      exact .unread hdeep
  | ok program =>
    rw [ofSource_of_compile hcompile, ofSource_of_compile (compile_mono (frames_le he) hcompile)]
    rcases limits_le he stack with htooLow | ⟨reason, hreason, hreason'⟩ | ⟨size, hsize, hsize'⟩
    · rw [htooLow]
      refine .cutOff (.inl rfl) ?_ List.nil_prefix
      cases h.limits e stack with
      | error reason => rfl
      | ok limits => exact (outcomeOf_shows program _).1
    · rw [hreason, hreason']
      exact .same
    · rw [hsize, hsize']
      dsimp only
      rcases execute_within program [] (limitsOf_le he size) rfl with heq | ⟨hcut, hevents⟩
      · rw [heq]
        exact .same
      · rw [outcomeOf_eq_failed.mpr ⟨rfl, rfl, hcut⟩]
        obtain ⟨hprogram, hshown⟩ := outcomeOf_shows program
          (program.execute (h.limitsOf e size) [])
        exact .cutOff (.inr rfl) hprogram (hshown ▸ hevents)

end Host

end Texts

end Slang
