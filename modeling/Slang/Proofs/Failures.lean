import Slang.Compile
import Slang.Proofs.TypeSoundness

/-!
# Which failures there are

A name that is declared at two types has the type of the declaration before it in the text when the
text is checked, and that of the declaration which was executed last when it is run.  So a text can
pass the checker and still fail at an operation that its operands do not have.

* `Moment.Mistyped` — the moment takes an expression whose value is not of the type recorded on it.
* `outcomeOf program run` — the outcome of a text that compiles to the program and is run.

Principal results: `compile_stops` — a text that does not compile has a compile error;
`run_failures` — a compiled program never misses a function; `mistyped_of_raises` — an operation is
undefined only on a value that is not of its recorded type; `failures_exact` — all failures of a
text, and exactly when one of them is an undefined operation.
-/

set_option autoImplicit false

namespace Slang

open Grammar

variable {frames : Nat}

/-! ## Texts -/

/-- **A text that does not compile has a compile error**: its last token is the end of the input, so
the parser does not run out of tokens. -/
theorem compile_stops {source : String} {stop : Stop}
    (h : Program.compile frames source = .error stop) : ∃ e, stop = .error e := by
  rcases compile_fails h with htokens | ⟨tokens, -, hheaders⟩ | ⟨tokens, headers, htokens, -, ho⟩
  · obtain ⟨e, rfl, -⟩ := mapError_eq_error.mp htokens
    exact ⟨e, rfl⟩
  · obtain ⟨e, rfl, -⟩ := mapError_eq_error.mp hheaders
    exact ⟨e, rfl⟩
  · obtain ⟨us, pos, rfl, _⟩ := tokensOf_ends htokens
    have hstarved := Ends.of_error ho reads_program
    cases stop with
    | error e => exact ⟨e, rfl⟩
    | outOfTokens => exact absurd rfl (hstarved rfl (Token.atEnd pos) (by simp [State.start]))

/-! ## Runs -/

section Runs

variable {program : Program} {limits : Limits}

/-- A compiled program has every function that it calls, so a run fails with a reported failure or
at an undefined operation. -/
theorem run_failures (hc : Consistent program) {actuals : List Binding} {f : Failure}
    (h : (program.run limits actuals).value.1 = .error f) :
    f.Reported ∨ ∃ reason, f = .undefined reason := by
  rcases run_fails_iff.mp h with ⟨_, _, rfl⟩ | ⟨m, hm, hr⟩
  · exact .inl trivial
  have hcode := reached_code hc hm
  cases hr with
  | unassigned | noValue | exhausted | outOfRounds => exact .inl trivial
  | arith | compare | sign | print => exact .inr ⟨_, rfl⟩
  | unknown _ hq =>
    obtain ⟨_, before, T, _, hT⟩ := hcode
    obtain ⟨q, hq', _⟩ := hc.linked (hT.linked _ _ _ _ _ (Expr.self_mem_nodes _))
    rw [hq] at hq'
    cases hq'

/-- The moment takes an expression whose value is not of the type recorded on it. -/
def Moment.Mistyped (program : Program) (limits : Limits) (m : Moment) : Prop :=
  ∃ e b, Leads program limits m ⟨m.frame, m.table, .eval e⟩ ∧
    m.frame.value program limits m.table e = .ok b ∧ ¬ HasValue e.ty? b

/-- Of two operands, the left one or the right one is mistyped if they cannot both be well typed. -/
theorem mistyped_of_pair {fr : Frame} {t : Table} {e l r : Expr} {a b : Binding}
    (he : e.operands = [l, r]) (hl : fr.value program limits t l = .ok a)
    (hr : fr.value program limits t r = .ok b)
    (h : HasValue l.ty? a → HasValue r.ty? b → False) :
    Moment.Mistyped program limits ⟨fr, t, .eval e⟩ := by
  by_cases hla : HasValue l.ty? a
  · have hbefore : fr.values program limits t [l] = .ok [a] :=
      Expr.values_cons_ok.mpr ⟨a, [], hl, rfl, rfl⟩
    exact ⟨r, b, @Leads.operand _ _ _ _ _ _ [l] [] _ he hbefore, hr, h hla⟩
  · exact ⟨l, a, @Leads.operand _ _ _ _ _ _ [] [r] _ he rfl, hl, hla⟩

/-- **An operation is undefined only on values of which one is not of the type recorded on its
operand.** -/
theorem mistyped_of_raises {m : Moment} (hm : m.Code program) {reason : Undefined}
    (h : Raises program limits m (.undefined reason)) : m.Mistyped program limits := by
  obtain ⟨hp, htask⟩ := hm
  cases h with
  | arith hl hr h =>
    obtain ⟨before, T, _, hset⟩ := htask
    obtain ⟨htl, htr, hT⟩ := hasType_arith.mp (hset.recorded _ (Expr.self_mem_nodes _))
    refine mistyped_of_pair rfl hl hr fun hla hrb => ?_
    rw [hset.operand_type (by simp [Expr.operands]) htl] at hla
    rw [hset.operand_type (by simp [Expr.operands]) htr] at hrb
    obtain ⟨v, hv, _⟩ := arithmetic_defined hla hrb hT
    rw [hv] at h
    cases h
  | compare hl hr h =>
    obtain ⟨before, T, _, hset⟩ := htask
    obtain ⟨_, U, htl, htr, hop⟩ := hasType_compare.mp (hset.recorded _ (Expr.self_mem_nodes _))
    refine mistyped_of_pair rfl hl hr fun hla hrb => ?_
    rw [hset.operand_type (by simp [Expr.operands]) htl] at hla
    rw [hset.operand_type (by simp [Expr.operands]) htr] at hrb
    obtain ⟨v, hv⟩ := compare_defined hla hrb hop
    rw [hv] at h
    cases h
  | @sign fr t m ty op e a reason he h =>
    obtain ⟨before, T, _, hset⟩ := htask
    obtain ⟨_, hte⟩ := hasType_sign.mp (hset.recorded _ (Expr.self_mem_nodes _))
    refine ⟨_, _, @Leads.operand _ _ _ _ _ e [] [] _ rfl rfl, he, fun hea => ?_⟩
    rw [hset.operand_type (by simp [Expr.operands]) hte] at hea
    obtain ⟨v, hv, _⟩ := signed_defined hea
    rw [hv] at h
    cases h
  | print he h =>
    refine ⟨_, _, .value rfl, he, fun hv => ?_⟩
    obtain ⟨event, hevent⟩ := print_fits hv.2
    rw [hevent] at h
    cases h

end Runs

/-! ## Outcomes -/

section Outcomes

variable {source : String} {program : Program} {limits : Limits}

theorem execute_result (program : Program) (limits : Limits) (actuals : List Binding) :
    (program.execute limits actuals).result = (program.run limits actuals).value.1 := by
  unfold Program.execute
  rw [Trace.foldl_eq]

/-- The outcome of a run of the program. -/
def outcomeOf (program : Program) (run : Execution) : Outcome :=
  match run.result with
  | .error failure => .failed program run.events failure
  | .ok value => .finished program run.events value

theorem outcomeOf_eq_finished {program' : Program} {run : Execution} {events : List PrintEvent}
    {value : Option Binding} :
    outcomeOf program run = .finished program' events value ↔
      program = program' ∧ run.events = events ∧ run.result = .ok value := by
  unfold outcomeOf
  cases run.result <;> simp

theorem outcomeOf_eq_failed {program' : Program} {run : Execution} {events : List PrintEvent}
    {failure : Failure} :
    outcomeOf program run = .failed program' events failure ↔
      program = program' ∧ run.events = events ∧ run.result = .error failure := by
  unfold outcomeOf
  cases run.result <;> simp

/-- A text that does not compile is rejected, whatever its run would be left. -/
theorem ofSource_of_error {stop : Grammar.Stop} (h : Program.compile frames source = .error stop)
    (limits : Except StackError Limits) :
    Outcome.ofSource ⟨frames, limits⟩ source = .rejected stop := by
  unfold Outcome.ofSource
  rw [h]

theorem ofSource_of_compile (h : Program.compile frames source = .ok program)
    (limits : Except StackError Limits) :
    Outcome.ofSource ⟨frames, limits⟩ source =
      match limits with
      | .error reason => .failed program [] (.noStack reason)
      | .ok limits => outcomeOf program (program.execute limits []) := by
  unfold Outcome.ofSource
  rw [h]
  rfl

theorem ofSource_rejected {runs : Except StackError Limits} {stop : Stop} :
    Outcome.ofSource ⟨frames, runs⟩ source = .rejected stop ↔
      Program.compile frames source = .error stop := by
  cases h : Program.compile frames source with
  | error e => simp [ofSource_of_error h]
  | ok program =>
    rw [ofSource_of_compile h]
    cases runs with
    | error reason => simp
    | ok limits =>
      dsimp only
      unfold outcomeOf
      split <;> simp

theorem ofSource_failed {f : Failure} :
    (∃ events, Outcome.ofSource ⟨frames, .ok limits⟩ source = .failed program events f) ↔
      Program.compile frames source = .ok program ∧ (program.run limits []).value.1 = .error f := by
  cases h : Program.compile frames source with
  | error e => simp [ofSource_of_error h]
  | ok program' =>
    simp only [ofSource_of_compile h, outcomeOf_eq_failed, execute_result, exists_and_left,
      exists_eq_left', Except.ok.injEq]
    exact and_congr_right fun hprogram => by rw [hprogram]

/-- **Which failures there are.**  A text is rejected with a compile error only.  A run fails with
an error of the language, at a loop that outlasts its budget, or at an undefined operation; the last
exactly if the run reaches an operation that the values of its operands do not have.  One of these
values is then not of the type that the checker recorded for it, and a name is declared at two types
in a function of the text. -/
theorem failures_exact (source : String) (frames : Nat) (limits : Limits) :
    (∀ stop, Outcome.ofSource ⟨frames, .ok limits⟩ source = .rejected stop →
      ∃ e, stop = .error e) ∧
    (∀ program events f, Outcome.ofSource ⟨frames, .ok limits⟩ source = .failed program events f →
      f.Reported ∨ ∃ reason, f = .undefined reason) ∧
    ∀ program, Program.compile frames source = .ok program → ∀ reason,
      ((∃ events, Outcome.ofSource ⟨frames, .ok limits⟩ source =
          .failed program events (.undefined reason)) ↔
        ∃ m, Reached program limits [] m ∧ Raises program limits m (.undefined reason)) ∧
      ∀ m, Reached program limits [] m → Raises program limits m (.undefined reason) →
        m.Mistyped program limits ∧ ∃ p ∈ program.procedures, ¬ p.Uniform := by
  refine ⟨fun stop h => compile_stops (ofSource_rejected.mp h), ?_, ?_⟩
  · intro program events f h
    obtain ⟨hcompile, hf⟩ := ofSource_failed.mp ⟨events, h⟩
    exact run_failures (compile_sound hcompile).consistent hf
  · intro program hcompile reason
    have hc := (compile_sound hcompile).consistent
    refine ⟨?_, fun m hm hr => ⟨mistyped_of_raises (reached_code hc hm) hr, ?_⟩⟩
    · rw [ofSource_failed, run_fails_iff]
      simp [hcompile]
    · by_cases hu : ∀ p ∈ program.procedures, p.Uniform
      · have hf := run_fails_iff.mpr (.inr ⟨m, hm, hr⟩)
        obtain ⟨main, _, hmain, _⟩ := hm
        have hsound := (@run_sound _ limits hc hu main hmain [] (by simp [Matches])).1
        rw [hf] at hsound
        exact hsound.elim
      · simpa using hu

/-- The branch is not taken, so `a` is still the text when it is multiplied as a number. -/
theorem failures_exact_untaken : ∃ program events,
    (Host.even 1000 0 20 7 9).outcome .source .usual
        "STRING a; a = \"q\"; IF FALSE THEN NUMERIC a; ENDIF PRINT a * 2;" =
      .failed program events (.undefined .mismatch) := by
  have h : (match (Host.even 1000 0 20 7 9).outcome .source .usual
      "STRING a; a = \"q\"; IF FALSE THEN NUMERIC a; ENDIF PRINT a * 2;" with
      | .failed _ _ f => some f
      | _ => none) = some (.undefined .mismatch) := by
    decide +kernel
  split at h
  · rename_i program events f hf
    cases h
    exact ⟨program, events, hf⟩
  · cases h

end Outcomes

end Slang
