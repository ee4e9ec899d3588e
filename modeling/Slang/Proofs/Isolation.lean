import Slang.Proofs.Positions

/-!
# Runs beside other work in a session

A program that has been begun to run keeps running while other texts are read, collected, parsed and
compiled in the same session: all of them share the session, but none of them touches what belongs
to the run.

* `Preparation` — a step that works on a text; whether it is refused does not matter.
* `Move` — a tick of the run, or a preparation; `play` — what the ticks among some moves are
  answered, and the session behind them.
* `running` — what belongs to the run: how far it is, what it has printed, its result.
* `Runs t n s` — the session has made `n` ticks along the run `t`.

Principal results: `perform_running` — a preparation leaves the run alone; `tick_running` — a tick
looks at nothing else; `play_without` — so preparations can be left out; `Runs.play` — the ticks run
along the run of the program; `execution_isolated` — both together.
-/

set_option autoImplicit false

namespace Slang.Session

/-! ## Moves -/

/-- A step of a session that works on a text. -/
inductive Preparation where
  | beginTokenization (source : String) (fileName : Name)
  | tickTokenization
  | finishTokenization
  | beginPrototypes
  | tickPrototypes
  | beginParsing
  | tickParsing (frames : Nat)
  | compile (frames : Nat) (source : String)

/-- The session behind the step, also if the step is refused. -/
def Preparation.perform : Preparation → Session → Session
  | .beginTokenization source fileName, s => s.beginTokenization source fileName
  | .tickTokenization, s => (tick tokenization s).2
  | .finishTokenization, s => s.finishTokenization.2
  | .beginPrototypes, s => s.beginPrototypes
  | .tickPrototypes, s => (tick collection s).2
  | .beginParsing, s => s.beginParsing
  | .tickParsing frames, s => (tick (parsingStage frames) s).2
  | .compile frames source, s => (s.compile frames source).2

/-- A tick of the run, or a step that works on a text. -/
inductive Move where
  | execute
  | prepare (step : Preparation)

/-- The move is a tick of the run. -/
def Move.executes : Move → Bool
  | .execute => true
  | .prepare _ => false

/-- The answers to the ticks of the run among some moves, and the session behind all of them. -/
def play : List Move → Session → List (Except Refusal (Option ExecReport)) × Session
  | [], s => ([], s)
  | .execute :: moves, s =>
    ((tick execution s).1 :: (play moves (tick execution s).2).1,
      (play moves (tick execution s).2).2)
  | .prepare step :: moves, s => play moves (step.perform s)

/-! ## What belongs to the run -/

/-- What belongs to the run of a session. -/
def running (s : Session) :
    Phase ExecReport (Except Failure (Option Binding) × Table) × Array PrintEvent ×
      Option Binding :=
  (s.executing, s.events, s.result)

section Stage

variable {ρ α : Type} {stage : Stage ρ α}

/-- What the ticks of a phase leave alone is left alone when the phase is drained. -/
theorem drain_keeps {β : Type} {g : Session → β} (hl : stage.Lawful)
    (h : ∀ s, g (tick stage s).2 = g s) (s : Session) : g (drain stage s).2 = g s := by
  obtain ⟨reports, answer, hticks, -⟩ := ticks_drain hl s
  exact hticks.keeps h

end Stage

theorem running_tokenization (s : Session) : running (tick tokenization s).2 = running s :=
  @tick_keeps _ _ tokenization _ running (fun _ _ => rfl) (fun _ _ => rfl) (fun _ _ => rfl)
    (fun _ => rfl) s

theorem running_collection (s : Session) : running (tick collection s).2 = running s := by
  refine @tick_keeps _ _ collection _ running (fun _ _ => rfl) (fun r s => ?_) (fun _ _ => rfl)
    (fun _ => rfl) s
  simp only [collection]
  split <;> rfl

theorem running_parsing (frames : Nat) (s : Session) :
    running (tick (parsingStage frames) s).2 = running s := by
  refine @tick_keeps _ _ (parsingStage frames) _ running (fun _ _ => rfl) (fun _ _ => rfl)
    (fun a s => ?_) (fun _ => rfl) s
  cases a <;> rfl

theorem running_finish (s : Session) : running s.finishTokenization.2 = running s := by
  unfold finishTokenization
  split
  · rfl
  · exact drain_keeps lawful_tokenization running_tokenization s

/-- Compiling a text leaves the run alone, wherever it stops. -/
theorem running_compile (frames : Nat) (source : String) (s : Session) :
    running (s.compile frames source).2 = running s := by
  obtain ⟨answer, s', h⟩ := exists_compiles frames source s
  rw [compile_of_compiles h]
  -- beginning a phase does not touch the run either, which holds by definition
  cases h with
  | untokenized h₁ =>
    have hread := h₁.keeps running_tokenization
    exact hread
  | uncollected h₁ h₂ =>
    have hread := h₁.keeps running_tokenization
    have hcollected := h₂.keeps running_collection
    exact hcollected.trans hread
  | unparsed h₁ h₂ h₃ | parsed h₁ h₂ h₃ =>
    have hread := h₁.keeps running_tokenization
    have hcollected := h₂.keeps running_collection
    have hparsed := h₃.keeps (running_parsing frames)
    exact hparsed.trans (hcollected.trans hread)

/-- **A step that works on a text leaves the run alone.** -/
theorem perform_running (step : Preparation) (s : Session) :
    running (step.perform s) = running s := by
  cases step with
  | beginTokenization | beginPrototypes | beginParsing => rfl
  | tickTokenization => exact running_tokenization s
  | finishTokenization => exact running_finish s
  | tickPrototypes => exact running_collection s
  | tickParsing frames => exact running_parsing frames s
  | compile frames source => exact running_compile frames source s

/-- **A tick of the run looks at nothing but the run.** -/
theorem tick_running {s s' : Session} (h : running s = running s') :
    (tick execution s).1 = (tick execution s').1 ∧
      running (tick execution s).2 = running (tick execution s').2 := by
  obtain ⟨hphase, hrest⟩ := Prod.mk.inj h
  obtain ⟨hevents, hresult⟩ := Prod.mk.inj hrest
  have hresume : ∀ t, (resume execution s t).1 = (resume execution s' t).1 ∧
      running (resume execution s t).2 = running (resume execution s' t).2 := by
    intro t
    cases t with
    | done a =>
      rcases a with ⟨failure | value, table⟩
      · exact ⟨rfl, by simp only [resume, execution, running, hevents, hresult]⟩
      · exact ⟨rfl, by simp only [resume, execution, running, hevents]⟩
    | emit r next =>
      refine ⟨rfl, ?_⟩
      simp only [resume, execution, running]
      split <;> simp only [hevents, hresult]
  unfold tick
  have hsame : execution.phase s = execution.phase s' := hphase
  rw [hsame]
  split
  · exact ⟨rfl, h⟩
  · exact hresume _
  · exact hresume _
  · exact ⟨rfl, by simp only [execution, running, hphase, hevents]⟩
  · exact ⟨rfl, h⟩

/-- **Steps that work on texts can be left out**, by induction on the moves: the two sessions
differ, but not in what belongs to the run. -/
theorem play_without : ∀ (moves : List Move) {s s' : Session}, running s = running s' →
    (play moves s).1 = (play (moves.filter Move.executes) s').1 ∧
      running (play moves s).2 = running (play (moves.filter Move.executes) s').2
  | [], _, _, h => ⟨rfl, h⟩
  | .execute :: moves, s, s', h => by
    obtain ⟨hanswer, hnext⟩ := tick_running h
    obtain ⟨hanswers, hend⟩ := play_without moves hnext
    rw [List.filter_cons_of_pos rfl, play, play]
    exact ⟨congrArg₂ _ hanswer hanswers, hend⟩
  | .prepare step :: moves, s, s', h => by
    rw [List.filter_cons_of_neg Bool.false_ne_true, play]
    exact play_without moves ((perform_running step s).trans h)

/-! ## Along the run of a program -/

/-- How the end of a run is taken. -/
def verdict (value : Except Failure (Option Binding) × Table) : Except Refusal Unit :=
  match value.1 with
  | .ok _ => .ok ()
  | .error failure => .error (.run failure)

theorem steady_execution : execution.Steady verdict := by
  refine ⟨lawful_execution, fun a s => ?_, fun a s => ?_, fun _ => rfl⟩ <;>
    rcases a with ⟨failure | value, table⟩ <;> rfl

/-- The session has made `n` ticks along the run.  It has a result only just after the last one: one
more takes it away. -/
structure Runs (t : Trace ExecReport (Except Failure (Option Binding) × Table)) (n : Nat)
    (s : Session) : Prop where
  place : At execution t n s
  events : s.events.toList = (t.reports.take n).filterMap (·.printed)
  result : s.result = if n = t.reports.length + 1 then t.value.1.toOption.join else none

section Runs

variable {t : Trace ExecReport (Except Failure (Option Binding) × Table)} {n : Nat}
  {s s' : Session}

theorem Runs.of_running (h : Runs t n s) (hs : running s' = running s) : Runs t n s' := by
  obtain ⟨hphase, hrest⟩ := Prod.mk.inj hs
  obtain ⟨hevents, hresult⟩ := Prod.mk.inj hrest
  have hleft : left execution s' = left execution s := by
    simp only [left, execution, hphase]
  refine ⟨?_, by rw [hevents, h.events], by rw [hresult, h.result]⟩
  have hplace := h.place
  unfold At Amid at hplace ⊢
  rw [hleft]
  simpa only [execution, hphase] using hplace

/-- A tick goes one step along the run. -/
theorem Runs.tick (h : Runs t n s) :
    (Session.tick execution s).1 = reply verdict t n ∧
      Runs t (n + 1) (Session.tick execution s).2 := by
  obtain ⟨hanswer, hplace⟩ := h.place.tick steady_execution
  refine ⟨hanswer, ?_⟩
  rcases h.place.step lawful_execution with ⟨r, p, hr, htick, -⟩ | ⟨rfl, htick⟩ | ⟨hlate, htick⟩
  · have hlt : n < t.reports.length := (List.getElem?_eq_some_iff.mp hr).1
    have hresult : s.result = none := by rw [h.result, if_neg (by omega)]
    refine ⟨hplace, ?_, ?_⟩
    · rw [htick, List.take_add_one, List.filterMap_append, ← h.events, hr]
      simp only [execution]
      cases hprinted : r.printed <;> simp [hprinted]
    · rw [htick, if_neg (by omega)]
      simp only [execution]
      split <;> exact hresult
  · have hresult : s.result = none := by rw [h.result, if_neg (by omega)]
    have hend := List.getElem?_eq_none (Nat.le_refl t.reports.length)
    refine ⟨hplace, ?_, ?_⟩
    · rw [htick, List.take_add_one, hend, Option.toList_none, List.append_nil, ← h.events]
      rcases t.value with ⟨failure | value, table⟩ <;> rfl
    · rw [htick, if_pos rfl]
      rcases t.value with ⟨failure | value, table⟩
      · exact hresult
      · rfl
  · have hend := List.getElem?_eq_none (Nat.le_of_lt hlate)
    refine ⟨hplace, ?_, ?_⟩
    · rw [htick, List.take_add_one, hend, Option.toList_none, List.append_nil, ← h.events]
      rfl
    · rw [htick, if_neg (by omega)]
      rfl

/-- **The ticks among some moves go along the run**, whatever the other moves are. -/
theorem Runs.play : ∀ (moves : List Move) {n : Nat} {s : Session}, Runs t n s →
    (play moves s).1 = (List.range' n (moves.countP Move.executes)).map (reply verdict t) ∧
      Runs t (n + moves.countP Move.executes) (Session.play moves s).2
  | [], _, _, h => ⟨rfl, h⟩
  | .execute :: moves, n, s, h => by
    obtain ⟨hanswer, hnext⟩ := h.tick
    obtain ⟨hanswers, hend⟩ := Runs.play moves hnext
    rw [List.countP_cons_of_pos rfl, List.range'_succ, List.map_cons, Session.play, hanswer,
      hanswers]
    refine ⟨rfl, ?_⟩
    rwa [Nat.add_assoc, Nat.add_comm 1] at hend
  | .prepare step :: moves, n, s, h => by
    rw [List.countP_cons_of_neg Bool.false_ne_true, Session.play]
    exact Runs.play moves (h.of_running (perform_running step s))

theorem runs_begin {program : Program} {limits : Limits} (hprogram : s.program = some program)
    (h : s.beginExecution limits = (.ok (), s')) : Runs (program.run limits []) 0 s' := by
  simp only [beginExecution, hprogram] at h
  cases h
  refine ⟨at_start rfl, rfl, ?_⟩
  rw [if_neg (Nat.succ_ne_zero _).symm]

end Runs

/-- **A run is isolated from other work in its session.**  Whatever is begun, read, collected,
parsed or compiled between the ticks of a run, and whether those steps succeed or are refused, the
ticks are answered as they are without them, and leave the same events and the same result.  They go
along the run of the program that was there when the run was begun: they answer its reports in
order, then how it has ended, and then that it is over; the events are those of the reports that
were answered, and the result is there just after the end. -/
theorem execution_isolated (s : Session) (moves : List Move) :
    ((play moves s).1 = (play (moves.filter Move.executes) s).1 ∧
      (play moves s).2.events = (play (moves.filter Move.executes) s).2.events ∧
      (play moves s).2.result = (play (moves.filter Move.executes) s).2.result) ∧
    ∀ program limits s₁, s.program = some program → s.beginExecution limits = (.ok (), s₁) →
      (play moves s₁).1 = (List.range (moves.countP Move.executes)).map
        (reply verdict (program.run limits [])) ∧
      (play moves s₁).2.events.toList = ((program.run limits []).reports.take
        (moves.countP Move.executes)).filterMap (·.printed) ∧
      (play moves s₁).2.result =
        if moves.countP Move.executes = (program.run limits []).reports.length + 1 then
          (program.run limits []).value.1.toOption.join
        else none := by
  obtain ⟨hanswers, hend⟩ := @play_without moves s s rfl
  obtain ⟨-, hrest⟩ := Prod.mk.inj hend
  refine ⟨⟨hanswers, Prod.mk.inj hrest⟩, fun program limits s₁ hprogram hbegin => ?_⟩
  obtain ⟨hplay, hruns⟩ := (runs_begin hprogram hbegin).play moves
  rw [Nat.zero_add] at hruns
  rw [List.range_eq_range']
  exact ⟨hplay, hruns.events, hruns.result⟩

/-- A program that prints is ticked twice, and between the ticks a text is compiled that has no
tokens, and then one that has no program. -/
theorem execution_isolated_recompiling : ∃ program s, ∀ limits, ∃ s₁,
    fresh.compile 100 "PRINT \"x\";" = (.ok (some program), s) ∧
    s.beginExecution limits = (.ok (), s₁) ∧
    (play [.execute, .prepare (.compile 100 "PRINT $;"), .prepare (.compile 9 "PRINT x;"),
      .execute] s₁).1 = (List.range 2).map (reply verdict (program.run limits [])) := by
  obtain ⟨program, hprogram⟩ :=
    (isOk_spec (Program.compile 100 "PRINT \"x\";")).1 (by decide +kernel)
  obtain ⟨s, hs, hheld⟩ := (compile_session _ fresh).2 program hprogram
  refine ⟨program, s, fun limits => ?_⟩
  obtain ⟨s₁, hs₁, -⟩ := (beginExecution_eq s limits).2 program hheld
  have hplay := (execution_isolated s [.execute, .prepare (.compile 100 "PRINT $;"),
    .prepare (.compile 9 "PRINT x;"), .execute]).2 program limits s₁ hheld hs₁
  exact ⟨s₁, hs, hs₁, hplay.1⟩

end Slang.Session
