import Slang.Session
import Slang.Proofs.Rooms

/-!
# Sessions, tick by tick

A text can be compiled at once or in a session, where every phase is ticked until it answers that it
is over; and it can be run at once or in a session that has compiled it.  All ways agree where they
are left the same room, whatever has happened in the session before.

* `Session.Ticks stage s reports answer s'` — from `s` the ticks of a stage answer `reports`, one by
  one, and then that the phase is over, or why the last tick was refused.
* `Stage.Lawful` — a stage keeps its phase in a place of its own, which absorbing a report leaves
  alone.
* `Session.Compiles` — the first three phases of a text, one after the other, tick by tick.
* `Session.Yields` — what becomes of a text that is compiled and then run in a session.

Principal results: `drain_of_ticks` — ticking a phase to its end is draining it; `compiles_iff` —
ticking through the phases is `Session.compile`; `compile_fst` — which answers what
`Program.compile` says; `yields_iff` — and a run in the session is the run of the text;
`history_irrelevant`, `compile_run_agree` — sessions, whole texts and the compiler on their hosts.
-/

set_option autoImplicit false

namespace Slang

variable {frames : Nat} {limits : Limits}

/-- A stage keeps its phase in a place of its own. -/
structure Stage.Lawful {ρ α : Type} (stage : Stage ρ α) : Prop where
  phase_store : ∀ p s, stage.phase (stage.store p s) = p
  store_store : ∀ p q s, stage.store p (stage.store q s) = stage.store p s
  store_absorb : ∀ p r s, stage.store p (stage.absorb r s) = stage.absorb r (stage.store p s)

namespace Session

variable {ρ α : Type}

theorem lawful_tokenization : tokenization.Lawful :=
  ⟨fun _ _ => rfl, fun _ _ _ => rfl, fun _ _ _ => rfl⟩

theorem lawful_collection : collection.Lawful := by
  refine ⟨fun _ _ => rfl, fun _ _ _ => rfl, fun p r s => ?_⟩
  simp only [collection]
  split <;> rfl

theorem lawful_parsingStage (frames : Nat) : (parsingStage frames).Lawful :=
  ⟨fun _ _ => rfl, fun _ _ _ => rfl, fun _ _ _ => rfl⟩

theorem lawful_execution : execution.Lawful := by
  refine ⟨fun _ _ => rfl, fun _ _ _ => rfl, fun p r s => ?_⟩
  simp only [execution]
  split <;> rfl

/-! ## Ticking to the end -/

/-- The ticks of a stage, up to the first that brings no report. -/
inductive Ticks (stage : Stage ρ α) : Session → List ρ → Except Refusal Unit → Session → Prop
  | finished {s s' : Session} (h : tick stage s = (.ok none, s')) : Ticks stage s [] (.ok ()) s'
  | refused {s s' : Session} {reason : Refusal} (h : tick stage s = (.error reason, s')) :
      Ticks stage s [] (.error reason) s'
  | report {s s₁ s' : Session} {r : ρ} {reports : List ρ} {answer : Except Refusal Unit}
      (h : tick stage s = (.ok (some r), s₁)) (hrest : Ticks stage s₁ reports answer s') :
      Ticks stage s (r :: reports) answer s'

/-- A session answers its ticks in one way. -/
theorem Ticks.unique {stage : Stage ρ α} {s s₁ s₂ : Session} {reports₁ reports₂ : List ρ}
    {answer₁ answer₂ : Except Refusal Unit} (h₁ : Ticks stage s reports₁ answer₁ s₁)
    (h₂ : Ticks stage s reports₂ answer₂ s₂) :
    reports₁ = reports₂ ∧ answer₁ = answer₂ ∧ s₁ = s₂ := by
  induction h₁ generalizing reports₂ with
  | finished h =>
    cases h₂ with
    | finished h' | refused h' | report h' _ => simp_all
  | refused h =>
    cases h₂ with
    | finished h' | refused h' | report h' _ => simp_all
  | report h _ ih =>
    cases h₂ with
    | finished h' | refused h' => simp_all
    | report h' hrest' =>
      rw [h] at h'
      cases h'
      obtain ⟨rfl, rfl, rfl⟩ := ih hrest'
      exact ⟨rfl, rfl, rfl⟩

section Stage

variable {stage : Stage ρ α}

/-- The session after all reports of a stream and its end, and how the end was taken. -/
def ended (stage : Stage ρ α) (s : Session) (t : Trace ρ α) : Except Refusal Unit × Session :=
  stage.conclude t.value
    (stage.store .over (t.reports.foldl (fun s r => stage.absorb r s) s))

theorem exhaust_eq (s : Session) (t : Trace ρ α) :
    exhaust stage s t =
      ((ended stage s t).1.map fun _ => t.reports.length + 1, (ended stage s t).2) := by
  have hfold : ∀ (reports : List ρ) (n : Nat) (s : Session),
      reports.foldl (fun (x : Nat × Session) r => (x.1 + 1, stage.absorb r x.2)) (n, s) =
        (n + reports.length, reports.foldl (fun s r => stage.absorb r s) s) := by
    intro reports
    induction reports with
    | nil => intro n s; rfl
    | cons r rest ih =>
      intro n s
      rw [List.foldl_cons, ih, List.length_cons, List.foldl_cons, Nat.add_assoc, Nat.add_comm 1]
  unfold exhaust ended
  rw [Trace.foldl_eq]
  have h := hfold t.reports 1 s
  rw [Nat.add_comm] at h
  dsimp only at h ⊢
  rw [h]

theorem store_foldl (hl : stage.Lawful) (p : Phase ρ α) :
    ∀ (reports : List ρ) (s : Session),
      stage.store p (reports.foldl (fun s r => stage.absorb r s) s) =
        reports.foldl (fun s r => stage.absorb r s) (stage.store p s)
  | [], _ => rfl
  | r :: rest, s => by
    rw [List.foldl_cons, store_foldl hl p rest, hl.store_absorb, List.foldl_cons]

/-- **A stream that is ticked through is taken whole.**  By induction on the stream: a tick absorbs
the first report and stores the rest of the stream, where the next tick finds it. -/
theorem ticks_of_resume (hl : stage.Lawful) (t : Trace ρ α) :
    ∀ s : Session, tick stage s = resume stage s t →
      Ticks stage s t.reports (ended stage s t).1 (ended stage s t).2 := by
  induction t with
  | done a =>
    intro s hs
    have hend : ended stage s (.done a) = stage.conclude a (stage.store .over s) := rfl
    rw [hend]
    rcases hc : stage.conclude a (stage.store .over s) with ⟨reason | ⟨⟩, s'⟩
    · refine .refused ?_
      rw [hs, resume, hc]
      rfl
    · refine .finished ?_
      rw [hs, resume, hc]
      rfl
  | emit r next ih =>
    intro s hs
    have hnext : tick stage (stage.absorb r (stage.store (.running next) s)) =
        resume stage (stage.absorb r (stage.store (.running next) s)) (next ()) := by
      unfold tick
      rw [← hl.store_absorb, hl.phase_store]
    have hend : ended stage (stage.absorb r (stage.store (.running next) s)) (next ()) =
        ended stage s (.emit r next) := by
      unfold ended
      rw [store_foldl hl, hl.store_absorb, hl.store_store, ← hl.store_absorb, ← store_foldl hl]
      rfl
    have hrest := ih () _ hnext
    rw [hend] at hrest
    exact .report hs hrest

/-- Every phase can be ticked to its end: draining it says how that goes, and the number of ticks is
one more than the number of reports. -/
theorem ticks_drain (hl : stage.Lawful) (s : Session) :
    ∃ reports answer, Ticks stage s reports answer (drain stage s).2 ∧
      (drain stage s).1 = answer.map fun _ => reports.length + 1 := by
  have hstream : ∀ t : Trace ρ α, tick stage s = resume stage s t →
      drain stage s = exhaust stage s t →
      ∃ reports answer, Ticks stage s reports answer (drain stage s).2 ∧
        (drain stage s).1 = answer.map fun _ => reports.length + 1 := by
    intro t htick hdrain
    rw [hdrain, exhaust_eq]
    exact ⟨_, _, ticks_of_resume hl t s htick, rfl⟩
  match hp : stage.phase s with
  | .idle =>
    refine ⟨[], .error (.notBegun stage.title), .refused ?_, ?_⟩
    · simp only [tick, drain, hp]
    · simp only [drain, hp, Except.map]
  | .lost =>
    refine ⟨[], .error .placeLost, .refused ?_, ?_⟩
    · simp only [tick, drain, hp]
    · simp only [drain, hp, Except.map]
  | .pending => exact hstream (stage.start s) (by simp only [tick, hp]) (by simp only [drain, hp])
  | .running rest => exact hstream (rest ()) (by simp only [tick, hp]) (by simp only [drain, hp])
  | .over =>
    refine ⟨[], .ok (), .finished ?_, ?_⟩
    · simp only [tick, drain, hp]
    · simp only [drain, hp, Except.map, List.length_nil, Nat.zero_add]

/-- **Ticking a phase until it is over or refuses is draining it.** -/
theorem drain_of_ticks (hl : stage.Lawful) {s s' : Session} {reports : List ρ}
    {answer : Except Refusal Unit} (h : Ticks stage s reports answer s') :
    drain stage s = (answer.map fun _ => reports.length + 1, s') := by
  obtain ⟨reports₀, answer₀, hticks, hdrain⟩ := ticks_drain hl s
  obtain ⟨rfl, rfl, rfl⟩ := hticks.unique h
  rw [← hdrain]

end Stage

/-! ## Compiling -/

/-- The phases of a compilation one after the other, each ticked to its end, up to the first that
refuses. -/
inductive Compiles (frames : Nat) (source : String) (s : Session) :
    Except Refusal (Option Program) → Session → Prop
  | untokenized {s₁ : Session} {reports : List TokenReport} {reason : Refusal}
      (h : Ticks tokenization (s.beginTokenization source (some "")) reports (.error reason) s₁) :
      Compiles frames source s (.error reason) s₁
  | uncollected {s₁ s₂ : Session} {reports : List TokenReport}
      {headers : List PrototypeReport} {reason : Refusal}
      (h₁ : Ticks tokenization (s.beginTokenization source (some "")) reports (.ok ()) s₁)
      (h₂ : Ticks collection s₁.beginPrototypes headers (.error reason) s₂) :
      Compiles frames source s (.error reason) s₂
  | unparsed {s₁ s₂ s₃ : Session} {reports : List TokenReport} {headers : List PrototypeReport}
      {steps : List ParseReport} {reason : Refusal}
      (h₁ : Ticks tokenization (s.beginTokenization source (some "")) reports (.ok ()) s₁)
      (h₂ : Ticks collection s₁.beginPrototypes headers (.ok ()) s₂)
      (h₃ : Ticks (parsingStage frames) s₂.beginParsing steps (.error reason) s₃) :
      Compiles frames source s (.error reason) s₃
  | parsed {s₁ s₂ s₃ : Session} {reports : List TokenReport} {headers : List PrototypeReport}
      {steps : List ParseReport}
      (h₁ : Ticks tokenization (s.beginTokenization source (some "")) reports (.ok ()) s₁)
      (h₂ : Ticks collection s₁.beginPrototypes headers (.ok ()) s₂)
      (h₃ : Ticks (parsingStage frames) s₂.beginParsing steps (.ok ()) s₃) :
      Compiles frames source s (.ok s₃.program) s₃

/-- Ticking through the phases answers what compiling in the session answers. -/
theorem compile_of_compiles {source : String} {s s' : Session}
    {answer : Except Refusal (Option Program)} (h : Compiles frames source s answer s') :
    s.compile frames source = (answer, s') := by
  unfold compile
  cases h with
  | untokenized h =>
    rw [drain_of_ticks lawful_tokenization h]
    rfl
  | uncollected h₁ h₂ =>
    rw [drain_of_ticks lawful_tokenization h₁]
    simp only [Except.map]
    rw [drain_of_ticks lawful_collection h₂]
    rfl
  | unparsed h₁ h₂ h₃ =>
    rw [drain_of_ticks lawful_tokenization h₁]
    simp only [Except.map]
    rw [drain_of_ticks lawful_collection h₂]
    simp only [Except.map]
    rw [drain_of_ticks (lawful_parsingStage frames) h₃]
    rfl
  | parsed h₁ h₂ h₃ =>
    rw [drain_of_ticks lawful_tokenization h₁]
    simp only [Except.map]
    rw [drain_of_ticks lawful_collection h₂]
    simp only [Except.map]
    rw [drain_of_ticks (lawful_parsingStage frames) h₃]
    rfl

/-- Every session can be ticked through the phases. -/
theorem exists_compiles (frames : Nat) (source : String) (s : Session) :
    ∃ answer s', Compiles frames source s answer s' := by
  obtain ⟨reports, answer₁, h₁, -⟩ :=
    ticks_drain lawful_tokenization (s.beginTokenization source (some ""))
  rcases answer₁ with reason | ⟨⟩
  · exact ⟨_, _, .untokenized h₁⟩
  obtain ⟨headers, answer₂, h₂, -⟩ := ticks_drain lawful_collection (beginPrototypes (drain _ _).2)
  rcases answer₂ with reason | ⟨⟩
  · exact ⟨_, _, .uncollected h₁ h₂⟩
  obtain ⟨steps, answer₃, h₃, -⟩ :=
    ticks_drain (lawful_parsingStage frames) (beginParsing (drain _ _).2)
  rcases answer₃ with reason | ⟨⟩
  · exact ⟨_, _, .unparsed h₁ h₂ h₃⟩
  · exact ⟨_, _, .parsed h₁ h₂ h₃⟩

/-- **Ticking through the phases is compiling in the session.** -/
theorem compiles_iff {source : String} {s s' : Session}
    {answer : Except Refusal (Option Program)} :
    Compiles frames source s answer s' ↔ s.compile frames source = (answer, s') := by
  constructor
  · exact compile_of_compiles
  · intro h
    obtain ⟨answer₀, s₀, h₀⟩ := exists_compiles frames source s
    rw [compile_of_compiles h₀] at h
    cases h
    exact h₀

/-! ## What the phases leave behind -/

theorem drain_pending {ρ α : Type} {stage : Stage ρ α} {s : Session}
    (h : stage.phase s = .pending) :
    drain stage s = ((ended stage s (stage.start s)).1.map fun _ =>
      (stage.start s).reports.length + 1, (ended stage s (stage.start s)).2) := by
  rw [← exhaust_eq]
  simp only [drain, h]

theorem tokens_foldl : ∀ (reports : List TokenReport) (s : Session),
    (reports.foldl (fun s r => tokenization.absorb r s) s).tokens.toList =
      s.tokens.toList ++ reports.map (·.token)
  | [], s => by simp
  | r :: rest, s => by
    rw [List.foldl_cons, tokens_foldl rest]
    simp [tokenization, disturb]

theorem prototypes_foldl : ∀ (reports : List PrototypeReport) (s : Session),
    (reports.foldl (fun s r => collection.absorb r s) s).prototypes.toList =
        s.prototypes.toList ++ reports.filterMap (·.prototype) ∧
      (reports.foldl (fun s r => collection.absorb r s) s).tokens = s.tokens
  | [], s => by simp
  | r :: rest, s => by
    rw [List.foldl_cons]
    obtain ⟨hp, ht⟩ := prototypes_foldl rest (collection.absorb r s)
    rw [hp, ht]
    simp only [collection]
    cases hr : r.prototype <;> simp [hr]

theorem events_foldl : ∀ (reports : List ExecReport) (s : Session),
    (reports.foldl (fun s r => execution.absorb r s) s).events.toList =
      s.events.toList ++ reports.filterMap (·.printed)
  | [], s => by simp
  | r :: rest, s => by
    rw [List.foldl_cons, events_foldl rest]
    simp only [execution]
    cases hr : r.printed <;> simp [hr]

/-- The tokens of a text are read, or the text has none. -/
theorem drain_tokenization (source : String) (name : Name) (s : Session) :
    (∀ stop, Program.tokensOf source = .error stop →
      ∃ s₁, drain tokenization (s.beginTokenization source name) = (.error (.compile stop), s₁)) ∧
    ∀ tokens, Program.tokensOf source = .ok tokens →
      ∃ n s₁, drain tokenization (s.beginTokenization source name) = (.ok n, s₁) ∧
        s₁.tokens.toList = tokens := by
  rw [drain_pending rfl]
  have hstart : tokenization.start (s.beginTokenization source name) =
      Token.tokenize (Source.normalize source.toList) := by
    simp [tokenization, beginTokenization]
  have htokens : Program.tokensOf source =
      ((Token.tokenize (Source.normalize source.toList)).value.map fun _ =>
        (Token.tokenize (Source.normalize source.toList)).reports.map (·.token)).mapError
          Grammar.Stop.error := by
    unfold Program.tokensOf Token.all
    rw [Trace.collect_eq]
    cases (Token.tokenize (Source.normalize source.toList)).value <;> simp [Except.map]
  rw [hstart, htokens]
  unfold ended
  cases hv : (Token.tokenize (Source.normalize source.toList)).value with
  | error e =>
    refine ⟨fun stop h => ?_, fun tokens h => nomatch h⟩
    cases h
    exact ⟨_, rfl⟩
  | ok u =>
    refine ⟨fun stop h => (nomatch h), fun tokens h => ?_⟩
    cases h
    exact ⟨_, _, rfl, tokens_foldl _ _⟩

/-- The signatures are registered, or a name is announced twice. -/
theorem drain_collection (s : Session) :
    (∀ stop, Program.prototypesOf s.tokens.toList = .error stop →
      ∃ s₁, drain collection s.beginPrototypes = (.error (.compile stop), s₁)) ∧
    ∀ headers, Program.prototypesOf s.tokens.toList = .ok headers →
      ∃ n s₁, drain collection s.beginPrototypes = (.ok n, s₁) ∧
        s₁.prototypes.toList = headers ∧ s₁.tokens = s.tokens := by
  rw [drain_pending rfl]
  have hstart : collection.start s.beginPrototypes = Prototype.collect s.tokens.toList := rfl
  have hheaders : Program.prototypesOf s.tokens.toList =
      (Prototype.gathered (Prototype.collect s.tokens.toList)).mapError Grammar.Stop.error := by
    unfold Program.prototypesOf
    rw [Prototype.all_eq]
    rfl
  rw [hstart, hheaders]
  unfold ended Prototype.gathered
  cases hv : (Prototype.collect s.tokens.toList).value with
  | error e =>
    refine ⟨fun stop h => ?_, fun headers h => nomatch h⟩
    cases h
    exact ⟨_, rfl⟩
  | ok u =>
    refine ⟨fun stop h => (nomatch h), fun headers h => ?_⟩
    cases h
    obtain ⟨hp, ht⟩ := prototypes_foldl (Prototype.collect s.tokens.toList).reports
      s.beginPrototypes
    exact ⟨_, _, rfl, hp, ht⟩

/-- The program is parsed, or the parser stops. -/
theorem drain_parsing (s : Session) :
    (∀ stop, Program.ofTokens frames s.tokens.toList s.prototypes.toList = .error stop →
      ∃ s₁, drain (parsingStage frames) s.beginParsing = (.error (.compile stop), s₁)) ∧
    ∀ program, Program.ofTokens frames s.tokens.toList s.prototypes.toList = .ok program → ∃ n s₁,
      drain (parsingStage frames) s.beginParsing = (.ok n, s₁) ∧ s₁.program = some program := by
  rw [drain_pending rfl]
  have hstart : (parsingStage frames).start s.beginParsing =
      Program.parse frames s.tokens.toList s.prototypes.toList := rfl
  rw [hstart]
  unfold ended Program.ofTokens
  cases hv : (Program.parse frames s.tokens.toList s.prototypes.toList).value with
  | error stop =>
    refine ⟨fun stop h => ?_, fun program h => nomatch h⟩
    cases h
    exact ⟨_, rfl⟩
  | ok program =>
    refine ⟨fun stop h => (nomatch h), fun program h => ?_⟩
    cases h
    exact ⟨_, _, rfl, rfl⟩

/-- **What compiling in a session comes to**, whatever the session has been through: it is refused
with the reason for which the text does not compile, or it leaves the program of the text. -/
theorem compile_session (source : String) (s : Session) :
    (∀ stop, Program.compile frames source = .error stop →
      ∃ s', s.compile frames source = (.error (.compile stop), s')) ∧
    ∀ program, Program.compile frames source = .ok program →
      ∃ s', s.compile frames source = (.ok (some program), s') ∧ s'.program = some program := by
  obtain ⟨hbad, hgood⟩ := drain_tokenization source (some "") s
  unfold compile
  cases htokens : Program.tokensOf source with
  | error stop =>
    obtain ⟨s₁, h₁⟩ := hbad stop htokens
    rw [h₁, compile_untokenized htokens]
    refine ⟨fun stop' h => ?_, nofun⟩
    cases h
    exact ⟨s₁, rfl⟩
  | ok tokens =>
    obtain ⟨n, s₁, h₁, rfl⟩ := hgood tokens htokens
    rw [h₁]
    obtain ⟨hbad, hgood⟩ := drain_collection s₁
    cases hheaders : Program.prototypesOf s₁.tokens.toList with
    | error stop =>
      obtain ⟨s₂, h₂⟩ := hbad stop hheaders
      simp only [h₂, compile_unregistered htokens hheaders]
      refine ⟨fun stop' h => ?_, nofun⟩
      cases h
      exact ⟨s₂, rfl⟩
    | ok headers =>
      obtain ⟨m, s₂, h₂, rfl, ht₂⟩ := hgood headers hheaders
      simp only [h₂, compile_of_tokens htokens, bind, Except.bind, hheaders]
      obtain ⟨hbad, hgood⟩ := drain_parsing s₂
      rw [ht₂] at hbad hgood
      refine ⟨fun stop h => ?_, fun program h => ?_⟩
      · obtain ⟨s₃, h₃⟩ := hbad stop h
        exact ⟨s₃, by simp only [h₃]⟩
      · obtain ⟨k, s₃, h₃, hp₃⟩ := hgood program h
        exact ⟨s₃, by simp only [h₃, hp₃], hp₃⟩

/-! ## Running -/

/-- The text was compiled in the session and its program was run there, tick by tick, up to the tick
that answered `answer` and left the session `s'`. -/
def Ran (frames : Nat) (limits : Limits) (source : String) (s : Session) (program : Program)
    (answer : Except Refusal Unit) (s' : Session) : Prop :=
  ∃ s₁ s₂ reports, Compiles frames source s (.ok (some program)) s₁ ∧
    s₁.beginExecution limits = (.ok (), s₂) ∧ Ticks execution s₂ reports answer s'

/-- What becomes of a text that is compiled in a session and then run there. -/
inductive Yields (frames : Nat) (limits : Limits) (source : String) (s : Session) : Outcome → Prop
  | rejected {s' : Session} {reason : Grammar.Stop}
      (h : Compiles frames source s (.error (.compile reason)) s') :
      Yields frames limits source s (.rejected reason)
  | failed {s' : Session} {program : Program} {failure : Failure}
      (h : Ran frames limits source s program (.error (.run failure)) s') :
      Yields frames limits source s (.failed program s'.events.toList failure)
  | finished {s' : Session} {program : Program}
      (h : Ran frames limits source s program (.ok ()) s') :
      Yields frames limits source s (.finished program s'.events.toList s'.result)

/-- **A session that holds a program runs it**: its ticks end as the run ends, and leave what the
run has printed and its value. -/
theorem run_session {s : Session} {program : Program} (h : s.program = some program)
    (limits : Limits) :
    ∃ s₁ reports answer s₂, s.beginExecution limits = (.ok (), s₁) ∧
      Ticks execution s₁ reports answer s₂ ∧
      s₂.events.toList = (program.execute limits []).events ∧
      ((∃ value, (program.execute limits []).result = .ok value ∧ answer = .ok () ∧
          s₂.result = value) ∨
        ∃ failure, (program.execute limits []).result = .error failure ∧
          answer = .error (.run failure)) := by
  obtain ⟨s₁, hs₁, hbegin⟩ : ∃ s₁, s₁ = { s with
      events := #[]
      result := none
      executing := .running fun _ => program.run limits [] } ∧
      s.beginExecution limits = (.ok (), s₁) := ⟨_, rfl, by simp only [beginExecution, h]⟩
  have htick : tick execution s₁ = resume execution s₁ (program.run limits []) := by
    rw [hs₁]
    rfl
  have hticks := ticks_of_resume lawful_execution _ s₁ htick
  have hevents : ((program.run limits []).reports.foldl
      (fun s r => execution.absorb r s) s₁).events.toList =
        (program.execute limits []).events := by
    rw [events_foldl, execute_eq, hs₁]
    rfl
  refine ⟨s₁, _, _, _, hbegin, hticks, ?_, ?_⟩
  · rw [← hevents]
    unfold ended
    simp only [execution]
    split <;> rfl
  · rw [execute_eq]
    unfold ended
    rcases (program.run limits []).value with ⟨failure | value, table⟩
    · exact .inr ⟨failure, rfl, rfl⟩
    · exact .inl ⟨value, rfl, rfl, rfl⟩

/-- Compiling and running a text in a session yields the outcome of the text. -/
theorem yields_ofSource (frames : Nat) (limits : Limits) (source : String) (s : Session) :
    s.Yields frames limits source (.ofSource ⟨frames, .ok limits⟩ source) := by
  obtain ⟨hbad, hgood⟩ := @compile_session frames source s
  cases hcompile : Program.compile frames source with
  | error stop =>
    obtain ⟨s₁, h₁⟩ := hbad stop hcompile
    rw [ofSource_of_error hcompile]
    exact .rejected (compiles_iff.mpr h₁)
  | ok program =>
    obtain ⟨s₁, h₁, hprogram⟩ := hgood program hcompile
    obtain ⟨s₂, reports, answer, s₃, hbegin, hticks, hevents, hend⟩ :=
      run_session hprogram limits
    rw [ofSource_of_compile hcompile]
    dsimp only
    rw [outcomeOf, ← hevents]
    rcases hend with ⟨value, hvalue, rfl, rfl⟩ | ⟨failure, hfailure, rfl⟩
    · rw [hvalue]
      exact .finished ⟨s₁, s₂, reports, compiles_iff.mpr h₁, hbegin, hticks⟩
    · rw [hfailure]
      exact .failed ⟨s₁, s₂, reports, compiles_iff.mpr h₁, hbegin, hticks⟩

theorem Compiles.unique {source : String} {s s₁ s₂ : Session}
    {answer₁ answer₂ : Except Refusal (Option Program)} (h₁ : Compiles frames source s answer₁ s₁)
    (h₂ : Compiles frames source s answer₂ s₂) : answer₁ = answer₂ ∧ s₁ = s₂ := by
  rw [compiles_iff] at h₁ h₂
  rw [h₁] at h₂
  exact Prod.mk.inj h₂

theorem Ran.unique {source : String} {s s₁ s₂ : Session} {program₁ program₂ : Program}
    {answer₁ answer₂ : Except Refusal Unit} (h₁ : Ran frames limits source s program₁ answer₁ s₁)
    (h₂ : Ran frames limits source s program₂ answer₂ s₂) :
    program₁ = program₂ ∧ answer₁ = answer₂ ∧ s₁ = s₂ := by
  obtain ⟨t₁, u₁, reports₁, hc₁, hb₁, ht₁⟩ := h₁
  obtain ⟨t₂, u₂, reports₂, hc₂, hb₂, ht₂⟩ := h₂
  obtain ⟨hprogram, rfl⟩ := hc₁.unique hc₂
  cases hprogram
  rw [hb₁] at hb₂
  cases hb₂
  obtain ⟨-, hanswer, hs⟩ := ht₁.unique ht₂
  exact ⟨rfl, hanswer, hs⟩

/-- A text has one outcome in a session. -/
theorem Yields.unique {source : String} {s : Session} {o o' : Outcome}
    (h : s.Yields frames limits source o) (h' : s.Yields frames limits source o') : o = o' := by
  -- a rejected text is not run
  have hrun : ∀ {s₁ s₂ : Session} {program : Program} {reason : Grammar.Stop}
      {answer : Except Refusal Unit}, Compiles frames source s (.error (.compile reason)) s₁ →
      ¬ Ran frames limits source s program answer s₂ := by
    rintro s₁ s₂ program reason answer h ⟨_, _, _, hc, _⟩
    exact nomatch (h.unique hc).1
  cases h with
  | rejected h =>
    cases h' with
    | rejected h' =>
      cases (h.unique h').1
      rfl
    | failed h' | finished h' => exact absurd h' (hrun h)
  | failed h =>
    cases h' with
    | rejected h' => exact absurd h (hrun h')
    | failed h' =>
      obtain ⟨rfl, hanswer, rfl⟩ := h.unique h'
      cases hanswer
      rfl
    | finished h' => exact nomatch (h.unique h').2.1
  | finished h =>
    cases h' with
    | rejected h' => exact absurd h (hrun h')
    | failed h' => exact nomatch (h.unique h').2.1
    | finished h' =>
      obtain ⟨rfl, -, rfl⟩ := h.unique h'
      rfl

theorem yields_iff {source : String} {s : Session} {o : Outcome} :
    s.Yields frames limits source o ↔ o = .ofSource ⟨frames, .ok limits⟩ source := by
  constructor
  · intro h
    exact h.unique (yields_ofSource frames limits source s)
  · rintro rfl
    exact yields_ofSource frames limits source s

/-- The answer of a compilation in a session. -/
theorem compile_fst (frames : Nat) (source : String) (s : Session) :
    (s.compile frames source).1 =
      match Program.compile frames source with
      | .ok program => .ok (some program)
      | .error stop => .error (.compile stop) := by
  obtain ⟨hbad, hgood⟩ := @compile_session frames source s
  cases hcompile : Program.compile frames source with
  | error stop =>
    obtain ⟨s', hs'⟩ := hbad stop hcompile
    rw [hs']
  | ok program =>
    obtain ⟨s', hs', -⟩ := hgood program hcompile
    rw [hs']

/-- **What a session has been through does not matter.**  Nothing is assumed of the session, nor of
the steps that led to it: its phases may have been left at any point of any stream, also of one that
no text has, and what it holds may be of any other text.  Compiling a text in it is answered as in a
fresh session, in any number of frames.  A run in it leaves the events and the value, or the failure
behind the same events, that the text has as its outcome, where the compilation and the ticks of the
run are left the same room.  Called from one place on one host they are left more, so that the
outcome may be cut off for want of stack, and is the same if it is not. -/
theorem history_irrelevant {h compiling running : Host} (s : Session) (source : String)
    (hframes : compiling.frames .session = h.frames .source)
    (hlimits : running.limitsOf .session running.limit = h.limitsOf .source h.limit) :
    (∀ frames, (s.compile frames source).1 = (fresh.compile frames source).1) ∧
      (∀ o, s.Yields (compiling.frames .session) (running.limitsOf .session running.limit)
          source o ↔
        o = h.outcome .source .usual source) ∧
      ∀ o, s.Yields (h.frames .session) (h.limitsOf .session h.limit) source o →
        (h.outcome .source .usual source).Within o := by
  refine ⟨fun frames => ?_, fun o => ?_, fun o ho => ?_⟩
  · rw [compile_fst, compile_fst]
  · rw [yields_iff, hframes, hlimits]
    rfl
  · rw [yields_iff.mp ho]
    exact h.outcome_within (by decide) .usual source

/-- A session that has read one token of another text.  It compiles the text one frame deeper than
the text is compiled and run by itself, and ticks the run two frames deeper, which leaves both the
same room. -/
theorem history_irrelevant_halfway :
    let h : Host := .even 1000 9 20 7 99
    let compiling : Host := .even 1000 10 20 7 99
    let running : Host := .even 1000 11 20 7 99
    let s := (tick tokenization (fresh.beginTokenization "PRINT a;" none)).2
    s.tokens.size = 1 ∧
    (s.compile (compiling.frames .session) "PRINT b;").1 =
      (fresh.compile (compiling.frames .session) "PRINT b;").1 ∧
    (h.outcome .source .usual "PRINT \"x\";").lines = ["x"] ∧
    s.Yields (compiling.frames .session) (running.limitsOf .session running.limit)
      "PRINT \"x\";" (h.outcome .source .usual "PRINT \"x\";") := by
  intro h compiling running s
  have hframes : compiling.frames .session = h.frames .source := rfl
  have hlimits : running.limitsOf .session running.limit = h.limitsOf .source h.limit := rfl
  have hsize : s.tokens.size = 1 := by decide +kernel
  have hlines : (h.outcome .source .usual "PRINT \"x\";").lines = ["x"] := by decide +kernel
  exact ⟨hsize, (history_irrelevant s "PRINT b;" hframes hlimits).1 _, hlines,
    ((history_irrelevant s "PRINT \"x\";" hframes hlimits).2.1 _).mpr rfl⟩

end Session

/-- **All ways to compile and to run a text agree** where they are left the same room.  A fresh
session answers a compilation as the compiler does; and the outcome of a text is that of a fresh
session in which it is compiled and then run tick by tick, and that of a run of its program at once.
Where the run fails, the events are those of the reports before the failure, in order.  On one host
the session is left less room than the compiler, and the outcome less than the run at once: what
comes of it then is the same, or it is cut off for want of stack. -/
theorem compile_run_agree {h h' h'' : Host} (source : String)
    (hframes : h'.frames .session = h.frames .library)
    (hroom : h''.room .source .usual = h.room .library .usual) :
    (∀ program, Program.compile (h.frames .library) source = .ok program ↔
      (Session.fresh.compile (h'.frames .session) source).1 = .ok (some program)) ∧
    (∀ stop, Program.compile (h.frames .library) source = .error stop ↔
      (Session.fresh.compile (h'.frames .session) source).1 = .error (.compile stop)) ∧
    (∀ o, Session.fresh.Yields (h''.frames .source) (h''.limitsOf .source h''.limit) source o ↔
      o = h''.outcome .source .usual source) ∧
    (∀ program events value,
      h''.outcome .source .usual source = .finished program events value ↔
        Program.compile (h.frames .library) source = .ok program ∧
          (program.execute (h.limitsOf .library h.limit) []).events = events ∧
          (program.execute (h.limitsOf .library h.limit) []).result = .ok value) ∧
    (∀ program events failure,
      h''.outcome .source .usual source = .failed program events failure ↔
        Program.compile (h.frames .library) source = .ok program ∧
          (program.run (h.limitsOf .library h.limit) []).reports.filterMap (·.printed) = events ∧
          (program.execute (h.limitsOf .library h.limit) []).result = .error failure) ∧
    ((Session.fresh.compile (h.frames .session) source).1 =
        (match Program.compile (h.frames .library) source with
        | .ok program => .ok (some program)
        | .error stop => .error (.compile stop)) ∨
      ∃ e, (Session.fresh.compile (h.frames .session) source).1 = .error (.compile (.error e)) ∧
        e.cause = .tooDeep) ∧
    (h.outcome .source .usual source).Within (h.outcome .library .usual source) := by
  have houtcome : h''.outcome .source .usual source =
      .ofSource ⟨h.frames .library, .ok (h.limitsOf .library h.limit)⟩ source :=
    congrArg (Outcome.ofSource · source) hroom
  refine ⟨fun program => ?_, fun stop => ?_, fun o => Session.yields_iff, ?_, ?_, ?_,
    h.outcome_within (by decide) .usual source⟩
  · rw [Session.compile_fst, hframes]
    cases Program.compile (h.frames .library) source <;> simp
  · rw [Session.compile_fst, hframes]
    cases Program.compile (h.frames .library) source <;> simp
  · intro program events value
    rw [houtcome]
    cases hcompile : Program.compile (h.frames .library) source with
    | error stop => simp [ofSource_of_error hcompile]
    | ok program' =>
      rw [ofSource_of_compile hcompile, outcomeOf_eq_finished, Except.ok.injEq]
      exact and_congr_right fun hprogram => by rw [hprogram]
  · intro program events failure
    rw [houtcome]
    cases hcompile : Program.compile (h.frames .library) source with
    | error stop => simp [ofSource_of_error hcompile]
    | ok program' =>
      rw [ofSource_of_compile hcompile, outcomeOf_eq_failed, Except.ok.injEq]
      refine and_congr_right fun hprogram => ?_
      rw [hprogram, execute_eq]
      rfl
  · have hle : h.frames .session ≤ h.frames .library := Host.frames_le (by decide)
    rw [Session.compile_fst]
    rcases compile_within hle source with heq | ⟨e, he, hdeep⟩
    · exact .inl (by rw [heq])
    · exact .inr ⟨e, by rw [he], hdeep⟩

/-- A run that never ends by itself.  Where it is left the same room it is exhausted behind the same
events.  On the host of the compiler it is left two frames less, and so one activation less. -/
theorem compile_run_agree_endless :
    let text := "FUNCTION STRING f() PRINT \"1\"; RETURN f(); END " ++
      "FUNCTION STRING MAIN() RETURN f(); END"
    let h : Host := .even 60 11 20 7 99
    let h' : Host := .even 60 10 20 7 99
    let h'' : Host := .even 60 9 20 7 99
    ∃ program, Program.compile (h.frames .library) text = .ok program ∧
      (Session.fresh.compile (h'.frames .session) text).1 = .ok (some program) ∧
      (program.execute (h.limitsOf .library h.limit) []).result = overflow ∧
      h''.outcome .source .usual text = .failed program
        ((program.run (h.limitsOf .library h.limit) []).reports.filterMap (·.printed))
        (.fault .stackExhausted) ∧
      (h''.outcome .source .usual text).lines = ["1", "1", "1"] ∧
      (h.outcome .source .usual text).Within (h.outcome .library .usual text) ∧
      (h.outcome .source .usual text).lines = ["1", "1"] := by
  intro text h h' h''
  obtain ⟨program, hprogram, hends⟩ : ∃ program,
      Program.compile (h.frames .library) text = .ok program ∧
      failureOf (program.execute (h.limitsOf .library h.limit) []).result =
        some (.fault .stackExhausted) := by
    refine ok_of_toOption ?_
    decide +kernel
  have hexhausted := failureOf_eq_some.mp hends
  have hlines : (h''.outcome .source .usual text).lines = ["1", "1", "1"] := by decide +kernel
  have hcut : (h.outcome .source .usual text).lines = ["1", "1"] := by decide +kernel
  have hframes : h'.frames .session = h.frames .library := rfl
  have hroom : h''.room .source .usual = h.room .library .usual := rfl
  obtain ⟨hcompile, -, -, -, hfailed, -, hwithin⟩ := compile_run_agree text hframes hroom
  exact ⟨program, hprogram, (hcompile program).mp hprogram, hexhausted,
    (hfailed program _ _).mpr ⟨hprogram, rfl, hexhausted⟩, hlines, hwithin, hcut⟩

end Slang
