import Slang.Proofs.Sessions
import Slang.Proofs.Tokenization

/-!
# Whose program a session holds

The phases of a text are begun one after the other, and each clears its own product when it is
begun.  So the program of an earlier text stays in the session until the next text is parsed.

* `Progress` — how far the text of a session has come.
* `reached` — how far a text comes that is compiled at once.
* `Step`, `Orderly` — sessions in which a phase is begun only when the one before has been ticked to
  its end; texts may also be compiled at once, programs run at any time, and a phase that is over
  ticked again.
* `left`, `Amid` — the rest of a phase that is under way, and what it has reported before.
* `Coherent` — what a session holds, by the progress of its text.

Principal results: `coherent_step` — a step keeps a session coherent; `compile_leaves` — what is in
a session after a text was compiled at once; `session_coherence` — whose program a session holds.
-/

set_option autoImplicit false

namespace Slang.Session

variable {frames : Nat}

/-! ## Orderly sessions -/

/-- How far the text of a session has come: its tokens, its signatures and its program are had one
after the other.  A text that has no tokens comes no further, like the text of a fresh session. -/
inductive Progress where
  | idle | reading | read | gathering | gathered | parsing | parsed
  deriving DecidableEq, Repr

/-- The tokens of the text have been read. -/
def Progress.HasTokens (pr : Progress) : Prop := pr ≠ .idle ∧ pr ≠ .reading

/-- The signatures of the text have been collected. -/
def Progress.HasSignatures (pr : Progress) : Prop := pr = .gathered ∨ pr = .parsing ∨ pr = .parsed

/-- How far a text comes that is compiled at once. -/
def Progress.reached (source : String) : Progress :=
  match Program.tokensOf source with
  | .error _ => .idle
  | .ok tokens =>
    match Program.prototypesOf tokens with
    | .error _ => .read
    | .ok _ => .parsed

/-- Where a text stands after the answer of a tick: further on only if the phase is over. -/
def Progress.settle {ρ : Type} (during after failed : Progress) :
    Except Refusal (Option ρ) → Progress
  | .ok (some _) => during
  | .ok none => after
  | .error _ => failed

/-- A phase that a tick does not get on: it has not been begun, or it is over. -/
def Phase.Settled {ρ α : Type} : Phase ρ α → Prop
  | .idle | .over => True
  | .pending | .running _ | .lost => False

/-- One step of a session, with whatever frames the parser and limits the run have there.  A phase
is begun, for the first time or again, when the one before has come to its end for the same text.  A
tick is of the phase that is under way for the text of the session, or of one that it does not get
on.

Two kinds of steps are left out.  A phase is not begun behind one that was refused, although the
next tick of that one answers that it is over: its products are those up to the refusal, so that the
signatures of a text in which a name is announced twice lack the second one, and the parser may find
a program in a text that does not compile.  And a phase that was left half-way in an earlier text is
not ticked: what it reads has been changed under it, and its product belongs to no text. -/
inductive Step : Progress → Session → Progress → Session → Prop
  | beginTokenization {pr : Progress} {s : Session} (source : String) (name : Name) :
      Step pr s .reading (s.beginTokenization source name)
  | tokenize {s s' : Session} {answer : Except Refusal (Option TokenReport)}
      (h : tick tokenization s = (answer, s')) :
      Step .reading s (.settle .reading .read .idle answer) s'
  | beginPrototypes {pr : Progress} {s : Session} (h : pr.HasTokens) :
      Step pr s .gathering s.beginPrototypes
  | collect {s s' : Session} {answer : Except Refusal (Option PrototypeReport)}
      (h : tick collection s = (answer, s')) :
      Step .gathering s (.settle .gathering .gathered .read answer) s'
  | beginParsing {pr : Progress} {s : Session} (h : pr.HasSignatures) :
      Step pr s .parsing s.beginParsing
  | parse {s s' : Session} {frames : Nat} {answer : Except Refusal (Option ParseReport)}
      (h : tick (parsingStage frames) s = (answer, s')) :
      Step .parsing s (.settle .parsing .parsed .parsed answer) s'
  | tokenizeAgain {pr : Progress} {s : Session} (h : Phase.Settled s.tokenizing) :
      Step pr s pr (tick tokenization s).2
  | collectAgain {pr : Progress} {s : Session} (h : Phase.Settled s.collecting) :
      Step pr s pr (tick collection s).2
  | parseAgain {pr : Progress} {s : Session} (frames : Nat) (h : Phase.Settled s.parsing) :
      Step pr s pr (tick (parsingStage frames) s).2
  | beginExecution {pr : Progress} {s : Session} (limits : Limits) :
      Step pr s pr (s.beginExecution limits).2
  | execute {pr : Progress} {s : Session} : Step pr s pr (tick execution s).2
  | compile {pr : Progress} {s : Session} (frames : Nat) (source : String) :
      Step pr s (.reached source) (s.compile frames source).2

/-- The sessions that a fresh one can come to in steps. -/
inductive Orderly : Progress → Session → Prop
  | fresh : Orderly .idle fresh
  | step {pr pr' : Progress} {s s' : Session} (h : Orderly pr s) (hstep : Step pr s pr' s') :
      Orderly pr' s'

/-! ## Phases under way -/

section Stage

variable {ρ α : Type} {stage : Stage ρ α} {s s' : Session} {whole rest : Trace ρ α} {done : List ρ}

/-- What is left of a phase that is under way. -/
def left (stage : Stage ρ α) (s : Session) : Option (Trace ρ α) :=
  match stage.phase s with
  | .pending => some (stage.start s)
  | .running rest => some (rest ())
  | .idle | .over | .lost => none

theorem tick_of_left (h : left stage s = some rest) : tick stage s = resume stage s rest := by
  match hp : stage.phase s with
  | .idle | .over | .lost =>
    simp only [left, hp] at h
    cases h
  | .pending | .running _ =>
    simp only [left, hp] at h
    cases h
    simp only [tick, hp]

theorem resume_done (a : α) : resume stage s (.done a) =
    ((stage.conclude a (stage.store .over s)).1.map fun _ => none,
      (stage.conclude a (stage.store .over s)).2) := rfl

/-- The phase is under way: it has made these reports of the stream and will make the others. -/
def Amid (stage : Stage ρ α) (whole : Trace ρ α) (done : List ρ) (s : Session) : Prop :=
  ∃ rest, left stage s = some rest ∧ whole.reports = done ++ rest.reports ∧
    whole.value = rest.value

theorem amid_start (h : stage.phase s = .pending) : Amid stage (stage.start s) [] s :=
  ⟨stage.start s, by rw [left, h], rfl, rfl⟩

/-- A tick that answers a report absorbs it and leaves the rest. -/
theorem Amid.report (hl : stage.Lawful) (h : Amid stage whole done s) {r : ρ}
    (ht : tick stage s = (.ok (some r), s')) :
    Amid stage whole (done ++ [r]) s' ∧
      ∃ rest, stage.phase s' = .running rest ∧
        s' = stage.absorb r (stage.store (.running rest) s) := by
  obtain ⟨rest, hrest, hreports, hvalue⟩ := h
  rw [tick_of_left hrest] at ht
  cases rest with
  | done a =>
    rw [resume_done] at ht
    have hanswer := congrArg Prod.fst ht
    cases hc : (stage.conclude a (stage.store .over s)).1 with
    | error reason | ok u =>
      rw [hc] at hanswer
      cases hanswer
  | emit r' next =>
    cases ht
    have hphase : stage.phase (stage.absorb r (stage.store (.running next) s)) =
        .running next := by
      rw [← hl.store_absorb, hl.phase_store]
    refine ⟨⟨next (), by rw [left, hphase], ?_, hvalue⟩, next, hphase, rfl⟩
    rw [hreports, List.append_assoc]
    rfl

/-- A tick that answers the end finds that all reports have been made. -/
theorem Amid.finish (h : Amid stage whole done s) (ht : tick stage s = (.ok none, s')) :
    whole.reports = done ∧
      (stage.conclude whole.value (stage.store .over s)).1 = .ok () ∧
      s' = (stage.conclude whole.value (stage.store .over s)).2 := by
  obtain ⟨rest, hrest, hreports, hvalue⟩ := h
  rw [tick_of_left hrest] at ht
  cases rest with
  | done a =>
    rw [hvalue]
    rw [resume_done] at ht
    obtain ⟨hanswer, rfl⟩ := Prod.mk.inj ht
    refine ⟨hreports.trans (List.append_nil done), ?_, rfl⟩
    cases hc : (stage.conclude a (stage.store .over s)).1 with
    | ok u => exact hc
    | error reason =>
      rw [hc] at hanswer
      cases hanswer
  | emit r next => cases ht

/-- What a stage leaves alone, its ticks leave alone. -/
theorem tick_keeps {β : Type} {g : Session → β} (hstore : ∀ p s, g (stage.store p s) = g s)
    (habsorb : ∀ r s, g (stage.absorb r s) = g s)
    (hconclude : ∀ a s, g (stage.conclude a s).2 = g s) (hlate : ∀ s, g (stage.late s) = g s)
    (s : Session) : g (tick stage s).2 = g s := by
  have hresume : ∀ t : Trace ρ α, g (resume stage s t).2 = g s := by
    intro t
    cases t with
    | done a => rw [resume_done, hconclude, hstore]
    | emit r next => rw [resume, habsorb, hstore]
  unfold tick
  split
  · rfl
  · exact hresume _
  · exact hresume _
  · exact hlate s
  · rfl

/-- And so do all ticks up to its end. -/
theorem Ticks.keeps {β : Type} {g : Session → β} (h : ∀ s, g (tick stage s).2 = g s)
    {reports : List ρ} {answer : Except Refusal Unit} (ht : Ticks stage s reports answer s') :
    g s' = g s := by
  induction ht with
  | @finished s s' ht | @refused s s' _ ht =>
    have hs := h s
    rwa [ht] at hs
  | @report s s₁ _ _ _ _ ht _ ih =>
    have hs := h s
    rw [ht] at hs
    exact ih.trans hs

/-- The ticks up to the end of a phase answer what draining it answers. -/
theorem Ticks.answer (hl : stage.Lawful) {reports : List ρ} {answer : Except Refusal Unit}
    (h : Ticks stage s reports answer s') :
    (∀ reason s₁, drain stage s = (.error reason, s₁) → answer = .error reason ∧ s' = s₁) ∧
    ∀ n s₁, drain stage s = (.ok n, s₁) → answer = .ok () ∧ s' = s₁ := by
  rw [drain_of_ticks hl h]
  cases answer <;> simp [Except.map]

end Stage

/-- Reading tokens leaves alone the text of the session and its program. -/
theorem tick_tokenization (s : Session) :
    ((tick tokenization s).2.source, (tick tokenization s).2.program) = (s.source, s.program) :=
  @tick_keeps _ _ tokenization _ (fun s => (s.source, s.program)) (fun _ _ => rfl)
    (fun _ _ => rfl) (fun _ _ => rfl) (fun _ => rfl) s

/-- Collecting signatures leaves alone the text of the session, its tokens and its program. -/
theorem tick_collection (s : Session) :
    ((tick collection s).2.source, (tick collection s).2.tokens, (tick collection s).2.program) =
      (s.source, s.tokens, s.program) := by
  refine @tick_keeps _ _ collection _ (fun s => (s.source, s.tokens, s.program)) (fun _ _ => rfl)
    (fun r s => ?_) (fun _ _ => rfl) (fun _ => rfl) s
  simp only [collection]
  split <;> rfl

/-- Parsing leaves alone the text of the session, its tokens and its signatures. -/
theorem tick_parsing (frames : Nat) (s : Session) :
    ((tick (parsingStage frames) s).2.source, (tick (parsingStage frames) s).2.tokens,
      (tick (parsingStage frames) s).2.prototypes) = (s.source, s.tokens, s.prototypes) := by
  refine @tick_keeps _ _ (parsingStage frames) _ (fun s => (s.source, s.tokens, s.prototypes))
    (fun _ _ => rfl) (fun _ _ => rfl) (fun a s => ?_) (fun _ => rfl) s
  cases a <;> rfl

/-- A parser that has started keeps the frames that it has started with. -/
theorem Amid.running {s : Session} {whole : Trace ParseReport (Except Grammar.Stop Program)}
    {done : List ParseReport} {rest : Unit → Trace ParseReport (Except Grammar.Stop Program)}
    (h : Amid (parsingStage frames) whole done s) (hs : s.parsing = .running rest)
    (frames' : Nat) : Amid (parsingStage frames') whole done s := by
  have hleft : ∀ k, left (parsingStage k) s = some (rest ()) := by
    intro k
    simp only [left, parsingStage, hs]
  obtain ⟨rest', hrest, hwhole⟩ := h
  exact ⟨rest', (hleft frames').trans ((hleft frames).symm.trans hrest), hwhole⟩

/-- Execution leaves alone everything but what it produces. -/
theorem execution_keeps (s : Session) :
    (∃ events result executing, (tick execution s).2 = { s with events, result, executing }) ∧
    ∀ limits, ∃ events result executing,
      (s.beginExecution limits).2 = { s with events, result, executing } := by
  have hresume : ∀ t, ∃ events result executing,
      (resume execution s t).2 = { s with events, result, executing } := by
    intro t
    cases t with
    | done a =>
      rcases a with ⟨failure | value, table⟩ <;> exact ⟨_, _, _, rfl⟩
    | emit r next =>
      simp only [resume, execution]
      split <;> exact ⟨_, _, _, rfl⟩
  constructor
  · unfold tick
    split
    · exact ⟨_, _, _, rfl⟩
    · exact hresume _
    · exact hresume _
    · exact ⟨_, _, _, rfl⟩
    · exact ⟨_, _, _, rfl⟩
  · intro limits
    unfold beginExecution
    split <;> exact ⟨_, _, _, rfl⟩

/-! ## What a session holds of its text -/

/-- The session has the tokens of its text. -/
def Tokenized (s : Session) : Prop := Program.tokensOf s.source = .ok s.tokens.toList

/-- The session has the signatures of its tokens. -/
def Registered (s : Session) : Prop :=
  Program.prototypesOf s.tokens.toList = .ok s.prototypes.toList

/-- The text compiles to the program, if the parser has frames enough. -/
def Spells (source : String) (p : Program) : Prop :=
  ∃ frames, ∀ frames', frames ≤ frames' → Program.compile frames' source = .ok p

theorem spells_of_compile {source : String} {p : Program}
    (h : Program.compile frames source = .ok p) : Spells source p :=
  ⟨frames, fun _ hle => compile_mono hle h⟩

/-- The tokens and the signatures of the session are being parsed, or are about to be, with whatever
frames the next tick has. -/
def Underway (s : Session) : Prop :=
  ∀ frames, ∃ frames' done, Amid (parsingStage frames)
    (Program.parse frames' s.tokens.toList s.prototypes.toList) done s

/-- What a session holds of its text, by the progress of the text. -/
def Holds (s : Session) : Progress → Prop
  | .idle => True
  | .reading => ∃ done, s.tokens.toList = done.map (·.token) ∧
      Amid tokenization (Token.tokenize (Source.normalize s.source.toList)) done s
  | .read => s.Tokenized
  | .gathering => s.Tokenized ∧ ∃ done, s.prototypes.toList = done.filterMap (·.prototype) ∧
      Amid collection (Prototype.collect s.tokens.toList) done s
  | .gathered => s.Tokenized ∧ s.Registered
  | .parsing => s.Tokenized ∧ s.Registered ∧ s.program = none ∧ s.Underway
  | .parsed => s.Tokenized ∧ s.Registered ∧ ∀ p, s.program = some p → Spells s.source p

theorem Holds.tokenized {s : Session} {pr : Progress} (h : s.Holds pr) (hpr : pr.HasTokens) :
    s.Tokenized := by
  cases pr with
  | idle => exact absurd rfl hpr.1
  | reading => exact absurd rfl hpr.2
  | read => exact h
  | gathering | gathered | parsing | parsed => exact h.1

theorem Holds.registered {s : Session} {pr : Progress} (h : s.Holds pr)
    (hpr : pr.HasSignatures) : s.Tokenized ∧ s.Registered := by
  rcases hpr with rfl | rfl | rfl
  · exact h
  · exact ⟨h.1, h.2.1⟩
  · exact ⟨h.1, h.2.1⟩

/-! ## Texts that are compiled at once -/

section Compiling

variable {source : String} {s s' : Session} {answer : Except Refusal Unit}

/-- The ticks of tokenization end as the tokens of the text do. -/
theorem ticks_tokenization {name : Name} {reports : List TokenReport}
    (h : Ticks tokenization (s.beginTokenization source name) reports answer s') :
    (s'.source = source ∧ s'.program = s.program) ∧
    ((∃ stop, Program.tokensOf source = .error stop ∧ answer = .error (.compile stop)) ∨
      Program.tokensOf source = .ok s'.tokens.toList ∧ answer = .ok ()) := by
  have hkeeps := @Ticks.keeps _ _ tokenization _ _ _ (fun s => (s.source, s.program))
    tick_tokenization _ _ h
  refine ⟨Prod.mk.inj hkeeps, ?_⟩
  obtain ⟨hrefused, hended⟩ := h.answer lawful_tokenization
  obtain ⟨hbad, hgood⟩ := drain_tokenization source name s
  cases htokens : Program.tokensOf source with
  | error stop =>
    obtain ⟨s₁, h₁⟩ := hbad stop htokens
    exact .inl ⟨stop, rfl, (hrefused _ _ h₁).1⟩
  | ok tokens =>
    obtain ⟨n, s₁, h₁, rfl⟩ := hgood tokens htokens
    obtain ⟨hanswer, rfl⟩ := hended _ _ h₁
    exact .inr ⟨rfl, hanswer⟩

/-- The ticks of collection end as the signatures of the tokens do. -/
theorem ticks_collection {reports : List PrototypeReport}
    (h : Ticks collection s.beginPrototypes reports answer s') :
    (s'.source = s.source ∧ s'.tokens = s.tokens ∧ s'.program = s.program) ∧
    ((∃ stop, Program.prototypesOf s.tokens.toList = .error stop ∧
        answer = .error (.compile stop)) ∨
      Program.prototypesOf s.tokens.toList = .ok s'.prototypes.toList ∧ answer = .ok ()) := by
  have hkeeps := @Ticks.keeps _ _ collection _ _ _ (fun s => (s.source, s.tokens, s.program))
    tick_collection _ _ h
  obtain ⟨hsource, hrest⟩ := Prod.mk.inj hkeeps
  refine ⟨⟨hsource, Prod.mk.inj hrest⟩, ?_⟩
  obtain ⟨hrefused, hended⟩ := h.answer lawful_collection
  obtain ⟨hbad, hgood⟩ := drain_collection s
  cases hheaders : Program.prototypesOf s.tokens.toList with
  | error stop =>
    obtain ⟨s₁, h₁⟩ := hbad stop hheaders
    exact .inl ⟨stop, rfl, (hrefused _ _ h₁).1⟩
  | ok headers =>
    obtain ⟨n, s₁, h₁, rfl, -⟩ := hgood headers hheaders
    obtain ⟨hanswer, rfl⟩ := hended _ _ h₁
    exact .inr ⟨rfl, hanswer⟩

/-- A tick of parsing changes the program of the session only where it ends the phase. -/
theorem tick_parsing_program {reply : Except Refusal (Option ParseReport)}
    (h : tick (parsingStage frames) s = (reply, s')) (hreply : reply ≠ .ok none) :
    s'.program = s.program := by
  have hresume : ∀ t, resume (parsingStage frames) s t = (reply, s') →
      s'.program = s.program := by
    intro t ht
    cases t with
    | done a =>
      cases a with
      | ok p =>
        cases ht
        exact absurd rfl hreply
      | error stop =>
        cases ht
        rfl
    | emit r next =>
      cases ht
      rfl
  match hp : (parsingStage frames).phase s with
  | .idle | .lost =>
    simp only [tick, hp] at h
    cases h
    rfl
  | .pending =>
    simp only [tick, hp] at h
    exact hresume _ h
  | .running rest =>
    simp only [tick, hp] at h
    exact hresume _ h
  | .over =>
    simp only [tick, hp] at h
    cases h
    exact absurd rfl hreply

/-- Parsing that fails leaves the program of the session alone. -/
theorem ticks_parsing {reports : List ParseReport}
    (h : Ticks (parsingStage frames) s reports answer s') :
    (s'.source = s.source ∧ s'.tokens = s.tokens ∧ s'.prototypes = s.prototypes) ∧
      ∀ reason, answer = .error reason → s'.program = s.program := by
  have hkeeps := @Ticks.keeps _ _ (parsingStage frames) _ _ _
    (fun s => (s.source, s.tokens, s.prototypes)) (tick_parsing frames) _ _ h
  obtain ⟨hsource, hrest⟩ := Prod.mk.inj hkeeps
  refine ⟨⟨hsource, Prod.mk.inj hrest⟩, fun reason hanswer => ?_⟩
  clear hkeeps hsource hrest
  induction h with
  | finished => cases hanswer
  | refused h => exact tick_parsing_program h nofun
  | report h _ ih => exact (ih hanswer).trans (tick_parsing_program h nofun)

/-- A text that has been collected comes to the parser, which does not touch what it reads. -/
theorem reached_of_ticks {s₁ s₂ : Session} {name : Name} {reports : List TokenReport}
    {headers : List PrototypeReport} {steps : List ParseReport}
    (h₁ : Ticks tokenization (s.beginTokenization source name) reports (.ok ()) s₁)
    (h₂ : Ticks collection s₁.beginPrototypes headers (.ok ()) s₂)
    (h₃ : Ticks (parsingStage frames) s₂.beginParsing steps answer s') :
    Progress.reached source = .parsed ∧ s'.source = source ∧ s'.Tokenized ∧ s'.Registered := by
  obtain ⟨⟨hsource₁, -⟩, ⟨_, -, hend⟩ | ⟨htokens, -⟩⟩ := ticks_tokenization h₁
  · cases hend
  obtain ⟨⟨hsource₂, htokens₂, -⟩, ⟨_, -, hend⟩ | ⟨hheaders, -⟩⟩ := ticks_collection h₂
  · cases hend
  obtain ⟨⟨hsource₃, htokens₃, hprototypes₃⟩, -⟩ := ticks_parsing h₃
  have hsource : s'.source = source := hsource₃.trans (hsource₂.trans hsource₁)
  have hsame : s'.tokens = s₁.tokens := htokens₃.trans htokens₂
  refine ⟨by simp only [Progress.reached, htokens, hheaders], hsource, ?_, ?_⟩
  · rw [Tokenized, hsource, hsame, htokens]
  · rw [Registered, hsame, hprototypes₃, hheaders]
    rfl

/-- **What a session holds after a text was compiled in it at once.**  If the text has come to the
parser it is the program of the text, if any, and otherwise the program that was there before. -/
theorem compile_leaves {reply : Except Refusal (Option Program)}
    (h : Compiles frames source s reply s') :
    s'.source = source ∧ s'.Holds (.reached source) ∧
      (Progress.reached source = .parsed → s'.program = (Program.compile frames source).toOption) ∧
      (Progress.reached source ≠ .parsed → s'.program = s.program) := by
  have hreply := compile_fst frames source s
  rw [compile_of_compiles h] at hreply
  cases h with
  -- only the parser clears the program, so the first two phases leave what they find
  | untokenized h₁ =>
    obtain ⟨⟨hsource, hprogram⟩, ⟨stop, hstop, -⟩ | ⟨-, hend⟩⟩ := ticks_tokenization h₁
    · have hreached : Progress.reached source = .idle := by simp only [Progress.reached, hstop]
      rw [hreached]
      exact ⟨hsource, trivial, nofun, fun _ => hprogram⟩
    · cases hend
  | @uncollected s₁ _ _ _ _ h₁ h₂ =>
    obtain ⟨⟨hsource₁, hprogram₁⟩, ⟨stop, -, hend⟩ | ⟨htokens, -⟩⟩ := ticks_tokenization h₁
    · cases hend
    obtain ⟨⟨hsource₂, htokens₂, hprogram₂⟩, ⟨stop, hstop, -⟩ | ⟨-, hend⟩⟩ := ticks_collection h₂
    · have hreached : Progress.reached source = .read := by
        simp only [Progress.reached, htokens, hstop]
      have htokenized : s'.Tokenized := by
        unfold Tokenized
        rw [hsource₂, htokens₂, hsource₁, htokens]
      rw [hreached]
      exact ⟨hsource₂.trans hsource₁, htokenized, nofun, fun _ => hprogram₂.trans hprogram₁⟩
    · cases hend
  | unparsed h₁ h₂ h₃ =>
    obtain ⟨hreached, hsource, htokenized, hregistered⟩ := reached_of_ticks h₁ h₂ h₃
    have hprogram : s'.program = none := (ticks_parsing h₃).2 _ rfl
    cases hcompile : Program.compile frames source with
    | ok program =>
      rw [hcompile] at hreply
      cases hreply
    | error stop =>
      have hempty : ∀ p, s'.program ≠ some p := by simp [hprogram]
      rw [hreached]
      exact ⟨hsource, ⟨htokenized, hregistered, fun p hp => absurd hp (hempty p)⟩,
        fun _ => hprogram, fun h => absurd rfl h⟩
  | parsed h₁ h₂ h₃ =>
    obtain ⟨hreached, hsource, htokenized, hregistered⟩ := reached_of_ticks h₁ h₂ h₃
    cases hcompile : Program.compile frames source with
    | error stop =>
      rw [hcompile] at hreply
      cases hreply
    | ok program =>
      rw [hcompile] at hreply
      have hprogram : s'.program = some program := Except.ok.inj hreply
      have hheld : ∀ p, s'.program = some p → Spells s'.source p := by
        intro p hp
        obtain rfl : program = p := Option.some.inj (hprogram.symm.trans hp)
        rw [hsource]
        exact spells_of_compile hcompile
      rw [hreached]
      exact ⟨hsource, ⟨htokenized, hregistered, hheld⟩, fun _ => hprogram, fun h => absurd rfl h⟩

/-- After a text that does not compile there is no program if the text has come to the parser, and
otherwise the program that was there before. -/
theorem compile_failed {stop : Grammar.Stop} (h : Program.compile frames source = .error stop)
    (s : Session) :
    ∃ s', s.compile frames source = (.error (.compile stop), s') ∧ s'.source = source ∧
      (Progress.reached source = .parsed → s'.program = none) ∧
      (Progress.reached source ≠ .parsed → s'.program = s.program) := by
  obtain ⟨s', hs'⟩ := (compile_session source s).1 stop h
  obtain ⟨hsource, -, hreached, hunreached⟩ := compile_leaves (compiles_iff.mpr hs')
  rw [h] at hreached
  exact ⟨s', hs', hsource, hreached, hunreached⟩

end Compiling

/-! ## Coherent sessions -/

/-- The session holds what it has of its text, and a program of some text, if any. -/
structure Coherent (pr : Progress) (s : Session) : Prop where
  holds : s.Holds pr
  origin : ∀ p, s.program = some p → ∃ text, Spells text p

section Coherence

variable {pr pr' : Progress} {s s' : Session}

theorem coherent_fresh : Coherent .idle fresh := ⟨trivial, nofun⟩

theorem coherent_beginTokenization (h : Coherent pr s) (source : String) (name : Name) :
    Coherent .reading (s.beginTokenization source name) := by
  have hstart : tokenization.start (s.beginTokenization source name) =
      Token.tokenize (Source.normalize source.toList) := by
    simp [tokenization, beginTokenization]
  refine ⟨⟨[], rfl, ?_⟩, h.origin⟩
  have hamid : Amid tokenization (tokenization.start (s.beginTokenization source name)) []
      (s.beginTokenization source name) := amid_start rfl
  rwa [hstart] at hamid

/-- A tick of tokenization: the tokens are read one by one, and at the end there are those of the
text. -/
theorem coherent_tokenize (h : Coherent .reading s)
    {answer : Except Refusal (Option TokenReport)} (ht : tick tokenization s = (answer, s')) :
    Coherent (.settle .reading .read .idle answer) s' := by
  obtain ⟨⟨done, htokens, hamid⟩, horigin⟩ := h
  obtain ⟨hsource, hprogram⟩ : s'.source = s.source ∧ s'.program = s.program := by
    have hkeeps := tick_tokenization s
    rw [ht] at hkeeps
    exact Prod.mk.inj hkeeps
  refine ⟨?_, hprogram ▸ horigin⟩
  match answer, ht with
  | .error _, _ => trivial
  | .ok (some r), ht =>
    obtain ⟨hamid', phase, -, rfl⟩ := hamid.report lawful_tokenization ht
    refine ⟨done ++ [r], ?_, hamid'⟩
    show (s.tokens.push r.token).toList = _
    rw [Array.toList_push, htokens, List.map_append]
    rfl
  | .ok none, ht =>
    obtain ⟨hreports, hanswer, rfl⟩ := hamid.finish ht
    have hvalue : (Token.tokenize (Source.normalize s.source.toList)).value = .ok () := by
      cases hv : (Token.tokenize (Source.normalize s.source.toList)).value with
      | ok u => rfl
      | error e =>
        rw [hv] at hanswer
        cases hanswer
    show (Token.all (Source.normalize s.source.toList)).mapError Grammar.Stop.error =
      .ok s.tokens.toList
    rw [Token.all_eq_ok.mpr ⟨hvalue, rfl⟩, hreports, htokens]
    rfl

theorem coherent_beginPrototypes (h : Coherent pr s) (hpr : pr.HasTokens) :
    Coherent .gathering s.beginPrototypes :=
  ⟨⟨h.holds.tokenized hpr, [], rfl, amid_start rfl⟩, h.origin⟩

/-- A tick of collection: the signatures are registered one by one, and at the end there are those
of the tokens. -/
theorem coherent_collect (h : Coherent .gathering s)
    {answer : Except Refusal (Option PrototypeReport)} (ht : tick collection s = (answer, s')) :
    Coherent (.settle .gathering .gathered .read answer) s' := by
  obtain ⟨⟨htokenized, done, hprototypes, hamid⟩, horigin⟩ := h
  obtain ⟨hsource, htokens, hprogram⟩ :
      s'.source = s.source ∧ s'.tokens = s.tokens ∧ s'.program = s.program := by
    have hkeeps := tick_collection s
    rw [ht] at hkeeps
    obtain ⟨hsource, hrest⟩ := Prod.mk.inj hkeeps
    exact ⟨hsource, Prod.mk.inj hrest⟩
  have htokenized' : s'.Tokenized := by
    unfold Tokenized
    rw [hsource, htokens]
    exact htokenized
  refine ⟨?_, hprogram ▸ horigin⟩
  match answer, ht with
  | .error _, _ => exact htokenized'
  | .ok (some r), ht =>
    obtain ⟨hamid', phase, -, hs'⟩ := hamid.report lawful_collection ht
    refine ⟨htokenized', done ++ [r], ?_, ?_⟩
    · rw [hs', List.filterMap_append, ← hprototypes]
      simp only [collection]
      cases hr : r.prototype <;> simp [hr]
    · rwa [htokens]
  | .ok none, ht =>
    obtain ⟨hreports, hanswer, rfl⟩ := hamid.finish ht
    refine ⟨htokenized', ?_⟩
    have hvalue : (Prototype.collect s.tokens.toList).value = .ok () := by
      cases hv : (Prototype.collect s.tokens.toList).value with
      | ok u => rfl
      | error e =>
        rw [hv] at hanswer
        cases hanswer
    show (Prototype.all s.tokens.toList).mapError Grammar.Stop.error = .ok s.prototypes.toList
    unfold Prototype.all
    rw [Trace.collect_eq, hvalue, hreports, hprototypes]
    rfl

theorem coherent_beginParsing (h : Coherent pr s) (hpr : pr.HasSignatures) :
    Coherent .parsing s.beginParsing := by
  obtain ⟨htokenized, hregistered⟩ := h.holds.registered hpr
  have hunderway : s.beginParsing.Underway := by
    intro k
    have hamid : Amid (parsingStage k) ((parsingStage k).start s.beginParsing) [] s.beginParsing :=
      amid_start rfl
    exact ⟨k, [], hamid⟩
  exact ⟨⟨htokenized, hregistered, rfl, hunderway⟩, nofun⟩

/-- A tick of parsing: there is no program before the end, and then there is that of the text. -/
theorem coherent_parse (h : Coherent .parsing s) {answer : Except Refusal (Option ParseReport)}
    (ht : tick (parsingStage frames) s = (answer, s')) :
    Coherent (.settle .parsing .parsed .parsed answer) s' := by
  obtain ⟨⟨htokenized, hregistered, hnone, hunderway⟩, horigin⟩ := h
  obtain ⟨frames', done, hamid⟩ := hunderway frames
  obtain ⟨hsource, htokens, hprototypes⟩ :
      s'.source = s.source ∧ s'.tokens = s.tokens ∧ s'.prototypes = s.prototypes := by
    have hkeeps := tick_parsing frames s
    rw [ht] at hkeeps
    obtain ⟨hsource, hrest⟩ := Prod.mk.inj hkeeps
    exact ⟨hsource, Prod.mk.inj hrest⟩
  have htokenized' : s'.Tokenized := by
    rw [Tokenized, hsource, htokens]
    exact htokenized
  have hregistered' : s'.Registered := by
    rw [Registered, htokens, hprototypes]
    exact hregistered
  match answer, ht with
  | .error reason, ht =>
    have hprogram := (tick_parsing_program ht nofun).trans hnone
    have hempty : ∀ p, s'.program ≠ some p := by simp [hprogram]
    exact ⟨⟨htokenized', hregistered', fun p hp => absurd hp (hempty p)⟩,
      fun p hp => absurd hp (hempty p)⟩
  | .ok (some r), ht =>
    have hprogram := (tick_parsing_program ht nofun).trans hnone
    obtain ⟨hamid', rest, hphase, -⟩ := hamid.report (lawful_parsingStage frames) ht
    rw [← htokens, ← hprototypes] at hamid'
    have hunderway' : s'.Underway := fun k => ⟨frames', done ++ [r], hamid'.running hphase k⟩
    exact ⟨⟨htokenized', hregistered', hprogram, hunderway'⟩, by simp [hprogram]⟩
  | .ok none, ht =>
    -- the phases before have left what `Program.compile` hands on, so the parser has had its input
    obtain ⟨-, hanswer, hs'⟩ := hamid.finish ht
    cases hv : (Program.parse frames' s.tokens.toList s.prototypes.toList).value with
    | error stop =>
      rw [hv] at hanswer
      cases hanswer
    | ok program =>
      rw [hv] at hs'
      have hprogram : s'.program = some program := by rw [hs']; rfl
      have hcompile : Program.compile frames' s'.source = .ok program := by
        rw [Program.compile, hsource, htokenized]
        show (Program.prototypesOf s.tokens.toList >>= _) = _
        rw [hregistered]
        exact hv
      have hheld : ∀ p, s'.program = some p → Spells s'.source p := by
        intro p hp
        obtain rfl : program = p := Option.some.inj (hprogram.symm.trans hp)
        exact spells_of_compile hcompile
      exact ⟨⟨htokenized', hregistered', hheld⟩, fun p hp => ⟨s'.source, hheld p hp⟩⟩

/-- A tick that a phase does not get on. -/
theorem tick_settled {ρ α : Type} {stage : Stage ρ α} (h : Phase.Settled (stage.phase s)) :
    (tick stage s).2 = s ∨ (tick stage s).2 = stage.late s := by
  unfold tick
  match hp : stage.phase s with
  | .idle => exact .inl rfl
  | .over => exact .inr rfl
  | .pending | .running _ | .lost =>
    rw [hp] at h
    exact h.elim

/-- A tick of parsing behind its end takes the program away. -/
theorem coherent_parseAgain (h : Coherent pr s) : Coherent pr { s with program := none } := by
  refine ⟨?_, nofun⟩
  cases pr with
  | idle | reading | read | gathering | gathered => exact h.holds
  | parsing =>
    obtain ⟨htokenized, hregistered, -, hamid⟩ := h.holds
    exact ⟨htokenized, hregistered, rfl, hamid⟩
  | parsed => exact ⟨h.holds.1, h.holds.2.1, nofun⟩

/-- What execution produces is of no account here. -/
theorem coherent_execution (h : Coherent pr s) (events : Array PrintEvent)
    (result : Option Binding)
    (executing : Phase ExecReport (Except Failure (Option Binding) × Table)) :
    Coherent pr { s with events, result, executing } := by
  refine ⟨?_, h.origin⟩
  cases pr <;> exact h.holds

theorem coherent_compile (h : Coherent pr s) (frames : Nat) (source : String) :
    Coherent (.reached source) (s.compile frames source).2 := by
  obtain ⟨-, hholds, hreached, hunreached⟩ := compile_leaves (compiles_iff.mpr (Prod.eta _).symm)
  refine ⟨hholds, fun p hp => ?_⟩
  by_cases hparsed : Progress.reached source = .parsed
  · rw [hreached hparsed] at hp
    cases hcompile : Program.compile frames source with
    | ok program =>
      rw [hcompile] at hp
      obtain rfl : program = p := Option.some.inj hp
      exact ⟨source, spells_of_compile hcompile⟩
    | error stop =>
      rw [hcompile] at hp
      cases hp
  · exact h.origin p ((hunreached hparsed).symm.trans hp)

/-- **A step keeps a session coherent.** -/
theorem coherent_step (h : Coherent pr s) (hstep : Step pr s pr' s') : Coherent pr' s' := by
  cases hstep with
  | beginTokenization source name => exact coherent_beginTokenization h source name
  | tokenize ht => exact coherent_tokenize h ht
  | beginPrototypes hpr => exact coherent_beginPrototypes h hpr
  | collect ht => exact coherent_collect h ht
  | beginParsing hpr => exact coherent_beginParsing h hpr
  | parse ht => exact coherent_parse h ht
  | tokenizeAgain hsettled =>
    have hs : (tick tokenization s).2 = s := (tick_settled hsettled).elim id id
    rwa [hs]
  | collectAgain hsettled =>
    have hs : (tick collection s).2 = s := (tick_settled hsettled).elim id id
    rwa [hs]
  | parseAgain frames hsettled =>
    rcases @tick_settled s _ _ (parsingStage frames) hsettled with hs | hs
    · rwa [hs]
    · rw [hs]
      exact coherent_parseAgain h
  | beginExecution limits =>
    obtain ⟨events, result, executing, hs⟩ := (execution_keeps s).2 limits
    rw [hs]
    exact coherent_execution h events result executing
  | execute =>
    obtain ⟨⟨events, result, executing, hs⟩, -⟩ := execution_keeps s
    rw [hs]
    exact coherent_execution h events result executing
  | compile frames source => exact coherent_compile h frames source

/-- Every orderly session is coherent. -/
theorem coherent_of_orderly (h : Orderly pr s) : Coherent pr s := by
  induction h with
  | fresh => exact coherent_fresh
  | step _ hstep ih => exact coherent_step ih hstep

/-- A session runs the program that it holds, whose ever it is. -/
theorem beginExecution_eq (s : Session) (limits : Limits) :
    (s.program = none → s.beginExecution limits = (.error .noProgram, s)) ∧
    ∀ p, s.program = some p → ∃ s', s.beginExecution limits = (.ok (), s') ∧
      s'.executing = .running fun _ => p.run limits [] := by
  unfold beginExecution
  cases s.program with
  | none => exact ⟨fun _ => rfl, nofun⟩
  | some q =>
    refine ⟨nofun, fun p hp => ?_⟩
    obtain rfl : q = p := Option.some.inj hp
    exact ⟨_, rfl, rfl⟩

/-- **Whose program a session holds.**  The program of an orderly session is that of some text.
While its own text is parsed there is none, and after that there is that of its own text, if any.
If a text does not compile in the session, it depends on the phase that fails: where the text has
come to the parser, no program is left and execution is refused; where it has not, the program that
was there before stays in its place, and that is the one which is run. -/
theorem session_coherence (h : Orderly pr s) :
    (∀ p, s.program = some p → ∃ text, Spells text p) ∧
    (pr = .parsing → s.program = none) ∧
    (pr = .parsed → ∀ p, s.program = some p → Spells s.source p) ∧
    ∀ frames source stop, Program.compile frames source = .error stop →
      ∃ s', s.compile frames source = (.error (.compile stop), s') ∧ s'.source = source ∧
        (Progress.reached source = .parsed → s'.program = none ∧
          ∀ limits, s'.beginExecution limits = (.error .noProgram, s')) ∧
        (Progress.reached source ≠ .parsed → s'.program = s.program ∧
          ∀ p, s.program = some p → ∀ limits, ∃ s'', s'.beginExecution limits = (.ok (), s'') ∧
            s''.executing = .running fun _ => p.run limits []) := by
  obtain ⟨hholds, horigin⟩ := coherent_of_orderly h
  refine ⟨horigin, ?_, ?_, ?_⟩
  · rintro rfl
    exact hholds.2.2.1
  · rintro rfl
    exact hholds.2.2
  · intro frames source stop hstop
    obtain ⟨s', hs', hsource, hreached, hunreached⟩ := compile_failed hstop s
    refine ⟨s', hs', hsource, fun hparsed => ?_, fun hparsed => ?_⟩
    · exact ⟨hreached hparsed, fun limits => (beginExecution_eq s' limits).1 (hreached hparsed)⟩
    · refine ⟨hunreached hparsed, fun p hp limits => ?_⟩
      exact (beginExecution_eq s' limits).2 p ((hunreached hparsed).trans hp)

theorem isOk_spec {ε α : Type} (x : Except ε α) :
    (x.isOk = true → ∃ a, x = .ok a) ∧ (x.isOk = false → ∃ e, x = .error e) := by
  cases x <;> simp [Except.isOk, Except.toBool]

/-- A text that uses an unknown name comes to the parser, and takes the program before it away. -/
theorem session_coherence_unknown : ∃ program s₁ s₂ stop,
    fresh.compile 100 "PRINT \"x\";" = (.ok (some program), s₁) ∧
    s₁.compile 100 "PRINT x;" = (.error (.compile stop), s₂) ∧
    s₂.program = none ∧ ∀ limits, s₂.beginExecution limits = (.error .noProgram, s₂) := by
  obtain ⟨program, hprogram⟩ :=
    (isOk_spec (Program.compile 100 "PRINT \"x\";")).1 (by decide +kernel)
  obtain ⟨stop, hstop⟩ := (isOk_spec (Program.compile 100 "PRINT x;")).2 (by decide +kernel)
  have hreached : Progress.reached "PRINT x;" = .parsed := by decide +kernel
  obtain ⟨s₁, hs₁, -⟩ := (compile_session _ fresh).2 program hprogram
  have horderly := Orderly.step .fresh (.compile 100 "PRINT \"x\";")
  obtain ⟨s₂, hs₂, -, hparsed, -⟩ := (session_coherence horderly).2.2.2 100 "PRINT x;" stop hstop
  rw [hs₁] at hs₂
  exact ⟨program, s₁, s₂, stop, hs₁, hs₂, hparsed hreached⟩

/-- A text that has no tokens does not come to the parser.  The session holds the text and the
program of the one before. -/
theorem stale_program : ∃ program s₁ s₂ stop,
    fresh.compile 100 "PRINT \"x\";" = (.ok (some program), s₁) ∧
    s₁.compile 100 "PRINT $;" = (.error (.compile stop), s₂) ∧
    s₂.source = "PRINT $;" ∧ (∀ frames, Program.compile frames s₂.source = .error stop) ∧
    s₂.program = some program ∧ ∀ limits, (s₂.beginExecution limits).1 = .ok () := by
  obtain ⟨program, hprogram⟩ :=
    (isOk_spec (Program.compile 100 "PRINT \"x\";")).1 (by decide +kernel)
  obtain ⟨stop, hstop⟩ := (isOk_spec (Program.tokensOf "PRINT $;")).2 (by decide +kernel)
  have hfails := compile_untokenized hstop
  have hunread : Progress.reached "PRINT $;" ≠ .parsed := by decide +kernel
  obtain ⟨s₁, hs₁, hheld⟩ := (compile_session _ fresh).2 program hprogram
  obtain ⟨s₂, hs₂, hsource, -, hkept⟩ := compile_failed (hfails 100) s₁
  have hstale : s₂.program = some program := (hkept hunread).trans hheld
  refine ⟨program, s₁, s₂, stop, hs₁, hs₂, hsource, hsource ▸ hfails, hstale, fun limits => ?_⟩
  obtain ⟨s₃, hs₃, -⟩ := (beginExecution_eq s₂ limits).2 program hstale
  rw [hs₃]

end Coherence

end Slang.Session
