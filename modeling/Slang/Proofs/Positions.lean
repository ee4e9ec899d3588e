import Slang.Proofs.Coherence

/-!
# Where a phase stands in its stream

A phase that has been begun runs along the stream of its reports.  A tick is one step, draining it
is all steps that are left, and both can be mixed: only the number of steps matters.

* `Stage.Steady` — the end of a stream is judged by its value alone, and a phase that is over stays
  over.
* `At stage t n s` — the phase has made `n` steps along the stream `t`.
* `reply` — the answer to a step, by its number: a report, at the end the verdict on the stream, and
  from then on that the phase is over.
* `Reading` — a tick of the tokenization of a session, or all that are left of it; `heard`,
  `produced`, `after` — what a list of such calls is answered, which reports it takes from the
  stream, and the session it leaves.

Principal results: `At.step` — all that a tick can do; `Reads.perform` — where a call leads;
`Reads.run` — where a list of calls leads; `reading_follows_stream` — the tokens of a session along
any calls.
-/

set_option autoImplicit false

namespace Slang

/-- The stage judges the end of a stream by its value alone, and a phase that is over stays over. -/
structure Stage.Steady {ρ α : Type} (stage : Stage ρ α) (verdict : α → Except Refusal Unit) : Prop
    extends stage.Lawful where
  answer : ∀ a s, (stage.conclude a s).1 = verdict a
  phase_conclude : ∀ a s, stage.phase (stage.conclude a s).2 = stage.phase s
  phase_late : ∀ s, stage.phase (stage.late s) = stage.phase s

namespace Session

section Stage

variable {ρ α : Type} {stage : Stage ρ α} {verdict : α → Except Refusal Unit} {t rest : Trace ρ α}
  {s : Session} {n : Nat}

/-- The phase has made so many steps along the stream: there is one for each report, and one for the
end. -/
def At (stage : Stage ρ α) (t : Trace ρ α) (n : Nat) (s : Session) : Prop :=
  if n ≤ t.reports.length then Amid stage t (t.reports.take n) s else stage.phase s = .over

/-- The answer to the step with this number. -/
def reply (verdict : α → Except Refusal Unit) (t : Trace ρ α) (n : Nat) :
    Except Refusal (Option ρ) :=
  match t.reports[n]? with
  | some r => .ok (some r)
  | none => if n = t.reports.length then (verdict t.value).map fun _ => none else .ok none

theorem reply_report (h : n < t.reports.length) : ∃ r, reply verdict t n = .ok (some r) := by
  refine ⟨t.reports[n], ?_⟩
  rw [reply, List.getElem?_eq_getElem h]

theorem reply_end : reply verdict t t.reports.length = (verdict t.value).map fun _ => none := by
  rw [reply, List.getElem?_eq_none (Nat.le_refl _)]
  exact if_pos rfl

theorem reply_late (h : t.reports.length < n) : reply verdict t n = .ok none := by
  rw [reply, List.getElem?_eq_none (Nat.le_of_lt h)]
  exact if_neg (Nat.ne_of_gt h)

/-- Only at the end of the stream is a step refused, for what the stream has come to. -/
theorem reply_refused {reason : Refusal} (h : reply verdict t n = .error reason) :
    n = t.reports.length ∧ verdict t.value = .error reason := by
  rcases Nat.lt_trichotomy n t.reports.length with hn | rfl | hn
  · obtain ⟨r, hr⟩ := @reply_report _ _ verdict t n hn
    rw [hr] at h
    cases h
  · rw [reply_end] at h
    refine ⟨rfl, ?_⟩
    cases hvalue : verdict t.value with
    | ok u =>
      rw [hvalue] at h
      cases h
    | error cause =>
      rw [hvalue] at h
      cases h
      rfl
  · rw [reply_late hn] at h
    cases h

theorem at_start (h : left stage s = some t) : At stage t 0 s := by
  rw [At, if_pos (Nat.zero_le _)]
  exact ⟨t, h, rfl, rfl⟩

theorem at_over (h : stage.phase s = .over) (hn : t.reports.length < n) : At stage t n s := by
  rw [At, if_neg (Nat.not_le_of_lt hn)]
  exact h

theorem At.over (h : At stage t n s) (hn : t.reports.length < n) : stage.phase s = .over := by
  rwa [At, if_neg (Nat.not_le_of_lt hn)] at h

/-- What is left of a phase that is not over. -/
theorem At.left (h : At stage t n s) (hn : n ≤ t.reports.length) :
    ∃ rest, Session.left stage s = some rest ∧ rest.reports = t.reports.drop n ∧
      rest.value = t.value := by
  rw [At, if_pos hn] at h
  obtain ⟨rest, hleft, hreports, hvalue⟩ := h
  refine ⟨rest, hleft, ?_, hvalue.symm⟩
  have hsplit := (List.take_append_drop n t.reports).trans hreports
  exact (List.append_cancel_left hsplit).symm

/-- **All that a tick can do**: absorb the next report, come to the end, or find the phase over. -/
theorem At.step (hl : stage.Lawful) (h : At stage t n s) :
    (∃ r p, t.reports[n]? = some r ∧
      tick stage s = (.ok (some r), stage.absorb r (stage.store p s)) ∧
      At stage t (n + 1) (stage.absorb r (stage.store p s))) ∨
    (n = t.reports.length ∧ tick stage s =
      ((stage.conclude t.value (stage.store .over s)).1.map fun _ => none,
        (stage.conclude t.value (stage.store .over s)).2)) ∨
    t.reports.length < n ∧ tick stage s = (.ok none, stage.late s) := by
  by_cases hn : n ≤ t.reports.length
  · obtain ⟨rest, hleft, hreports, hvalue⟩ := h.left hn
    have htick := tick_of_left hleft
    cases rest with
    | done a =>
      have hlength : t.reports.length ≤ n := List.drop_eq_nil_iff.mp hreports.symm
      refine .inr (.inl ⟨Nat.le_antisymm hn hlength, ?_⟩)
      rw [htick, resume_done, ← hvalue]
      rfl
    | emit r next =>
      have hr : t.reports[n]? = some r := by
        rw [← List.head?_drop, ← hreports]
        rfl
      have hlt : n + 1 ≤ t.reports.length := (List.getElem?_eq_some_iff.mp hr).1
      refine .inl ⟨r, .running next, hr, htick, ?_⟩
      rw [At, if_pos hn] at h
      rw [At, if_pos hlt, List.take_add_one, hr]
      exact (h.report hl htick).1
  · have hlate : t.reports.length < n := Nat.lt_of_not_le hn
    have hover := h.over hlate
    refine .inr (.inr ⟨hlate, ?_⟩)
    simp only [tick, hover]

/-- A tick is answered by the number of the step, and is one step. -/
theorem At.tick (hs : stage.Steady verdict) (h : At stage t n s) :
    (tick stage s).1 = reply verdict t n ∧ At stage t (n + 1) (Session.tick stage s).2 := by
  rcases h.step hs.toLawful with ⟨r, p, hr, htick, hnext⟩ | ⟨rfl, htick⟩ | ⟨hlate, htick⟩
  · rw [htick]
    refine ⟨?_, hnext⟩
    rw [reply, hr]
  · rw [htick]
    refine ⟨?_, at_over ?_ (Nat.lt_succ_self _)⟩
    · rw [reply_end, hs.answer]
    · rw [hs.phase_conclude, hs.phase_store]
  · rw [htick]
    refine ⟨(reply_late hlate).symm, at_over ?_ (Nat.lt_succ_of_lt hlate)⟩
    rw [hs.phase_late, h.over hlate]

end Stage

/-! ## Reading tokens -/

/-- A call that reads tokens of the text of a session: the next one, or all that are left. -/
inductive Reading where
  | tick
  | finish
  deriving DecidableEq, Repr

/-- The answer to the call and the session behind it.  A call that reads all tokens is answered like
the tick behind the last one. -/
def Reading.perform : Reading → Session → Except Refusal (Option TokenReport) × Session
  | .tick, s => Session.tick tokenization s
  | .finish, s => (s.finishTokenization.1.map fun _ => none, s.finishTokenization.2)

/-- The reports that the call takes from the stream. -/
def Reading.taken : Reading → Session → List TokenReport
  | .tick, s =>
    match (Session.tick tokenization s).1 with
    | .ok (some r) => [r]
    | _ => []
  | .finish, s =>
    match left tokenization s with
    | some rest => rest.reports
    | none => []

/-- The answers to some calls, one after the other. -/
def heard : List Reading → Session → List (Except Refusal (Option TokenReport))
  | [], _ => []
  | call :: calls, s => (call.perform s).1 :: heard calls (call.perform s).2

/-- The reports that some calls have taken from the stream. -/
def produced : List Reading → Session → List TokenReport
  | [], _ => []
  | call :: calls, s => call.taken s ++ produced calls (call.perform s).2

/-- The session after some calls. -/
def after : List Reading → Session → Session
  | [], s => s
  | call :: calls, s => after calls (call.perform s).2

/-- The stream of the tokens of a text. -/
def stream (source : String) : Trace TokenReport (Except CompileError Unit) :=
  Token.tokenize (Source.normalize source.toList)

/-- How the end of a stream of tokens is taken. -/
def lexical (value : Except CompileError Unit) : Except Refusal Unit :=
  value.mapError (Refusal.compile ∘ .error)

theorem steady_tokenization : tokenization.Steady lexical :=
  ⟨lawful_tokenization, fun _ _ => rfl, fun _ _ => rfl, fun _ => rfl⟩

/-- The number of the step at which a call is answered that is made after `n` steps, on a stream of
`len` reports. -/
def Reading.last (len n : Nat) : Reading → Nat
  | .tick => n
  | .finish => max n len

/-- The numbers of the steps at which some calls are answered. -/
def places (len : Nat) : List Reading → Nat → List Nat
  | [], _ => []
  | call :: calls, n => call.last len n :: places len calls (call.last len n + 1)

/-- The steps that have been made after some calls. -/
def place (len : Nat) : List Reading → Nat → Nat
  | [], n => n
  | call :: calls, n => place len calls (call.last len n + 1)

section Places

variable {len n m : Nat} {calls : List Reading}

theorem le_last (call : Reading) : n ≤ call.last len n := by
  cases call with
  | tick => exact Nat.le_refl n
  | finish => exact Nat.le_max_left n len

theorem last_le (call : Reading) (h : n ≤ len) : call.last len n ≤ len := by
  cases call with
  | tick => exact h
  | finish => exact Nat.max_le.mpr ⟨h, Nat.le_refl len⟩

theorem le_place : ∀ (calls : List Reading) (n : Nat), n + calls.length ≤ place len calls n
  | [], n => Nat.le_refl n
  | call :: calls, n => by
    have hlast : n ≤ call.last len n := le_last call
    have hrest := le_place calls (call.last len n + 1)
    rw [List.length_cons, place]
    omega

/-- Each call is answered at a step between those made before and those made after. -/
theorem lt_place_of_mem : ∀ {calls : List Reading} {n : Nat}, m ∈ places len calls n →
    n ≤ m ∧ m < place len calls n
  | call :: calls, n, h => by
    have hlast : n ≤ call.last len n := le_last call
    rcases List.mem_cons.mp h with rfl | h
    · exact ⟨hlast, Nat.lt_of_lt_of_le (by omega) (le_place calls _)⟩
    · obtain ⟨hle, hlt⟩ := lt_place_of_mem h
      exact ⟨by omega, hlt⟩

/-- Calls that come to the end of the stream come past its last step, and no call skips it. -/
theorem mem_places_iff : ∀ {n : Nat}, n ≤ len → ∀ calls : List Reading,
    (len ∈ places len calls n ↔ len < place len calls n)
  | n, h, [] => by simp [places, place, h]
  | n, h, call :: calls => by
    have hlast := last_le call h
    rw [places, place, List.mem_cons]
    by_cases heq : call.last len n = len
    · have hpast : len + 1 + calls.length ≤ place len calls (len + 1) := le_place calls (len + 1)
      rw [heq]
      simp only [true_or, true_iff]
      omega
    · have hne : ¬ len = call.last len n := fun h => heq h.symm
      rw [mem_places_iff (by omega) calls]
      simp only [hne, false_or]

/-- It takes a call that reads all, or enough ticks. -/
theorem lt_place_iff : ∀ {n : Nat}, n ≤ len → ∀ calls : List Reading,
    (len < place len calls n ↔ .finish ∈ calls ∨ len < n + calls.length)
  | n, h, [] => by simp [place]
  | n, h, .tick :: calls => by
    rw [place, Reading.last, List.length_cons]
    by_cases hn : n + 1 ≤ len
    · rw [lt_place_iff hn calls]
      simp only [List.mem_cons, reduceCtorEq, false_or]
      exact or_congr_right (by omega)
    · have hpast : n + 1 + calls.length ≤ place len calls (n + 1) := le_place calls (n + 1)
      constructor
      · intro _
        right
        omega
      · intro _
        omega
  | n, h, .finish :: calls => by
    have hpast : max n len + 1 + calls.length ≤ place len calls (max n len + 1) :=
      le_place calls (max n len + 1)
    have hmax : len ≤ max n len := Nat.le_max_right n len
    rw [place, Reading.last]
    simp only [List.mem_cons, true_or, iff_true]
    omega

end Places

/-- The tokens of the session are being read: it has those of the first `n` steps. -/
structure Reads (t : Trace TokenReport (Except CompileError Unit)) (n : Nat) (s : Session) : Prop
    where
  place : At tokenization t n s
  tokens : s.tokens.toList = (t.reports.take n).map (·.token)

section Reading

variable {t rest : Trace TokenReport (Except CompileError Unit)} {n : Nat} {s : Session}

theorem reads_begin (s : Session) (source : String) (name : Name) :
    Reads (stream source) 0 (s.beginTokenization source name) := by
  refine ⟨at_start ?_, rfl⟩
  simp [left, tokenization, beginTokenization, stream]

theorem finish_of_left (h : left tokenization s = some rest) :
    s.finishTokenization = (lexical rest.value,
      { rest.reports.foldl (fun s r => tokenization.absorb r s) s with tokenizing := .over }) := by
  have hdrain : drain tokenization s = exhaust tokenization s rest ∧ s.tokenizing ≠ .idle := by
    rcases hp : s.tokenizing with _ | _ | next | _ | _
    · simp [left, tokenization, hp] at h
    · simp only [left, tokenization, hp, Option.some.injEq] at h
      simp [drain, tokenization, hp, h]
    · simp only [left, tokenization, hp, Option.some.injEq] at h
      simp [drain, tokenization, hp, h]
    · simp [left, tokenization, hp] at h
    · simp [left, tokenization, hp] at h
  unfold finishTokenization
  split
  · exact absurd ‹_› hdrain.2
  · have hanswer : (ended tokenization s rest).1 = lexical rest.value := rfl
    rw [hdrain.1, exhaust_eq, hanswer]
    cases rest.value <;> rfl

theorem finish_of_over (h : s.tokenizing = .over) : s.finishTokenization = (.ok (), s) := by
  simp only [finishTokenization, drain, tokenization, h, Except.map]

/-- A tick takes the report of its step, if there is one. -/
theorem Reads.tick (h : Reads t n s) :
    (Session.tick tokenization s).1 = reply lexical t n ∧
      Reading.tick.taken s = (t.reports[n]?).toList ∧
      Reads t (n + 1) (Session.tick tokenization s).2 := by
  obtain ⟨hanswer, hplace⟩ := h.place.tick steady_tokenization
  refine ⟨hanswer, ?_⟩
  rcases h.place.step lawful_tokenization with ⟨r, p, hr, htick, -⟩ | ⟨rfl, htick⟩ | ⟨hlate, htick⟩
  · refine ⟨?_, hplace, ?_⟩
    · simp only [Reading.taken, htick, hr]
      rfl
    · rw [htick, List.take_add_one, List.map_append, ← h.tokens, hr]
      simp [tokenization]
  · have hend := List.getElem?_eq_none (Nat.le_refl t.reports.length)
    refine ⟨?_, hplace, ?_⟩
    · rw [hend, Reading.taken, htick]
      cases t.value <;> rfl
    · rw [htick, List.take_add_one, List.map_append, ← h.tokens, hend]
      exact (List.append_nil _).symm
  · have hend := List.getElem?_eq_none (Nat.le_of_lt hlate)
    refine ⟨?_, hplace, ?_⟩
    · rw [hend, Reading.taken, htick]
      rfl
    · rw [htick, List.take_add_one, List.map_append, ← h.tokens, hend]
      exact (List.append_nil _).symm

/-- A call that reads all takes the reports that are left, and is answered at the end of the stream
or behind it. -/
theorem Reads.finish (h : Reads t n s) :
    (Reading.finish.perform s).1 = reply lexical t (max n t.reports.length) ∧
      Reading.finish.taken s = t.reports.drop n ∧
      Reads t (max n t.reports.length + 1) (Reading.finish.perform s).2 := by
  by_cases hn : n ≤ t.reports.length
  · obtain ⟨rest, hleft, hreports, hvalue⟩ := h.place.left hn
    have htokens := tokens_foldl rest.reports s
    rw [Nat.max_eq_right hn]
    simp only [Reading.perform, Reading.taken, finish_of_left hleft, hleft]
    refine ⟨?_, hreports, at_over rfl (Nat.lt_succ_self _), ?_⟩
    · rw [reply_end, hvalue]
    · rw [htokens, h.tokens, hreports, ← List.map_append, List.take_append_drop,
        List.take_of_length_le (Nat.le_succ _)]
  · have hlate : t.reports.length < n := Nat.lt_of_not_le hn
    have hover : s.tokenizing = .over := h.place.over hlate
    have hleft : left tokenization s = none := by simp only [left, tokenization, hover]
    rw [Nat.max_eq_left (Nat.le_of_lt hlate)]
    simp only [Reading.perform, Reading.taken, finish_of_over hover, hleft]
    refine ⟨(reply_late hlate).symm, (List.drop_eq_nil_of_le (Nat.le_of_lt hlate)).symm,
      at_over hover (Nat.lt_succ_of_lt hlate), ?_⟩
    rw [h.tokens, List.take_of_length_le (Nat.le_of_lt hlate),
      List.take_of_length_le (Nat.le_of_lt (Nat.lt_succ_of_lt hlate))]

/-- **Where a call leads**: it is answered at its last step, and takes the reports up to there. -/
theorem Reads.perform (h : Reads t n s) (call : Reading) :
    (call.perform s).1 = reply lexical t (call.last t.reports.length n) ∧
      t.reports.take n ++ call.taken s = t.reports.take (call.last t.reports.length n + 1) ∧
      Reads t (call.last t.reports.length n + 1) (call.perform s).2 := by
  cases call with
  | tick =>
    obtain ⟨hanswer, htaken, hnext⟩ := h.tick
    refine ⟨hanswer, ?_, hnext⟩
    rw [htaken, Reading.last, List.take_add_one]
  | finish =>
    obtain ⟨hanswer, htaken, hnext⟩ := h.finish
    refine ⟨hanswer, ?_, hnext⟩
    have hlength : t.reports.length ≤ max n t.reports.length + 1 := by omega
    rw [htaken, Reading.last, List.take_append_drop, List.take_of_length_le hlength]

/-- **What calls are answered**, by number, and which reports they have taken: by induction on the
calls, each of which goes on where the one before has stopped. -/
theorem Reads.run : ∀ (calls : List Reading) {n : Nat} {s : Session}, Reads t n s →
    heard calls s = (places t.reports.length calls n).map (reply lexical t) ∧
      t.reports.take n ++ produced calls s =
        t.reports.take (Session.place t.reports.length calls n) ∧
      Reads t (Session.place t.reports.length calls n) (after calls s)
  | [], n, s, h => ⟨rfl, List.append_nil _, h⟩
  | call :: calls, n, s, h => by
    obtain ⟨hanswer, htaken, hnext⟩ := h.perform call
    obtain ⟨hheard, hproduced, hrun⟩ := Reads.run calls hnext
    refine ⟨?_, ?_, hrun⟩
    · rw [heard, hanswer, hheard]
      rfl
    · rw [produced, ← List.append_assoc, htaken, hproduced]
      rfl

/-- Calls on a phase that is over change nothing. -/
theorem calls_over (h : s.tokenizing = .over) : ∀ calls : List Reading,
    (∀ a ∈ heard calls s, a = .ok none) ∧ after calls s = s
  | [] => ⟨fun _ ha => absurd ha List.not_mem_nil, rfl⟩
  | call :: calls => by
    have hcall : call.perform s = (.ok none, s) := by
      cases call with
      | tick => simp only [Reading.perform, Session.tick, tokenization, h]
      | finish => simp only [Reading.perform, finish_of_over h, Except.map]
    obtain ⟨hheard, hafter⟩ := calls_over h calls
    rw [heard, after, hcall]
    exact ⟨List.forall_mem_cons.mpr ⟨rfl, hheard⟩, hafter⟩

/-- The answer at the end of the stream is given to a call that reads all, or to one tick more than
there are reports, and otherwise to none. -/
theorem Reads.ended_iff (h : Reads t 0 s) (calls : List Reading)
    {a : Except Refusal (Option TokenReport)} (ha : reply lexical t t.reports.length = a) :
    a ∈ heard calls s ↔ .finish ∈ calls ∨ t.reports.length < calls.length := by
  have hpast := lt_place_iff (Nat.zero_le t.reports.length) calls
  rw [Nat.zero_add] at hpast
  rw [(h.run calls).1, ← hpast, List.mem_map]
  constructor
  · rintro ⟨m, hm, hreply⟩
    have hend : t.reports.length ≤ m := by
      by_contra hlt
      obtain ⟨r, hr⟩ := @reply_report _ _ lexical t m (Nat.lt_of_not_le hlt)
      rw [hr, ← ha, reply_end] at hreply
      cases hvalue : lexical t.value with
      | ok u | error reason =>
        rw [hvalue] at hreply
        cases hreply
    exact Nat.lt_of_le_of_lt hend (lt_place_of_mem hm).2
  · intro hlt
    exact ⟨_, (mem_places_iff (Nat.zero_le _) calls).mpr hlt, ha⟩

/-- Calls that have not come to the end of the stream were answered by reports. -/
theorem Reads.reported (h : Reads t n s) {calls : List Reading}
    (hplace : Session.place t.reports.length calls n ≤ t.reports.length) :
    ∀ a ∈ heard calls s, ∃ r, a = .ok (some r) := by
  intro a ha
  rw [(h.run calls).1] at ha
  obtain ⟨m, hm, rfl⟩ := List.mem_map.mp ha
  exact reply_report (Nat.lt_of_lt_of_le (lt_place_of_mem hm).2 hplace)

/-- The session has all tokens of the stream once the end is reached. -/
theorem Reads.all_tokens (h : Reads t n s) (hn : t.reports.length < n) :
    s.tokens.toList = t.reports.map (·.token) := by
  rw [h.tokens, List.take_of_length_le (Nat.le_of_lt hn)]

end Reading

/-- **The tokens of a session along any calls.**  However ticks are mixed with calls that read all
that is left, the session has the tokens of the reports that were taken from the stream of its text,
which are the first ones of the stream.  If the stream has no error, no call is refused, and once a
call has been answered that reading is over the session has all tokens of the text.  If it has one,
at most one call is refused, for that error: the session then has all tokens of the stream, calls
before that one were answered by reports, and calls behind it change nothing.  The end of the stream
is reached by a call that reads all, or by more ticks than there are tokens. -/
theorem reading_follows_stream (s : Session) (source : String) (name : Name)
    (calls : List Reading) :
    ((after calls (s.beginTokenization source name)).tokens.toList =
        (produced calls (s.beginTokenization source name)).map (·.token) ∧
      produced calls (s.beginTokenization source name) <+: (stream source).reports) ∧
    ((stream source).value = .ok () →
      (∀ reason, .error reason ∉ heard calls (s.beginTokenization source name)) ∧
      (.ok none ∈ heard calls (s.beginTokenization source name) ↔
        .finish ∈ calls ∨ (stream source).reports.length < calls.length) ∧
      (.ok none ∈ heard calls (s.beginTokenization source name) →
        Token.all (Source.normalize source.toList) =
          .ok (after calls (s.beginTokenization source name)).tokens.toList)) ∧
    ∀ e, (stream source).value = .error e →
      (.error (.compile (.error e)) ∈ heard calls (s.beginTokenization source name) ↔
        .finish ∈ calls ∨ (stream source).reports.length < calls.length) ∧
      ∀ (earlier : List Reading) (call : Reading) (later : List Reading) reason s',
        call.perform (after earlier (s.beginTokenization source name)) = (.error reason, s') →
        reason = .compile (.error e) ∧
        (∀ a ∈ heard earlier (s.beginTokenization source name), ∃ r, a = .ok (some r)) ∧
        s'.tokens.toList = (stream source).reports.map (·.token) ∧
        (∀ a ∈ heard later s', a = .ok none) ∧ after later s' = s' := by
  have hbegin := reads_begin s source name
  obtain ⟨hheard, hproduced, hrun⟩ := hbegin.run calls
  have hproduced : produced calls (s.beginTokenization source name) =
      (stream source).reports.take (place (stream source).reports.length calls 0) := hproduced
  have hend := @reply_end _ _ lexical (stream source)
  refine ⟨⟨?_, ?_⟩, fun hvalue => ?_, fun e hvalue => ?_⟩
  · rw [hrun.tokens, hproduced]
  · rw [hproduced]
    exact List.take_prefix _ _
  · rw [hvalue] at hend
    have hended := hbegin.ended_iff calls hend
    refine ⟨fun reason hmem => ?_, hended, fun hmem => ?_⟩
    · rw [hheard] at hmem
      obtain ⟨m, -, hm⟩ := List.mem_map.mp hmem
      have hrefused := (reply_refused hm).2
      rw [hvalue] at hrefused
      cases hrefused
    · have hpast := (lt_place_iff (Nat.zero_le _) calls).mpr
        (by rw [Nat.zero_add]; exact hended.mp hmem)
      exact Token.all_eq_ok.mpr ⟨hvalue, (hrun.all_tokens hpast).symm⟩
  · rw [hvalue] at hend
    refine ⟨hbegin.ended_iff calls hend, fun earlier call later reason s' hcall => ?_⟩
    obtain ⟨-, -, hearlier⟩ := hbegin.run earlier
    obtain ⟨hanswer, -, hnext⟩ := hearlier.perform call
    rw [hcall] at hanswer hnext
    obtain ⟨hlast, hverdict⟩ := reply_refused hanswer.symm
    have hpast : (stream source).reports.length < call.last (stream source).reports.length
        (place (stream source).reports.length earlier 0) + 1 := by omega
    have hbefore : place (stream source).reports.length earlier 0 ≤
        (stream source).reports.length := (le_last call).trans_eq hlast
    rw [hvalue] at hverdict
    cases hverdict
    exact ⟨rfl, hbegin.reported hbefore, hnext.all_tokens hpast,
      calls_over (hnext.place.over hpast) later⟩

/-- A text whose second token is none: the first is read by a tick, and the call that reads the rest
is refused; calls behind it change nothing. -/
theorem reading_follows_stream_dollar : ∃ e s',
    (stream "x $").value = .error e ∧
    Reading.finish.perform (after [.tick] (fresh.beginTokenization "x $" (some ""))) =
      (.error (.compile (.error e)), s') ∧
    s'.tokens.toList = (stream "x $").reports.map (·.token) ∧
    (stream "x $").reports.length = 1 ∧
    (∀ a ∈ heard [.finish, .tick] s', a = .ok none) ∧ after [.finish, .tick] s' = s' := by
  obtain ⟨e, he⟩ := (isOk_spec (stream "x $").value).2 (by decide +kernel)
  obtain ⟨reason, hreason⟩ := (isOk_spec (Reading.finish.perform
    (after [.tick] (fresh.beginTokenization "x $" (some "")))).1).2 (by decide +kernel)
  have hcall : Reading.finish.perform (after [.tick] (fresh.beginTokenization "x $" (some ""))) =
      (.error reason, _) := Prod.ext hreason rfl
  obtain ⟨-, -, herror⟩ := reading_follows_stream fresh "x $" (some "") [.tick, .finish]
  obtain ⟨rfl, -, htokens, hlater⟩ := (herror e he).2 [.tick] .finish [.finish, .tick] _ _ hcall
  exact ⟨e, _, he, hcall, htokens, by decide +kernel, hlater⟩

end Session

end Slang
