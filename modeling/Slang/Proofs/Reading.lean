import Slang.Grammar.Program

/-!
# Reasoning about readers

A reader is judged by what it ends in; what it reports on the way is left aside.

* `Ends r s Q E` — from `s` the reader `r` ends with a value and a state for which `Q` holds, or
  stops for a reason for which `E` holds.  `ends_bind` and its companions compute it.
* `Moved s ts s'` — from `s` to `s'` exactly the tokens `ts` were consumed.
* `Reads r s P` — whatever `r` consumes on success satisfies `P`, and it runs out of tokens only if
  no end of the input is ahead.  This is the logic of soundness.
* `Accepts r s ts P short` — `r` succeeds and consumes exactly `ts`, or it is nested too deeply and
  `short` says why.  This is the logic of completeness.

Principal results: `Reads.bind`, `Accepts.bind`, and for every primitive one lemma in each logic.
-/

set_option autoImplicit false

namespace Slang.Grammar

variable {α β : Type} {s s' s'' : State}

/-- What a reader ends in. -/
def outcome (r : Reader α) (s : State) : Except Stop (α × State) := (r.run s).run.value

/-- A reader that succeeds does so as `Q` says, and one that stops does so as `E` says. -/
def Ends (r : Reader α) (s : State) (Q : α → State → Prop) (E : Stop → Prop) : Prop :=
  match outcome r s with
  | .ok (a, s') => Q a s'
  | .error stop => E stop

theorem outcome_bind (r : Reader α) (f : α → Reader β) (s : State) :
    outcome (r >>= f) s =
      match outcome r s with
      | .ok (a, s') => outcome (f a) s'
      | .error stop => .error stop := by
  show Trace.value (_ >>= _) = _
  rw [Trace.value_bind]
  show Trace.value (ExceptT.bindCont _ (outcome r s)) = _
  rcases outcome r s with stop | ⟨a, s'⟩ <;> rfl

section Ends

variable {r : Reader α} {Q Q' : α → State → Prop} {E E' : Stop → Prop}

theorem Ends.mono (h : Ends r s Q E) (hQ : ∀ a s', Q a s' → Q' a s')
    (hE : ∀ stop, E stop → E' stop) : Ends r s Q' E' := by
  unfold Ends at h ⊢
  split at h
  · exact hQ _ _ h
  · exact hE _ h

theorem Ends.of_ok {a : α} (h : outcome r s = .ok (a, s')) (hr : Ends r s Q E) : Q a s' := by
  unfold Ends at hr
  rw [h] at hr
  exact hr

theorem Ends.of_error {stop : Stop} (h : outcome r s = .error stop) (hr : Ends r s Q E) :
    E stop := by
  unfold Ends at hr
  rw [h] at hr
  exact hr

theorem ends_pure (a : α) : Ends (pure a) s Q E ↔ Q a s := Iff.rfl

theorem ends_throw (stop : Stop) : Ends (throw stop : Reader α) s Q E ↔ E stop := Iff.rfl

theorem ends_fail (cause : CompileError.Cause) (pos : Int) :
    Ends (fail cause pos : Reader α) s Q E ↔ E (.error ⟨cause, pos⟩) := Iff.rfl

theorem ends_get {Q : State → State → Prop} : Ends get s Q E ↔ Q s s := Iff.rfl

theorem ends_modify {Q : Unit → State → Prop} (f : State → State) :
    Ends (modify f) s Q E ↔ Q () (f s) := Iff.rfl

theorem ends_tell {Q : Unit → State → Prop} (report : ParseReport) :
    Ends (tell report) s Q E ↔ Q () s := Iff.rfl

/-- Sequencing: the second reader has to end well wherever the first one succeeds. -/
theorem ends_bind (r : Reader α) (f : α → Reader β) {Q : β → State → Prop} :
    Ends (r >>= f) s Q E ↔ Ends r s (fun a s' => Ends (f a) s' Q E) E := by
  unfold Ends
  rw [outcome_bind]
  rcases outcome r s with stop | ⟨a, s'⟩ <;> rfl

theorem ends_current {Q : Token → State → Prop} :
    Ends current s Q E ↔
      (s.rest = [] → E .outOfTokens) ∧ ∀ t rest, s.rest = t :: rest → Q t s := by
  unfold current
  rw [ends_bind, ends_get]
  split
  · rename_i t rest h
    simp [ends_pure, h]
  · rename_i h
    simp [ends_throw, h]

theorem ends_report (message : String) (event : Option TreeEvent) {Q : Unit → State → Prop} :
    Ends (report message event) s Q E ↔
      (s.rest = [] → E .outOfTokens) ∧ ∀ t rest, s.rest = t :: rest → Q () s := by
  unfold report
  rw [ends_bind, ends_current]
  simp only [ends_bind, ends_get, ends_tell]

theorem ends_advance (message : String) {Q : Token → State → Prop} :
    Ends (advance message) s Q E ↔
      (s.rest = [] → E .outOfTokens) ∧ ∀ t rest, s.rest = t :: rest → Q t (step s) := by
  unfold advance
  simp only [ends_bind, ends_current, ends_report, ends_modify, ends_pure]
  constructor
  · rintro ⟨hn, hc⟩
    exact ⟨hn, fun t rest h => (hc t rest h).2 t rest h⟩
  · rintro ⟨hn, hc⟩
    exact ⟨hn, fun t rest h => ⟨hn, fun _ _ _ => hc t rest h⟩⟩

theorem ends_expect (kinds : List Token.Kind) {Q : Token → State → Prop} :
    Ends (expect kinds) s Q E ↔
      (s.rest = [] → E .outOfTokens) ∧ ∀ t rest, s.rest = t :: rest →
        (t.kind ∈ kinds → Q t (step s)) ∧
        (t.kind ∉ kinds → E (.error ⟨.expected kinds t.lexeme, t.pos⟩)) := by
  unfold expect reject
  rw [ends_bind, ends_current]
  refine and_congr_right fun _ => forall_congr' fun t => forall_congr' fun rest =>
    imp_congr_right fun h => ?_
  by_cases hk : t.kind ∈ kinds
  · simp [hk, ends_advance, h]
  · simp [hk, ends_bind, ends_report, ends_fail, h]

theorem ends_accept (pick : Token.Kind → Option β) {Q : Option (β × Token) → State → Prop} :
    Ends (accept pick) s Q E ↔
      (s.rest = [] → E .outOfTokens) ∧ ∀ t rest, s.rest = t :: rest →
        (∀ b, pick t.kind = some b → Q (some (b, t)) (step s)) ∧
        (pick t.kind = none → Q none s) := by
  unfold accept
  rw [ends_bind, ends_current]
  refine and_congr_right fun _ => forall_congr' fun t => forall_congr' fun rest =>
    imp_congr_right fun h => ?_
  cases hp : pick t.kind with
  | none => simp [ends_pure]
  | some b =>
    simp only [ends_bind, ends_advance, ends_pure, h]
    simp

end Ends

/-! ## Consumed tokens -/

/-- Exactly the tokens `ts` were consumed, none of them the end of the input. -/
structure Moved (s : State) (ts : List Token) (s' : State) : Prop where
  rest : s.rest = ts ++ s'.rest
  index : s'.index = s.index + ts.length
  inside : ∀ t ∈ ts, t.kind ≠ .endOfInput

theorem Moved.refl (s : State) : Moved s [] s := ⟨rfl, rfl, by simp⟩

theorem Moved.of_eq (hr : s'.rest = s.rest) (hi : s'.index = s.index) : Moved s [] s' :=
  ⟨by rw [hr, List.nil_append], hi, by simp⟩

theorem Moved.trans {ts us : List Token} (h : Moved s ts s') (h' : Moved s' us s'') :
    Moved s (ts ++ us) s'' := by
  refine ⟨?_, ?_, ?_⟩
  · rw [h.rest, h'.rest, List.append_assoc]
  · rw [h'.index, h.index, List.length_append, Nat.add_assoc]
  · intro t ht
    rcases List.mem_append.mp ht with ht | ht
    · exact h.inside t ht
    · exact h'.inside t ht

/-- What is ahead after the tokens have been consumed. -/
theorem Moved.ahead {ts more : List Token} (h : Moved s ts s') (hs : s.rest = ts ++ more) :
    s'.rest = more := by
  rw [h.rest] at hs
  exact List.append_cancel_left hs

theorem Moved.length_eq {ts : List Token} (h : Moved s ts s') :
    s.rest.length = ts.length + s'.rest.length := by
  rw [h.rest, List.length_append]

/-- One step behind a token that is not the end of the input. -/
theorem moved_step {t : Token} {rest : List Token} (h : s.rest = t :: rest)
    (ht : t.kind ≠ .endOfInput) : Moved s [t] (step s) := by
  have hs : step s = { s with index := s.index + 1, rest } := by
    unfold step
    rw [h]
    exact if_neg ht
  rw [hs]
  exact ⟨h, rfl, by simpa using ht⟩

theorem step_at_end {t : Token} {rest : List Token} (hr : s.rest = t :: rest)
    (ht : t.kind = .endOfInput) : step s = s := by
  unfold step
  rw [hr]
  exact if_pos ht

theorem step_table (s : State) : (step s).table = s.table := by
  unfold step
  split
  · split <;> rfl
  · rfl

/-- The tokens ran out only because no end of the input is ahead. -/
def Starved (s : State) (stop : Stop) : Prop :=
  stop = .outOfTokens → ∀ t ∈ s.rest, t.kind ≠ .endOfInput

theorem Starved.of_nil (h : s.rest = []) (stop : Stop) : Starved s stop := by
  intro _ t ht
  rw [h] at ht
  cases ht

theorem Starved.of_error (e : CompileError) : Starved s (.error e) := by
  intro h
  cases h

theorem Moved.starved {ts : List Token} {stop : Stop} (h : Moved s ts s')
    (hs : Starved s' stop) : Starved s stop := by
  intro he t ht
  rw [h.rest] at ht
  rcases List.mem_append.mp ht with ht | ht
  · exact h.inside t ht
  · exact hs he t ht

/-! ## The logic of soundness -/

/-- On success some tokens were consumed, and `P` relates them to the value and the state. -/
def Reads (r : Reader α) (s : State) (P : List Token → α → State → Prop) : Prop :=
  Ends r s (fun a s' => ∃ ts, Moved s ts s' ∧ P ts a s') (Starved s)

section Reads

variable {r : Reader α} {P P' : List Token → α → State → Prop}

theorem Reads.mono (h : Reads r s P) (hP : ∀ ts a s', Moved s ts s' → P ts a s' → P' ts a s') :
    Reads r s P' :=
  Ends.mono h (fun _ _ ⟨ts, hm, hp⟩ => ⟨ts, hm, hP _ _ _ hm hp⟩) fun _ he => he

/-- On success the outcome is known. -/
theorem Reads.with_outcome (h : Reads r s P) :
    Reads r s fun ts a s' => P ts a s' ∧ outcome r s = .ok (a, s') := by
  unfold Reads Ends at h ⊢
  rcases ho : outcome r s with stop | ⟨a, s'⟩
  · rw [ho] at h
    exact h
  · rw [ho] at h
    obtain ⟨ts, hm, hp⟩ := h
    exact ⟨ts, hm, hp, rfl⟩

theorem Reads.bind {f : α → Reader β} {Q : List Token → β → State → Prop} (h : Reads r s P)
    (hf : ∀ ts a s', Moved s ts s' → P ts a s' →
      Reads (f a) s' fun us b s'' => Q (ts ++ us) b s'') :
    Reads (r >>= f) s Q := by
  unfold Reads
  rw [ends_bind]
  refine Ends.mono h ?_ fun _ he => he
  rintro a s' ⟨ts, hm, hp⟩
  refine Ends.mono (hf ts a s' hm hp) ?_ fun stop hs => hm.starved hs
  rintro b s'' ⟨us, hm', hq⟩
  exact ⟨ts ++ us, hm.trans hm', hq⟩

theorem Reads.pure {a : α} (h : P [] a s) : Reads (pure a) s P :=
  ⟨[], Moved.refl s, h⟩

theorem Reads.throw {e : CompileError} : Reads (throw (.error e) : Reader α) s P :=
  Starved.of_error e

theorem Reads.fail {cause : CompileError.Cause} {pos : Int} : Reads (fail cause pos) s P :=
  Starved.of_error _

theorem Reads.get {P : List Token → State → State → Prop} (h : P [] s s) :
    Reads (MonadState.get : Reader State) s P := ⟨[], Moved.refl s, h⟩

theorem Reads.modify {f : State → State} {P : List Token → Unit → State → Prop}
    (hr : (f s).rest = s.rest) (hi : (f s).index = s.index) (h : P [] () (f s)) :
    Reads (modify f) s P := ⟨[], Moved.of_eq hr hi, h⟩

theorem Reads.set {s' : State} {P : List Token → PUnit → State → Prop} (hr : s'.rest = s.rest)
    (hi : s'.index = s.index) (h : P [] ⟨⟩ s') :
    Reads (MonadStateOf.set s' : Reader PUnit) s P := ⟨[], Moved.of_eq hr hi, h⟩

theorem Reads.current :
    Reads current s fun ts t s' => ts = [] ∧ s' = s ∧ ∃ rest, s.rest = t :: rest := by
  unfold Reads
  rw [ends_current]
  exact ⟨fun h => Starved.of_nil h _, fun t rest h => ⟨[], Moved.refl s, rfl, rfl, rest, h⟩⟩

theorem Reads.report {message : String} {event : Option TreeEvent} :
    Reads (report message event) s fun ts _ s' => ts = [] ∧ s' = s := by
  unfold Reads
  rw [ends_report]
  exact ⟨fun h => Starved.of_nil h _, fun t rest h => ⟨[], Moved.refl s, rfl, rfl⟩⟩

theorem Reads.remaining :
    Reads remaining s fun ts n s' => ts = [] ∧ n = s.rest.length ∧ s' = s :=
  ⟨[], Moved.refl s, rfl, rfl, rfl⟩

theorem Reads.advance {message : String} {t : Token} {rest : List Token} (h : s.rest = t :: rest)
    (ht : t.kind ≠ .endOfInput) :
    Reads (advance message) s fun ts u s' => ts = [t] ∧ u = t ∧ s'.table = s.table := by
  unfold Reads
  rw [ends_advance]
  refine ⟨fun hn => Starved.of_nil hn _, fun u us hu => ?_⟩
  obtain ⟨rfl, rfl⟩ : t = u ∧ rest = us := by simpa [h] using hu
  exact ⟨[t], moved_step h ht, rfl, rfl, step_table s⟩

theorem Reads.expect {kinds : List Token.Kind} (hk : .endOfInput ∉ kinds) :
    Reads (expect kinds) s fun ts t s' => ts = [t] ∧ t.kind ∈ kinds ∧ s'.table = s.table := by
  unfold Reads
  rw [ends_expect]
  refine ⟨fun hn => Starved.of_nil hn _,
    fun t rest h => ⟨fun ht => ?_, fun _ => Starved.of_error _⟩⟩
  exact ⟨[t], moved_step h (fun he => hk (he ▸ ht)), rfl, ht, step_table s⟩

theorem Reads.expectSymbol {x : Symbol} :
    Reads (expectSymbol x) s fun ts t s' => ts = [t] ∧ t.kind = .symbol x ∧ s'.table = s.table :=
  (Reads.expect (by simp)).mono fun _ _ _ _ ⟨h, hk, ht⟩ => ⟨h, by simpa using hk, ht⟩

theorem Reads.expectKeyword {k : Keyword} :
    Reads (expectKeyword k) s fun ts t s' => ts = [t] ∧ t.kind = .keyword k ∧ s'.table = s.table :=
  (Reads.expect (by simp)).mono fun _ _ _ _ ⟨h, hk, ht⟩ => ⟨h, by simpa using hk, ht⟩

theorem Reads.accept {pick : Token.Kind → Option β} (hp : pick .endOfInput = none) :
    Reads (accept pick) s fun ts found s' => s'.table = s.table ∧
      match found with
      | some (b, t) => ts = [t] ∧ pick t.kind = some b
      | none => ts = [] ∧ ∃ t rest, s'.rest = t :: rest ∧ pick t.kind = none := by
  unfold Reads
  rw [ends_accept]
  refine ⟨fun hn => Starved.of_nil hn _, fun t rest h => ⟨fun b hb => ?_, fun hb => ?_⟩⟩
  · have ht : t.kind ≠ .endOfInput := fun he => by rw [he, hp] at hb; cases hb
    exact ⟨[t], moved_step h ht, step_table s, rfl, hb⟩
  · exact ⟨[], Moved.refl s, rfl, rfl, t, rest, h, hb⟩

theorem Reads.acceptSymbol {x : Symbol} :
    Reads (acceptSymbol x) s fun ts found s' => s'.table = s.table ∧
      if found then ∃ t, ts = [t] ∧ t.kind = .symbol x else ts = [] := by
  refine Reads.bind (Reads.accept (by simp)) ?_
  rintro ts (_ | ⟨⟨⟩, t⟩) s' _ ⟨ht, hf⟩
  · exact Reads.pure ⟨ht, by simpa using hf.1⟩
  · refine Reads.pure ⟨ht, t, by simpa using hf.1, ?_⟩
    simpa using hf.2

end Reads

/-! ## The logic of completeness -/

/-- The text is nested more deeply than the reader can follow. -/
def Stop.tooDeep : Stop → Prop
  | .error e => e.cause = .tooDeep
  | .outOfTokens => False

/-- The reader succeeds on exactly the tokens `ts`, or it lacks frames, as `short` admits. -/
def Accepts (r : Reader α) (s : State) (ts : List Token) (P : α → State → Prop) (short : Prop) :
    Prop :=
  Ends r s (fun a s' => Moved s ts s' ∧ P a s') fun stop => stop.tooDeep ∧ short

section Accepts

variable {r : Reader α} {P P' : α → State → Prop} {short short' : Prop} {ts : List Token}

theorem Accepts.mono (h : Accepts r s ts P short) (hP : ∀ a s', Moved s ts s' → P a s' → P' a s')
    (hs : short → short') : Accepts r s ts P' short' :=
  Ends.mono h (fun _ _ ⟨hm, hp⟩ => ⟨hm, hP _ _ hm hp⟩) fun _ ⟨hd, h⟩ => ⟨hd, hs h⟩

theorem Accepts.bind {f : α → Reader β} {Q : β → State → Prop} (h : Accepts r s ts P short)
    (us : List Token) (hf : ∀ a s', Moved s ts s' → P a s' → Accepts (f a) s' us Q short) :
    Accepts (r >>= f) s (ts ++ us) Q short := by
  unfold Accepts
  rw [ends_bind]
  refine Ends.mono h ?_ fun _ he => he
  rintro a s' ⟨hm, hp⟩
  refine Ends.mono (hf a s' hm hp) ?_ fun _ he => he
  rintro b s'' ⟨hm', hq⟩
  exact ⟨hm.trans hm', hq⟩

/-- Sequencing with a reader that consumes nothing more. -/
theorem Accepts.bind_nil {f : α → Reader β} {Q : β → State → Prop} (h : Accepts r s ts P short)
    (hf : ∀ a s', Moved s ts s' → P a s' → Accepts (f a) s' [] Q short) :
    Accepts (r >>= f) s ts Q short := by
  simpa using h.bind [] hf

theorem Accepts.pure {a : α} (h : P a s) : Accepts (pure a) s [] P short := ⟨Moved.refl s, h⟩

theorem Accepts.get {P : State → State → Prop} (h : P s s) :
    Accepts (MonadState.get : Reader State) s [] P short := ⟨Moved.refl s, h⟩

theorem Accepts.modify {f : State → State} {P : Unit → State → Prop} (hr : (f s).rest = s.rest)
    (hi : (f s).index = s.index) (h : P () (f s)) : Accepts (modify f) s [] P short :=
  ⟨Moved.of_eq hr hi, h⟩

theorem Accepts.set {s' : State} {P : PUnit → State → Prop} (hr : s'.rest = s.rest)
    (hi : s'.index = s.index) (h : P ⟨⟩ s') :
    Accepts (MonadStateOf.set s' : Reader PUnit) s [] P short := ⟨Moved.of_eq hr hi, h⟩

variable {t : Token} {rest : List Token}

/-- Without frames every reader gives up, as long as there is a token to give up at. -/
theorem Accepts.tooDeep (h : s.rest = t :: rest) (hs : short) :
    Accepts (Grammar.tooDeep : Reader α) s ts P short := by
  unfold Accepts Grammar.tooDeep
  rw [ends_bind, ends_current]
  refine ⟨fun hn => ?_, fun u us hu => ⟨rfl, hs⟩⟩
  rw [h] at hn
  cases hn

theorem Accepts.remaining :
    Accepts remaining s [] (fun n s' => n = s.rest.length ∧ s' = s) short :=
  ⟨Moved.refl s, rfl, rfl⟩

theorem Accepts.current (h : s.rest = t :: rest) :
    Accepts current s [] (fun u s' => u = t ∧ s' = s) short := by
  unfold Accepts
  rw [ends_current, h]
  refine ⟨fun hn => (by cases hn), fun u us hu => ⟨Moved.refl s, ?_, rfl⟩⟩
  cases hu
  rfl

/-- Looking at the current token costs nothing. -/
theorem Accepts.look {f : Token → Reader α} (h : s.rest = t :: rest)
    (hf : Accepts (f t) s ts P short) : Accepts (Grammar.current >>= f) s ts P short := by
  refine (Accepts.current h).bind ts ?_
  rintro u s' _ ⟨rfl, rfl⟩
  exact hf

theorem Accepts.advance {message : String} (h : s.rest = t :: rest) (ht : t.kind ≠ .endOfInput) :
    Accepts (advance message) s [t] (fun u s' => u = t ∧ s'.table = s.table) short := by
  unfold Accepts
  rw [ends_advance]
  refine ⟨fun hn => ?_, fun u us hu => ?_⟩
  · rw [h] at hn
    cases hn
  · obtain ⟨rfl, rfl⟩ : t = u ∧ rest = us := by simpa [h] using hu
    exact ⟨moved_step h ht, rfl, step_table s⟩

theorem Accepts.expect {kinds : List Token.Kind} (h : s.rest = t :: rest) (hk : t.kind ∈ kinds)
    (ht : t.kind ≠ .endOfInput) :
    Accepts (expect kinds) s [t] (fun u s' => u = t ∧ s'.table = s.table) short := by
  unfold Accepts
  rw [ends_expect]
  refine ⟨fun hn => ?_, fun u us hu => ?_⟩
  · rw [h] at hn
    cases hn
  · obtain ⟨rfl, rfl⟩ : t = u ∧ rest = us := by simpa [h] using hu
    exact ⟨fun _ => ⟨moved_step h ht, rfl, step_table s⟩, fun hn => absurd hk hn⟩

theorem Accepts.expectSymbol {x : Symbol} (h : s.rest = t :: rest) (hk : t.kind = .symbol x) :
    Accepts (expectSymbol x) s [t] (fun u s' => u = t ∧ s'.table = s.table) short :=
  Accepts.expect h (by simp [hk]) (by simp [hk])

theorem Accepts.expectKeyword {k : Keyword} (h : s.rest = t :: rest) (hk : t.kind = .keyword k) :
    Accepts (expectKeyword k) s [t] (fun u s' => u = t ∧ s'.table = s.table) short :=
  Accepts.expect h (by simp [hk]) (by simp [hk])

theorem Accepts.accept_some {pick : Token.Kind → Option β} {b : β} (h : s.rest = t :: rest)
    (hb : pick t.kind = some b) (ht : t.kind ≠ .endOfInput) :
    Accepts (accept pick) s [t] (fun found s' => found = some (b, t) ∧ s'.table = s.table)
      short := by
  unfold Accepts
  rw [ends_accept]
  refine ⟨fun hn => ?_, fun u us hu => ?_⟩
  · rw [h] at hn
    cases hn
  · obtain ⟨rfl, rfl⟩ : t = u ∧ rest = us := by simpa [h] using hu
    refine ⟨fun c hc => ?_, fun hn => by rw [hb] at hn; cases hn⟩
    rw [hb] at hc
    cases hc
    exact ⟨moved_step h ht, rfl, step_table s⟩

theorem Accepts.accept_none {pick : Token.Kind → Option β} (h : s.rest = t :: rest)
    (hb : pick t.kind = none) :
    Accepts (accept pick) s [] (fun found s' => found = none ∧ s' = s) short := by
  unfold Accepts
  rw [ends_accept]
  refine ⟨fun hn => ?_, fun u us hu => ?_⟩
  · rw [h] at hn
    cases hn
  · obtain ⟨rfl, rfl⟩ : t = u ∧ rest = us := by simpa [h] using hu
    exact ⟨fun c hc => (by rw [hb] at hc; cases hc), fun _ => ⟨Moved.refl s, rfl, rfl⟩⟩

theorem Accepts.acceptSymbol_true {x : Symbol} (h : s.rest = t :: rest) (hk : t.kind = .symbol x) :
    Accepts (acceptSymbol x) s [t] (fun found s' => found = true ∧ s'.table = s.table) short := by
  have hp : (if t.kind = .symbol x then some () else none) = some () := by simp [hk]
  refine Accepts.bind_nil (Accepts.accept_some h hp (by simp [hk])) ?_
  rintro found s' _ ⟨rfl, ht⟩
  exact Accepts.pure ⟨rfl, ht⟩

theorem Accepts.acceptSymbol_false {x : Symbol} (h : s.rest = t :: rest)
    (hk : t.kind ≠ .symbol x) :
    Accepts (acceptSymbol x) s [] (fun found s' => found = false ∧ s' = s) short := by
  refine Accepts.bind_nil (Accepts.accept_none h (by simp [hk])) ?_
  rintro found s' _ ⟨rfl, rfl⟩
  exact Accepts.pure ⟨rfl, rfl⟩

end Accepts

/-! ## Tree events -/

/-- Tokens and names are left alone, and only a missing token stops the reader. -/
def Still (r : Reader α) : Prop :=
  ∀ s, Ends r s (fun _ s' => s'.rest = s.rest ∧ s'.index = s.index ∧ s'.table = s.table)
    fun _ => s.rest = []

section Still

variable {r : Reader α}

theorem Still.reads (h : Still r) : Reads r s fun ts _ s' => ts = [] ∧ s'.table = s.table :=
  Ends.mono (h s) (fun _ _ ⟨hr, hi, ht⟩ => ⟨[], Moved.of_eq hr hi, rfl, ht⟩)
    fun stop hn => Starved.of_nil hn stop

theorem Still.accepts {t : Token} {rest : List Token} {short : Prop} (h : Still r)
    (hs : s.rest = t :: rest) : Accepts r s [] (fun _ s' => s'.table = s.table) short :=
  Ends.mono (h s) (fun _ _ ⟨hr, hi, ht⟩ => ⟨Moved.of_eq hr hi, ht⟩) fun _ hn => by
    rw [hs] at hn
    cases hn

/-- Whatever is read behind a tree event is read from the same tokens. -/
theorem Still.reads_bind {f : α → Reader β} {Q : List Token → β → State → Prop} (h : Still r)
    (hf : ∀ a s', s'.rest = s.rest → s'.table = s.table → Reads (f a) s' Q) :
    Reads (r >>= f) s Q := by
  refine Reads.bind h.reads ?_
  rintro ts a s' hm ⟨rfl, ht⟩
  exact hf a s' hm.rest.symm ht

theorem Still.accepts_bind {f : α → Reader β} {ts : List Token} {Q : β → State → Prop}
    {short : Prop} (h : Still r) (hs : s.rest ≠ [])
    (hf : ∀ a s', s'.rest = s.rest → s'.table = s.table → Accepts (f a) s' ts Q short) :
    Accepts (r >>= f) s ts Q short := by
  obtain ⟨t, rest, hs⟩ := List.exists_cons_of_ne_nil hs
  refine (h.accepts hs).bind ts ?_
  rintro a s' hm ht
  exact hf a s' hm.rest.symm ht

theorem Still.bind {f : α → Reader β} (h : Still r) (hf : ∀ a, Still (f a)) :
    Still (r >>= f) := by
  intro s
  rw [ends_bind]
  refine Ends.mono (h s) ?_ fun _ hn => hn
  rintro a s' ⟨hr, hi, ht⟩
  refine Ends.mono (hf a s') ?_ fun _ hn => by rw [← hr, hn]
  rintro b s'' ⟨hr', hi', ht'⟩
  exact ⟨hr'.trans hr, hi'.trans hi, ht'.trans ht⟩

theorem still_pure (a : α) : Still (pure a) := fun _ => ⟨rfl, rfl, rfl⟩

theorem still_report (message : String) (event : Option TreeEvent) :
    Still (report message event) := by
  intro s
  rw [ends_report]
  exact ⟨fun hn => hn, fun _ _ _ => ⟨rfl, rfl, rfl⟩⟩

theorem still_freshId : Still freshId := fun _ => ⟨rfl, rfl, rfl⟩

theorem still_begin (label : String) : Still (begin label) :=
  Still.bind (fun _ => ⟨rfl, rfl, rfl⟩) fun _ => still_freshId.bind fun _ =>
    (still_report _ _).bind fun _ => Still.bind (fun _ => ⟨rfl, rfl, rfl⟩) fun _ => still_pure _

theorem still_finish (id : Nat) : Still (finish id) :=
  Still.bind (fun _ => ⟨rfl, rfl, rfl⟩) fun _ => still_report _ _

theorem still_addLeaf (parent : Nat) (label : String) : Still (addLeaf parent label) :=
  still_freshId.bind fun _ => still_report _ _

theorem still_relabel (id : Nat) (label : String) : Still (relabel id label) := still_report _ _

mutual

theorem still_announce (parent : Nat) : (o : Outline) → Still (announce parent o)
  | .node _ label mark _ children => by
    unfold announce
    refine (still_report _ _).bind fun _ => (still_announceAll _ children).bind fun _ => ?_
    split
    · exact still_report _ _
    · exact still_pure ()

theorem still_announceAll (parent : Nat) : (os : List Outline) → Still (announceAll parent os)
  | [] => still_pure ()
  | o :: rest => (still_announce parent o).bind fun _ => still_announceAll parent rest

end

end Still

end Slang.Grammar
