import Slang.Proofs.Acceptance
import Slang.Proofs.Disciplines
import Slang.Proofs.TwinReading

/-!
# The parser moves forward

The reports of the parser say where it stands, so its way through the tokens can be read off them.

* `reportsOf r s` — everything that a reader reports, whether it succeeds or stops.
* `ParseReport.From p s` — the report is about a token ahead of `s`, with no end of the input before
  it.
* `cursorAfter` — where a reader stands after its reports: behind the last token that it consumed.
* `Forward V r` — the reports come in the order of the tokens, success leaves the reader where its
  reports say, and a token that is not one of those that may follow is reported.
* `forward` — this is a discipline.

Principal result: `parse_inside_tokens` — the parser ends in a program or in a compile error, never
moves back, never passes the end of the input, and takes a token for each operand, each expression
and each statement.
-/

set_option autoImplicit false

namespace Slang

open Grammar

variable {frames : Nat}

/-! ## Places in the token list -/

namespace ParseReport

variable {s s' : State} {p : ParseReport}

/-- The report is about a token ahead, and no end of the input comes before it. -/
def From (p : ParseReport) (s : State) : Prop :=
  ∃ ts s' rest, Moved s ts s' ∧ s'.rest = p.token :: rest ∧ p.index = s'.index

theorem From.moved {ts : List Token} (h : p.From s') (hm : Moved s ts s') : p.From s := by
  obtain ⟨us, s'', rest, hm', hr, hi⟩ := h
  exact ⟨ts ++ us, s'', rest, hm.trans hm', hr, hi⟩

theorem From.le (h : p.From s) : s.index ≤ p.index := by
  obtain ⟨ts, s', rest, hm, -, hi⟩ := h
  rw [hi, hm.index]
  exact Nat.le_add_right _ _

/-- A report on a list of tokens names the token at its index, and no end of the input comes before
it. -/
theorem From.token {tokens : List Token} (h : p.From (.start tokens)) :
    tokens[p.index]? = some p.token ∧
      ∀ (i : Nat) (t : Token), tokens[i]? = some t → t.kind = .endOfInput → p.index ≤ i := by
  obtain ⟨ts, s', rest, hm, hr, hi⟩ := h
  have hsplit : tokens = ts ++ p.token :: rest := hr ▸ hm.rest
  have hindex : p.index = ts.length := by rw [hi, hm.index]; exact Nat.zero_add _
  subst hsplit
  refine ⟨by simp [hindex], fun i t ht hend => ?_⟩
  refine Nat.le_of_not_lt fun hlt => ?_
  rw [List.getElem?_append_left (by omega)] at ht
  exact hm.inside t (List.mem_of_getElem? ht) hend

/-- A report without an event is that of a token that is consumed; the end of the input stays. -/
def consumes (p : ParseReport) : Bool := p.event.isNone && p.token.kind ≠ .endOfInput

/-- The index of the current token behind a report. -/
def behind (p : ParseReport) : Nat := if p.consumes then p.index + 1 else p.index

theorem le_behind (p : ParseReport) : p.index ≤ p.behind := by
  unfold behind
  split
  · exact Nat.le_succ _
  · exact Nat.le_refl _

end ParseReport

/-- Where a reader stands after its reports, the last of which counts. -/
def cursorAfter (start : Nat) (ps : List ParseReport) : Nat :=
  (ps.getLast?.map ParseReport.behind).getD start

theorem cursorAfter_append (start : Nat) (ps qs : List ParseReport) :
    cursorAfter start (ps ++ qs) = cursorAfter (cursorAfter start ps) qs := by
  rcases List.eq_nil_or_concat qs with rfl | ⟨qs, last, rfl⟩
  · rw [List.append_nil]
    rfl
  · simp [cursorAfter, ← List.append_assoc]

/-- A reader whose reports are in order stands behind all of them. -/
theorem le_cursorAfter {start : Nat} {ps : List ParseReport}
    (h : ps.Pairwise (·.index ≤ ·.index)) : ∀ p ∈ ps, p.index ≤ cursorAfter start ps := by
  intro p hp
  rcases List.eq_nil_or_concat ps with rfl | ⟨before, last, rfl⟩
  · cases hp
  rw [List.concat_eq_append] at h hp ⊢
  have hlast : cursorAfter start (before ++ [last]) = last.behind := by
    simp [cursorAfter]
  rw [hlast]
  rcases List.mem_append.mp hp with hp | hp
  · have hle := (List.pairwise_append.mp h).2.2 p hp last (List.mem_singleton_self last)
    exact Nat.le_trans hle last.le_behind
  · rw [List.mem_singleton.mp hp]
    exact last.le_behind

namespace Grammar

variable {α β : Type} {s s' : State}

/-! ## Reports of a reader -/

/-- Everything that a reader reports. -/
def reportsOf (r : Reader α) (s : State) : List ParseReport := (r.run s).run.reports

/-- The parser stops at a token that is not one of those that may follow. -/
def Stop.rejects : Stop → Bool
  | .error e => e.cause.reported
  | .outOfTokens => false

section Reports

variable {r : Reader α} {f : α → Reader β}

theorem reportsOf_bind_ok {a : α} (h : outcome r s = .ok (a, s')) :
    reportsOf (r >>= f) s = reportsOf r s ++ reportsOf (f a) s' := by
  show Trace.reports (_ >>= _) = _
  rw [Trace.reports_bind]
  show _ ++ Trace.reports (ExceptT.bindCont _ (outcome r s)) = _
  rw [h]
  rfl

theorem reportsOf_bind_error {stop : Stop} (h : outcome r s = .error stop) :
    reportsOf (r >>= f) s = reportsOf r s := by
  show Trace.reports (_ >>= _) = _
  rw [Trace.reports_bind]
  show _ ++ Trace.reports (ExceptT.bindCont _ (outcome r s)) = _
  rw [h]
  exact List.append_nil _

theorem outcome_bind_ok {a : α} (h : outcome r s = .ok (a, s')) :
    outcome (r >>= f) s = outcome (f a) s' := by
  rw [outcome_bind, h]

theorem outcome_bind_error {stop : Stop} (h : outcome r s = .error stop) :
    outcome (r >>= f) s = .error stop := by
  rw [outcome_bind, h]

theorem outcome_reject (cause : CompileError.Cause) (pos : Int) (hs : s.rest ≠ []) :
    outcome (reject cause pos : Reader α) s = .error (.error ⟨cause, pos⟩) := by
  unfold reject
  rw [outcome_bind_ok (outcome_report _ _ hs)]
  rfl

theorem reportsOf_current {t : Token} {rest : List Token} (hs : s.rest = t :: rest) :
    reportsOf current s = [] := by
  obtain ⟨index, _, nextId, parents, table⟩ := s
  cases hs
  rfl

/-- A report is about the current token. -/
theorem reportsOf_report (message : String) (event : Option TreeEvent) {t : Token}
    {rest : List Token} (hs : s.rest = t :: rest) :
    reportsOf (report message event) s = [⟨s.index, t, event, message⟩] := by
  obtain ⟨index, _, nextId, parents, table⟩ := s
  cases hs
  rfl

theorem reportsOf_advance (message : String) {t : Token} {rest : List Token}
    (hs : s.rest = t :: rest) : reportsOf (advance message) s = [⟨s.index, t, none, message⟩] := by
  obtain ⟨index, _, nextId, parents, table⟩ := s
  cases hs
  rfl

theorem reportsOf_reject (cause : CompileError.Cause) (pos : Int) {t : Token} {rest : List Token}
    (hs : s.rest = t :: rest) :
    reportsOf (reject cause pos : Reader α) s = [⟨s.index, t, none, cause.message⟩] := by
  obtain ⟨index, _, nextId, parents, table⟩ := s
  cases hs
  rfl

/-- Where no token is left, the reader stops at once. -/
def NeedsToken (r : Reader α) : Prop :=
  ∀ s, s.rest = [] → outcome r s = .error .outOfTokens ∧ reportsOf r s = []

theorem needsToken_current : NeedsToken current := by
  rintro ⟨index, _, nextId, parents, table⟩ ⟨⟩
  exact ⟨rfl, rfl⟩

theorem needsToken_report (message : String) (event : Option TreeEvent) :
    NeedsToken (report message event) := by
  rintro ⟨index, _, nextId, parents, table⟩ ⟨⟩
  exact ⟨rfl, rfl⟩

theorem needsToken_advance (message : String) : NeedsToken (advance message) := by
  rintro ⟨index, _, nextId, parents, table⟩ ⟨⟩
  exact ⟨rfl, rfl⟩

theorem needsToken_reject (cause : CompileError.Cause) (pos : Int) :
    NeedsToken (reject cause pos : Reader α) := by
  rintro ⟨index, _, nextId, parents, table⟩ ⟨⟩
  exact ⟨rfl, rfl⟩

end Reports

/-- What can be read off the reports of a reader that starts in `s`. -/
structure ForwardFrom (V : α → Prop) (r : Reader α) (s : State) : Prop where
  /-- The reports are about tokens ahead. -/
  ahead : ∀ p ∈ reportsOf r s, p.From s
  /-- They come in the order of the tokens. -/
  ordered : (reportsOf r s).Pairwise (·.index ≤ ·.index)
  /-- A token that may not follow is reported. -/
  announced : ∀ stop, outcome r s = .error stop → stop.rejects = true → reportsOf r s ≠ []
  /-- On success a value of this kind is read, -/
  value : ∀ a s', outcome r s = .ok (a, s') → V a
  /-- the reader has only moved forward, -/
  moved : ∀ a s', outcome r s = .ok (a, s') → ∃ ts, Moved s ts s'
  /-- and it is where its reports say. -/
  cursor : ∀ a s', outcome r s = .ok (a, s') → s'.index = cursorAfter s.index (reportsOf r s)

/-- The reader moves forward, wherever it starts. -/
def Forward (V : α → Prop) (r : Reader α) : Prop := ∀ s, ForwardFrom V r s

section Forward

variable {V : α → Prop} {W : β → Prop} {r : Reader α} {f : α → Reader β}

/-- No report is behind the place where the reader ends. -/
theorem ForwardFrom.le {a : α} (h : ForwardFrom V r s) (ho : outcome r s = .ok (a, s')) :
    ∀ p ∈ reportsOf r s, p.index ≤ s'.index := by
  rw [h.cursor a s' ho]
  exact le_cursorAfter h.ordered

/-- Only what a reader reports and ends in counts. -/
theorem ForwardFrom.of_eq {r' : Reader α} (h : ForwardFrom V r' s)
    (hreports : reportsOf r s = reportsOf r' s) (ho : outcome r s = outcome r' s) :
    ForwardFrom V r s := by
  obtain ⟨hahead, hordered, hannounced, hvalue, hmoved, hcursor⟩ := h
  rw [← hreports] at hahead hordered hannounced hcursor
  rw [← ho] at hannounced hvalue hmoved hcursor
  exact ⟨hahead, hordered, hannounced, hvalue, hmoved, hcursor⟩

theorem ForwardFrom.bind (h : ForwardFrom V r s) (hf : ∀ a, V a → Forward W (f a)) :
    ForwardFrom W (r >>= f) s := by
  rcases ho : outcome r s with stop | ⟨a, s₁⟩
  · have hreports := reportsOf_bind_error (f := f) ho
    have houtcome := outcome_bind_error (f := f) ho
    refine ⟨?_, ?_, ?_, ?_, ?_, ?_⟩
    · rw [hreports]
      exact h.ahead
    · rw [hreports]
      exact h.ordered
    · intro stop' hstop hr
      rw [houtcome] at hstop
      cases hstop
      rw [hreports]
      exact h.announced stop ho hr
    all_goals
      intro b s₂ hb
      rw [houtcome] at hb
      cases hb
  · have hreports := reportsOf_bind_ok (f := f) ho
    have houtcome := outcome_bind_ok (f := f) ho
    obtain ⟨ts, hm⟩ := h.moved a s₁ ho
    have hnext := hf a (h.value a s₁ ho) s₁
    have hahead : ∀ q ∈ reportsOf (f a) s₁, q.From s := fun q hq => (hnext.ahead q hq).moved hm
    refine ⟨?_, ?_, ?_, ?_, ?_, ?_⟩
    · rw [hreports]
      exact List.forall_mem_append.mpr ⟨h.ahead, hahead⟩
    · rw [hreports]
      refine List.pairwise_append.mpr ⟨h.ordered, hnext.ordered, fun p hp q hq => ?_⟩
      exact Nat.le_trans (h.le ho p hp) (hnext.ahead q hq).le
    · intro stop hstop hr
      rw [houtcome] at hstop
      rw [hreports]
      exact fun hnil => hnext.announced stop hstop hr (List.append_eq_nil_iff.mp hnil).2
    · rw [houtcome]
      exact hnext.value
    · intro b s₂ hb
      rw [houtcome] at hb
      obtain ⟨us, hm'⟩ := hnext.moved b s₂ hb
      exact ⟨ts ++ us, hm.trans hm'⟩
    · intro b s₂ hb
      rw [houtcome] at hb
      rw [hreports, cursorAfter_append, ← h.cursor a s₁ ho]
      exact hnext.cursor b s₂ hb

/-- A reader that neither reports nor moves, but succeeds. -/
theorem forward_of_silent {a : α} (ho : outcome r s = .ok (a, s')) (hreports : reportsOf r s = [])
    (hrest : s'.rest = s.rest) (hindex : s'.index = s.index) (ha : V a) : ForwardFrom V r s := by
  have hok : ∀ b s'', outcome r s = .ok (b, s'') → b = a ∧ s'' = s' := by
    intro b s'' hb
    rw [ho] at hb
    cases hb
    exact ⟨rfl, rfl⟩
  refine ⟨by simp [hreports], by simp [hreports], by simp [ho], ?_, ?_, ?_⟩
  · intro b s'' hb
    rwa [(hok b s'' hb).1]
  · intro b s'' hb
    rw [(hok b s'' hb).2]
    exact ⟨[], Moved.of_eq hrest hindex⟩
  · intro b s'' hb
    rw [(hok b s'' hb).2, hreports]
    exact hindex

/-- A reader that stops without a report. -/
theorem forward_of_stop {stop : Stop} (ho : outcome r s = .error stop)
    (hreports : reportsOf r s = []) (hstop : stop.rejects = false) : ForwardFrom V r s := by
  refine ⟨by simp [hreports], by simp [hreports], by simp [ho, hstop], ?_, ?_, ?_⟩
  all_goals
    intro b s' hb
    rw [ho] at hb
    cases hb

theorem forward_pure {a : α} (ha : V a) : Forward V (pure a) :=
  fun _ => forward_of_silent rfl rfl rfl rfl ha

/-- A reader that needs a token may count on one. -/
theorem NeedsToken.forward (hr : NeedsToken r)
    (h : ∀ s t rest, s.rest = t :: rest → ForwardFrom V r s) : Forward V r := by
  intro s
  cases hs : s.rest with
  | nil => exact forward_of_stop (hr s hs).1 (hr s hs).2 rfl
  | cons t rest => exact h s t rest hs

theorem forward_current : Forward (fun _ => True) current := by
  refine needsToken_current.forward fun s t rest hs => ?_
  exact forward_of_silent (outcome_current hs) (reportsOf_current hs) rfl rfl trivial

/-- A reader with one report, about the current token. -/
theorem forward_of_report {p : ParseReport} {rest : List Token} (hs : s.rest = p.token :: rest)
    (hindex : p.index = s.index) (hreports : reportsOf r s = [p])
    (hok : ∀ a s', outcome r s = .ok (a, s') → V a ∧ (∃ ts, Moved s ts s') ∧ s'.index = p.behind) :
    ForwardFrom V r s := by
  refine ⟨?_, by simp [hreports], by simp [hreports], fun a s' ho => (hok a s' ho).1,
    fun a s' ho => (hok a s' ho).2.1, fun a s' ho => ?_⟩
  · rw [hreports]
    exact List.forall_mem_singleton.mpr ⟨[], s, rest, Moved.refl s, hs, hindex⟩
  · rw [hreports]
    exact (hok a s' ho).2.2

/-- A tree event leaves the reader where it is. -/
theorem forward_report (message : String) (event : TreeEvent) :
    Forward (fun _ => True) (report message (some event)) := by
  refine (needsToken_report _ _).forward fun s t rest hs => ?_
  refine forward_of_report hs rfl (reportsOf_report _ _ hs) fun a s' ho => ?_
  rw [outcome_report _ _ (hs ▸ List.cons_ne_nil t rest)] at ho
  cases ho
  exact ⟨trivial, ⟨[], Moved.refl s⟩, rfl⟩

/-- A token that is consumed is reported before. -/
theorem forward_advance (message : String) : Forward (fun _ => True) (advance message) := by
  refine (needsToken_advance _).forward fun s t rest hs => ?_
  refine forward_of_report hs rfl (reportsOf_advance _ hs) fun a s' ho => ?_
  refine ⟨trivial, (Ends.of_ok ho (takes_advance message s)).imp fun _ h => h.1, ?_⟩
  rw [outcome_advance message hs] at ho
  cases ho
  by_cases hend : t.kind = .endOfInput
  · rw [step_at_end hs hend]
    simp [ParseReport.behind, ParseReport.consumes, hend]
  · rw [(moved_step hs hend).index]
    simp [ParseReport.behind, ParseReport.consumes, hend]

/-- A cause that is reported, and the stop behind the report. -/
theorem forward_reject (cause : CompileError.Cause) (pos : Int) :
    Forward V (reject cause pos : Reader α) := by
  refine (needsToken_reject _ _).forward fun s t rest hs => ?_
  refine forward_of_report hs rfl (reportsOf_reject _ _ hs) fun a s' ho => ?_
  rw [outcome_reject _ _ (hs ▸ List.cons_ne_nil t rest)] at ho
  cases ho

end Forward

/-- **Moving forward is a discipline.** -/
def forward : Discipline := StepDiscipline.withLoops
  { seen := fun _ => True
    holds := Forward
    returns := forward_pure
    sequences := fun h hf s => (h s).bind hf
    looks := forward_current
    consumes := forward_advance
    reports := forward_report
    starves := fun _ => forward_of_stop rfl rfl rfl
    stops := fun _ _ hc _ => forward_of_stop rfl rfl hc
    rejects := fun _ _ _ => forward_reject _ _
    inspects := fun _ h s => (h s s).of_eq rfl rfl
    changes := fun _ _ => forward_of_silent rfl rfl rfl rfl trivial }
  fun h s => (h s.rest.length s).of_eq rfl rfl

/-! ## The whole parser -/

theorem index_lt_of_takes {r : Reader α} {a : α} (h : Takes 1 r) (ho : outcome r s = .ok (a, s')) :
    s.index < s'.index := by
  obtain ⟨ts, hm, hts⟩ := Ends.of_ok ho (h s)
  rw [hm.index]
  exact Nat.lt_add_of_pos_right hts

/-- The reports of the parser are those of its main reader. -/
theorem parse_reports (tokens : List Token) (prototypes : List Prototype) :
    (Program.parse frames tokens prototypes).reports =
      reportsOf (program (registered prototypes) frames) (.start tokens) := by
  unfold Program.parse
  rw [map_eq_pure_bind, Trace.reports_bind]
  exact List.append_nil _

/-- Where an end of the input is ahead, the parser finds a program or an error. -/
theorem ofTokens_settled {tokens : List Token} (prototypes : List Prototype)
    (h : ∃ t ∈ tokens, t.kind = .endOfInput) :
    (∃ program, Program.ofTokens frames tokens prototypes = .ok program) ∨
      ∃ e, Program.ofTokens frames tokens prototypes = .error (.error e) := by
  obtain ⟨t, ht, hend⟩ := h
  rw [ofTokens_eq]
  rcases ho : outcome (program (registered prototypes) frames) (.start tokens)
    with stop | ⟨prog, s'⟩
  · cases stop with
    | error e => exact .inr ⟨e, rfl⟩
    | outOfTokens => exact absurd hend (Ends.of_error ho reads_program rfl t ht)
  · exact .inl ⟨prog, rfl⟩

/-- **The parser always ends inside the tokens.**  Before a list of tokens that ends with the end of
the input, which may occur earlier as well, it ends in a program or in a compile error.  The indices
of its reports never go down, each is the index of the token that is reported, and none is beyond
any end of the input.  Wherever an operand, an expression or a statement is read, the parser has
moved by a token at least. -/
theorem parse_inside_tokens (tokens : List Token) (prototypes : List Prototype)
    (hend : ∃ t, tokens.getLast? = some t ∧ t.kind = .endOfInput) :
    ((∃ program, (Program.parse frames tokens prototypes).value = .ok program) ∨
      ∃ e, (Program.parse frames tokens prototypes).value = .error (.error e)) ∧
    (Program.parse frames tokens prototypes).reports.Pairwise (·.index ≤ ·.index) ∧
    (∀ p ∈ (Program.parse frames tokens prototypes).reports, tokens[p.index]? = some p.token ∧
      ∀ (i : Nat) (t : Token), tokens[i]? = some t → t.kind = .endOfInput → p.index ≤ i) ∧
    ∀ (known : Signatures) (n : Nat) (s s' : State),
      (∀ e, outcome (factor known n) s = .ok (e, s') → s.index < s'.index) ∧
      (∀ e, outcome (logical known n) s = .ok (e, s') → s.index < s'.index) ∧
      ∀ owner a, outcome (statement ⟨known, owner⟩ n) s = .ok (a, s') → s.index < s'.index := by
  have hforward : ForwardFrom (fun _ => True) (program (registered prototypes) frames)
      (.start tokens) :=
    forward.follows_program (.start tokens)
  rw [parse_reports]
  refine ⟨?_, hforward.ordered, fun p hp => (hforward.ahead p hp).token, fun known n s s' => ?_⟩
  · obtain ⟨t, hlast, ht⟩ := hend
    exact ofTokens_settled prototypes ⟨t, List.mem_of_getLast? hlast, ht⟩
  · refine ⟨fun e => ?_, fun e => ?_, fun owner a => ?_⟩
    · exact index_lt_of_takes (takes_level .factor n)
    · exact index_lt_of_takes (takes_level .logical n)
    · exact index_lt_of_takes (takes_statement ⟨known, owner⟩ n).1

/-- Behind `PRINT (` comes the end of the input, and a second one behind a stray semicolon: the
parser ends, and has not looked beyond the first. -/
theorem parse_inside_tokens_unclosed :
    let tokens : List Token := [⟨.keyword .print, some (.text "PRINT"), 0⟩,
      ⟨.symbol .leftParen, some (.text "("), 6⟩, .atEnd 7,
      ⟨.symbol .semicolon, some (.text ";"), 7⟩, .atEnd 8]
    (∃ t, tokens.getLast? = some t ∧ t.kind = .endOfInput) ∧
      ((∃ program, (Program.parse 100 tokens []).value = .ok program) ∨
        ∃ e, (Program.parse 100 tokens []).value = .error (.error e)) ∧
      ∀ p ∈ (Program.parse 100 tokens []).reports, p.index ≤ 2 := by
  intro tokens
  have hend : ∃ t, tokens.getLast? = some t ∧ t.kind = .endOfInput := ⟨.atEnd 8, rfl, rfl⟩
  obtain ⟨hvalue, -, hreports, -⟩ := parse_inside_tokens tokens [] hend
  exact ⟨hend, hvalue, fun p hp => (hreports p hp).2 2 (.atEnd 7) rfl rfl⟩

end Grammar

end Slang
