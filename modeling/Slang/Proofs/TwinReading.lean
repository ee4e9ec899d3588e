import Slang.Proofs.Likeness

/-!
# Two readings side by side

Two readers that stand before tokens of the same kinds and values take the same decisions.  This is
the logic in which that is said.

* `Ahead c ts ts'`, `State.Like c s s'` — the tokens ahead are alike up to the last one that the
  readings have in common, the declared names are the same, and so are the numbers if they count.
* `EndsAlike c x x' s s' R` — from `s` and `s'` both readers succeed, with values and in states that
  `R` relates, or both stop, at errors that are alike.
* `ReadsTo c x x' R` — so they do from all states that are alike; `ReadsAlike c x x' V` if they end
  with values that `V` relates in states that are alike again.

Principal results: `ReadsAlike.bind` and for every primitive one lemma; `EndsAlike.many` and
`EndsAlike.separated` for the two loops.
-/

set_option autoImplicit false

namespace Slang.Grammar

variable {c : Pairing} {α β : Type} {s s' : State}

/-! ## States that are alike -/

/-- The tokens ahead of two readings: tokens that are alike, up to the last common one, and then
whatever lies behind. -/
inductive Ahead (c : Pairing) : List Token → List Token → Prop
  | last {t t' : Token} (ht : t.Like c t') (hk : t.kind = c.last) :
      Ahead c (t :: c.behind) (t' :: c.behind')
  | cons {t t' : Token} {ts ts' : List Token} (ht : t.Like c t') (hk : t.kind ≠ c.last)
      (hrest : Ahead c ts ts') : Ahead c (t :: ts) (t' :: ts')

/-- Where two readings are that have gone alike so far.  Names that have to agree are those of some
list of declarations, as they are wherever a statement is read. -/
structure State.Like (c : Pairing) (s s' : State) : Prop where
  ahead : Ahead c s.rest s'.rest
  numbers : c.numbered = true → s'.nextId = s.nextId
  table : c.named = true → s'.table = s.table
  declared : c.named = true → ∃ bs, s.table = .ofBindings bs

theorem Ahead.naming {ts ts' : List Token} (h : Ahead c ts ts') : Ahead c.naming ts ts' := by
  induction h with
  | last ht hk => exact .last ⟨ht.kind, ht.value, ht.place⟩ hk
  | cons ht hk _ ih => exact .cons ⟨ht.kind, ht.value, ht.place⟩ hk ih

/-- Tokens that are alike one by one, the last common one at their end. -/
theorem ahead_of_forall₂ {t : Token} (ht : t.kind = c.last) {us ts' : List Token}
    (h : List.Forall₂ (Token.Like c) (us ++ [t]) ts') (hus : ∀ u ∈ us, u.kind ≠ c.last) :
    Ahead c (us ++ t :: c.behind) (ts' ++ c.behind') := by
  induction us generalizing ts' with
  | nil =>
    obtain ⟨t', rest', hlike, hnil, rfl⟩ := List.forall₂_cons_left_iff.mp h
    obtain rfl := List.forall₂_nil_left_iff.mp hnil
    exact .last hlike ht
  | cons u us ih =>
    obtain ⟨t', rest', hlike, hrest, rfl⟩ := List.forall₂_cons_left_iff.mp h
    obtain ⟨hu, hus⟩ := List.forall_mem_cons.mp hus
    exact .cons hlike hu (ih hrest hus)

/-- Behind the last common token the readings part. -/
theorem Ahead.of_last {t : Token} {rest ts' : List Token} (h : Ahead c (t :: rest) ts')
    (hk : t.kind = c.last) : rest = c.behind ∧ ∃ t', ts' = t' :: c.behind' ∧ t'.kind = t.kind := by
  cases h with
  | last ht _ => exact ⟨rfl, _, rfl, ht.kind⟩
  | cons _ hne _ => exact absurd hk hne

theorem State.Like.tokens (h : s.Like c s') : ∃ t rest t' rest',
    s.rest = t :: rest ∧ s'.rest = t' :: rest' ∧ t.Like c t' := by
  have hahead := h.ahead
  revert hahead
  generalize s.rest = ts
  generalize s'.rest = ts'
  rintro (⟨ht, _⟩ | ⟨ht, _, _⟩) <;> exact ⟨_, _, _, _, rfl, rfl, ht⟩

theorem State.Like.ne_nil (h : s.Like c s') : s.rest ≠ [] ∧ s'.rest ≠ [] := by
  obtain ⟨t, rest, t', rest', hr, hr', _⟩ := h.tokens
  rw [hr, hr']
  exact ⟨by simp, by simp⟩

theorem rest_step {t : Token} {rest : List Token} (hr : s.rest = t :: rest)
    (ht : t.kind ≠ .endOfInput) : (step s).rest = rest := by
  unfold step
  rw [hr]
  simp only [ht, if_false]

theorem nextId_step (s : State) : (step s).nextId = s.nextId := by
  unfold step
  split
  · split <;> rfl
  · rfl

/-- States stay alike behind a token that is not the last common one. -/
theorem State.Like.step {t : Token} {rest : List Token} (h : s.Like c s')
    (hr : s.rest = t :: rest) (hk : c.Inside t.kind) : (step s).Like c (step s') := by
  obtain ⟨hahead, hnumbers, htable, hdeclared⟩ := h
  have hsteps : Ahead c (Grammar.step s).rest (Grammar.step s').rest := by
    have hboth := hahead
    rw [hr] at hboth
    generalize hr' : s'.rest = rest' at hboth
    have hkeep : t.kind = .endOfInput → (∀ t' ts', rest' = t' :: ts' → t.Like c t') →
        Ahead c (Grammar.step s).rest (Grammar.step s').rest := by
      intro hend hlike
      cases rest' with
      | nil => cases hboth
      | cons t' ts' =>
        rw [step_at_end hr hend, step_at_end hr' ((hlike t' ts' rfl).kind.trans hend)]
        exact hahead
    cases hboth with
    | @last _ t' ht hlast =>
      refine hkeep ?_ fun _ _ he => by cases he; exact ht
      rcases c.last_eq with he | he
      · rw [hlast, he]
      · rw [hlast, hk (hlast.trans he)]
    | @cons _ t' _ ts' ht _ hrest =>
      by_cases hend : t.kind = .endOfInput
      · exact hkeep hend fun _ _ he => by cases he; exact ht
      · rw [rest_step hr hend, rest_step hr' (by rwa [ht.kind])]
        exact hrest
  refine ⟨hsteps, fun hn => ?_, fun hn => ?_, fun hn => ?_⟩
  · rw [nextId_step, nextId_step, hnumbers hn]
  · rw [step_table, step_table, htable hn]
  · rw [step_table]
    exact hdeclared hn

/-! ## The logic -/

/-- Both readers succeed, with values and in states that `R` relates, or both stop at errors that
are alike. -/
def EndsAlike (c : Pairing) (x x' : Reader α) (s s' : State) (R : α → α → State → State → Prop) :
    Prop :=
  match outcome x s, outcome x' s' with
  | .ok (a, t), .ok (a', t') => R a a' t t'
  | .error (.error e), .error (.error e') => e.Like c e'
  | _, _ => False

/-- Values that `V` relates, in states that are alike. -/
def Alike (c : Pairing) (V : α → α → Prop) (a a' : α) (t t' : State) : Prop := V a a' ∧ t.Like c t'

/-- From states that are alike two readers end alike, and as `R` says. -/
def ReadsTo (c : Pairing) (x x' : Reader α) (R : α → α → State → State → Prop) : Prop :=
  ∀ s s', s.Like c s' → EndsAlike c x x' s s' R

/-- From states that are alike two readers end alike, in states that are still alike. -/
abbrev ReadsAlike (c : Pairing) (x x' : Reader α) (V : α → α → Prop) : Prop :=
  ReadsTo c x x' (Alike c V)

section Logic

variable {x x' : Reader α} {f f' : α → Reader β} {V : α → α → Prop}
  {R : β → β → State → State → Prop}

theorem EndsAlike.of_ok {Q : α → α → State → State → Prop} {a a' : α} {t t' : State}
    (h : outcome x s = .ok (a, t)) (h' : outcome x' s' = .ok (a', t')) (hQ : Q a a' t t') :
    EndsAlike c x x' s s' Q := by
  unfold EndsAlike
  rw [h, h']
  exact hQ

theorem EndsAlike.bind_outcome {Q : α → α → State → State → Prop} (h : EndsAlike c x x' s s' Q)
    (hf : ∀ a a' t t', outcome x s = .ok (a, t) → outcome x' s' = .ok (a', t') → Q a a' t t' →
      EndsAlike c (f a) (f' a') t t' R) :
    EndsAlike c (x >>= f) (x' >>= f') s s' R := by
  unfold EndsAlike at h ⊢
  rw [outcome_bind, outcome_bind]
  rcases ho : outcome x s with (e | _) | ⟨a, t⟩ <;>
    rcases ho' : outcome x' s' with (e' | _) | ⟨a', t'⟩ <;> rw [ho, ho'] at h
  case error.error.error.error => exact h
  case ok.ok => exact hf a a' t t' ho ho' h
  all_goals exact h.elim

theorem EndsAlike.bind (h : EndsAlike c x x' s s' (Alike c V))
    (hf : ∀ a a', V a a' → ReadsTo c (f a) (f' a') R) :
    EndsAlike c (x >>= f) (x' >>= f') s s' R :=
  h.bind_outcome fun a a' t t' _ _ hQ => hf a a' hQ.1 t t' hQ.2

/-- Sequencing, with what is known of each of the first two readers alone. -/
theorem EndsAlike.bind_reads {P P' : List Token → α → State → Prop}
    (h : EndsAlike c x x' s s' (Alike c V)) (hx : Reads x s P) (hx' : Reads x' s' P')
    (hf : ∀ a a' t t', V a a' → t.Like c t' → (∃ ts, Moved s ts t ∧ P ts a t) →
      (∃ ts, Moved s' ts t' ∧ P' ts a' t') → EndsAlike c (f a) (f' a') t t' R) :
    EndsAlike c (x >>= f) (x' >>= f') s s' R :=
  h.bind_outcome fun a a' t t' ho ho' hQ =>
    hf a a' t t' hQ.1 hQ.2 (Ends.of_ok ho hx) (Ends.of_ok ho' hx')

/-- **Readers in sequence end alike if each does.** -/
theorem ReadsAlike.bind (h : ReadsAlike c x x' V)
    (hf : ∀ a a', V a a' → ReadsTo c (f a) (f' a') R) :
    ReadsTo c (x >>= f) (x' >>= f') R :=
  fun s s' hs => EndsAlike.bind (h s s' hs) hf

theorem ReadsAlike.mono {W : α → α → Prop} (h : ReadsAlike c x x' V)
    (hV : ∀ a a', V a a' → W a a') : ReadsAlike c x x' W := by
  intro s s' hs
  have hends := h s s' hs
  unfold EndsAlike at hends ⊢
  split at hends
  · exact ⟨hV _ _ hends.1, hends.2⟩
  · exact hends
  · exact hends.elim

theorem alike_pure {a a' : α} (h : V a a') : ReadsAlike c (pure a) (pure a') V :=
  fun _ _ hs => ⟨h, hs⟩

theorem alike_throw {e e' : CompileError} (h : e.Like c e') :
    ReadsTo c (throw (.error e)) (throw (.error e')) R :=
  fun _ _ _ => h

theorem alike_fail (cause : CompileError.Cause) {i j : Int} (h : c.place i j) :
    ReadsTo c (fail cause i) (fail cause j) R :=
  alike_throw ⟨rfl, i, j, rfl, rfl, h⟩

/-- Nothing is read behind an error. -/
theorem alike_fail_bind (cause : CompileError.Cause) {i j : Int} (h : c.place i j) :
    ReadsTo c (fail cause i >>= f) (fail cause j >>= f') R :=
  ReadsAlike.bind (V := fun _ _ => False) (alike_fail cause h) fun _ _ hf => hf.elim

/-- What happens next may depend on the states. -/
theorem alike_get {f f' : State → Reader β}
    (hf : ∀ s s', s.Like c s' → EndsAlike c (f s) (f' s') s s' R) :
    ReadsTo c (get >>= f) (get >>= f') R := by
  intro s s' hs
  unfold EndsAlike
  rw [outcome_bind, outcome_bind]
  exact hf s s' hs

theorem outcome_modify (g : State → State) (s : State) :
    outcome (modify g) s = .ok ((), g s) := rfl

theorem alike_modify {g g' : State → State} (hg : ∀ s s', s.Like c s' → (g s).Like c (g' s')) :
    ReadsAlike c (modify g) (modify g') fun _ _ => True :=
  fun s s' hs => ⟨trivial, hg s s' hs⟩

end Logic

/-! ## Tokens -/

section Tokens

variable {R : α → α → State → State → Prop}

theorem outcome_current {t : Token} {rest : List Token} (hr : s.rest = t :: rest) :
    outcome current s = .ok (t, s) := by
  have hget : outcome get s = .ok (s, s) := rfl
  unfold current
  simp only [outcome_bind, hget, hr]
  rfl

theorem outcome_report (message : String) (event : Option TreeEvent) (hs : s.rest ≠ []) :
    outcome (report message event) s = .ok ((), s) := by
  obtain ⟨t, rest, hr⟩ := List.exists_cons_of_ne_nil hs
  unfold report
  rw [outcome_bind, outcome_current hr]
  rfl

theorem outcome_advance (message : String) {t : Token} {rest : List Token}
    (hr : s.rest = t :: rest) : outcome (advance message) s = .ok (t, step s) := by
  unfold advance
  rw [outcome_bind, outcome_current hr]
  simp only [outcome_bind, outcome_report message none (hr ▸ List.cons_ne_nil t rest)]
  rfl

/-- Looking at the current tokens shows tokens that are alike. -/
theorem EndsAlike.look {f f' : Token → Reader α} (h : s.Like c s')
    (hf : ∀ t t' rest, s.rest = t :: rest → t.Like c t' → EndsAlike c (f t) (f' t') s s' R) :
    EndsAlike c (current >>= f) (current >>= f') s s' R := by
  obtain ⟨t, rest, t', rest', hr, hr', ht⟩ := h.tokens
  have hnext := hf t t' rest hr ht
  unfold EndsAlike at hnext ⊢
  rw [outcome_bind, outcome_bind, outcome_current hr, outcome_current hr']
  exact hnext

theorem alike_look {f f' : Token → Reader α}
    (hf : ∀ t t', t.Like c t' → ReadsTo c (f t) (f' t') R) :
    ReadsTo c (current >>= f) (current >>= f') R :=
  fun s s' hs => EndsAlike.look hs fun t t' _ _ ht => hf t t' ht s s' hs

theorem EndsAlike.advance {message message' : String} {t : Token} {rest : List Token}
    (h : s.Like c s') (hr : s.rest = t :: rest) (hk : c.Inside t.kind) :
    EndsAlike c (advance message) (advance message') s s' (Alike c (Token.Like c)) := by
  obtain ⟨u, us, t', rest', hu, hr', ht⟩ := h.tokens
  exact .of_ok (outcome_advance message hu) (outcome_advance message' hr') ⟨ht, h.step hr hk⟩

theorem alike_report (message message' : String) (event event' : Option TreeEvent) :
    ReadsAlike c (report message event) (report message' event') fun _ _ => True :=
  fun _ _ hs => .of_ok (outcome_report message event hs.ne_nil.1)
    (outcome_report message' event' hs.ne_nil.2) ⟨trivial, hs⟩

theorem alike_reject (cause : CompileError.Cause) {i j : Int} (h : c.place i j) :
    ReadsTo c (reject cause i) (reject cause j) R :=
  (alike_report _ _ _ _).bind fun _ _ _ => alike_fail cause h

theorem alike_tooDeep : ReadsTo c (tooDeep : Reader α) tooDeep R :=
  alike_look fun _ _ ht => alike_fail _ ht.place

theorem alike_expect {kinds : List Token.Kind} (hk : ∀ k ∈ kinds, c.Inside k) :
    ReadsAlike c (expect kinds) (expect kinds) fun t t' => t.Like c t' ∧ t.kind ∈ kinds := by
  intro s s' hs
  refine EndsAlike.look hs fun t t' rest hr ht => ?_
  rw [ht.kind, ht.lexeme]
  by_cases hmem : t.kind ∈ kinds
  · rw [if_pos hmem, if_pos hmem]
    obtain ⟨u, us, u', us', hu, hu', hlike⟩ := hs.tokens
    obtain ⟨rfl, rfl⟩ : t = u ∧ rest = us := by simpa [hr] using hu
    exact .of_ok (outcome_advance _ hr) (outcome_advance _ hu')
      ⟨⟨hlike, hmem⟩, hs.step hr (hk _ hmem)⟩
  · rw [if_neg hmem, if_neg hmem]
    exact alike_reject _ ht.place s s' hs

theorem alike_expectSymbol (x : Symbol) :
    ReadsAlike c (expectSymbol x) (expectSymbol x) (Token.Like c) :=
  (alike_expect (by simp [Pairing.Inside])).mono fun _ _ h => h.1

theorem alike_expectKeyword {k : Keyword} (hk : c.Inside (.keyword k)) :
    ReadsAlike c (expectKeyword k) (expectKeyword k) (Token.Like c) :=
  (alike_expect (by simpa using hk)).mono fun _ _ h => h.1

theorem alike_expectName :
    ReadsAlike c (expect [.identifier]) (expect [.identifier]) (Token.Like c) :=
  (alike_expect (by simp [Pairing.Inside])).mono fun _ _ h => h.1

theorem alike_expectType : ReadsAlike c expectType expectType fun T T' => T' = T := by
  refine ReadsAlike.bind (alike_expect (by simp [Pairing.Inside])) fun t t' ht => alike_pure ?_
  rw [ht.1.kind]

/-- The same choice, and tokens that are alike where there is one. -/
def Picked (c : Pairing) (found found' : β × Token) : Prop :=
  found'.1 = found.1 ∧ found.2.Like c found'.2

theorem alike_accept {pick : Token.Kind → Option β} (hk : ∀ k b, pick k = some b → c.Inside k) :
    ReadsAlike c (accept pick) (accept pick) (Option.Rel (Picked c)) := by
  intro s s' hs
  refine EndsAlike.look hs fun t t' rest hr ht => ?_
  rw [ht.kind]
  cases hp : pick t.kind with
  | none => exact alike_pure .none s s' hs
  | some b =>
    refine (EndsAlike.advance hs hr (hk _ _ hp)).bind fun _ _ hlike => ?_
    exact alike_pure (.some ⟨rfl, hlike⟩)

theorem alike_acceptSymbol (x : Symbol) :
    ReadsAlike c (acceptSymbol x) (acceptSymbol x) fun found found' => found' = found := by
  refine ReadsAlike.bind (alike_accept fun k b hk => ?_) fun found found' h => alike_pure ?_
  · split at hk
    · rename_i h
      exact Pairing.inside_of_ne (by simp [h])
    · cases hk
  · cases h <;> rfl

end Tokens

/-! ## Tree events -/

section Events

/-- Numbers that agree, if numbers have to. -/
def SameNumber (c : Pairing) (i j : Nat) : Prop := c.numbered = true → j = i

mutual

/-- Announcing a tree changes nothing. -/
theorem outcome_announce (parent : Nat) : ∀ (o : Outline) {s : State}, s.rest ≠ [] →
    outcome (announce parent o) s = .ok ((), s)
  | .node _ label mark _ children, s, hs => by
    rw [announce]
    simp only [reportAdd, outcome_bind, outcome_report _ _ hs,
      outcome_announceAll (mark.id.getD 0) children hs]
    cases children.isEmpty with
    | true => rfl
    | false => exact outcome_report _ _ hs

theorem outcome_announceAll (parent : Nat) : ∀ (os : List Outline) {s : State}, s.rest ≠ [] →
    outcome (announceAll parent os) s = .ok ((), s)
  | [], _, _ => rfl
  | o :: rest, s, hs => by
    rw [announceAll]
    simp only [outcome_bind, outcome_announce parent o hs, outcome_announceAll parent rest hs]

end

theorem alike_announce (parent parent' : Nat) (o o' : Outline) :
    ReadsAlike c (announce parent o) (announce parent' o') fun _ _ => True :=
  fun _ _ hs => .of_ok (outcome_announce parent o hs.ne_nil.1)
    (outcome_announce parent' o' hs.ne_nil.2) ⟨trivial, hs⟩

theorem alike_freshId : ReadsAlike c freshId freshId (SameNumber c) := by
  intro s s' hs
  refine .of_ok rfl rfl ⟨hs.numbers, hs.ahead, fun hn => ?_, hs.table, hs.declared⟩
  exact congrArg (· + 1) (hs.numbers hn)

/-- Whatever nodes are open, the states stay alike. -/
theorem State.Like.parents (h : s.Like c s') (ps ps' : List Nat) :
    State.Like c { s with parents := ps } { s' with parents := ps' } :=
  ⟨h.ahead, h.numbers, h.table, h.declared⟩

theorem alike_begin (label label' : String) :
    ReadsAlike c (begin label) (begin label') (SameNumber c) := by
  refine alike_get fun s s' hs => ?_
  refine (alike_freshId s s' hs).bind fun i j hij => ?_
  refine (alike_report _ _ _ _).bind fun _ _ _ => ?_
  exact (alike_modify fun s s' h => h.parents _ _).bind fun _ _ _ => alike_pure hij

theorem alike_finish (id id' : Nat) :
    ReadsAlike c (finish id) (finish id') fun _ _ => True :=
  (alike_modify fun _ _ h => h.parents _ _).bind fun _ _ _ => alike_report _ _ _ _

theorem alike_relabel (id id' : Nat) (label label' : String) :
    ReadsAlike c (relabel id label) (relabel id' label') fun _ _ => True :=
  alike_report _ _ _ _

theorem alike_addLeaf (parent parent' : Nat) (label label' : String) :
    ReadsAlike c (addLeaf parent label) (addLeaf parent' label') fun _ _ => True :=
  alike_freshId.bind fun _ _ _ => alike_report _ _ _ _

theorem alike_declare (b : Binding) :
    ReadsAlike c (modify fun s => { s with table := s.table.declare b })
      (modify fun s => { s with table := s.table.declare b }) fun _ _ => True := by
  refine alike_modify fun s s' h => ⟨h.ahead, h.numbers, fun hn => ?_, fun hn => ?_⟩
  · show s'.table.declare b = s.table.declare b
    rw [h.table hn]
  · obtain ⟨bs, hbs⟩ := h.declared hn
    refine ⟨bs ++ [b], ?_⟩
    show s.table.declare b = _
    rw [hbs, Table.ofBindings_append]
    rfl

/-- From where all names are forgotten the names agree. -/
theorem alike_forget {f f' : Unit → Reader β} {R : β → β → State → State → Prop}
    (hf : ReadsTo c.naming (f ()) (f' ()) R) :
    ReadsTo c ((modify fun s => { s with table := Table.empty }) >>= f)
      ((modify fun s => { s with table := Table.empty }) >>= f') R := by
  intro s s' hs
  have hahead : Ahead c.naming s.rest s'.rest := hs.ahead.naming
  have hends := hf { s with table := Table.empty } { s' with table := Table.empty }
    ⟨hahead, hs.numbers, fun _ => rfl, fun _ => ⟨[], rfl⟩⟩
  unfold EndsAlike at hends ⊢
  rw [outcome_bind, outcome_bind]
  show match outcome (f ()) { s with table := Table.empty },
    outcome (f' ()) { s' with table := Table.empty } with
    | .ok (a, t), .ok (a', t') => R a a' t t'
    | .error (.error e), .error (.error e') => e.Like c e'
    | _, _ => False
  split at hends
  · exact hends
  · exact ⟨hends.cause, hends.at_⟩
  · exact hends.elim

end Events

/-! ## Loops -/

section Loops

variable {item item' : Reader α} {V : α → α → Prop}

/-- Wherever the names are as the pairing wants them, the reader takes a token. -/
def Consumes (c : Pairing) (r : Reader α) : Prop :=
  ∀ s, (c.named = true → ∃ bs, s.table = .ofBindings bs) → Reads r s fun ts _ _ => ts ≠ []

theorem moved_shorter {t : State} (h : ∃ ts, Moved s ts t ∧ ts ≠ []) :
    t.rest.length < s.rest.length := by
  obtain ⟨ts, hm, hne⟩ := h
  have hlength := hm.length_eq
  have hpos := List.length_pos_iff.mpr hne
  omega

theorem State.Like.declared_right (h : s.Like c s') (hn : c.named = true) :
    ∃ bs, s'.table = .ofBindings bs := by
  rw [h.table hn]
  exact h.declared hn

/-- **Items one after the other are read alike if each is**; the bounds may differ, as long as both
are large enough. -/
theorem EndsAlike.many {begins : Token.Kind → Bool} (hitem : ReadsAlike c item item' V)
    (hc : Consumes c item) (hc' : Consumes c item') :
    ∀ (n n' : Nat) {before before' : List α} {s s' : State}, List.Forall₂ V before before' →
      s.Like c s' → s.rest.length ≤ n → s'.rest.length ≤ n' →
      EndsAlike c (many begins item n before) (many begins item' n' before') s s'
        (Alike c (List.Forall₂ V))
  | 0, _, _, _, s, _, _, hs, hn, _ =>
    absurd (List.length_eq_zero_iff.mp (Nat.le_zero.mp hn)) hs.ne_nil.1
  | _, 0, _, _, _, s', _, hs, _, hn' =>
    absurd (List.length_eq_zero_iff.mp (Nat.le_zero.mp hn')) hs.ne_nil.2
  | n + 1, n' + 1, before, before', s, s', hbefore, hs, hn, hn' => by
    refine EndsAlike.look hs fun t t' rest hr ht => ?_
    rw [ht.kind]
    by_cases hb : begins t.kind = true
    · rw [if_pos hb, if_pos hb]
      refine (hitem s s' hs).bind_reads (hc s hs.declared) (hc' s' hs.declared_right) ?_
      intro a a' t t' hV ht hm hm'
      have hlt := moved_shorter hm
      have hlt' := moved_shorter hm'
      exact EndsAlike.many hitem hc hc' n n' (.cons hV hbefore) ht (by omega) (by omega)
    · rw [if_neg hb, if_neg hb]
      exact alike_pure (List.rel_reverse hbefore) s s' hs

/-- **Items between commas are read alike if each item is.** -/
theorem EndsAlike.separated (hitem : ReadsAlike c item item' V) (hc : Consumes c item)
    (hc' : Consumes c item') : ∀ (n n' : Nat) {before before' : List α} {s s' : State},
      List.Forall₂ V before before' → s.Like c s' → s.rest.length ≤ n → s'.rest.length ≤ n' →
      EndsAlike c (separated item n before) (separated item' n' before') s s'
        (Alike c (List.Forall₂ V))
  | 0, _, _, _, s, _, _, hs, hn, _ =>
    absurd (List.length_eq_zero_iff.mp (Nat.le_zero.mp hn)) hs.ne_nil.1
  | _, 0, _, _, _, s', _, hs, _, hn' =>
    absurd (List.length_eq_zero_iff.mp (Nat.le_zero.mp hn')) hs.ne_nil.2
  | n + 1, n' + 1, before, before', s, s', hbefore, hs, hn, hn' => by
    refine (hitem s s' hs).bind_reads (hc s hs.declared) (hc' s' hs.declared_right) ?_
    intro a a' t t' hV ht hm hm'
    have hlt := moved_shorter hm
    have hlt' := moved_shorter hm'
    refine (alike_acceptSymbol .comma t t' ht).bind_reads Reads.acceptSymbol Reads.acceptSymbol ?_
    rintro _ found u u' rfl hu ⟨ts, hm, _⟩ ⟨ts', hm', _⟩
    have hle := hm.length_eq
    have hle' := hm'.length_eq
    cases found with
    | true =>
      exact EndsAlike.separated hitem hc hc' n n' (.cons hV hbefore) hu (by omega) (by omega)
    | false => exact alike_pure (List.rel_reverse (.cons hV hbefore)) u u' hu

variable {f f' : List α → Reader β} {R : β → β → State → State → Prop}

/-- As many items as there are tokens ahead are enough. -/
theorem alike_many {begins : Token.Kind → Bool} (hitem : ReadsAlike c item item' V)
    (hc : Consumes c item) (hc' : Consumes c item')
    (hf : ∀ as as', List.Forall₂ V as as' → ReadsTo c (f as) (f' as') R) :
    ReadsTo c (remaining >>= fun n => many begins item n [] >>= f)
      (remaining >>= fun n => many begins item' n [] >>= f') R :=
  alike_get fun _ _ hs =>
    (EndsAlike.many hitem hc hc' _ _ .nil hs (Nat.le_refl _) (Nat.le_refl _)).bind hf

theorem alike_separated (hitem : ReadsAlike c item item' V) (hc : Consumes c item)
    (hc' : Consumes c item') (hf : ∀ as as', List.Forall₂ V as as' → ReadsTo c (f as) (f' as') R) :
    ReadsTo c (remaining >>= fun n => separated item n [] >>= f)
      (remaining >>= fun n => separated item' n [] >>= f') R :=
  alike_get fun _ _ hs =>
    (EndsAlike.separated hitem hc hc' _ _ .nil hs (Nat.le_refl _) (Nat.le_refl _)).bind hf

end Loops

end Slang.Grammar
