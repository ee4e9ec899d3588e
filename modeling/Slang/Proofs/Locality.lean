import Slang.Proofs.Forward

/-!
# The parser does not look ahead

What the parser does depends on the tokens up to its cursor, and on nothing behind.

* `Agree k s s'` — two places that have the same tokens ahead up to index `k`, and all else in
  common.
* `Late k ps out` — a reading has gone beyond index `k`.
* `Lockstep k V r r' s s'` — two readings report the same and end alike, or they consume the token
  at index `k` together and part behind it.
* `lockstep k` — reading alike up to index `k` is a discipline, the loops included, whose bounds
  differ.
* `cursor` — where the parser stands at the end of a run.

Principal result: `parse_local` — token lists that agree up to index `k` are parsed alike as long as
the cursor is not beyond `k`.
-/

set_option autoImplicit false

namespace Slang

variable {frames : Nat}

namespace Grammar

variable {α β : Type} {k : Nat} {s s' t t' : State}

/-! ## Places that agree -/

/-- The tokens ahead are the same up to index `k`, and everything else is the same. -/
structure Agree (k : Nat) (s s' : State) : Prop where
  index : s'.index = s.index
  inside : s.index ≤ k
  rest : s'.rest.take (k + 1 - s.index) = s.rest.take (k + 1 - s.index)
  scene : s'.scene = s.scene

/-- Both lists of tokens are used up, or both go on with the same token. -/
theorem Agree.head (h : Agree k s s') : s.rest = [] ∧ s'.rest = [] ∨
    ∃ u us us', s.rest = u :: us ∧ s'.rest = u :: us' ∧
      us'.take (k - s.index) = us.take (k - s.index) := by
  have hrest := h.rest
  rw [show k + 1 - s.index = k - s.index + 1 by have := h.inside; omega] at hrest
  cases hs : s.rest with
  | nil =>
    rw [hs, List.take_nil] at hrest
    exact .inl ⟨rfl, by simpa using hrest⟩
  | cons u us =>
    rw [hs, List.take_succ_cons] at hrest
    cases hs' : s'.rest with
    | nil =>
      rw [hs', List.take_nil] at hrest
      cases hrest
    | cons u' us' =>
      rw [hs', List.take_succ_cons] at hrest
      obtain ⟨rfl, htail⟩ := List.cons.inj hrest
      exact .inr ⟨u', us, us', rfl, rfl, htail⟩

theorem Agree.withScene (h : Agree k s s') (g : Scene → Scene) :
    Agree k (s.withScene (g s.scene)) (s'.withScene (g s'.scene)) := by
  refine ⟨h.index, h.inside, h.rest, ?_⟩
  show g s'.scene = g s.scene
  rw [h.scene]

/-- Tokens that are consumed are no longer ahead. -/
theorem Moved.extent {ts : List Token} (h : Moved s ts s') :
    s'.index + s'.rest.length = s.index + s.rest.length := by
  have hindex := h.index
  have hlength := h.length_eq
  omega

/-! ## Readings that go on beyond an index -/

/-- From some report on a reading is beyond index `k`: so are the reports behind, and so is the
place where it ends.  A token that is rejected is among the reports. -/
structure Late (k : Nat) (ps : List ParseReport) (out : Except Stop (α × State)) : Prop where
  reports : ∀ p ∈ ps, k < p.index
  stop : ps = [] → ∀ stop, out = .error stop → stop.rejects = false
  state : ∀ a t, out = .ok (a, t) → k < t.index

/-- What goes on beyond an index stays there. -/
theorem Late.bind {V : α → Prop} {W : β → Prop} {r : Reader α} {f : α → Reader β}
    {before more : List ParseReport} (h : Late k more (outcome r s)) (hr : ForwardFrom V r s)
    (hf : ∀ a, V a → Forward W (f a)) (hreports : reportsOf r s = before ++ more) :
    ∃ more', reportsOf (r >>= f) s = before ++ more' ∧ Late k more' (outcome (r >>= f) s) := by
  rcases ho : outcome r s with stop | ⟨a, t⟩
  · refine ⟨more, (reportsOf_bind_error ho).trans hreports, ?_⟩
    rw [outcome_bind_error ho]
    refine ⟨h.reports, fun hnil stop' hstop => ?_, nofun⟩
    cases hstop
    exact h.stop hnil stop ho
  · have hnext := hf a (hr.value a t ho) t
    have hlt := h.state a t ho
    refine ⟨more ++ reportsOf (f a) t, ?_, ?_⟩
    · rw [reportsOf_bind_ok ho, hreports, List.append_assoc]
    · rw [outcome_bind_ok ho]
      refine ⟨?_, ?_, ?_⟩
      · refine List.forall_mem_append.mpr ⟨h.reports, fun p hp => ?_⟩
        exact Nat.lt_of_lt_of_le hlt (hnext.ahead p hp).le
      · intro hnil stop hstop
        refine Bool.eq_false_iff.mpr fun hrejects => ?_
        exact hnext.announced stop hstop hrejects (List.append_eq_nil_iff.mp hnil).2
      · intro b u hb
        obtain ⟨ts, hm⟩ := hnext.moved b u hb
        rw [hm.index]
        exact Nat.lt_of_lt_of_le hlt (Nat.le_add_right _ _)

/-! ## Readings side by side -/

/-- Two readings report the same and end alike, or they consume the token at index `k` together and
part behind it. -/
inductive Lockstep (k : Nat) (V : α → Prop) (r r' : Reader α) (s s' : State) : Prop
  | success {a : α} {t t' : State} (hreports : reportsOf r' s' = reportsOf r s)
      (ho : outcome r s = .ok (a, t)) (ho' : outcome r' s' = .ok (a, t')) (ha : V a)
      (hagree : Agree k t t')
  | stop {stop : Stop} (hreports : reportsOf r' s' = reportsOf r s)
      (ho : outcome r s = .error stop) (ho' : outcome r' s' = .error stop)
  | parted {common more more' : List ParseReport} {p : ParseReport}
      (hreports : reportsOf r s = common ++ p :: more)
      (hreports' : reportsOf r' s' = common ++ p :: more') (hp : p.consumes = true)
      (hk : p.index = k) (hlate : Late k more (outcome r s)) (hlate' : Late k more' (outcome r' s'))

section Lockstep

variable {V : α → Prop} {W : β → Prop} {r r' : Reader α} {f f' : α → Reader β}

/-- Only what readers report and end in counts. -/
theorem Lockstep.of_eq {x x' : Reader α} (h : Lockstep k V r r' s s')
    (hreports : reportsOf x s = reportsOf r s) (ho : outcome x s = outcome r s)
    (hreports' : reportsOf x' s' = reportsOf r' s') (ho' : outcome x' s' = outcome r' s') :
    Lockstep k V x x' s s' := by
  cases h with
  | success h₁ h₂ h₃ ha hagree =>
    exact .success (by rw [hreports', h₁, hreports]) (ho.trans h₂) (ho'.trans h₃) ha hagree
  | stop h₁ h₂ h₃ => exact .stop (by rw [hreports', h₁, hreports]) (ho.trans h₂) (ho'.trans h₃)
  | parted h₁ h₂ hp hk h₃ h₄ =>
    exact .parted (hreports.trans h₁) (hreports'.trans h₂) hp hk (ho ▸ h₃) (ho' ▸ h₄)

/-- Sequencing: where the first readings have ended alike, the second ones begin; where they have
parted, both stay beyond the index. -/
theorem Lockstep.bind (h : Lockstep k V r r' s s') (hr : ForwardFrom V r s)
    (hr' : ForwardFrom V r' s') (hf : ∀ a, V a → Forward W (f a))
    (hf' : ∀ a, V a → Forward W (f' a))
    (hnext : ∀ a t t', outcome r s = .ok (a, t) → outcome r' s' = .ok (a, t') → V a →
      Agree k t t' → Lockstep k W (f a) (f' a) t t') :
    Lockstep k W (r >>= f) (r' >>= f') s s' := by
  cases h with
  | @success a t t' hreports ho ho' ha hagree =>
    have heq := reportsOf_bind_ok (f := f) ho
    have heq' := reportsOf_bind_ok (f := f') ho'
    rw [hreports] at heq'
    cases hnext a t t' ho ho' ha hagree with
    | success h₁ h₂ h₃ hb hagree' =>
      refine .success ?_ ((outcome_bind_ok ho).trans h₂) ((outcome_bind_ok ho').trans h₃) hb hagree'
      rw [heq, heq', h₁]
    | stop h₁ h₂ h₃ =>
      refine .stop ?_ ((outcome_bind_ok ho).trans h₂) ((outcome_bind_ok ho').trans h₃)
      rw [heq, heq', h₁]
    | @parted common more more' p h₁ h₂ hp hk h₃ h₄ =>
      rw [h₁, ← List.append_assoc] at heq
      rw [h₂, ← List.append_assoc] at heq'
      rw [← outcome_bind_ok ho] at h₃
      rw [← outcome_bind_ok ho'] at h₄
      exact .parted heq heq' hp hk h₃ h₄
  | stop hreports ho ho' =>
    refine .stop ?_ (outcome_bind_error ho) (outcome_bind_error ho')
    rw [reportsOf_bind_error ho, reportsOf_bind_error ho', hreports]
  | @parted common more more' p h₁ h₂ hp hk h₃ h₄ =>
    rw [← List.singleton_append, ← List.append_assoc] at h₁ h₂
    obtain ⟨rest, hreports, hlate⟩ := h₃.bind hr hf h₁
    obtain ⟨rest', hreports', hlate'⟩ := h₄.bind hr' hf' h₂
    rw [List.append_assoc, List.singleton_append] at hreports hreports'
    exact .parted hreports hreports' hp hk hlate hlate'

/-! ### Primitives -/

/-- Readers that need a token may count on the same one. -/
theorem NeedsToken.lockstep (hr : NeedsToken r) (hagree : Agree k s s')
    (h : ∀ u us us', s.rest = u :: us → s'.rest = u :: us' →
      us'.take (k - s.index) = us.take (k - s.index) → Lockstep k V r r s s') :
    Lockstep k V r r s s' := by
  rcases hagree.head with ⟨hs, hs'⟩ | ⟨u, us, us', hs, hs', htail⟩
  · exact .stop ((hr s' hs').2.trans (hr s hs).2.symm) (hr s hs).1 (hr s' hs').1
  · exact h u us us' hs hs' htail

theorem lockstep_current (h : Agree k s s') :
    Lockstep k (fun _ => True) current current s s' := by
  refine needsToken_current.lockstep h fun u us us' hs hs' _ => ?_
  refine .success ?_ (outcome_current hs) (outcome_current hs') trivial h
  rw [reportsOf_current hs, reportsOf_current hs']

/-- A report at places that agree is the same report. -/
theorem lockstep_report (message : String) (event : TreeEvent) (h : Agree k s s') :
    Lockstep k (fun _ => True) (report message (some event)) (report message (some event))
      s s' := by
  refine (needsToken_report _ _).lockstep h fun u us us' hs hs' _ => ?_
  refine .success ?_ (outcome_report _ _ (hs ▸ List.cons_ne_nil u us))
    (outcome_report _ _ (hs' ▸ List.cons_ne_nil u us')) trivial h
  rw [reportsOf_report _ _ hs, reportsOf_report _ _ hs', h.index]

theorem lockstep_reject (cause : CompileError.Cause) (pos : Int) (h : Agree k s s') :
    Lockstep k V (reject cause pos) (reject cause pos) s s' := by
  refine (needsToken_reject _ _).lockstep h fun u us us' hs hs' _ => ?_
  refine .stop ?_ (outcome_reject _ _ (hs ▸ List.cons_ne_nil u us))
    (outcome_reject _ _ (hs' ▸ List.cons_ne_nil u us'))
  rw [reportsOf_reject _ _ hs, reportsOf_reject _ _ hs', h.index]

theorem scene_step (s : State) : (step s).scene = s.scene := by
  unfold step
  split
  · split <;> rfl
  · rfl

theorem late_advance (message : String) {u : Token} {us : List Token} (hs : s.rest = u :: us)
    (hu : u.kind ≠ .endOfInput) (hk : s.index = k) : Late k [] (outcome (advance message) s) := by
  rw [outcome_advance message hs]
  refine ⟨by simp, by simp, ?_⟩
  rintro a t ⟨⟩
  rw [(moved_step hs hu).index, hk]
  exact Nat.lt_succ_self k

/-- The token at index `k` is the last that two readings consume together. -/
theorem lockstep_advance (message : String) (h : Agree k s s') :
    Lockstep k (fun _ => True) (advance message) (advance message) s s' := by
  refine (needsToken_advance _).lockstep h fun u us us' hs hs' htail => ?_
  have hreports := reportsOf_advance message hs
  have hreports' := reportsOf_advance message hs'
  rw [h.index] at hreports'
  have ho := outcome_advance message hs
  have ho' := outcome_advance message hs'
  by_cases hend : u.kind = .endOfInput
  · rw [step_at_end hs hend] at ho
    rw [step_at_end hs' hend] at ho'
    exact .success (hreports'.trans hreports.symm) ho ho' trivial h
  by_cases hk : s.index = k
  · have hlate := late_advance message hs hend hk
    have hlate' := late_advance message hs' hend (h.index.trans hk)
    rw [← List.nil_append [_]] at hreports hreports'
    exact .parted hreports hreports' (by simp [ParseReport.consumes, hend]) hk hlate hlate'
  · refine .success (hreports'.trans hreports.symm) ho ho' trivial ⟨?_, ?_, ?_, ?_⟩
    · rw [(moved_step hs hend).index, (moved_step hs' hend).index, h.index]
    · rw [(moved_step hs hend).index]
      exact Nat.lt_of_le_of_ne h.inside hk
    · rw [rest_step hs hend, rest_step hs' hend, (moved_step hs hend).index, List.length_singleton,
        Nat.add_sub_add_right]
      exact htail
    · rw [scene_step, scene_step]
      exact h.scene

end Lockstep

/-- Wherever two readings agree up to index `k`, the reader goes in lockstep. -/
def Local (k : Nat) (V : α → Prop) (r : Reader α) : Prop :=
  Forward V r ∧ ∀ s s', Agree k s s' → Lockstep k V r r s s'

/-- The steps of the parser depend on the current token only. -/
def lockstepSteps (k : Nat) : StepDiscipline where
  seen _ := True
  holds := Local k
  returns ha := ⟨forward_pure ha, fun _ _ h => .success rfl rfl rfl ha h⟩
  sequences h hf := by
    refine ⟨fun s => (h.1 s).bind fun a ha => (hf a ha).1, fun s s' hagree => ?_⟩
    refine (h.2 s s' hagree).bind (h.1 s) (h.1 s') (fun a ha => (hf a ha).1)
      (fun a ha => (hf a ha).1) fun a t t' _ _ ha => (hf a ha).2 t t'
  looks := ⟨forward_current, fun _ _ => lockstep_current⟩
  consumes message := ⟨forward_advance message, fun _ _ => lockstep_advance message⟩
  reports message event := ⟨forward_report message event, fun _ _ => lockstep_report message event⟩
  starves := ⟨forward.starves, fun _ _ _ => .stop rfl rfl rfl⟩
  stops _ _ hc := ⟨fun _ => forward_of_stop rfl rfl hc, fun _ _ _ => .stop rfl rfl rfl⟩
  rejects _ _ _ := ⟨forward_reject _ _, fun _ _ => lockstep_reject _ _⟩
  inspects hscene h := by
    refine ⟨forward.inspects hscene fun s => (h s).1, fun s s' hagree => ?_⟩
    refine ((h s).2 s s' hagree).of_eq rfl rfl ?_ ?_
    · rw [hscene s s' hagree.scene.symm]
      rfl
    · rw [hscene s s' hagree.scene.symm]
      rfl
  changes g := ⟨forward.changes g, fun _ _ h => .success rfl rfl rfl trivial (h.withScene g)⟩

/-! ## Loops -/

/-- The bounds of two loops leave as many rounds beyond the tokens that are left. -/
structure Room (n n' : Nat) (s s' : State) : Prop where
  enough : s.rest.length ≤ n
  even : n + s'.rest.length = n' + s.rest.length

/-- Two loops use up their bounds together. -/
theorem Room.zero_iff {n n' : Nat} (h : Room n n' s s') (hagree : Agree k s s') :
    n = 0 ↔ n' = 0 := by
  have henough := h.enough
  have heven := h.even
  rcases hagree.head with ⟨hs, hs'⟩ | ⟨u, us, us', hs, hs', -⟩
  · rw [hs, hs', List.length_nil] at heven
    omega
  · rw [hs] at henough heven
    rw [hs'] at heven
    simp only [List.length_cons] at henough heven
    omega

/-- A round that takes a token leaves room for the rounds behind it. -/
theorem Room.next {n n' : Nat} {ts ts' : List Token} (h : Room (n + 1) (n' + 1) s s')
    (hagree : Agree k s s') (hm : Moved s ts t) (hm' : Moved s' ts' t') (hts : 1 ≤ ts.length)
    (hagree' : Agree k t t') : Room n n' t t' := by
  have henough := h.enough
  have heven := h.even
  have hlength := hm.length_eq
  have hextent := hm.extent
  have hextent' := hm'.extent
  rw [hagree.index, hagree'.index] at hextent'
  exact ⟨by omega, by omega⟩

section Loops

variable {V : α → Prop} {W : β → Prop} {item : Reader α}

/-- Looking at the current token changes nothing, and both readings see the same. -/
theorem Lockstep.look {f f' : Token → Reader β} (hagree : Agree k s s')
    (h : ∀ u, Lockstep k W (f u) (f' u) s s') :
    Lockstep k W (current >>= f) (current >>= f') s s' := by
  rcases hagree.head with ⟨hs, hs'⟩ | ⟨u, us, us', hs, hs', -⟩
  · obtain ⟨ho, hreports⟩ := needsToken_current s hs
    obtain ⟨ho', hreports'⟩ := needsToken_current s' hs'
    refine .stop ?_ (outcome_bind_error ho) (outcome_bind_error ho')
    rw [reportsOf_bind_error ho, reportsOf_bind_error ho', hreports, hreports']
  · refine (h u).of_eq ?_ (outcome_bind_ok (outcome_current hs)) ?_
      (outcome_bind_ok (outcome_current hs'))
    · rw [reportsOf_bind_ok (outcome_current hs), reportsOf_current hs, List.nil_append]
    · rw [reportsOf_bind_ok (outcome_current hs'), reportsOf_current hs', List.nil_append]

theorem lockstep_many {begins : Token.Kind → Bool} (htakes : Takes 1 item)
    (hitem : Local k V item) : ∀ (n n' : Nat) (before : List α) (s s' : State),
      (∀ a ∈ before, V a) → Agree k s s' → Room n n' s s' →
      Lockstep k (fun as => ∀ a ∈ as, V a) (many begins item n before)
        (many begins item n' before) s s'
  | 0, n', before, s, s', hbefore, hagree, hroom => by
    obtain rfl : n' = 0 := (hroom.zero_iff hagree).mp rfl
    exact ((lockstepSteps k).holds_many hitem 0 before hbefore).2 s s' hagree
  | n + 1, 0, before, s, s', _, hagree, hroom => by
    have hzero := (hroom.zero_iff hagree).mpr rfl
    cases hzero
  | n + 1, n' + 1, before, s, s', hbefore, hagree, hroom => by
    refine Lockstep.look hagree fun u => ?_
    have hall : ∀ a, V a → ∀ b ∈ a :: before, V b :=
      fun a ha => List.forall_mem_cons.mpr ⟨ha, hbefore⟩
    have hrest : ∀ m a, V a → Forward _ (many begins item m (a :: before)) := fun m a ha =>
      ((lockstepSteps k).holds_many hitem m (a :: before) (hall a ha)).1
    split
    · refine (hitem.2 s s' hagree).bind (hitem.1 s) (hitem.1 s') (hrest n) (hrest n') ?_
      intro a t t' ho ho' ha hagree'
      obtain ⟨ts, hm, hts⟩ := Ends.of_ok ho (htakes s)
      obtain ⟨ts', hm', -⟩ := Ends.of_ok ho' (htakes s')
      exact lockstep_many htakes hitem n n' (a :: before) t t' (hall a ha) hagree'
        (hroom.next hagree hm hm' hts hagree')
    · exact .success rfl rfl rfl (fun a ha => hbefore a (List.mem_reverse.mp ha)) hagree

theorem lockstep_separated (htakes : Takes 1 item) (hitem : Local k V item) :
    ∀ (n n' : Nat) (before : List α) (s s' : State),
      (∀ a ∈ before, V a) → Agree k s s' → Room n n' s s' →
      Lockstep k (fun as => ∀ a ∈ as, V a) (separated item n before) (separated item n' before) s s'
  | 0, n', before, s, s', hbefore, hagree, hroom => by
    obtain rfl : n' = 0 := (hroom.zero_iff hagree).mp rfl
    exact ((lockstepSteps k).holds_separated hitem 0 before hbefore).2 s s' hagree
  | n + 1, 0, before, s, s', _, hagree, hroom => by
    have hzero := (hroom.zero_iff hagree).mpr rfl
    cases hzero
  | n + 1, n' + 1, before, s, s', hbefore, hagree, hroom => by
    have hall : ∀ a, V a → ∀ b ∈ a :: before, V b :=
      fun a ha => List.forall_mem_cons.mpr ⟨ha, hbefore⟩
    have hreverse : ∀ a, V a → ∀ b ∈ (a :: before).reverse, V b :=
      fun a ha b hb => hall a ha b (List.mem_reverse.mp hb)
    have hcomma := (lockstepSteps k).follows_acceptSymbol .comma
    -- what follows an item, with either bound
    have hrest : ∀ m a, V a → ∀ found, Forward (fun as => ∀ a ∈ as, V a)
        (if found = true then separated item m (a :: before)
          else pure (a :: before).reverse) := by
      intro m a ha found
      split
      · exact ((lockstepSteps k).holds_separated hitem m (a :: before) (hall a ha)).1
      · exact forward_pure (hreverse a ha)
    have hafter : ∀ m a, V a → Forward (fun as => ∀ a ∈ as, V a) (do
        if ← acceptSymbol .comma then separated item m (a :: before)
        else return (a :: before).reverse) :=
      fun m a ha s => (hcomma.1 s).bind fun found _ => hrest m a ha found
    refine (hitem.2 s s' hagree).bind (hitem.1 s) (hitem.1 s') (hafter n) (hafter n') ?_
    intro a t t' ho ho' ha hagree'
    obtain ⟨ts, hm, hts⟩ := Ends.of_ok ho (htakes s)
    obtain ⟨ts', hm', -⟩ := Ends.of_ok ho' (htakes s')
    refine (hcomma.2 t t' hagree').bind (hcomma.1 t) (hcomma.1 t')
      (fun found _ => hrest n a ha found) (fun found _ => hrest n' a ha found) ?_
    intro found u u' hu hu' _ hagree''
    cases found with
    | false => exact .success rfl rfl rfl (hreverse a ha) hagree''
    | true =>
      obtain ⟨us, hmu⟩ := (hcomma.1 t).moved true u hu
      obtain ⟨us', hmu'⟩ := (hcomma.1 t').moved true u' hu'
      have hlength : 1 ≤ (ts ++ us).length := by rw [List.length_append]; omega
      exact lockstep_separated htakes hitem n n' (a :: before) u u' (hall a ha) hagree''
        (hroom.next hagree (hm.trans hmu) (hm'.trans hmu') hlength hagree'')

end Loops

/-- **To read alike up to an index is a discipline.** -/
def lockstep (k : Nat) : Discipline where
  toStepDiscipline := lockstepSteps k
  repeats begins htakes hitem := by
    refine ⟨forward.repeats begins htakes hitem.1, fun s s' hagree => ?_⟩
    exact (lockstep_many htakes hitem s.rest.length s'.rest.length [] s s' (by simp) hagree
      ⟨Nat.le_refl _, Nat.add_comm _ _⟩).of_eq rfl rfl rfl rfl
  separates htakes hitem := by
    refine ⟨forward.separates htakes hitem.1, fun s s' hagree => ?_⟩
    exact (lockstep_separated htakes hitem s.rest.length s'.rest.length [] s s' (by simp) hagree
      ⟨Nat.le_refl _, Nat.add_comm _ _⟩).of_eq rfl rfl rfl rfl

/-! ## The whole parser -/

/-- Where the parser stands at the end of a run: behind the last token that it consumed.  A token
that it rejects is reported, but not consumed. -/
def cursor (run : Trace ParseReport (Except Stop α)) : Nat :=
  match run.value with
  | .ok _ => cursorAfter 0 run.reports
  | .error stop =>
    if stop.rejects then (run.reports.getLast?.map (·.index)).getD 0 else cursorAfter 0 run.reports

theorem agree_start {tokens tokens' : List Token} (h : ∀ i ≤ k, tokens[i]? = tokens'[i]?) :
    Agree k (.start tokens) (.start tokens') := by
  refine ⟨rfl, Nat.zero_le k, ?_, rfl⟩
  show tokens'.take (k + 1) = tokens.take (k + 1)
  refine List.ext_getElem? fun i => ?_
  simp only [List.getElem?_take]
  split
  · rw [h i (by omega)]
  · rfl

/-- A run that has gone beyond an index does not end before it. -/
theorem Late.lt_cursor {run : Trace ParseReport (Except Stop α)} {out : Except Stop (α × State)}
    {common more : List ParseReport} {p : ParseReport} (h : Late k more out)
    (hvalue : run.value = out.map (·.1)) (hreports : run.reports = common ++ p :: more)
    (hp : p.consumes = true) (hk : p.index = k) : k < cursor run := by
  rcases List.eq_nil_or_concat more with rfl | ⟨before, last, rfl⟩
  · have hcursor : cursorAfter 0 run.reports = k + 1 := by
      simp [cursorAfter, hreports, ParseReport.behind, hp, hk]
    unfold cursor
    split
    · rw [hcursor]
      exact Nat.lt_succ_self k
    · rename_i stop hstop
      have hout : out = .error stop := by
        cases out with
        | error stop' =>
          rw [hvalue] at hstop
          cases hstop
          rfl
        | ok x =>
          rw [hvalue] at hstop
          cases hstop
      simp [h.stop rfl stop hout, hcursor]
  · have hlt : k < last.index := h.reports last (by simp)
    have hlast : run.reports.getLast? = some last := by
      rw [hreports, List.concat_eq_append, ← List.cons_append, ← List.append_assoc,
        List.getLast?_concat]
    have hafter : k < cursorAfter 0 run.reports := by
      rw [cursorAfter, hlast]
      exact Nat.lt_of_lt_of_le hlt last.le_behind
    unfold cursor
    split
    · exact hafter
    · split
      · rw [hlast]
        exact hlt
      · exact hafter

/-- Behind the index at which two runs part there are no reports before it. -/
theorem Late.filter {out : Except Stop (α × State)} {more : List ParseReport} (h : Late k more out)
    {j : Nat} (hj : j ≤ k + 1) : more.filter (·.index < j) = [] := by
  refine List.filter_eq_nil_iff.mpr fun p hp => ?_
  have hlt := h.reports p hp
  simp only [decide_eq_true_eq]
  omega

end Grammar

open Grammar in
/-- **The parser does not look ahead.**  Let two lists of tokens agree up to index `k`.  If the
parser ends with its cursor at `k` or before, at an error or not, then it reports the same on the
other list and ends in the same.  And wherever it ends, the reports with an index up to `k` are the
same on both lists. -/
theorem parse_local (tokens tokens' : List Token) (prototypes : List Prototype) (k : Nat)
    (h : ∀ i ≤ k, tokens[i]? = tokens'[i]?) :
    (cursor (Program.parse frames tokens prototypes) ≤ k →
      (Program.parse frames tokens' prototypes).reports =
        (Program.parse frames tokens prototypes).reports ∧
      (Program.parse frames tokens' prototypes).value =
        (Program.parse frames tokens prototypes).value) ∧
    ∀ j ≤ k + 1, (Program.parse frames tokens' prototypes).reports.filter (·.index < j) =
      (Program.parse frames tokens prototypes).reports.filter (·.index < j) := by
  have hlockstep : Lockstep k (fun _ => True) (program (registered prototypes) frames)
      (program (registered prototypes) frames) (.start tokens) (.start tokens') :=
    (lockstep k).follows_program.2 _ _ (agree_start h)
  have hvalue := @ofTokens_eq frames tokens prototypes
  have hvalue' := @ofTokens_eq frames tokens' prototypes
  unfold Program.ofTokens at hvalue hvalue'
  have hreports := @parse_reports frames tokens prototypes
  have hreports' := @parse_reports frames tokens' prototypes
  cases hlockstep with
  | success heq ho ho' =>
    rw [ho] at hvalue
    rw [ho'] at hvalue'
    rw [hvalue, hvalue', hreports, hreports', heq]
    exact ⟨fun _ => ⟨rfl, rfl⟩, fun _ _ => rfl⟩
  | stop heq ho ho' =>
    rw [ho] at hvalue
    rw [ho'] at hvalue'
    rw [hvalue, hvalue', hreports, hreports', heq]
    exact ⟨fun _ => ⟨rfl, rfl⟩, fun _ _ => rfl⟩
  | parted hsplit hsplit' hp hk hlate hlate' =>
    rw [hsplit] at hreports
    rw [hsplit'] at hreports'
    refine ⟨fun hle => absurd hle (Nat.not_le_of_lt ?_), fun j hj => ?_⟩
    · exact hlate.lt_cursor hvalue hreports hp hk
    · rw [hreports, hreports']
      simp only [List.filter_append, List.filter_cons, hlate.filter hj, hlate'.filter hj]

open Grammar in
/-- In `PRINT );` and `PRINT ) END` the parenthesis is no operand: the parser does not see what
comes behind it. -/
theorem parse_local_no_operand :
    let print : Token := ⟨.keyword .print, some (.text "PRINT"), 0⟩
    let closing : Token := ⟨.symbol .rightParen, some (.text ")"), 6⟩
    let tokens := [print, closing, ⟨.symbol .semicolon, some (.text ";"), 7⟩, .atEnd 8]
    let tokens' := [print, closing, ⟨.keyword .end_, some (.text "END"), 8⟩, .atEnd 11]
    (∀ i ≤ 1, tokens[i]? = tokens'[i]?) ∧ cursor (Program.parse 100 tokens []) ≤ 1 ∧
      (Program.parse 100 tokens' []).reports = (Program.parse 100 tokens []).reports ∧
      (Program.parse 100 tokens' []).value = (Program.parse 100 tokens []).value := by
  intro print closing tokens tokens'
  have hagree : ∀ i ≤ 1, tokens[i]? = tokens'[i]? := by
    intro i hi
    match i, hi with
    | 0, _ => rfl
    | 1, _ => rfl
  have hcursor : cursor (Program.parse 100 tokens []) ≤ 1 := by decide +kernel
  exact ⟨hagree, hcursor, (parse_local tokens tokens' [] 1 hagree).1 hcursor⟩

end Slang
