import Slang.Proofs.Drawing
import Slang.Proofs.ExpressionParsing

/-!
# Events of the parser

A reader is judged by the events that it reports on success.

* `Emits r s Q` — on success the events, the value and the state are as `Q` says.
* `Silent r` — the reader changes nothing that is displayed. All that looks at tokens is silent, the
  parser of expressions included.
* `Grows r s P` — on success, trees as `P` says have been drawn below the innermost open node.
* `Closes label r s P` — the reader also closes that node, which was opened with the label.
* `treeEvents` — the events of a whole tree.

Principal results: `Grows.bind`, `Closes.bind`, `grows_begin`, and `grows_expression`: what is drawn
of an expression is the expression.
-/

set_option autoImplicit false

namespace Slang.Grammar

open Drawing

variable {α β : Type} {s s' : State}

/-! ## Events of a reader -/

/-- The events that a reader reports on its way. -/
def events (r : Reader α) (s : State) : List TreeEvent := (r.run s).run.reports.filterMap (·.event)

/-- On success the events, the value and the state are as `Q` says. -/
def Emits (r : Reader α) (s : State) (Q : List TreeEvent → α → State → Prop) : Prop :=
  ∀ a s', outcome r s = .ok (a, s') → Q (events r s) a s'

section Emits

variable {r : Reader α} {P Q : List TreeEvent → α → State → Prop}

/-- A sequence succeeds only if both parts do. -/
theorem outcome_bind_inv {f : α → Reader β} {b : β} {s'' : State}
    (h : outcome (r >>= f) s = .ok (b, s'')) :
    ∃ a s', outcome r s = .ok (a, s') ∧ outcome (f a) s' = .ok (b, s'') := by
  rw [outcome_bind] at h
  cases hr : outcome r s with
  | error stop =>
    rw [hr] at h
    cases h
  | ok out =>
    rw [hr] at h
    exact ⟨out.1, out.2, rfl, h⟩

theorem events_bind {f : α → Reader β} {a : α} (h : outcome r s = .ok (a, s')) :
    events (r >>= f) s = events r s ++ events (f a) s' := by
  show List.filterMap _ (Trace.reports (_ >>= _)) = _
  rw [Trace.reports_bind, List.filterMap_append]
  show _ ++ List.filterMap _ (Trace.reports (ExceptT.bindCont _ (outcome r s))) = _
  rw [h]
  rfl

theorem events_bind_error {f : α → Reader β} {stop : Stop} (h : outcome r s = .error stop) :
    events (r >>= f) s = events r s := by
  show List.filterMap _ (Trace.reports (_ >>= _)) = _
  rw [Trace.reports_bind, List.filterMap_append]
  show _ ++ List.filterMap _ (Trace.reports (ExceptT.bindCont _ (outcome r s))) = _
  rw [h]
  exact List.append_nil _

theorem Emits.mono (h : Emits r s P) (hPQ : ∀ es a s', P es a s' → Q es a s') : Emits r s Q :=
  fun a s' ho => hPQ _ a s' (h a s' ho)

/-- Sequencing: first the events of the one, then those of the other. -/
theorem Emits.bind {f : α → Reader β} {R : List TreeEvent → β → State → Prop} (h : Emits r s P)
    (hf : ∀ es a s', P es a s' → Emits (f a) s' fun fs b s'' => R (es ++ fs) b s'') :
    Emits (r >>= f) s R := by
  intro b s'' ho
  obtain ⟨a, s', hr, hb⟩ := outcome_bind_inv ho
  rw [events_bind hr]
  exact hf _ a s' (h a s' hr) b s'' hb

theorem emits_pure {a : α} (h : Q [] a s) : Emits (pure a) s Q := by
  intro b s' ho
  cases ho
  exact h

theorem emits_throw {stop : Stop} : Emits (throw stop) s Q := by
  intro a s' ho
  cases ho

theorem emits_fail {cause : CompileError.Cause} {pos : Int} : Emits (fail cause pos) s Q :=
  emits_throw

/-- Nothing is drawn behind a failure. -/
theorem emits_fail_bind {cause : CompileError.Cause} {pos : Int} {f : α → Reader β}
    {R : List TreeEvent → β → State → Prop} : Emits (fail cause pos >>= f) s R := by
  intro a s' ho
  cases ho

theorem emits_get : Emits get s fun es a s' => es = [] ∧ a = s ∧ s' = s := by
  intro a s' ho
  cases ho
  exact ⟨rfl, rfl, rfl⟩

theorem emits_modify (f : State → State) :
    Emits (modify f) s fun es _ s' => es = [] ∧ s' = f s := by
  intro a s' ho
  cases ho
  exact ⟨rfl, rfl⟩

theorem emits_set (t : State) : Emits (set t) s fun es _ s' => es = [] ∧ s' = t := by
  intro a s' ho
  cases ho
  exact ⟨rfl, rfl⟩

theorem emits_current : Emits current s fun es _ s' => es = [] ∧ s' = s := by
  unfold current
  refine emits_get.bind ?_
  rintro _ _ _ ⟨rfl, rfl, rfl⟩
  split
  · exact emits_pure ⟨rfl, rfl⟩
  · exact emits_throw

theorem emits_tell (report : ParseReport) :
    Emits (tell report) s fun es _ s' => es = report.event.toList ∧ s' = s := by
  intro a s' ho
  cases ho
  refine ⟨?_, rfl⟩
  show List.filterMap _ [report] = _
  cases h : report.event <;> simp [h]

/-- The event of a report is the only one. -/
theorem emits_report (message : String) (event : Option TreeEvent) :
    Emits (report message event) s fun es _ s' => es = event.toList ∧ s' = s := by
  unfold report
  refine emits_current.bind ?_
  rintro _ t _ ⟨rfl, rfl⟩
  refine emits_get.bind ?_
  rintro _ _ _ ⟨rfl, rfl, rfl⟩
  exact emits_tell _

end Emits

/-! ## Readers that draw nothing -/

/-- Node numbers and open nodes are the same. -/
structure Kept (s s' : State) : Prop where
  nextId : s'.nextId = s.nextId
  parents : s'.parents = s.parents

theorem Kept.refl (s : State) : Kept s s := ⟨rfl, rfl⟩

theorem Kept.trans {s'' : State} (h : Kept s s') (h' : Kept s' s'') : Kept s s'' :=
  ⟨h'.nextId.trans h.nextId, h'.parents.trans h.parents⟩

theorem kept_step (s : State) : Kept s (step s) := by
  unfold step
  split
  · split
    · exact .refl s
    · exact ⟨rfl, rfl⟩
  · exact .refl s

/-- The reader changes nothing that is displayed, whether it succeeds or not. -/
def Silent (r : Reader α) : Prop :=
  ∀ s, events r s = [] ∧ ∀ a s', outcome r s = .ok (a, s') → Kept s s'

section Silent

variable {r : Reader α} {f : α → Reader β}

theorem Silent.emits (h : Silent r) : Emits r s fun es _ s' => es = [] ∧ Kept s s' := by
  intro a s' ho
  exact ⟨(h s).1, (h s).2 a s' ho⟩

theorem Silent.bind (h : Silent r) (hf : ∀ a, Silent (f a)) : Silent (r >>= f) := by
  intro s
  cases hr : outcome r s with
  | error stop =>
    rw [events_bind_error hr, outcome_bind, hr]
    exact ⟨(h s).1, nofun⟩
  | ok out =>
    obtain ⟨a, s'⟩ := out
    have hkept := (h s).2 a s' hr
    rw [events_bind hr, outcome_bind, hr, (h s).1, (hf a s').1]
    exact ⟨rfl, fun b s'' ho => hkept.trans ((hf a s').2 b s'' ho)⟩

theorem silent_pure (a : α) : Silent (pure a : Reader α) := by
  intro s
  refine ⟨rfl, fun b s' ho => ?_⟩
  cases ho
  exact .refl s

theorem silent_throw (stop : Stop) : Silent (throw stop : Reader α) := fun _ => ⟨rfl, nofun⟩

theorem silent_fail (cause : CompileError.Cause) (pos : Int) : Silent (fail cause pos : Reader α) :=
  silent_throw _

theorem silent_get : Silent (get : Reader State) := by
  intro s
  refine ⟨rfl, fun t s' ho => ?_⟩
  cases ho
  exact .refl s

theorem silent_modify {g : State → State} (hg : ∀ s, Kept s (g s)) :
    Silent (modify g : Reader PUnit) := by
  intro s
  refine ⟨rfl, fun t s' ho => ?_⟩
  cases ho
  exact hg s

theorem silent_tell {report : ParseReport} (h : report.event = none) : Silent (tell report) := by
  intro s
  refine ⟨?_, fun t s' ho => ?_⟩
  · show List.filterMap _ [report] = _
    simp [h]
  · cases ho
    exact .refl s

theorem silent_current : Silent current := by
  refine silent_get.bind fun s => ?_
  split
  · exact silent_pure _
  · exact silent_throw _

theorem silent_report (message : String) : Silent (report message none) :=
  silent_current.bind fun _ => silent_get.bind fun _ => silent_tell rfl

theorem silent_remaining : Silent remaining :=
  silent_get.bind fun _ => silent_pure _

theorem silent_advance (message : String) : Silent (advance message) :=
  silent_current.bind fun _ => (silent_report message).bind fun _ =>
    (silent_modify kept_step).bind fun _ => silent_pure _

theorem silent_reject (cause : CompileError.Cause) (pos : Int) :
    Silent (reject cause pos : Reader α) :=
  (silent_report _).bind fun _ => silent_fail _ _

theorem silent_expect (kinds : List Token.Kind) : Silent (expect kinds) := by
  refine silent_current.bind fun t => ?_
  split
  · exact silent_advance _
  · exact silent_reject _ _

theorem silent_accept (pick : Token.Kind → Option β) : Silent (accept pick) := by
  refine silent_current.bind fun t => ?_
  split
  · exact (silent_advance _).bind fun _ => silent_pure _
  · exact silent_pure _

theorem silent_acceptSymbol (x : Symbol) : Silent (acceptSymbol x) :=
  (silent_accept _).bind fun _ => silent_pure _

theorem silent_tooDeep : Silent (tooDeep : Reader α) :=
  silent_current.bind fun _ => silent_fail _ _

theorem silent_separated {item : Reader α} (hitem : Silent item) :
    ∀ (n : Nat) (before : List α), Silent (separated item n before)
  | 0, _ => silent_throw _
  | n + 1, before => by
    refine hitem.bind fun a => (silent_acceptSymbol _).bind fun found => ?_
    cases found with
    | true => exact silent_separated hitem n (a :: before)
    | false => exact silent_pure _

theorem silent_chain {operand again : Reader Expr} {pick : Symbol → Option Operator}
    {build : Mark → Operator → Expr → Expr → Expr} (ho : Silent operand) (ha : Silent again) :
    Silent (chain operand pick again build) := by
  refine ho.bind fun left => (silent_accept _).bind fun found => ?_
  cases found with
  | some x => exact ha.bind fun _ => silent_pure _
  | none => exact silent_pure _

/-- Parsing an expression draws nothing; it is drawn as a whole once it has been checked. -/
theorem silent_level (known : Signatures) : ∀ n : Nat,
    (∀ l : Level, Silent (l.read known n)) ∧ Silent (identifier known n)
  | 0 => ⟨fun l => by rw [l.read_zero]; exact silent_tooDeep, silent_tooDeep⟩
  | n + 1 => by
    obtain ⟨hlevel, hident⟩ := silent_level known n
    refine ⟨fun l => ?_, ?_⟩
    · cases hl : l.inner with
      | some m =>
        rw [Level.read_succ hl]
        exact silent_chain (hlevel m) (hlevel l)
      | none =>
        cases l <;> cases hl
        show Silent (factor known (n + 1))
        unfold factor
        refine silent_current.bind fun t => ?_
        split
        · exact (silent_advance _).bind fun _ => silent_pure _
        · exact (silent_advance _).bind fun _ => silent_pure _
        · exact (silent_advance _).bind fun _ => silent_pure _
        · exact (silent_advance _).bind fun _ => silent_pure _
        · exact (silent_advance _).bind fun _ => Silent.bind (hlevel .logical) fun _ =>
            (silent_expect _).bind fun _ => silent_pure _
        · exact (silent_advance _).bind fun _ => Silent.bind (hlevel .factor) fun _ => silent_pure _
        · exact (silent_advance _).bind fun _ => Silent.bind (hlevel .factor) fun _ => silent_pure _
        · exact (silent_advance _).bind fun _ => Silent.bind (hlevel .factor) fun _ => silent_pure _
        · exact hident
        · exact silent_reject _ _
    · unfold identifier
      refine (silent_expect _).bind fun t => ?_
      dsimp only
      split
      · refine silent_current.bind fun u => ?_
        split
        · exact silent_fail _ _
        · exact silent_pure _
      · refine (silent_expect _).bind fun _ => (silent_acceptSymbol _).bind fun found => ?_
        cases found with
        | true => exact silent_pure _
        | false =>
          exact silent_remaining.bind fun k => (silent_separated (hlevel .logical) k []).bind
            fun _ => (silent_expect _).bind fun _ => silent_pure _

end Silent

/-! ## Readers that draw trees -/

/-- On success trees have been drawn below the innermost open node, with the next free numbers, and
they are as `P` says. -/
def Grows (r : Reader α) (s : State) (P : α → List Drawing → Prop) : Prop :=
  Emits r s fun es a s' => s'.parents = s.parents ∧
    ∃ n ts, s'.nextId = s.nextId + n ∧ Draws s.parent s.nextId n es ts ∧ P a ts

/-- On success the innermost open node, which was opened with this label, has been closed; `P` is
about its last label and its children. -/
def Closes (label : String) (r : Reader α) (s : State) (P : α → String → List Drawing → Prop) :
    Prop :=
  Emits r s fun es a s' => s'.parents = s.parents.tail ∧
    ∃ n ts fs close name, s'.nextId = s.nextId + n ∧ es = fs ++ close ∧
      Draws s.parent s.nextId n fs ts ∧ Draws.Closing s.parent name close ∧ P a (name label) ts

section Grows

variable {r : Reader α} {f : α → Reader β} {P : α → List Drawing → Prop} {label : String}

theorem parent_congr (h : s'.parents = s.parents) : s'.parent = s.parent := by
  rw [State.parent, h, State.parent]

theorem Grows.mono {Q : α → List Drawing → Prop} (h : Grows r s P)
    (hPQ : ∀ a ts, P a ts → Q a ts) : Grows r s Q := by
  refine Emits.mono h ?_
  rintro es a s' ⟨hparents, n, ts, hnext, hdraws, hP⟩
  exact ⟨hparents, n, ts, hnext, hdraws, hPQ a ts hP⟩

theorem Grows.bind {Q : β → List Drawing → Prop} (h : Grows r s P)
    (hf : ∀ a ts s', s'.parents = s.parents → P a ts → Grows (f a) s' fun b us => Q b (ts ++ us)) :
    Grows (r >>= f) s Q := by
  refine Emits.bind h ?_
  rintro es a s' ⟨hparents, m, ts, hnext, hdraws, hP⟩
  refine Emits.mono (hf a ts s' hparents hP) ?_
  rintro fs b s'' ⟨hparents', n, us, hnext', hdraws', hQ⟩
  rw [parent_congr hparents, hnext] at hdraws'
  refine ⟨hparents'.trans hparents, m + n, ts ++ us, ?_, hdraws.append hdraws', hQ⟩
  rw [hnext', hnext, Nat.add_assoc]

theorem grows_pure {a : α} (h : P a []) : Grows (pure a) s P :=
  emits_pure ⟨rfl, 0, [], rfl, .nil, h⟩

theorem Silent.grows (h : Silent r) : Grows r s fun _ ts => ts = [] := by
  refine h.emits.mono ?_
  rintro _ a s' ⟨rfl, hkept⟩
  exact ⟨hkept.parents, 0, [], hkept.nextId, .nil, rfl⟩

theorem Silent.grows_bind {Q : β → List Drawing → Prop} (h : Silent r)
    (hf : ∀ a s', s'.parents = s.parents → Grows (f a) s' Q) : Grows (r >>= f) s Q := by
  refine h.grows.bind ?_
  rintro a _ s' hparents rfl
  exact hf a s' hparents

/-- Something is drawn inside a node before it is closed. -/
theorem Closes.bind {Q : β → String → List Drawing → Prop} (h : Grows r s P)
    (hf : ∀ a ts s', s'.parents = s.parents → P a ts →
      Closes label (f a) s' fun b l us => Q b l (ts ++ us)) :
    Closes label (r >>= f) s Q := by
  refine Emits.bind h ?_
  rintro es a s' ⟨hparents, m, ts, hnext, hdraws, hP⟩
  refine Emits.mono (hf a ts s' hparents hP) ?_
  rintro _ b s'' ⟨hparents', n, us, fs, close, name, hnext', rfl, hdraws', hclose, hQ⟩
  rw [parent_congr hparents] at hdraws' hclose
  rw [hnext] at hdraws'
  refine ⟨?_, m + n, ts ++ us, es ++ fs, close, name, ?_, ?_, hdraws.append hdraws', hclose, hQ⟩
  · rw [hparents', hparents]
  · rw [hnext', hnext, Nat.add_assoc]
  · rw [List.append_assoc]

theorem Silent.closes_bind {Q : β → String → List Drawing → Prop} (h : Silent r)
    (hf : ∀ a s', s'.parents = s.parents → Closes label (f a) s' Q) :
    Closes label (r >>= f) s Q := by
  refine Closes.bind h.grows ?_
  rintro a _ s' hparents rfl
  exact hf a s' hparents

/-- The innermost open node is popped. -/
theorem removeOpen_parent {id : Nat} (h : s.parent = id) :
    removeOpen id s.parents = s.parents.tail := by
  unfold State.parent at h
  unfold removeOpen
  cases hparents : s.parents with
  | nil => simp
  | cons parent parents =>
    rw [hparents] at h
    exact if_pos (congrArg some h)

theorem emits_finish {id : Nat} (hid : s.parent = id) :
    Emits (finish id) s fun es _ s' => es = [.complete id] ∧ s'.parents = s.parents.tail ∧
      s'.nextId = s.nextId := by
  refine (emits_modify _).bind ?_
  rintro _ _ _ ⟨rfl, rfl⟩
  refine (emits_report _ _).mono ?_
  rintro _ _ _ ⟨rfl, rfl⟩
  exact ⟨rfl, removeOpen_parent hid, rfl⟩

/-- The node keeps the label that it was opened with. -/
theorem closes_finish {id : Nat} {a : α} {Q : α → String → List Drawing → Prop}
    (hid : s.parent = id) (h : Q a label []) :
    Closes label (do finish id; return a) s Q := by
  refine (emits_finish hid).bind ?_
  rintro _ _ s' ⟨rfl, hparents, hnext⟩
  rw [← hid]
  exact emits_pure ⟨hparents, 0, [], [], _, _, hnext, rfl, .nil, Draws.closing_complete, h⟩

/-- The node gets another label before it is closed. -/
theorem closes_relabel {id : Nat} {a : α} {last : String} {Q : α → String → List Drawing → Prop}
    (hid : s.parent = id) (h : Q a last []) :
    Closes label (do relabel id last; finish id; return a) s Q := by
  refine (emits_report _ _).bind ?_
  rintro _ _ _ ⟨rfl, rfl⟩
  refine (emits_finish hid).bind ?_
  rintro _ _ s' ⟨rfl, hparents, hnext⟩
  rw [← hid]
  exact emits_pure ⟨hparents, 0, [], [], _, _, hnext, rfl, .nil, Draws.closing_update, h⟩

theorem emits_freshId :
    Emits freshId s fun es id s' => es = [] ∧ id = s.nextId ∧ s'.parents = s.parents ∧
      s'.nextId = s.nextId + 1 := by
  intro a s' ho
  cases ho
  exact ⟨rfl, rfl, rfl, rfl⟩

theorem emits_begin (label : String) :
    Emits (begin label) s fun es id s' => es = [.add s.parent s.nextId label false] ∧
      id = s.nextId ∧ s'.parents = s.nextId :: s.parents ∧ s'.nextId = s.nextId + 1 := by
  refine emits_get.bind ?_
  rintro _ _ _ ⟨rfl, rfl, rfl⟩
  refine emits_freshId.bind ?_
  rintro _ _ s₁ ⟨rfl, rfl, hparents, hnext⟩
  refine (emits_report _ _).bind ?_
  rintro _ _ _ ⟨rfl, rfl⟩
  refine (emits_modify _).bind ?_
  rintro _ _ _ ⟨rfl, rfl⟩
  exact emits_pure ⟨rfl, rfl, by rw [hparents], hnext⟩

/-- **A node**: it is opened, something is drawn inside, and it is closed. -/
theorem grows_begin {body : Nat → Reader α}
    (h : ∀ s', s'.parents = s.nextId :: s.parents → Closes label (body s.nextId) s' fun a l ts =>
      P a [.node (some s.nextId) l ts]) :
    Grows (begin label >>= body) s P := by
  refine (emits_begin label).bind ?_
  rintro _ _ s' ⟨rfl, rfl, hparents, hnext⟩
  refine Emits.mono (h s' hparents) ?_
  rintro _ a s'' ⟨hparents', n, ts, fs, close, name, hnext', rfl, hdraws, hclose, hP⟩
  have hparent : s'.parent = s.nextId := by
    rw [State.parent, hparents]
    rfl
  rw [hparent, hnext] at hdraws
  rw [hparent] at hclose
  refine ⟨?_, n + 1, _, ?_, hdraws.node hclose, hP⟩
  · rw [hparents', hparents, List.tail_cons]
  · omega

theorem emits_addLeaf (parent : Nat) (label : String) :
    Emits (addLeaf parent label) s fun es _ s' => es = [.add parent s.nextId label true] ∧
      s'.parents = s.parents ∧ s'.nextId = s.nextId + 1 := by
  refine emits_freshId.bind ?_
  rintro _ _ s' ⟨rfl, rfl, hparents, hnext⟩
  refine (emits_report _ _).mono ?_
  rintro _ _ _ ⟨rfl, rfl⟩
  exact ⟨rfl, hparents, hnext⟩

theorem grows_addLeaf {parent : Nat} (hparent : s.parent = parent) :
    Grows (addLeaf parent label) s fun _ ts => ∃ id, ts = [.node id label []] := by
  refine (emits_addLeaf parent label).mono ?_
  rintro _ _ s' ⟨rfl, hparents, hnext⟩
  rw [← hparent]
  exact ⟨hparents, 1, _, hnext, Draws.leaf, _, rfl⟩

end Grows

/-! ## Expressions -/

mutual

/-- The events of a whole tree. -/
def treeEvents (parent : Nat) : Outline → List TreeEvent
  | .node _ label mark _ children =>
    .add parent (mark.id.getD 0) label children.isEmpty ::
      (treeEventsAll (mark.id.getD 0) children ++
        if children.isEmpty then [] else [.complete (mark.id.getD 0)])

/-- The events of a list of trees. -/
def treeEventsAll (parent : Nat) : List Outline → List TreeEvent
  | [] => []
  | o :: rest => treeEvents parent o ++ treeEventsAll parent rest

end

mutual

theorem emits_announce (parent : Nat) : ∀ (o : Outline) (s : State),
    Emits (announce parent o) s fun es _ s' => es = treeEvents parent o ∧ s' = s
  | .node _ label mark _ children, s => by
    rw [announce, treeEvents]
    refine (emits_report _ _).bind ?_
    rintro _ _ _ ⟨rfl, rfl⟩
    refine Emits.bind (emits_announceAll _ children _) ?_
    rintro _ _ _ ⟨rfl, rfl⟩
    cases children.isEmpty with
    | true => exact emits_pure ⟨rfl, rfl⟩
    | false =>
      refine (emits_report _ _).mono ?_
      rintro _ _ _ ⟨rfl, rfl⟩
      exact ⟨rfl, rfl⟩

theorem emits_announceAll (parent : Nat) : ∀ (os : List Outline) (s : State),
    Emits (announceAll parent os) s fun es _ s' => es = treeEventsAll parent os ∧ s' = s
  | [], s => emits_pure ⟨rfl, rfl⟩
  | o :: rest, s => by
    rw [announceAll, treeEventsAll]
    refine Emits.bind (emits_announce parent o s) ?_
    rintro _ _ _ ⟨rfl, rfl⟩
    refine Emits.mono (emits_announceAll parent rest _) ?_
    rintro _ _ _ ⟨rfl, rfl⟩
    exact ⟨rfl, rfl⟩

end

/-- A numbered node is drawn if its children are. -/
theorem draws_treeEvents {p a n : Nat} {kind : NodeKind} {label : String} {pos : Option Int}
    {ty : Tag} {children : List Outline}
    (h : Draws a (a + 1) n (treeEventsAll a children) (Outline.drawings children)) :
    Draws p a (n + 1) (treeEvents p (.node kind label ⟨pos, some a⟩ ty children))
      [(Outline.node kind label ⟨pos, some a⟩ ty children).drawing] := by
  cases children with
  | nil =>
    have hn : n = 0 := by
      have hids := congrArg List.length h.ids
      simpa [Outline.drawings, idsAll, numbers] using hids.symm
    subst hn
    exact .leaf
  | cons o rest => exact h.node Draws.closing_complete

/-- The expression is drawn as it is, whatever its first number and the node above it. -/
def Drawn (e : Expr) : Prop :=
  ∀ p a : Nat, ∃ n, (e.enumerate a).2 = a + n ∧
    Draws p a n (treeEvents p (e.enumerate a).1.outline) [(e.enumerate a).1.outline.drawing]

/-- Two operands, the numbers of the second behind those of the first. -/
theorem draws_pair {l r : Expr} (hl : Drawn l) (hr : Drawn r) (p a : Nat) (kind : NodeKind)
    (label : String) (pos : Option Int) (ty : Tag) :
    ∃ n, (r.enumerate (l.enumerate (a + 1)).2).2 = a + n ∧
      Draws p a n
        (treeEvents p (.node kind label ⟨pos, some a⟩ ty [(l.enumerate (a + 1)).1.outline,
          (r.enumerate (l.enumerate (a + 1)).2).1.outline]))
        [(Outline.node kind label ⟨pos, some a⟩ ty [(l.enumerate (a + 1)).1.outline,
          (r.enumerate (l.enumerate (a + 1)).2).1.outline]).drawing] := by
  obtain ⟨m, hm, hdraws⟩ := hl a (a + 1)
  rw [hm]
  obtain ⟨n, hn, hdraws'⟩ := hr a (a + 1 + m)
  refine ⟨m + n + 1, by omega, draws_treeEvents ?_⟩
  simp only [treeEventsAll, List.append_nil]
  exact hdraws.append hdraws'

/-- One operand. -/
theorem draws_single {e : Expr} (he : Drawn e) (p a : Nat) (kind : NodeKind) (label : String)
    (pos : Option Int) (ty : Tag) :
    ∃ n, (e.enumerate (a + 1)).2 = a + n ∧
      Draws p a n
        (treeEvents p (.node kind label ⟨pos, some a⟩ ty [(e.enumerate (a + 1)).1.outline]))
        [(Outline.node kind label ⟨pos, some a⟩ ty [(e.enumerate (a + 1)).1.outline]).drawing] := by
  obtain ⟨m, hm, hdraws⟩ := he a (a + 1)
  refine ⟨m + 1, by omega, draws_treeEvents ?_⟩
  simp only [treeEventsAll, List.append_nil]
  exact hdraws

mutual

/-- **A numbered expression is drawn as it is.** -/
theorem drawn : ∀ e : Expr, Drawn e
  | .number m x, p, a => ⟨1, rfl, draws_treeEvents .nil⟩
  | .truth m b, p, a => ⟨1, rfl, draws_treeEvents .nil⟩
  | .text m t, p, a => ⟨1, rfl, draws_treeEvents .nil⟩
  | .var v, p, a => ⟨1, rfl, draws_treeEvents .nil⟩
  | .arith m t op l r, p, a => draws_pair (drawn l) (drawn r) p a ..
  | .compare m t op l r, p, a => draws_pair (drawn l) (drawn r) p a ..
  | .logic m t op l r, p, a => draws_pair (drawn l) (drawn r) p a ..
  | .not m t e, p, a => draws_single (drawn e) p a ..
  | .sign m t op e, p, a => draws_single (drawn e) p a ..
  | .call m t f sig args, p, a => by
    obtain ⟨n, hn, hdraws⟩ := draws_enumerateAll a args (a + 1)
    exact ⟨n + 1, hn.trans (by omega), draws_treeEvents hdraws⟩

theorem draws_enumerateAll (p : Nat) : ∀ (es : List Expr) (a : Nat),
    ∃ n, (Expr.enumerateAll a es).2 = a + n ∧
      Draws p a n (treeEventsAll p (Expr.outlines (Expr.enumerateAll a es).1))
        (Outline.drawings (Expr.outlines (Expr.enumerateAll a es).1))
  | [], a => ⟨0, rfl, .nil⟩
  | e :: rest, a => by
    obtain ⟨m, hm, hdraws⟩ := drawn e p a
    obtain ⟨n, hn, hdraws'⟩ := draws_enumerateAll p rest (a + m)
    refine ⟨m + n, ?_, ?_⟩
    · simp only [Expr.enumerateAll, hm, hn, Nat.add_assoc]
    · simp only [Expr.enumerateAll, hm]
      exact hdraws.append hdraws'

end

/-- What is drawn of an expression is the expression. -/
theorem grows_expression (known : Signatures) (n : Nat) :
    Grows (expression known n) s fun r ts => ts = [r.1.outline.drawing] := by
  refine ((silent_level known n).1 .logical).grows_bind fun parsed _ _ => ?_
  refine emits_get.bind ?_
  rintro _ _ s₁ ⟨rfl, rfl, rfl⟩
  split
  · exact emits_throw
  · rename_i checked ty _
    obtain ⟨m, hm, hdraws⟩ := drawn checked s₁.parent s₁.nextId
    refine (emits_set _).bind ?_
    rintro _ _ _ ⟨rfl, rfl⟩
    refine (emits_announce _ _ _).bind ?_
    rintro _ _ _ ⟨rfl, rfl⟩
    refine emits_pure ⟨rfl, m, _, hm, ?_, rfl⟩
    simpa using hdraws

end Slang.Grammar
