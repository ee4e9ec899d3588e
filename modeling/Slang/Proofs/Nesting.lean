import Slang.Proofs.Redrawing

/-!
# Nodes are closed in the order in which they were opened

Nodes of the displayed tree are opened and closed by hand all over the parser, numbered expressions
are drawn in one go, and an error may leave nodes open. At each point of each run, failed ones
included, the events are nested all the same.

* `TreeEvent.opened events` — the nodes that are open behind some events, the latest first.
* `TreeEvent.WellNested events` — numbers without gaps, parents that are the latest open node, and
  only that node is closed.
* `TreeEvent.Fits`, `TreeEvent.Nested` — the same as a rule for one event and as its closure;
  `Nested.wellNested` reads the former off the latter.
* `nested_expr` — a numbered expression is nested below any node.
* `Tidy r s` — a run of a reader in which a node is only ever closed while it is on top of the open
  nodes. `Tidy.nests` — the events of such a run are nested, wherever it stops.
* `Keeps`, `Within`, `Shuts` — tidy readers that leave the open nodes as they are, do so below a
  given node, or close that node.
* `keeps_statement`, `keeps_function`, `keeps_program` — the parser is tidy.

Principal result: `parse_nested` — the events of every parse are well nested; no node is ever taken
out from below another one; and a parse that succeeds leaves none open.
-/

set_option autoImplicit false

namespace Slang

variable {frames : Nat}

/-! ## Nested events -/

namespace TreeEvent

/-- The number of the node that an event adds. -/
def added : TreeEvent → Option Nat
  | .add _ id _ _ => some id
  | _ => none

/-- The number of the node that an event closes. A node that is added as complete is closed at once.
-/
def closed : TreeEvent → Option Nat
  | .add _ id _ true => some id
  | .complete id => some id
  | _ => none

/-- The open nodes behind an event, the latest first. -/
def restack (stack : List Nat) : TreeEvent → List Nat
  | .add _ id _ false => id :: stack
  | .complete id => stack.erase id
  | _ => stack

/-- The open nodes behind some events, the latest first. -/
def opened (events : List TreeEvent) : List Nat := events.foldl restack []

/-- How the events of a tree follow each other. -/
structure WellNested (events : List TreeEvent) : Prop where
  /-- Nodes are numbered from one on, in the order in which they are added. -/
  numbered : events.filterMap added = List.range' 1 (events.filterMap added).length
  /-- A node is added below the latest one that is still open, or below the root. -/
  parent : ∀ (before behind : List TreeEvent) (parent id : Nat) (label : String) (complete : Bool),
    events = before ++ .add parent id label complete :: behind → parent = (opened before).headD 0
  /-- A node is relabelled while it is open. -/
  relabelled : ∀ (before behind : List TreeEvent) (id : Nat) (label : String),
    events = before ++ .update id label :: behind → id ∈ opened before
  /-- The node that is completed is the latest one that is still open. -/
  innermost : ∀ (before behind : List TreeEvent) (id : Nat),
    events = before ++ .complete id :: behind → (opened before).head? = some id
  /-- No node is closed twice. -/
  once : (events.filterMap closed).Nodup

/-- An event that fits: what it does to the next free number and to the open nodes. -/
inductive Fits : Nat → List Nat → TreeEvent → Nat → List Nat → Prop
  | opens (n : Nat) (stack : List Nat) (label : String) :
      Fits n stack (.add (stack.headD 0) n label false) (n + 1) (n :: stack)
  | leaf (n : Nat) (stack : List Nat) (label : String) :
      Fits n stack (.add (stack.headD 0) n label true) (n + 1) stack
  | relabels {n id : Nat} {stack : List Nat} (label : String) (h : id ∈ stack) :
      Fits n stack (.update id label) n stack
  | closes (n id : Nat) (stack : List Nat) : Fits n (id :: stack) (.complete id) n stack

/-- Events of which each one fits behind those before it. -/
inductive Nested : Nat → List Nat → List TreeEvent → Nat → List Nat → Prop
  | nil (n : Nat) (stack : List Nat) : Nested n stack [] n stack
  | cons {n n' n'' : Nat} {stack stack' stack'' : List Nat} {e : TreeEvent}
      {events : List TreeEvent} (he : Fits n stack e n' stack')
      (h : Nested n' stack' events n'' stack'') : Nested n stack (e :: events) n'' stack''

variable {n n' n'' : Nat} {stack stack' stack'' : List Nat} {e : TreeEvent}
  {events more : List TreeEvent}

theorem Fits.nested (h : Fits n stack e n' stack') : Nested n stack [e] n' stack' :=
  .cons h (.nil n' stack')

theorem Nested.append (h : Nested n stack events n' stack')
    (h' : Nested n' stack' more n'' stack'') : Nested n stack (events ++ more) n'' stack'' := by
  induction h with
  | nil => exact h'
  | cons he _ ih => exact .cons he (ih h')

theorem Nested.split (h : Nested n stack (events ++ more) n'' stack'') :
    ∃ n' stack', Nested n stack events n' stack' ∧ Nested n' stack' more n'' stack'' := by
  induction events generalizing n stack with
  | nil => exact ⟨n, stack, .nil n stack, h⟩
  | cons e events ih =>
    cases h with
    | cons he h =>
      obtain ⟨n', stack', hevents, hmore⟩ := ih h
      exact ⟨n', stack', .cons he hevents, hmore⟩

theorem Fits.restack_eq (h : Fits n stack e n' stack') : restack stack e = stack' := by
  cases h with
  | opens => rfl
  | leaf => rfl
  | relabels => rfl
  | closes => exact List.erase_cons_head ..

/-- The open nodes are told by the events alone. -/
theorem Nested.stack_eq (h : Nested n stack events n' stack') :
    events.foldl restack stack = stack' := by
  induction h with
  | nil => rfl
  | cons he _ ih => rw [List.foldl_cons, he.restack_eq, ih]

theorem Fits.added_eq (h : Fits n stack e n' stack') :
    (added e = some n ∧ n' = n + 1) ∨ (added e = none ∧ n' = n) := by
  cases h with
  | opens => exact .inl ⟨rfl, rfl⟩
  | leaf => exact .inl ⟨rfl, rfl⟩
  | relabels => exact .inr ⟨rfl, rfl⟩
  | closes => exact .inr ⟨rfl, rfl⟩

/-- Numbers are given without gaps. -/
theorem Nested.added_eq (h : Nested n stack events n' stack') :
    events.filterMap added = List.range' n (n' - n) ∧ n ≤ n' := by
  induction h with
  | nil n stack => simp
  | cons he _ ih =>
    rename_i n n' n'' _ _ _ _ _ _
    obtain ⟨hadded, hle⟩ := ih
    rcases he.added_eq with ⟨hnew, rfl⟩ | ⟨hnone, rfl⟩
    · have hlength : n'' - n = n'' - (n + 1) + 1 := by omega
      rw [List.filterMap_cons_some hnew, hadded, hlength, List.range'_succ]
      exact ⟨rfl, by omega⟩
    · rw [List.filterMap_cons_none hnone]
      exact ⟨hadded, hle⟩

/-- The open nodes have been numbered, each with a number of its own. -/
structure Distinct (n : Nat) (stack : List Nat) : Prop where
  nodup : stack.Nodup
  below : ∀ id ∈ stack, id < n

theorem Fits.distinct (h : Fits n stack e n' stack') (hstack : Distinct n stack) :
    Distinct n' stack' := by
  obtain ⟨hnodup, hbelow⟩ := hstack
  cases h with
  | opens =>
    have hnew : n ∉ stack := fun hmem => Nat.lt_irrefl n (hbelow n hmem)
    refine ⟨List.nodup_cons.2 ⟨hnew, hnodup⟩, ?_⟩
    intro id hid
    rcases List.mem_cons.1 hid with rfl | hid
    · omega
    · have := hbelow id hid
      omega
  | leaf => exact ⟨hnodup, fun id hid => Nat.lt_succ_of_lt (hbelow id hid)⟩
  | relabels => exact ⟨hnodup, hbelow⟩
  | closes =>
    exact ⟨(List.nodup_cons.1 hnodup).2, fun id hid => hbelow id (List.mem_cons_of_mem _ hid)⟩

/-- What is open behind an event was open before, or it is new. -/
theorem Fits.source (h : Fits n stack e n' stack') :
    n ≤ n' ∧ ∀ id ∈ stack', id ∈ stack ∨ n ≤ id := by
  cases h with
  | opens =>
    refine ⟨Nat.le_succ n, ?_⟩
    intro id hid
    rcases List.mem_cons.1 hid with rfl | hid
    · exact .inr (Nat.le_refl _)
    · exact .inl hid
  | leaf => exact ⟨Nat.le_succ n, fun id hid => .inl hid⟩
  | relabels => exact ⟨Nat.le_refl n, fun id hid => .inl hid⟩
  | closes => exact ⟨Nat.le_refl n, fun id hid => .inl (List.mem_cons_of_mem _ hid)⟩

/-- What an event closes was open or is new; it is open no longer, and no later node has its
number. -/
theorem Fits.closed_eq {id : Nat} (h : Fits n stack e n' stack') (hstack : Distinct n stack)
    (hid : closed e = some id) : (id ∈ stack ∨ n ≤ id) ∧ id ∉ stack' ∧ id < n' := by
  obtain ⟨hnodup, hbelow⟩ := hstack
  cases h with
  | opens => cases hid
  | leaf =>
    cases hid
    exact ⟨.inr (Nat.le_refl n), fun hmem => Nat.lt_irrefl n (hbelow n hmem), Nat.lt_succ_self n⟩
  | relabels => cases hid
  | closes =>
    cases hid
    obtain ⟨hout, -⟩ := List.nodup_cons.1 hnodup
    exact ⟨.inl (List.mem_cons_self ..), hout, hbelow _ (List.mem_cons_self ..)⟩

/-- No node is closed twice: what is closed later is open now or has a later number. -/
theorem Nested.closed_once (h : Nested n stack events n' stack') : Distinct n stack →
    (events.filterMap closed).Nodup ∧ ∀ id ∈ events.filterMap closed, id ∈ stack ∨ n ≤ id := by
  induction h with
  | nil => simp
  | cons he _ ih =>
    rename_i n n' n'' stack stack' stack'' e events _
    intro hstack
    obtain ⟨honce, hsource⟩ := ih (he.distinct hstack)
    obtain ⟨hle, hopen⟩ := he.source
    have hlater : ∀ id ∈ events.filterMap closed, id ∈ stack ∨ n ≤ id := by
      intro id hid
      rcases hsource id hid with hmem | hnew
      · exact hopen id hmem
      · exact .inr (Nat.le_trans hle hnew)
    cases hclosed : closed e with
    | none =>
      rw [List.filterMap_cons_none hclosed]
      exact ⟨honce, hlater⟩
    | some id =>
      obtain ⟨hwas, hout, hlt⟩ := he.closed_eq hstack hclosed
      rw [List.filterMap_cons_some hclosed]
      refine ⟨List.nodup_cons.2 ⟨?_, honce⟩, List.forall_mem_cons.2 ⟨hwas, hlater⟩⟩
      intro hmem
      rcases hsource id hmem with hagain | hnew
      · exact hout hagain
      · omega

/-- Behind some of the events, the next one fits the nodes that are open then. -/
theorem Nested.fits_behind (h : Nested n [] (events ++ e :: more) n'' stack'') :
    ∃ m m' stack', Fits m (opened events) e m' stack' := by
  obtain ⟨m, stack, hevents, hmore⟩ := h.split
  obtain rfl : opened events = stack := hevents.stack_eq
  cases hmore with
  | cons he _ => exact ⟨_, _, _, he⟩

/-- **Events that fit one by one are well nested.** -/
theorem Nested.wellNested (h : Nested 1 [] events n stack) : WellNested events where
  numbered := by
    obtain ⟨hadded, -⟩ := h.added_eq
    rw [hadded, List.length_range']
  parent := by
    intro before behind parent id label complete heq
    rw [heq] at h
    obtain ⟨m, m', stack', he⟩ := h.fits_behind
    generalize opened before = stack at he ⊢
    cases he with
    | opens => rfl
    | leaf => rfl
  relabelled := by
    intro before behind id label heq
    rw [heq] at h
    obtain ⟨m, m', stack', he⟩ := h.fits_behind
    generalize opened before = stack at he ⊢
    cases he with
    | relabels label hid => exact hid
  innermost := by
    intro before behind id heq
    rw [heq] at h
    obtain ⟨m, m', stack', he⟩ := h.fits_behind
    generalize opened before = stack at he ⊢
    cases he with
    | closes => rfl
  once := (h.closed_once ⟨List.nodup_nil, by simp⟩).1

end TreeEvent

namespace Grammar

open TreeEvent

variable {α β : Type} {s s' : State} {stack : List Nat}

/-! ## Numbered expressions -/

/-- A node is nested if its children are nested below it. -/
theorem nested_node {parent a b : Nat} {kind : NodeKind} {label : String} {pos : Option Int}
    {ty : Tag} {children : List Outline} (hparent : stack.headD 0 = parent)
    (h : Nested (a + 1) (a :: stack) (treeEventsAll a children) b (a :: stack)) :
    Nested a stack (treeEvents parent (.node kind label ⟨pos, some a⟩ ty children)) b stack := by
  subst hparent
  cases children with
  | nil =>
    cases h
    exact (Fits.leaf a stack label).nested
  | cons o rest => exact .cons (.opens a stack label) (h.append (Fits.closes b a stack).nested)

/-- Two operands, the numbers of the second behind those of the first. -/
theorem nested_pair {a b c : Nat} {l r : Outline}
    (hl : Nested (a + 1) (a :: stack) (treeEvents a l) b (a :: stack))
    (hr : Nested b (a :: stack) (treeEvents a r) c (a :: stack)) :
    Nested (a + 1) (a :: stack) (treeEventsAll a [l, r]) c (a :: stack) := by
  simp only [treeEventsAll, List.append_nil]
  exact hl.append hr

mutual

/-- **A numbered expression is nested**, whatever its first number and the nodes above it. -/
theorem nested_expr : ∀ (e : Expr) (a : Nat) {stack : List Nat} {parent : Nat},
    stack.headD 0 = parent →
      Nested a stack (treeEvents parent (e.enumerate a).1.outline) (e.enumerate a).2 stack
  | .number .., _, _, _, h => nested_node h (.nil _ _)
  | .truth .., _, _, _, h => nested_node h (.nil _ _)
  | .text .., _, _, _, h => nested_node h (.nil _ _)
  | .var _, _, _, _, h => nested_node h (.nil _ _)
  | .arith _ _ _ l r, a, _, _, h =>
    nested_node h (nested_pair (nested_expr l (a + 1) rfl) (nested_expr r _ rfl))
  | .compare _ _ _ l r, a, _, _, h =>
    nested_node h (nested_pair (nested_expr l (a + 1) rfl) (nested_expr r _ rfl))
  | .logic _ _ _ l r, a, _, _, h =>
    nested_node h (nested_pair (nested_expr l (a + 1) rfl) (nested_expr r _ rfl))
  | .not _ _ e, a, _, _, h => nested_node h ((nested_expr e (a + 1) rfl).append (.nil _ _))
  | .sign _ _ _ e, a, _, _, h => nested_node h ((nested_expr e (a + 1) rfl).append (.nil _ _))
  | .call _ _ _ _ args, a, _, _, h => nested_node h (nested_exprs args (a + 1) rfl)

theorem nested_exprs : ∀ (es : List Expr) (a : Nat) {stack : List Nat} {parent : Nat},
    stack.headD 0 = parent →
      Nested a stack (treeEventsAll parent (Expr.outlines (Expr.enumerateAll a es).1))
        (Expr.enumerateAll a es).2 stack
  | [], a, stack, _, _ => .nil a stack
  | e :: rest, a, _, _, h => (nested_expr e a h).append (nested_exprs rest _ h)

end

/-! ## Tidy runs -/

/-- A run in which nodes are opened below the latest open node, and relabelled and closed only while
they are on top of the open nodes. In between the reader may do whatever changes nothing that is
displayed, and draw trees that are numbered from the next free number on. -/
inductive Tidy : {α : Type} → Reader α → State → Prop
  | silent {α : Type} {r : Reader α} {s : State} (h : Silent r) : Tidy r s
  | opens {s : State} (label : String) : Tidy (begin label) s
  | closes {s : State} {id parent : Nat} {parents : List Nat}
      (h : s.parents = id :: parent :: parents) : Tidy (finish id) s
  | relabels {s : State} {id parent : Nat} {parents : List Nat} (label : String)
      (h : s.parents = id :: parent :: parents) : Tidy (relabel id label) s
  | leaf {s : State} {parent : Nat} (label : String) (h : s.parent = parent) :
      Tidy (addLeaf parent label) s
  | tree {s : State} {next parent : Nat} {o : Outline} (h : s.parent = parent)
      (ho : ∀ stack : List Nat, stack.headD 0 = parent →
        Nested s.nextId stack (treeEvents parent o) next stack) :
      Tidy (do set { s with nextId := next }; announce parent o) s
  | bind {α β : Type} {r : Reader α} {f : α → Reader β} {s : State} (h : Tidy r s)
      (hf : ∀ a s', outcome r s = .ok (a, s') → Tidy (f a) s') : Tidy (r >>= f) s
  | same {α : Type} {r r' : Reader α} {s : State} (h : Tidy r s) (hrun : r'.run s = r.run s) :
      Tidy r' s

/-! ### What a tidy run shows -/

/-- A reader that fails only where the tokens have run out, and then shows nothing, shows nothing
whenever it fails. -/
theorem Still.events_error {r : Reader α} {stop : Stop} (hr : Still r)
    (hnil : ∀ index nextId parents table, events r ⟨index, [], nextId, parents, table⟩ = [])
    (h : outcome r s = .error stop) : events r s = [] := by
  have hrest : s.rest = [] := Ends.of_error h (hr s)
  obtain ⟨index, rest, nextId, parents, table⟩ := s
  cases hrest
  exact hnil index nextId parents table

theorem events_announce_nil (parent : Nat) (o : Outline) (index nextId : Nat) (parents : List Nat)
    (table : Table) : events (announce parent o) ⟨index, [], nextId, parents, table⟩ = [] := by
  obtain ⟨kind, label, mark, ty, children⟩ := o
  rw [announce]
  exact events_bind_error rfl

/-- The events of a run are nested above the open nodes that it starts with, and on success the
state says which nodes are open now. The root is not among them. -/
def Nests (r : Reader α) (s : State) (stack : List Nat) : Prop :=
  ∃ next stack', Nested s.nextId stack (events r s) next stack' ∧
    ∀ a s', outcome r s = .ok (a, s') → s'.nextId = next ∧ s'.parents = stack' ++ [0]

/-- A run that shows nothing when it fails is judged by its success. -/
theorem nests_of_ok {r : Reader α} (next : Nat) (stack' : List Nat)
    (hstop : ∀ stop, outcome r s = .error stop → events r s = [])
    (hok : ∀ a s', outcome r s = .ok (a, s') → Nested s.nextId stack (events r s) next stack' ∧
      s'.nextId = next ∧ s'.parents = stack' ++ [0]) : Nests r s stack := by
  cases ho : outcome r s with
  | error stop =>
    refine ⟨s.nextId, stack, ?_, by simp [ho]⟩
    rw [hstop stop ho]
    exact .nil _ _
  | ok out =>
    obtain ⟨a, s'⟩ := out
    obtain ⟨hnested, -⟩ := hok a s' ho
    exact ⟨next, stack', hnested, fun b t hb => (hok b t hb).2⟩

theorem parent_of_stack (h : s.parents = stack ++ [0]) : s.parent = stack.headD 0 := by
  rw [State.parent, h]
  cases stack <;> rfl

/-- A node on top of the open nodes is the latest one, and the root is below it. -/
theorem stack_of_top {id parent : Nat} {parents : List Nat}
    (h : s.parents = id :: parent :: parents) (hstack : s.parents = stack ++ [0]) :
    ∃ rest, stack = id :: rest ∧ s.parents.tail = rest ++ [0] := by
  cases stack with
  | nil =>
    rw [h] at hstack
    simp at hstack
  | cons top rest =>
    rw [h] at hstack
    obtain ⟨rfl, htail⟩ := List.cons.inj hstack
    exact ⟨rest, rfl, by rw [h]; exact htail⟩

/-- **The events of a tidy run are nested, wherever it stops.** The induction is on the steps of the
run. -/
theorem Tidy.nests {r : Reader α} (h : Tidy r s) : ∀ {stack : List Nat},
    s.parents = stack ++ [0] → Nests r s stack := by
  induction h with
  | silent h =>
    rename_i s
    intro stack hstack
    obtain ⟨hevents, hkept⟩ := h s
    refine ⟨s.nextId, stack, by rw [hevents]; exact .nil _ _, ?_⟩
    intro a s' ho
    have hsame := hkept a s' ho
    exact ⟨hsame.nextId, hsame.parents.trans hstack⟩
  | opens label =>
    rename_i s
    intro stack hstack
    refine nests_of_ok (s.nextId + 1) (s.nextId :: stack)
      (fun stop => (still_begin label).events_error fun _ _ _ _ => rfl) ?_
    intro id s' ho
    obtain ⟨hevents, -, hparents, hnext⟩ := emits_begin label id s' ho
    rw [hevents, parent_of_stack hstack]
    refine ⟨(Fits.opens s.nextId stack label).nested, hnext, ?_⟩
    rw [hparents, hstack, List.cons_append]
  | closes h =>
    rename_i s id parent parents
    intro stack hstack
    obtain ⟨rest, rfl, htail⟩ := stack_of_top h hstack
    refine nests_of_ok s.nextId rest
      (fun stop => (still_finish id).events_error fun _ _ _ _ => rfl) ?_
    intro u s' ho
    obtain ⟨hevents, hparents, hnext⟩ := emits_finish (parent_eq h) u s' ho
    rw [hevents]
    exact ⟨(Fits.closes s.nextId id rest).nested, hnext, hparents.trans htail⟩
  | relabels label h =>
    rename_i s id parent parents
    intro stack hstack
    obtain ⟨rest, rfl, -⟩ := stack_of_top h hstack
    refine nests_of_ok s.nextId (id :: rest)
      (fun stop => (still_relabel id label).events_error fun _ _ _ _ => rfl) ?_
    intro u s' ho
    obtain ⟨hevents, rfl⟩ := emits_report _ _ u s' ho
    refine ⟨?_, rfl, hstack⟩
    rw [show events (relabel id label) s' = [.update id label] from hevents]
    exact (Fits.relabels label (List.mem_cons_self ..)).nested
  | leaf label h =>
    rename_i s parent
    intro stack hstack
    refine nests_of_ok (s.nextId + 1) stack
      (fun stop => (still_addLeaf parent label).events_error fun _ _ _ _ => rfl) ?_
    intro u s' ho
    obtain ⟨hevents, hparents, hnext⟩ := emits_addLeaf parent label u s' ho
    rw [hevents, ← h, parent_of_stack hstack]
    exact ⟨(Fits.leaf s.nextId stack label).nested, hnext, hparents.trans hstack⟩
  | tree h hnested =>
    rename_i s next parent o
    intro stack hstack
    have hparent : stack.headD 0 = parent := (parent_of_stack hstack).symm.trans h
    refine nests_of_ok next stack ?_ ?_
    · intro stop ho
      exact (still_announce parent o).events_error (events_announce_nil parent o) ho
    · intro u s' ho
      obtain ⟨hevents, rfl⟩ := emits_announce parent o { s with nextId := next } u s' ho
      refine ⟨?_, rfl, hstack⟩
      show Nested _ _ (events (announce parent o) { s with nextId := next }) _ _
      rw [hevents]
      exact hnested stack hparent
  | bind h hf ih ihf =>
    rename_i r f s
    intro stack hstack
    obtain ⟨next, stack', hnested, hok⟩ := ih hstack
    cases ho : outcome r s with
    | error stop =>
      refine ⟨next, stack', by rw [events_bind_error ho]; exact hnested, ?_⟩
      intro b s'' hb
      rw [outcome_bind, ho] at hb
      cases hb
    | ok out =>
      obtain ⟨a, s'⟩ := out
      obtain ⟨rfl, hparents⟩ := hok a s' ho
      obtain ⟨next', stack'', hnested', hok'⟩ := ihf a s' ho hparents
      refine ⟨next', stack'', by rw [events_bind ho]; exact hnested.append hnested', ?_⟩
      intro b s'' hb
      rw [outcome_bind, ho] at hb
      exact hok' b s'' hb
  | same h hrun ih =>
    intro stack hstack
    unfold Nests events outcome
    rw [hrun]
    exact ih hstack

/-! ## Tidy readers -/

/-- Wherever the open nodes are as `P` says the reader is tidy, and on success it has changed them
as `f` says. -/
def Orders (P : List Nat → Prop) (f : List Nat → List Nat) (r : Reader α) : Prop :=
  ∀ s, P s.parents → Tidy r s ∧ ∀ a s', outcome r s = .ok (a, s') → s'.parents = f s.parents

/-- The node is on top of the open nodes, and it is not the root. -/
def Top (n : Nat) (parents : List Nat) : Prop := ∃ parent rest, parents = n :: parent :: rest

/-- The reader leaves the open nodes as they are. -/
def Keeps (r : Reader α) : Prop := Orders (· ≠ []) id r

/-- Below this node, the reader leaves the open nodes as they are. -/
def Within (n : Nat) (r : Reader α) : Prop := Orders (Top n) id r

/-- The reader closes this node, the latest one. -/
def Shuts (n : Nat) (r : Reader α) : Prop := Orders (Top n) List.tail r

section Orders

variable {P : List Nat → Prop} {g : List Nat → List Nat} {r : Reader α} {k : α → Reader β} {n : Nat}

theorem Orders.bind (h : Orders P id r) (hk : ∀ a, Orders P g (k a)) : Orders P g (r >>= k) := by
  intro s hs
  obtain ⟨htidy, hsame⟩ := h s hs
  have hbehind : ∀ a s', outcome r s = .ok (a, s') → P s'.parents := by
    intro a s' ho
    rw [hsame a s' ho]
    exact hs
  refine ⟨.bind htidy fun a s' ho => (hk a s' (hbehind a s' ho)).1, ?_⟩
  intro b s'' hb
  obtain ⟨a, s', ho, hb⟩ := outcome_bind_inv hb
  rw [(hk a s' (hbehind a s' ho)).2 b s'' hb, hsame a s' ho]
  rfl

theorem Silent.orders (h : Silent r) : Orders P id r :=
  fun s _ => ⟨.silent h, fun a s' ho => ((h s).2 a s' ho).parents⟩

theorem Silent.before (h : Silent r) (hk : ∀ a, Orders P g (k a)) : Orders P g (r >>= k) :=
  h.orders.bind hk

theorem Keeps.within (h : Keeps r) : Within n r := by
  intro s hs
  obtain ⟨parent, rest, hparents⟩ := hs
  exact h s (by simp [hparents])

theorem shuts_fail (cause : CompileError.Cause) (pos : Int) :
    Shuts n (fail cause pos : Reader α) :=
  fun _ _ => ⟨.silent (silent_fail cause pos), nofun⟩

/-- Behind a failure nothing has to be closed. -/
theorem shuts_fail_bind (cause : CompileError.Cause) (pos : Int) :
    Shuts n (fail cause pos >>= k) :=
  fun _ _ => ⟨.silent fun _ => ⟨rfl, nofun⟩, nofun⟩

/-- **A node**: it is opened, and what follows closes it. -/
theorem keeps_node {label : String} {body : Nat → Reader α} (h : ∀ n, Shuts n (body n)) :
    Keeps (begin label >>= body) := by
  intro s hs
  obtain ⟨parent, rest, hparents⟩ := List.exists_cons_of_ne_nil hs
  have hbegin : ∀ n s', outcome (begin label) s = .ok (n, s') →
      s'.parents = n :: s.parents := by
    intro n s' ho
    obtain ⟨-, rfl, hparents, -⟩ := emits_begin label n s' ho
    exact hparents
  have htop : ∀ n s', outcome (begin label) s = .ok (n, s') → Top n s'.parents := by
    intro n s' ho
    exact ⟨parent, rest, by rw [hbegin n s' ho, hparents]⟩
  refine ⟨.bind (.opens label) fun n s' ho => (h n s' (htop n s' ho)).1, ?_⟩
  intro a s'' ha
  obtain ⟨n, s', ho, ha⟩ := outcome_bind_inv ha
  rw [(h n s' (htop n s' ho)).2 a s'' ha, hbegin n s' ho]
  rfl

theorem shuts_finish (a : α) : Shuts n (do finish n; return a) := by
  intro s hs
  obtain ⟨parent, rest, hparents⟩ := hs
  refine ⟨.bind (.closes hparents) fun _ _ _ => .silent (silent_pure a), ?_⟩
  intro b s' hb
  have hshut : Emits (do finish n; return a) s fun _ _ s' => s'.parents = s.parents.tail := by
    refine (emits_finish (parent_eq hparents)).bind ?_
    rintro _ _ s₁ ⟨rfl, hparents₁, -⟩
    exact emits_pure hparents₁
  exact hshut b s' hb

theorem within_relabel (label : String) : Within n (relabel n label) := by
  intro s hs
  obtain ⟨parent, rest, hparents⟩ := hs
  refine ⟨.relabels label hparents, ?_⟩
  intro u s' ho
  obtain ⟨-, rfl⟩ := emits_report _ _ u s' ho
  rfl

theorem within_addLeaf (label : String) : Within n (addLeaf n label) := by
  intro s hs
  obtain ⟨parent, rest, hparents⟩ := hs
  refine ⟨.leaf label (parent_eq hparents), ?_⟩
  intro u s' ho
  exact (emits_addLeaf n label u s' ho).2.1

/-- A leaf that is numbered by itself. -/
theorem within_target {o : Nat → Outline}
    (ho : ∀ n, ∃ kind name pos ty, o n = .node kind name ⟨pos, some n⟩ ty []) :
    Within n (do
      let i ← freshId
      announce n (o i)
      return i) := by
  intro s hs
  obtain ⟨parent, rest, hparents⟩ := hs
  have htree : Tidy (do set { s with nextId := s.nextId + 1 }; announce n (o s.nextId)) s := by
    refine .tree (parent_eq hparents) ?_
    intro stack hstack
    obtain ⟨kind, name, pos, ty, ho⟩ := ho s.nextId
    rw [ho]
    exact nested_node hstack (.nil _ _)
  refine ⟨.same (.bind htree fun _ _ _ => .silent (silent_pure s.nextId)) rfl, ?_⟩
  · intro i s' hi
    have hkept : Emits (do
        let i ← freshId
        announce n (o i)
        return i) s fun _ _ s' => s'.parents = s.parents := by
      refine emits_freshId.bind ?_
      rintro _ _ s₁ ⟨rfl, rfl, hparents₁, -⟩
      refine (emits_announce _ _ _).bind ?_
      rintro _ _ _ ⟨rfl, rfl⟩
      exact emits_pure hparents₁
    exact hkept i s' hi

theorem shuts_target {o : Nat → Outline} {k : Nat → Reader β}
    (ho : ∀ n, ∃ kind name pos ty, o n = .node kind name ⟨pos, some n⟩ ty [])
    (hk : ∀ i, Shuts n (k i)) :
    Shuts n (do
      let i ← freshId
      announce n (o i)
      k i) := by
  rw [target_bind]
  exact (within_target ho).bind hk

theorem keeps_many {begins : Token.Kind → Bool} {item : Reader α} (hitem : Keeps item) :
    ∀ (n : Nat) (before : List α), Keeps (many begins item n before)
  | 0, before => by
    refine silent_current.before fun t => ?_
    split
    · exact (silent_throw _).orders
    · exact (silent_pure _).orders
  | n + 1, before => by
    refine silent_current.before fun t => ?_
    split
    · exact hitem.bind fun a => keeps_many hitem n (a :: before)
    · exact (silent_pure _).orders

end Orders

/-! ## The parser is tidy -/

section Parser

variable {scope : Scope} {known : Signatures}

/-- An expression is read without a trace, and drawn as a whole. -/
theorem keeps_expression (known : Signatures) (n : Nat) : Keeps (expression known n) := by
  intro s hs
  refine ⟨.bind (.silent ((silent_level known n).1 .logical)) fun parsed s₁ _ => ?_, ?_⟩
  · refine .bind (.silent silent_get) fun t s₂ ho => ?_
    cases ho
    split
    · exact .silent (silent_throw _)
    · rename_i checked ty _
      have htree : Tidy (do
          set { s₁ with nextId := (checked.enumerate s₁.nextId).2 }
          announce s₁.parent (checked.enumerate s₁.nextId).1.outline) s₁ :=
        .tree rfl fun stack hstack => nested_expr checked s₁.nextId hstack
      exact .same (.bind htree fun _ _ _ => .silent (silent_pure (_, ty))) (by rw [bind_assoc])
  · intro r s' ho
    exact (grows_expression known n r s' ho).1

theorem keeps_declaration : Keeps declaration := by
  refine keeps_node fun id => ?_
  refine (silent_advance _).before fun typeToken => ?_
  refine (silent_expect _).before fun nameToken => ?_
  refine (silent_expect _).before fun _ => ?_
  refine (silent_table (·.declare _)).before fun _ => ?_
  exact (within_relabel _).bind fun _ => shuts_finish _

theorem keeps_printStatement (n : Nat) : Keeps (printStatement scope n) := by
  refine keeps_node fun id => ?_
  refine (silent_expect _).before fun t => ?_
  refine (keeps_expression _ n).within.bind fun _ => ?_
  exact (silent_expect _).before fun _ => shuts_finish _

theorem keeps_assignment (n : Nat) : Keeps (assignment scope n) := by
  refine keeps_node fun id => ?_
  refine (silent_expect _).before fun nameToken => ?_
  refine silent_get.before fun state => ?_
  dsimp only
  split
  · exact shuts_fail _ _
  · refine shuts_target (fun _ => ⟨_, _, _, _, rfl⟩) fun targetId => ?_
    refine (silent_expect _).before fun assignToken => ?_
    refine (keeps_expression _ n).within.bind fun (_, ty) => ?_
    dsimp only
    split
    · exact shuts_fail_bind _ _
    · exact (silent_expect _).before fun _ => shuts_finish _

theorem keeps_returnStatement (n : Nat) : Keeps (returnStatement scope n) := by
  refine keeps_node fun id => ?_
  refine (silent_expect _).before fun t => ?_
  refine silent_current.before fun _ => ?_
  dsimp only
  split
  · rw [pure_bind]
    exact (silent_expect _).before fun _ => shuts_finish _
  · refine (keeps_expression _ n).within.bind fun (_, ty) => ?_
    dsimp only
    split
    · exact shuts_fail_bind _ _
    · rw [pure_bind]
      exact (silent_expect _).before fun _ => shuts_finish _

theorem keeps_condition (statement : CompileError.Conditional) (n : Nat) :
    Keeps (condition scope statement n) := by
  refine keeps_node fun id => ?_
  refine silent_current.before fun _ => ?_
  refine (keeps_expression _ n).within.bind fun (_, ty) => ?_
  dsimp only
  split
  · exact shuts_fail_bind _ _
  · exact shuts_finish _

theorem keeps_block {n : Nat} {title : String} (hstatement : Keeps (statement scope n)) :
    Keeps (block scope title (n + 1)) := by
  refine keeps_node fun id => ?_
  refine silent_current.before fun _ => ?_
  refine silent_remaining.before fun k => ?_
  exact (keeps_many hstatement k []).within.bind fun _ => shuts_finish _

theorem keeps_branch {n : Nat} (hblock : ∀ title, Keeps (block scope title n)) :
    Keeps (branch scope (n + 1)) := by
  refine keeps_node fun id => ?_
  refine (silent_expect _).before fun t => ?_
  refine (keeps_condition .if_ n).within.bind fun c => ?_
  refine (silent_expect _).before fun _ => ?_
  refine (hblock _).within.bind fun _ => ?_
  refine (silent_accept _).before fun other => ?_
  cases other with
  | some found =>
    refine (hblock _).within.bind fun _ => ?_
    exact (silent_expect _).before fun _ => shuts_finish _
  | none => exact (silent_expect _).before fun _ => shuts_finish _

theorem keeps_loop {n : Nat} (hblock : ∀ title, Keeps (block scope title n)) :
    Keeps (loop scope (n + 1)) := by
  refine keeps_node fun id => ?_
  refine (silent_expect _).before fun t => ?_
  refine (keeps_condition .while_ n).within.bind fun c => ?_
  refine (hblock _).within.bind fun _ => ?_
  exact (silent_expect _).before fun _ => shuts_finish _

/-- **Statements leave the open nodes as they are.** The induction is on the frames. -/
theorem keeps_statement (scope : Scope) : ∀ n : Nat,
    Keeps (statement scope n) ∧ (∀ title, Keeps (block scope title n)) ∧
      Keeps (branch scope n) ∧ Keeps (loop scope n)
  | 0 => ⟨silent_tooDeep.orders, fun _ => silent_tooDeep.orders, silent_tooDeep.orders,
      silent_tooDeep.orders⟩
  | n + 1 => by
    obtain ⟨hstatement, hblock, hbranch, hloop⟩ := keeps_statement scope n
    refine ⟨?_, fun title => keeps_block hstatement, keeps_branch hblock, keeps_loop hblock⟩
    unfold statement
    refine silent_current.before fun t => ?_
    split
    · exact keeps_declaration
    · exact keeps_declaration
    · exact keeps_declaration
    · exact keeps_printStatement n
    · exact keeps_assignment n
    · exact hbranch
    · exact hloop
    · exact keeps_returnStatement n
    · exact (silent_reject _ _).orders
    · exact (silent_reject _ _).orders

theorem within_declareFormals {id : Nat} : ∀ bs : List Binding, Within id (declareFormals id bs)
  | [] => (silent_pure ()).orders
  | b :: rest => (silent_table (·.declare b)).before fun _ =>
      (within_addLeaf _).bind fun _ => within_declareFormals rest

theorem shuts_functionEnd {t name : Token} {id : Nat} {params : List Binding} :
    Shuts id (functionEnd known frames t name id params) := by
  refine (silent_expect _).before fun _ => ?_
  unfold functionBody
  split
  · exact shuts_fail _ _
  · rename_i sig _
    refine (silent_table fun _ => Table.empty).before fun _ => ?_
    refine (within_declareFormals params).bind fun _ => ?_
    refine ((keeps_statement ⟨known, sig⟩ frames).2.1 _).within.bind fun _ => ?_
    refine (silent_expect _).before fun _ => ?_
    exact (within_relabel _).bind fun _ => shuts_finish _

theorem silent_parameters : Silent parameters := by
  refine silent_current.bind fun t => ?_
  split
  · exact silent_pure _
  · exact silent_remaining.bind fun k => silent_separated silent_formal k []

theorem keeps_function (known : Signatures) : Keeps (function known frames) := by
  rw [function_eq]
  unfold functionOpening
  simp only [bind_assoc, pure_bind]
  refine (silent_expect _).before fun t => ?_
  refine silent_expectType.before fun _ => ?_
  refine (silent_expect _).before fun name => ?_
  refine keeps_node fun id => ?_
  refine (silent_expect _).before fun _ => ?_
  exact silent_parameters.before fun params => shuts_functionEnd

/-- **The parser is tidy**, and what it opens it closes. -/
theorem keeps_program (known : Signatures) : Keeps (program known frames) := by
  refine silent_current.before fun t => ?_
  split
  · refine silent_remaining.before fun k => ?_
    refine (keeps_many (keeps_function known) k []).bind fun _ => ?_
    exact (silent_expect _).before fun _ => (silent_pure _).orders
  · refine keeps_node fun id => ?_
    refine (silent_table fun _ => Table.empty).before fun _ => ?_
    refine ((keeps_statement _ frames).2.1 _).within.bind fun _ => ?_
    exact (silent_expect _).before fun _ => shuts_finish _

end Parser

end Grammar

open Grammar TreeEvent

/-- **The events of every parse are well nested**, also where it ends in an error. Nodes are
numbered from one on; each is added below the latest one that is still open; only open nodes are
relabelled; only the latest one is completed, and none twice. The run is tidy, so that a node is on
top of the open nodes whenever it is completed and never has to be taken out from below another one.
And if the parse succeeds, every node that was opened has been closed, and the root alone is left.
-/
theorem parse_nested (tokens : List Token) (prototypes : List Prototype) :
    WellNested ((Program.parse frames tokens prototypes).reports.filterMap (·.event)) ∧
      Tidy (program (registered prototypes) frames) (.start tokens) ∧
      ∀ result, (Program.parse frames tokens prototypes).value = .ok result →
        opened ((Program.parse frames tokens prototypes).reports.filterMap (·.event)) = [] ∧
        ∃ s', outcome (program (registered prototypes) frames) (.start tokens) = .ok (result, s') ∧
          s'.parents = [0] := by
  have hopen : (State.start tokens).parents ≠ [] := by simp [State.start]
  obtain ⟨htidy, hkept⟩ := keeps_program (registered prototypes) (.start tokens) hopen
  have hroot : (State.start tokens).parents = [] ++ [0] := rfl
  obtain ⟨next, stack, hnested, hok⟩ := htidy.nests hroot
  rw [Program.events_parse]
  refine ⟨hnested.wellNested, htidy, ?_⟩
  intro result hvalue
  have hparse : Program.ofTokens frames tokens prototypes = .ok result := hvalue
  rw [ofTokens_eq] at hparse
  cases hout : outcome (program (registered prototypes) frames) (.start tokens) with
  | error stop =>
    rw [hout] at hparse
    cases hparse
  | ok out =>
    rw [hout] at hparse
    cases hparse
    obtain ⟨result, s'⟩ := out
    have hparents : s'.parents = [0] := hkept result s' hout
    obtain ⟨-, hstack⟩ := hok result s' hout
    rw [hparents] at hstack
    have hempty : stack = [] := by
      have hlength := congrArg List.length hstack
      simpa using hlength
    exact ⟨hnested.stack_eq.trans hempty, s', rfl, hparents⟩

/-- A condition, two branches and an expression have been opened and closed again. -/
theorem parse_nested_branch : ∃ tokens prototypes result,
    Program.tokensOf "IF TRUE THEN PRINT \"a\"; ELSE PRINT \"b\" + \"c\"; ENDIF" = .ok tokens ∧
    Program.prototypesOf tokens = .ok prototypes ∧
    (Program.parse 100 tokens prototypes).value = .ok result ∧
    opened ((Program.parse 100 tokens prototypes).reports.filterMap (·.event)) = [] := by
  obtain ⟨result, hresult, -⟩ : ∃ result,
      Program.compile 100 "IF TRUE THEN PRINT \"a\"; ELSE PRINT \"b\" + \"c\"; ENDIF" = .ok result ∧
      result.procedures.length = 1 := by
    apply ok_of_toOption
    decide +kernel
  obtain ⟨tokens, prototypes, s', htokens, hprototypes, hout⟩ := compile_stages hresult
  have hvalue : (Program.parse 100 tokens prototypes).value = .ok result := by
    show Program.ofTokens 100 tokens prototypes = .ok result
    rw [ofTokens_eq, hout]
    rfl
  obtain ⟨-, -, hclosed⟩ := parse_nested tokens prototypes
  exact ⟨tokens, prototypes, result, htokens, hprototypes, hvalue, (hclosed result hvalue).1⟩

end Slang
