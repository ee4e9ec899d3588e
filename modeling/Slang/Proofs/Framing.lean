import Slang.Proofs.TypeSoundness

/-!
# What a run leaves alone

A statement changes the table of its activation only under the names that it assigns or declares
itself.  A function that it calls has a table of its own, also where it is the same function, which
assigns the same names there.

* `Stmt.targets`, `Moment.targets` — the names that are assigned or declared inside.
* `Table.AgreeOff names t t'` — under any other name the two tables have the same binding.
* `Moment.last` — the table that is left behind, however the moment ends.

Principal results: `ending_agrees` — a statement keeps what is not its target; `agrees_of_leads`,
`agrees_of_leadsTo` — so does whatever is done in its course in the same activation;
`targets_declared` — a function assigns only what it declares; `execution_frame` — both together.
-/

set_option autoImplicit false

namespace Slang

variable {frames : Nat}

/-! ## Targets -/

namespace Stmt

mutual

/-- The names that a statement assigns or declares, anywhere inside it. -/
def targets : Stmt → List Name
  | declare _ b => [b.name]
  | assign _ v _ => [v.name]
  | ifThen _ _ _ body | whileDo _ _ _ body => targetsAll body
  | ifElse _ _ _ body _ other => targetsAll body ++ targetsAll other
  | print .. | ret .. => []

/-- The names that a list of statements assigns or declares. -/
def targetsAll : List Stmt → List Name
  | [] => []
  | s :: rest => targets s ++ targetsAll rest

end

end Stmt

/-- The names that a function binds in its table: its formals and the targets of its body. -/
def Procedure.targets (p : Procedure) : List Name :=
  p.formals.map (·.name) ++ Stmt.targetsAll p.body

/-- The names that are assigned or declared in the course of a moment, by its own activation. -/
def Moment.targets (m : Moment) : List Name :=
  match m.task with
  | .eval _ => []
  | .exec s => s.targets
  | .block ss => Stmt.targetsAll ss
  | .loop _ _ body _ => Stmt.targetsAll body
  | .run _ => m.frame.procedure.targets

/-! ## Tables that agree -/

theorem Registry.mem_keys {κ β : Type} [DecidableEq κ] {r : Registry κ β} {k : κ} :
    k ∈ r.keys ↔ (r.get? k).isSome := by
  simp [Registry.keys, Registry.get?]

namespace Table

variable {names names' : List Name} {t t' t'' : Table}

/-- Under every name but these, the tables have the same binding or both have none. -/
def AgreeOff (names : List Name) (t t' : Table) : Prop :=
  ∀ name, name ∉ names → t'.lookup name = t.lookup name

theorem AgreeOff.refl : AgreeOff names t t := fun _ _ => rfl

theorem AgreeOff.trans (h : AgreeOff names t t') (h' : AgreeOff names t' t'') :
    AgreeOff names t t'' :=
  fun name hname => (h' name hname).trans (h name hname)

theorem AgreeOff.mono (h : AgreeOff names t t') (hsub : names ⊆ names') :
    AgreeOff names' t t' :=
  fun name hname => h name fun hmem => hname (hsub hmem)

theorem agreeOff_insert (t : Table) (name : Name) (b : Binding) :
    AgreeOff [name] t (t.insert name b) := by
  intro other hother
  have hne : name ≠ other := fun h => hother (by simp [h])
  rw [lookup, Registry.get?_insert, if_neg hne]
  rfl

/-- What has come into a table is among the names at which it may have changed. -/
theorem AgreeOff.keys (h : AgreeOff names t t') {name : Name} (hname : name ∈ t'.keys) :
    name ∈ t.keys ∨ name ∈ names := by
  by_cases hmem : name ∈ names
  · exact .inr hmem
  · have hlookup : t'.get? name = t.get? name := h name hmem
    rw [Registry.mem_keys, hlookup] at hname
    exact .inl (Registry.mem_keys.mpr hname)

/-- Binding the actuals of a call changes a table at the formals. -/
theorem agreeOff_bind : ∀ (formals actuals : List Binding) (t : Table),
    AgreeOff (formals.map (·.name)) t (Procedure.bind formals actuals t)
  | [], _, _ | _ :: _, [], _ => .refl
  | f :: formals, a :: actuals, t => by
    have hfirst : AgreeOff ((f :: formals).map (·.name)) t (t.assign f.name a) :=
      (agreeOff_insert t f.name _).mono (by simp)
    have hrest : AgreeOff ((f :: formals).map (·.name)) (t.assign f.name a)
        (Procedure.bind formals actuals (t.assign f.name a)) :=
      (agreeOff_bind formals actuals _).mono (by simp)
    exact hfirst.trans hrest

end Table

open Table (AgreeOff)

/-! ## Statements -/

section Statements

variable {act : Activation}

/-- A loop keeps what its body keeps, however often it goes round. -/
theorem endingLoop_agrees {m : Mark} {c : Expr} {body : List Stmt} {names : List Name}
    (hbody : ∀ t, AgreeOff names t (Stmt.endingAll act t body).2) (n : Nat) :
    ∀ t, AgreeOff names t (Stmt.endingLoop act t m c body n).2 := by
  induction n with
  | zero =>
    intro t
    rw [Stmt.endingLoop_zero]
    exact .refl
  | succ n ih =>
    intro t
    have hround := hbody t
    rw [Stmt.endingLoop_succ]
    split
    · exact .refl
    · split
      · split
        · rename_i t' he
          rw [he] at hround
          exact hround.trans (ih t')
        · rename_i b t' he
          rw [he] at hround
          exact hround
        · rename_i f t' he
          rw [he] at hround
          exact hround
      · exact .refl

mutual

/-- **A statement keeps every binding that is not its target**, whether it ends normally, with a
RETURN or with a failure, and whatever the functions do that it calls. -/
theorem ending_agrees : ∀ (s : Stmt) (t : Table), AgreeOff s.targets t (s.ending act t).2
  | .print m e, t => by
    rw [Stmt.ending_print]
    split
    · exact .refl
    · split <;> exact .refl
  | .declare m b, t => by
    rw [Stmt.ending_declare]
    exact Table.agreeOff_insert t b.name b
  | .assign m v e, t => by
    rw [Stmt.ending_assign]
    split
    · exact .refl
    · exact Table.agreeOff_insert t v.name _
  | .ifThen m c m' body, t => by
    rw [Stmt.ending_ifThen]
    split
    · exact .refl
    · split
      · exact endingAll_agrees body t
      · exact .refl
  | .ifElse m c m' body m'' other, t => by
    rw [Stmt.ending_ifElse]
    split
    · exact .refl
    · split
      · exact (endingAll_agrees body t).mono (List.subset_append_left _ _)
      · exact (endingAll_agrees other t).mono (List.subset_append_right _ _)
  | .whileDo m c m' body, t => by
    rw [Stmt.ending_whileDo]
    exact endingLoop_agrees (endingAll_agrees body) _ t
  | .ret m (some e) ty, t => by
    rw [Stmt.ending_ret]
    split <;> exact .refl
  | .ret m none ty, t => by
    rw [Stmt.ending_leave]
    exact .refl

theorem endingAll_agrees : ∀ (ss : List Stmt) (t : Table),
    AgreeOff (Stmt.targetsAll ss) t (Stmt.endingAll act t ss).2
  | [], t => by
    rw [Stmt.endingAll_nil]
    exact .refl
  | s :: rest, t => by
    have hs : AgreeOff (Stmt.targetsAll (s :: rest)) t (s.ending act t).2 :=
      (ending_agrees s t).mono (List.subset_append_left _ _)
    rw [Stmt.endingAll_cons]
    split
    · rename_i t' he
      rw [he] at hs
      exact hs.trans ((endingAll_agrees rest t').mono (List.subset_append_right _ _))
    · rename_i b t' he
      rw [he] at hs
      exact hs
    · rename_i f t' he
      rw [he] at hs
      exact hs

end

/-- A function changes its table at its formals and at the targets of its body. -/
theorem procedure_agrees (p : Procedure) (actuals : List Binding) (t : Table) :
    AgreeOff p.targets t (p.ending act actuals t).2 := by
  have hbind : AgreeOff p.targets t (Procedure.bind p.formals actuals t) :=
    (Table.agreeOff_bind p.formals actuals t).mono (List.subset_append_left _ _)
  have hbody : AgreeOff p.targets (Procedure.bind p.formals actuals t)
      (Stmt.endingAll act (Procedure.bind p.formals actuals t) p.body).2 :=
    (endingAll_agrees p.body _).mono (List.subset_append_right _ _)
  have hall := hbind.trans hbody
  rw [Procedure.ending_eq]
  split
  all_goals
    rename_i he
    rw [he] at hall
    exact hall

end Statements

/-! ## Moments -/

section Moments

variable {program : Program} {limits : Limits} {m m' : Moment}

/-- The table that a moment leaves behind in its activation, however it ends. -/
def Moment.last (program : Program) (limits : Limits) (m : Moment) : Table :=
  match m.task with
  | .eval e => (endOf ((m.frame.act program limits).value e) m.table).2
  | .exec s => (s.ending (m.frame.act program limits) m.table).2
  | .block ss => (Stmt.endingAll (m.frame.act program limits) m.table ss).2
  | .loop mark c body n =>
    (Stmt.endingLoop (m.frame.act program limits) m.table mark c body n).2
  | .run actuals => (m.frame.procedure.ending (m.frame.act program limits) actuals m.table).2

theorem last_agrees (m : Moment) : AgreeOff m.targets m.table (m.last program limits) := by
  obtain ⟨fr, t, task⟩ := m
  cases task with
  | eval e =>
    show AgreeOff _ t (endOf ((fr.act program limits).value e) t).2
    rw [endOf_value]
    exact .refl
  | exec s => exact ending_agrees s t
  | block ss => exact endingAll_agrees ss t
  | loop mark c body n => exact endingLoop_agrees (endingAll_agrees body) n t
  | run actuals => exact procedure_agrees fr.procedure actuals t

theorem branch_targets {s : Stmt} {b : Binding} {body : List Stmt} (h : s.branch b = some body) :
    Stmt.targetsAll body ⊆ s.targets := by
  cases s with
  | ifThen m c m' body' =>
    simp only [Stmt.branch, Option.ite_none_right_eq_some, Option.some.injEq] at h
    obtain ⟨-, rfl⟩ := h
    exact List.Subset.refl _
  | ifElse m c m' body' m'' other =>
    simp only [Stmt.branch, Option.some.injEq] at h
    subst h
    split
    · exact List.subset_append_left _ _
    · exact List.subset_append_right _ _
  | _ => cases h

/-- What one thing takes is done in the same activation, or in one with less room: a call. -/
theorem frame_of_leads (h : Leads program limits m m') :
    m'.frame = m.frame ∨ m'.frame.room < m.frame.room := by
  cases h with
  | call _ _ => exact .inr (Nat.lt_succ_self _)
  | _ => exact .inl rfl

/-- A step inside an activation changes its table at most at the targets of the whole, and what is
left to do has no others. -/
theorem agrees_of_leads (h : Leads program limits m m') (hframe : m'.frame = m.frame) :
    AgreeOff m.targets m.table m'.table ∧ m'.targets ⊆ m.targets := by
  cases h with
  | operand _ _ | value _ | test => exact ⟨.refl, List.nil_subset _⟩
  | @call q p room depth _ _ _ _ _ _ _ _ _ =>
    have hroom : room = room + 1 := congrArg Frame.room hframe
    omega
  | body =>
    exact ⟨(Table.agreeOff_bind _ _ _).mono (List.subset_append_left _ _),
      List.subset_append_right _ _⟩
  | first => exact ⟨.refl, List.subset_append_left _ _⟩
  | @next fr t t' s rest hs =>
    have hagree : AgreeOff s.targets t (s.ending (fr.act program limits) t).2 := ending_agrees s t
    rw [hs] at hagree
    exact ⟨hagree.mono (List.subset_append_left _ _), List.subset_append_right _ _⟩
  | branch _ _ hb => exact ⟨.refl, branch_targets hb⟩
  | enter | round _ _ => exact ⟨.refl, List.Subset.refl _⟩
  | @again fr t t' _ c body _ _ _ _ hbody =>
    have hagree : AgreeOff (Stmt.targetsAll body) t
        (Stmt.endingAll (fr.act program limits) t body).2 := endingAll_agrees body t
    rw [hbody] at hagree
    exact ⟨hagree, List.Subset.refl _⟩

/-- The room only becomes less, and where it does not the activation is the same. -/
theorem frame_of_leadsTo (h : LeadsTo program limits m m') :
    m'.frame = m.frame ∨ m'.frame.room < m.frame.room := by
  induction h with
  | refl => exact .inl rfl
  | tail _ hl ih =>
    have hstep := frame_of_leads hl
    rcases ih with ih | ih
    · rwa [ih] at hstep
    · right
      rcases hstep with hstep | hstep
      · rwa [hstep]
      · omega

/-- **In the course of a moment its activation keeps every binding that is not a target.**  By
induction on the steps: between two moments of one activation there is no call, because a call has
less room and the room never grows again. -/
theorem agrees_of_leadsTo (h : LeadsTo program limits m m') (hframe : m'.frame = m.frame) :
    AgreeOff m.targets m.table m'.table ∧ m'.targets ⊆ m.targets := by
  induction h with
  | refl => exact ⟨.refl, List.Subset.refl _⟩
  | @tail m₁ m₂ hto hl ih =>
    have hsame : m₁.frame = m.frame := by
      rcases frame_of_leadsTo hto with hsame | hless
      · exact hsame
      · rcases frame_of_leads hl with hstep | hstep
        · exact hstep.symm.trans hframe
        · rw [hframe] at hstep
          omega
    obtain ⟨hagree, htargets⟩ := ih hsame
    obtain ⟨hagree', htargets'⟩ := agrees_of_leads hl (hframe.trans hsame.symm)
    exact ⟨hagree.trans (hagree'.mono htargets), List.Subset.trans htargets' htargets⟩

end Moments

/-! ## Names of an activation -/

/-- The names that a function declares, its formals among them. -/
def Procedure.names (p : Procedure) : List Name := p.declared.map (·.name)

section Names

variable {known : Grammar.Signatures} {returns : Tag}

mutual

/-- A statement assigns only what is declared before it, and declares the rest itself. -/
theorem targets_declared : ∀ {before : List Binding} {s : Stmt},
    s.Admits (Settled known) returns before →
      s.targets ⊆ (before ++ s.declarations).map (·.name)
  | before, .print _ _, _ | before, .ret _ _ _, _ => List.nil_subset _
  | before, .declare _ b, _ => by simp [Stmt.targets, Stmt.declarations]
  | before, .assign _ v e, ⟨T, hv, _⟩ => by
    have hvar := hv.recorded _ (Expr.self_mem_nodes _)
    cases hvar with | var hvar =>
    obtain ⟨b, hb, hname, -⟩ := latest_eq_some hvar
    simp only [Stmt.targets, List.cons_subset, List.nil_subset, and_true]
    exact List.mem_map.mpr ⟨b, List.mem_append_left _ hb, hname⟩
  | before, .ifThen _ _ _ body, ⟨_, hbody⟩ | before, .whileDo _ _ _ body, ⟨_, hbody⟩ =>
    targetsAll_declared hbody
  | before, .ifElse _ _ _ body _ other, ⟨_, hbody, hother⟩ => by
    have hfirst := targetsAll_declared hbody
    have hsecond := targetsAll_declared hother
    rw [List.append_assoc] at hsecond
    refine List.append_subset.mpr ⟨List.Subset.trans hfirst (List.map_subset _ ?_), hsecond⟩
    simp [Stmt.declarations]

theorem targetsAll_declared : ∀ {before : List Binding} {ss : List Stmt},
    Stmt.AdmitsAll (Settled known) returns before ss →
      Stmt.targetsAll ss ⊆ (before ++ Stmt.declarationsAll ss).map (·.name)
  | before, [], _ => List.nil_subset _
  | before, s :: rest, ⟨hs, hrest⟩ => by
    have hfirst := targets_declared hs
    have hsecond := targetsAll_declared hrest
    rw [List.append_assoc] at hsecond
    refine List.append_subset.mpr ⟨List.Subset.trans hfirst (List.map_subset _ ?_), hsecond⟩
    simp [Stmt.declarationsAll]

end

variable {program : Program} {limits : Limits} {m : Moment}

/-- The targets of a function that was compiled are its own names. -/
theorem procedure_targets (hc : Consistent program) {p : Procedure} (hp : p ∈ program.procedures) :
    p.targets ⊆ p.names := by
  refine List.append_subset.mpr ⟨List.map_subset _ (List.subset_append_left _ _), ?_⟩
  exact targetsAll_declared (hc.admits p hp)

/-- The targets of a part of a function are names of the function. -/
theorem code_targets (hc : Consistent program) (hm : m.Code program) :
    m.targets ⊆ m.frame.procedure.names := by
  obtain ⟨fr, t, task⟩ := m
  obtain ⟨hp, htask⟩ := hm
  cases task with
  | eval e => exact List.nil_subset _
  | exec s =>
    obtain ⟨before, hsub, hs⟩ := htask
    exact List.Subset.trans (targets_declared hs) (List.map_subset _ hsub)
  | block ss =>
    obtain ⟨before, hsub, hss⟩ := htask
    exact List.Subset.trans (targetsAll_declared hss) (List.map_subset _ hsub)
  | loop mark c body n =>
    obtain ⟨before, hsub, -, hbody⟩ := htask
    exact List.Subset.trans (targetsAll_declared hbody) (List.map_subset _ hsub)
  | run actuals => exact procedure_targets hc hp

/-- **The names in the table of an activation are those of its function.**  A call starts in an
empty table, and every other step adds at most targets. -/
theorem reached_names (hc : Consistent program) {actuals : List Binding}
    (h : Reached program limits actuals m) : m.table.keys ⊆ m.frame.procedure.names := by
  obtain ⟨main, room, hmain, hroom, hto⟩ := h
  induction hto with
  | refl => exact List.nil_subset _
  | @tail m₁ m₂ hto hl ih =>
    have hcode := reached_code hc ⟨main, room, hmain, hroom, hto⟩
    by_cases hframe : m₂.frame = m₁.frame
    · intro name hname
      rw [hframe]
      rcases (agrees_of_leads hl hframe).1.keys hname with hold | htarget
      · exact ih hold
      · exact code_targets hc hcode htarget
    · cases hl with
      | call _ _ => exact List.nil_subset _
      | _ => exact absurd rfl hframe

/-- **The frame of execution.**  Whatever is done in a table, be it a statement, a block, a loop or
a whole function, every name that is not assigned or declared inside it keeps its binding in the
table of its activation: in its course, at each moment of the same activation, and at its end,
however it ends.  In a run of a compiled program the names in the table of an activation are at all
times names that its function has as formals or declares. -/
theorem execution_frame {source : String} {program : Program}
    (h : Program.compile frames source = .ok program) (limits : Limits) (actuals : List Binding) :
    (∀ (m : Moment) (name : Name), name ∉ m.targets →
      (m.last program limits).lookup name = m.table.lookup name ∧
      ∀ m', LeadsTo program limits m m' → m'.frame = m.frame →
        m'.table.lookup name = m.table.lookup name) ∧
    ∀ m, Reached program limits actuals m →
      m.table.keys ⊆ m.frame.procedure.names ∧
      (m.last program limits).keys ⊆ m.frame.procedure.names := by
  have hc := (compile_sound h).consistent
  constructor
  · intro m name hname
    refine ⟨last_agrees m name hname, fun m' hto hframe => ?_⟩
    exact (agrees_of_leadsTo hto hframe).1 name hname
  · intro m hm
    have hnames := reached_names hc hm
    refine ⟨hnames, fun name hname => ?_⟩
    rcases (last_agrees m).keys hname with hold | htarget
    · exact hnames hold
    · exact code_targets hc (reached_code hc hm) htarget

/-- The third statement of `F` calls `F`, which assigns `s` in a table of its own. -/
theorem execution_frame_recursive : ∃ program p s,
    Program.compile 100 ("FUNCTION STRING F(BOOLEAN b) STRING s; s = \"x\"; " ++
      "IF b THEN PRINT F(!b); ENDIF RETURN s; END " ++
      "FUNCTION STRING MAIN() RETURN F(TRUE); END") = .ok program ∧
    program.find? (some "F") = some p ∧ p.body[2]? = some s ∧
    Stmt.targetsAll p.body = [some "s", some "s"] ∧
    ∀ limits room table, (s.ending (Frame.act program limits ⟨p, room, 2⟩) table).2.lookup
      (some "s") = table.lookup (some "s") := by
  obtain ⟨program, hprogram, hfacts⟩ : ∃ program,
      Program.compile 100 ("FUNCTION STRING F(BOOLEAN b) STRING s; s = \"x\"; " ++
        "IF b THEN PRINT F(!b); ENDIF RETURN s; END " ++
        "FUNCTION STRING MAIN() RETURN F(TRUE); END") = .ok program ∧
      (program.find? (some "F")).map (fun p =>
        (Stmt.targetsAll p.body, p.body[2]?.map Stmt.targets)) =
          some ([some "s", some "s"], some []) := by
    refine ok_of_toOption ?_
    decide +kernel
  obtain ⟨p, hp, hbody⟩ := Option.map_eq_some_iff.mp hfacts
  obtain ⟨htargets, hthird⟩ := Prod.mk.inj hbody
  obtain ⟨s, hs, hnone⟩ := Option.map_eq_some_iff.mp hthird
  refine ⟨program, p, s, hprogram, hp, hs, htargets, fun limits room table => ?_⟩
  have hs : some "s" ∉ (Moment.mk ⟨p, room, 2⟩ table (.exec s)).targets := by
    show some "s" ∉ s.targets
    rw [hnone]
    exact List.not_mem_nil
  exact ((execution_frame hprogram limits []).1 _ _ hs).1

end Names

end Slang
