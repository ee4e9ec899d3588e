import Slang.Proofs.LargerStacks
import Slang.Proofs.NumberTexts
import Slang.Proofs.PrintedRuns

/-!
# Where there is no value

A declared variable has no value yet, a bare RETURN gives none, and neither does a body that ends
without a RETURN; actuals of MAIN may have none.  No expression hands such a thing on.

* `Invoke.Valued` — what a call returns has a value.
* `PrintEvent.Genuine` — an event shows a value, by the text of that value.
* `Shown`, `ShowsOnly` — so do all events of some reports, and all that an execution reports.
* `Moment.Valueless` — an activation whose body has come to its end without a value.

Principal results: `value_valued` — an expression that has a result has a value; `run_shown` — all
that is printed is; `reached_activation` — where activations come from; `run_of_valueless` — what
becomes of a function that returns nothing; `absence_contained` — all of it together.
-/

set_option autoImplicit false

namespace Slang

/-! ## Expressions -/

/-- What a call returns has a value. -/
def Invoke.Valued (invoke : Invoke) : Prop :=
  ∀ f actuals b, valueOf (invoke f actuals) = .ok (some b) → b.value.isSome

theorem flow_result_none {flow : Flow} :
    flow.result = none ↔ flow = .next ∨ ∃ b, flow = .returned b ∧ b.value = none := by
  cases flow with
  | next => simp [Flow.result]
  | returned b => simp [Flow.result]

theorem flow_result_some {flow : Flow} {b : Binding} (h : flow.result = some b) :
    b.value.isSome := by
  cases flow with
  | next => cases h
  | returned c =>
    obtain ⟨hc, heq⟩ := Option.ite_none_right_eq_some.mp h
    obtain rfl := Option.some.inj heq
    exact hc

/-- A function that ends gives what its body has come to. -/
theorem ending_eq_result {act : Activation} {p : Procedure} {actuals : List Binding} {t : Table}
    {r : Option Binding} : (p.ending act actuals t).1 = .ok r ↔
      ∃ flow last, Stmt.endingAll act (Procedure.bind p.formals actuals t) p.body =
        (.ok flow, last) ∧ flow.result = r := by
  rw [Procedure.ending_eq]
  rcases Stmt.endingAll act (Procedure.bind p.formals actuals t) p.body with
    ⟨f | _ | b, last⟩ <;> simp [Flow.result]

/-- **Calls return values**: a function turns the absence of one into no result. -/
theorem invoke_valued (program : Program) (limits : Limits) (room depth : Nat) :
    Invoke.Valued (program.invoke limits room depth) := by
  intro f actuals b h
  cases hp : program.find? f with
  | none =>
    rw [Program.invoke_unknown hp] at h
    cases h
  | some p =>
    cases room with
    | zero =>
      rw [Program.invoke_zero hp] at h
      cases h
    | succ room =>
      rw [Program.invoke_succ hp] at h
      obtain ⟨flow, last, -, hflow⟩ := ending_eq_result.mp h
      exact flow_result_some hflow

section Expressions

variable {invoke : Invoke} {table : Table}

theorem read_valued {name : Name} {b : Binding} (h : valueOf (Expr.read table name) = .ok b) :
    b.value.isSome := by
  unfold Expr.read at h
  split at h
  · cases h
    rfl
  · cases h

theorem produced_valued {α : Type} {r : Except Undefined α} {g : α → Binding} {b : Binding}
    (hg : ∀ a, (g a).value.isSome)
    (h : valueOf (do let a ← Expr.defined r; return g a) = .ok b) : b.value.isSome := by
  cases r with
  | error reason => cases h
  | ok a =>
    cases h
    exact hg a

/-- What an expression makes of the values of its operands has a value. -/
theorem finish_valued (hinv : invoke.Valued) {e : Expr} {bs : List Binding} {b : Binding}
    (h : valueOf (e.finish invoke table bs) = .ok b) : b.value.isSome := by
  unfold Expr.finish at h
  split at h
  case h_4 => exact read_valued h
  case h_5 => exact produced_valued (fun _ => rfl) h
  case h_6 => exact produced_valued (fun _ => rfl) h
  case h_9 => exact produced_valued (fun _ => rfl) h
  case h_10 m ty callee sig args =>
    rw [valueOf_bind] at h
    rcases hcall : valueOf (invoke callee bs) with failure | _ | c
    · rw [hcall] at h
      cases h
    · rw [hcall] at h
      cases h
    · rw [hcall] at h
      cases h
      exact hinv callee bs b hcall
  all_goals
    cases h
    try rfl

/-- **An expression that has a result has a value.** -/
theorem value_valued (hinv : invoke.Valued) {e : Expr} {b : Binding}
    (h : e.value invoke table = .ok b) : b.value.isSome := by
  rw [Expr.value, Expr.eval_eq, valueOf_bind] at h
  cases hbs : valueOf (Expr.evalAll invoke table e.operands) with
  | error failure =>
    rw [hbs] at h
    cases h
  | ok bs =>
    rw [hbs] at h
    exact finish_valued hinv h

theorem values_valued (hinv : invoke.Valued) : ∀ {es : List Expr} {bs : List Binding},
    Expr.values invoke table es = .ok bs → ∀ b ∈ bs, b.value.isSome
  | [], bs, h => by
    cases h
    exact fun _ hb => absurd hb List.not_mem_nil
  | e :: es, bs, h => by
    obtain ⟨b, cs, hb, hcs, rfl⟩ := Expr.values_cons_ok.mp h
    exact List.forall_mem_cons.mpr ⟨value_valued hinv hb, values_valued hinv hcs⟩

end Expressions

/-! ## Texts -/

/-- No number is written with the letter L, so none is written like a missing value. -/
theorem ne_null_of_spelled {text : String} (h : Number.Spelled text.toList) : text ≠ "NULL" := by
  rintro rfl
  revert h
  decide

/-- **A value is shown as NULL only if it is this text itself**, under whatever tag. -/
theorem display_null {p : Payload} {ty : Tag} (h : p.display ty = .ok "NULL") :
    p = .text "NULL" := by
  have hnumeral : p.numeral ≠ .ok "NULL" := by
    intro hp
    cases p with
    | number x => exact ne_null_of_spelled (Number.spelled_display x) (Except.ok.inj hp)
    | truth b => cases b <;> simp [Payload.numeral] at hp
    | text s =>
      simp only [Payload.numeral, Payload.numeralOfText, Bind.bind, Except.bind] at hp
      split at hp
      · cases hp
      · split at hp
        · split at hp
          · cases hp
          · exact ne_null_of_spelled (Number.spelled_toString _) (Except.ok.inj hp)
        · exact ne_null_of_spelled (Number.spelled_literal _) (Except.ok.inj hp)
    | whole n =>
      simp only [Payload.numeral] at hp
      split at hp
      · exact ne_null_of_spelled (Number.spelled_toString n) (Except.ok.inj hp)
      · cases hp
  have hplain : p.plainText = .ok "NULL" → p = .text "NULL" := by
    intro hp
    cases p with
    | number x => exact absurd (Except.ok.inj hp) (ne_null_of_spelled (Number.spelled_literal x))
    | truth b => cases b <;> simp [Payload.plainText, Payload.shown] at hp
    | text s => exact congrArg _ (Except.ok.inj hp)
    | whole n =>
      simp only [Payload.plainText, Number.writeInt?] at hp
      split at hp
      · cases hp
      · exact absurd (Except.ok.inj hp) (ne_null_of_spelled (Number.spelled_toString n))
  cases ty with
  | none => exact hplain h
  | some T =>
    cases T with
    | numeric => exact absurd h hnumeral
    | boolean =>
      have hverdict : p.verdict = "NULL" := Except.ok.inj h
      unfold Payload.verdict at hverdict
      split at hverdict <;> simp at hverdict
    | string => exact hplain h

/-! ## Events -/

/-- The event shows a value, by the text of that value. -/
def PrintEvent.Genuine (e : PrintEvent) : Prop :=
  ∃ p, e.value = some p ∧ p.display e.ty = .ok e.text

/-- What a value is printed as is genuine. -/
theorem genuine_of_value {b : Binding} {e : PrintEvent}
    (hb : b.value.isSome) (h : PrintEvent.ofBinding b = .ok e) : e.Genuine := by
  obtain ⟨name, ty, value⟩ := b
  obtain ⟨p, rfl⟩ := Option.isSome_iff_exists.mp hb
  have hevent : ∀ text, p.display ty = .ok text → e = ⟨ty, some p, text⟩ → e.Genuine := by
    rintro text htext rfl
    exact ⟨p, rfl, htext⟩
  unfold PrintEvent.ofBinding at h
  cases htext : p.display ty with
  | error reason =>
    simp only [Binding.display, htext] at h
    cases h
  | ok text =>
    simp only [Binding.display, htext, Bind.bind, Except.bind] at h
    exact hevent text htext (Except.ok.inj h).symm

/-- All events of the reports are genuine. -/
def Shown (rs : List ExecReport) : Prop := ∀ r ∈ rs, ∀ e ∈ r.printed, e.Genuine

theorem shown_nil : Shown [] := fun _ hr => absurd hr List.not_mem_nil

theorem Shown.append {rs rs' : List ExecReport} (h : Shown rs) (h' : Shown rs') :
    Shown (rs ++ rs') := fun r hr => (List.mem_append.mp hr).elim (h r) (h' r)

theorem shown_sequential : Sequential fun x _ => Shown x.run.reports where
  pure _ := shown_nil
  throw _ := shown_nil
  bind {α β x _ g _} h hg := by
    show Shown (Trace.reports (_ >>= _))
    rw [Trace.reports_bind]
    refine h.append ?_
    show Shown (Trace.reports (ExceptT.bindCont g x.run.value))
    cases x.run.value with
    | ok v => exact hg v
    | error failure => exact shown_nil

/-- Whatever table it starts in, the execution reports only genuine events. -/
def ShowsOnly {α : Type} (x : Exec α) : Prop := ∀ t, Shown (x.run.run t).reports

section Statements

variable {α β : Type} {act : Activation}

theorem showsOnly_pure (a : α) : ShowsOnly (pure a : Exec α) := fun _ => shown_nil

theorem showsOnly_throw (failure : Failure) : ShowsOnly (throw failure : Exec α) :=
  fun _ => shown_nil

theorem showsOnly_modify (g : Table → Table) : ShowsOnly (modify g : Exec PUnit) :=
  fun _ => shown_nil

theorem showsOnly_step (m : Mark) (message : String) : ShowsOnly (act.step m message) := by
  intro t r hr e he
  obtain rfl := List.mem_singleton.mp hr
  cases he

theorem showsOnly_report {event : PrintEvent} (h : event.Genuine) (node : Option Nat)
    (message : String) : ShowsOnly (act.report node message (some event)) := by
  intro t r hr e he
  obtain rfl := List.mem_singleton.mp hr
  cases he
  exact h

/-- A sequence shows what its parts show; the second one starts from what the first one ends in. -/
theorem ShowsOnly.bind_ending {x : Exec α} {g : α → Exec β} (h : ShowsOnly x)
    (hg : ∀ t a t', endOf x t = (.ok a, t') → ShowsOnly (g a)) : ShowsOnly (x >>= g) := by
  intro t
  rw [reports_exec_bind]
  refine (h t).append ?_
  rcases hx : endOf x t with ⟨_ | a, t'⟩
  · exact shown_nil
  · exact hg t a t' hx t'

theorem ShowsOnly.bind {x : Exec α} {g : α → Exec β} (h : ShowsOnly x)
    (hg : ∀ a, ShowsOnly (g a)) : ShowsOnly (x >>= g) :=
  h.bind_ending fun _ a _ _ => hg a

/-- The calls of the activation return values, and print nothing else. -/
structure Activation.Candid (act : Activation) : Prop where
  valued : act.invoke.Valued
  shown : ∀ f actuals, Shown (act.invoke f actuals).run.reports

theorem showsOnly_value (hact : act.Candid) (e : Expr) : ShowsOnly (act.value e) := by
  intro t
  have he : Shown (e.eval act.invoke t).run.reports :=
    @eval_sequential _ act.invoke act.invoke t shown_sequential hact.shown e
  show Shown (Trace.reports (_ >>= _))
  rw [Trace.reports_bind]
  exact he.append shown_nil

theorem showsOnly_rounds {test : Exec Bool} {body : Exec Flow} (ht : ShowsOnly test)
    (hb : ShowsOnly body) : ∀ n, ShowsOnly (rounds test body n)
  | 0 => showsOnly_throw _
  | n + 1 => by
    refine ht.bind fun go => ?_
    cases go with
    | false => exact showsOnly_pure _
    | true =>
      refine hb.bind fun flow => ?_
      cases flow with
      | next => exact showsOnly_rounds ht hb n
      | returned b => exact showsOnly_pure _

mutual

/-- **A statement prints only values.**  The value that a PRINT shows is that of its expression. -/
theorem exec_shows (hact : act.Candid) : ∀ s : Stmt, ShowsOnly (s.exec act)
  | .print m e => by
    rw [Stmt.exec]
    refine (showsOnly_value hact e).bind_ending fun t b t' hb => ?_
    rw [endOf_value, Prod.mk.injEq] at hb
    have hvalue := value_valued hact.valued hb.1
    cases hevent : PrintEvent.ofBinding b with
    | error reason => exact showsOnly_throw _
    | ok event =>
      have hgenuine := genuine_of_value hvalue hevent
      exact (showsOnly_report hgenuine _ _).bind fun _ => showsOnly_pure _
  | .declare m b => by
    rw [Stmt.exec]
    exact (showsOnly_step _ _).bind fun _ => (showsOnly_modify _).bind fun _ => showsOnly_pure _
  | .assign m v e => by
    rw [Stmt.exec]
    refine (showsOnly_step _ _).bind fun _ => (showsOnly_value hact e).bind fun _ => ?_
    exact (showsOnly_modify _).bind fun _ => showsOnly_pure _
  | .ifThen m c _ body => by
    rw [Stmt.exec]
    refine (showsOnly_step _ _).bind fun _ => (showsOnly_value hact c).bind fun b => ?_
    split
    · exact execAll_shows hact body
    · exact showsOnly_pure _
  | .ifElse m c _ body _ other => by
    rw [Stmt.exec]
    refine (showsOnly_step _ _).bind fun _ => (showsOnly_value hact c).bind fun b => ?_
    split
    · exact execAll_shows hact body
    · exact execAll_shows hact other
  | .whileDo m c _ body => by
    rw [Stmt.exec]
    refine showsOnly_rounds ?_ (execAll_shows hact body) _
    exact (showsOnly_step _ _).bind fun _ => (showsOnly_value hact c).bind fun _ =>
      showsOnly_pure _
  | .ret m (some e) ty => by
    rw [Stmt.exec]
    exact (showsOnly_step _ _).bind fun _ => (showsOnly_value hact e).bind fun _ =>
      showsOnly_pure _
  | .ret m none ty => by
    rw [Stmt.exec]
    exact (showsOnly_step _ _).bind fun _ => showsOnly_pure _

theorem execAll_shows (hact : act.Candid) : ∀ ss : List Stmt, ShowsOnly (Stmt.execAll act ss)
  | [] => showsOnly_pure _
  | s :: rest => by
    rw [Stmt.execAll]
    refine (exec_shows hact s).bind fun flow => ?_
    cases flow with
    | next => exact execAll_shows hact rest
    | returned b => exact showsOnly_pure _

end

theorem procedure_shows (hact : act.Candid) (p : Procedure) (actuals : List Binding) :
    ShowsOnly (p.exec act actuals) := by
  unfold Procedure.exec
  refine (showsOnly_modify _).bind fun _ => (showsOnly_step _ _).bind fun _ => ?_
  refine (execAll_shows hact p.body).bind fun flow => ?_
  cases flow <;> exact showsOnly_pure _

end Statements

/-! ## Runs -/

section Runs

variable {program : Program} {limits : Limits} {actuals : List Binding} {m : Moment}

/-- Calls print only values, by induction on the activations that are left. -/
theorem invoke_shown (program : Program) (limits : Limits) (room : Nat) :
    ∀ depth f actuals, Shown (program.invoke limits room depth f actuals).run.reports := by
  induction room with
  | zero =>
    intro depth f actuals
    unfold Program.invoke
    cases program.find? f <;> exact shown_nil
  | succ room ih =>
    intro depth f actuals
    cases hf : program.find? f with
    | none =>
      rw [invoke_missing hf]
      exact shown_nil
    | some p =>
      have hact : Activation.Candid ⟨f, depth, program.invoke limits room (depth + 1), limits⟩ :=
        ⟨invoke_valued program limits room (depth + 1), ih (depth + 1)⟩
      rw [run_invoke hf, Trace.reports_bind]
      exact (procedure_shows hact p actuals Table.empty).append shown_nil

/-- **Every event of a run shows a value.** -/
theorem run_shown (program : Program) (limits : Limits) (actuals : List Binding) :
    Shown (program.run limits actuals).reports := by
  unfold Program.run
  split
  case h_1 => exact shown_nil
  case h_2 => exact shown_nil
  case h_3 main room hmain hroom =>
    have hact : Activation.Candid ⟨entryPoint, 1, program.invoke limits room 2, limits⟩ :=
      ⟨invoke_valued program limits room 2, invoke_shown program limits room 2⟩
    exact procedure_shows hact main actuals Table.empty

/-- **Where an activation comes from**: it is that of MAIN, or it was called on values. -/
theorem reached_activation {given : List Binding} (h : Reached program limits actuals m)
    (hm : m.task = .run given) :
    (m.frame.depth = 1 ∧ (program.run limits actuals).value =
      m.frame.procedure.ending (m.frame.act program limits) given m.table) ∨
    m.frame.depth ≠ 1 ∧ ∃ fr t mark ty f sig args,
      Reached program limits actuals ⟨fr, t, .eval (.call mark ty f sig args)⟩ ∧
      fr.values program limits t args = .ok given ∧ m.frame.procedure.name = f ∧
      valueOf ((fr.act program limits).invoke f given) =
        (m.frame.procedure.ending (m.frame.act program limits) given m.table).1 := by
  have hdepth : ∀ {m : Moment}, Reached program limits actuals m → 1 ≤ m.frame.depth := by
    rintro m ⟨main, room, -, -, hto⟩
    induction hto with
    | refl => exact Nat.le_refl 1
    | tail _ hl ih =>
      cases hl with
      | call _ _ => exact Nat.le_add_left 1 _
      | _ => exact ih
  obtain ⟨main, room, hmain, hroom, hto⟩ := h
  cases hto with
  | refl =>
    cases hm
    exact .inl ⟨rfl, run_eq hmain hroom actuals⟩
  | tail hto hl =>
    have hcaller := hdepth ⟨main, room, hmain, hroom, hto⟩
    cases hl with
    | @call q p room' depth t mark ty f sig args given' ha hq =>
      cases hm
      have hdeeper : depth + 1 ≠ 1 := by
        have hcaller : 1 ≤ depth := hcaller
        omega
      exact .inr ⟨hdeeper, _, _, mark, ty, f, sig, args, ⟨main, room, hmain, hroom, hto⟩, ha,
        (find?_spec hq).2, Frame.invoke_eq hq⟩
    | _ => cases hm

/-- A function is run, and its body comes to an end without a value: with a bare RETURN, or without
any. -/
def Moment.Valueless (program : Program) (limits : Limits) (m : Moment) : Prop :=
  ∃ given flow last, m.task = .run given ∧
    Stmt.endingAll (m.frame.act program limits)
      (Procedure.bind m.frame.procedure.formals given m.table) m.frame.procedure.body =
        (.ok flow, last) ∧
    (flow = .next ∨ ∃ b, flow = .returned b ∧ b.value = none)

theorem valueless_iff : m.Valueless program limits ↔ ∃ given, m.task = .run given ∧
    (m.frame.procedure.ending (m.frame.act program limits) given m.table).1 = .ok none := by
  constructor
  · rintro ⟨given, flow, last, hm, hbody, hflow⟩
    exact ⟨given, hm, ending_eq_result.mpr ⟨flow, last, hbody, flow_result_none.mpr hflow⟩⟩
  · rintro ⟨given, hm, hend⟩
    obtain ⟨flow, last, hbody, hflow⟩ := ending_eq_result.mp hend
    exact ⟨given, flow, last, hm, hbody, flow_result_none.mp hflow⟩

/-- **What becomes of a function that returns nothing**: MAIN has no result, and a call of any other
ends the run. -/
theorem run_of_valueless (h : Reached program limits actuals m)
    (hm : m.Valueless program limits) :
    (program.run limits actuals).value.1 =
      if m.frame.depth = 1 then .ok none
      else .error (.fault (.noReturnValue m.frame.procedure.name)) := by
  obtain ⟨given, htask, hend⟩ := valueless_iff.mp hm
  rcases reached_activation h htask with ⟨hdepth, hrun⟩ | ⟨hdepth, hcall⟩
  · rw [if_pos hdepth, hrun, hend]
  · obtain ⟨fr, t, mark, ty, f, sig, args, hcaller, hargs, rfl, hvalue⟩ := hcall
    rw [hend] at hvalue
    rw [if_neg hdepth]
    exact run_fails_iff.mpr (.inr ⟨_, hcaller, .noValue hargs hvalue⟩)

/-- A missing value is reported only of a function that has returned none. -/
theorem valueless_of_fault {f : Name}
    (h : (program.run limits actuals).value.1 = .error (.fault (.noReturnValue f))) :
    ∃ m, Reached program limits actuals m ∧ m.Valueless program limits ∧ m.frame.depth ≠ 1 ∧
      m.frame.procedure.name = f := by
  rcases run_fails_iff.mp h with ⟨_, _, hfault⟩ | ⟨m, hm, hr⟩
  · cases hfault
  cases hr with
  | @noValue fr t mark ty f sig args given hargs hnone =>
    obtain ⟨p, room, depth⟩ := fr
    cases hq : program.find? f with
    | none =>
      rw [Frame.act, Program.invoke_unknown hq] at hnone
      cases hnone
    | some q =>
      cases room with
      | zero =>
        rw [Frame.act, Program.invoke_zero hq] at hnone
        cases hnone
      | succ room =>
        obtain ⟨main, room', hmain, hroom, hto⟩ := hm
        have hcallee : Reached program limits actuals ⟨⟨q, room, depth + 1⟩, Table.empty,
            .run given⟩ := ⟨main, room', hmain, hroom, hto.tail (.call hargs hq)⟩
        rw [Frame.invoke_eq hq] at hnone
        have hvalueless : Moment.Valueless program limits
            ⟨⟨q, room, depth + 1⟩, Table.empty, .run given⟩ :=
          valueless_iff.mpr ⟨given, rfl, hnone⟩
        refine ⟨⟨⟨q, room, depth + 1⟩, Table.empty, .run given⟩, hcallee, hvalueless,
          fun hdepth => ?_, (find?_spec hq).2⟩
        have hresult := run_of_valueless hcallee hvalueless
        rw [if_pos hdepth, h] at hresult
        cases hresult

/-- What an assignment stores has a value. -/
theorem stored_valued {fr : Frame} {t last : Table} {mark : Mark} {v : Variable} {e : Expr}
    (h : Stmt.ending (fr.act program limits) t (.assign mark v e) = (.ok .next, last)) :
    ∃ b, last.lookup v.name = some b ∧ b.value.isSome := by
  rw [Stmt.ending_assign] at h
  split at h
  · cases h
  · rename_i b hb
    cases h
    have hvalue : b.value.isSome := value_valued (invoke_valued program limits _ _) hb
    refine ⟨b.renamed v.name, ?_, hvalue⟩
    rw [Table.lookup, Table.assign, Registry.get?_insert, if_pos rfl]

/-- What a function is called on has values; only MAIN is run on whatever it is given. -/
theorem given_valued {given : List Binding} (h : Reached program limits actuals m)
    (hm : m.task = .run given) (hdepth : m.frame.depth ≠ 1) : ∀ b ∈ given, b.value.isSome := by
  rcases reached_activation h hm with ⟨hmain, -⟩ | ⟨-, hcall⟩
  · exact absurd hmain hdepth
  · obtain ⟨fr, t, mark, ty, f, sig, args, -, hargs, -, -⟩ := hcall
    exact values_valued (invoke_valued program limits _ _) hargs

/-- The result of MAIN, if there is one, has a value. -/
theorem result_valued {b : Binding}
    (h : (program.run limits actuals).value.1 = .ok (some b)) : b.value.isSome := by
  cases hmain : program.find? entryPoint with
  | none =>
    unfold Program.run at h
    rw [hmain] at h
    cases h
  | some main =>
    cases hroom : limits.activations with
    | zero =>
      unfold Program.run at h
      rw [hmain, hroom] at h
      cases h
    | succ room =>
      rw [run_eq hmain hroom] at h
      obtain ⟨flow, last, -, hflow⟩ := ending_eq_result.mp h
      exact flow_result_some hflow

/-- **The absence of a value stays where it is.**  In a run of a program, on whatever actuals, with
or without values: an expression that has a result has a value; so has what an assignment stores and
what a call is made on; every event shows a value, which is shown as NULL only if it is this text
itself; and the result of MAIN, if there is one, has a value.  A function whose body ends without a
value shows in one of two ways: MAIN has no result, or the run fails at the call of that function,
for want of its value; and a run fails so only there. -/
theorem absence_contained (program : Program) (limits : Limits) (actuals : List Binding) :
    (∀ m, Reached program limits actuals m →
      (∀ e b, m.task = .eval e → m.frame.value program limits m.table e = .ok b →
        b.value.isSome) ∧
      (∀ mark v e last, m.task = .exec (.assign mark v e) →
        Stmt.ending (m.frame.act program limits) m.table (.assign mark v e) = (.ok .next, last) →
          ∃ b, last.lookup v.name = some b ∧ b.value.isSome) ∧
      (∀ given, m.task = .run given → m.frame.depth ≠ 1 → ∀ b ∈ given, b.value.isSome) ∧
      (m.Valueless program limits → (program.run limits actuals).value.1 =
        if m.frame.depth = 1 then .ok none
        else .error (.fault (.noReturnValue m.frame.procedure.name)))) ∧
    (∀ r ∈ (program.run limits actuals).reports, ∀ e ∈ r.printed,
      ∃ p, e.value = some p ∧ (e.text = "NULL" → p = .text "NULL")) ∧
    (∀ b, (program.run limits actuals).value.1 = .ok (some b) → b.value.isSome) ∧
    ∀ f, (program.run limits actuals).value.1 = .error (.fault (.noReturnValue f)) →
      ∃ m, Reached program limits actuals m ∧ m.Valueless program limits ∧ m.frame.depth ≠ 1 ∧
        m.frame.procedure.name = f := by
  refine ⟨fun m hm => ⟨fun e b _ hb => ?_, fun mark v e last _ hlast => ?_, fun given => ?_, ?_⟩,
    fun r hr e he => ?_, fun b => result_valued, fun f => valueless_of_fault⟩
  · exact value_valued (invoke_valued program limits _ _) hb
  · exact stored_valued hlast
  · exact given_valued hm
  · exact run_of_valueless hm
  · obtain ⟨p, hp, htext⟩ := run_shown program limits actuals r hr e he
    refine ⟨p, hp, fun hnull => ?_⟩
    rw [hnull] at htext
    exact display_null htext

end Runs

end Slang
