import Slang.Proofs.Acceptance
import Slang.Proofs.Moments

/-!
# What runs is code of the program

* `Procedure.declared` — the formals and all declarations of a function.
* `Consistent program` — what a program is like that was compiled: its bodies are admissible with
  their types recorded, every signature is that of the function which its name finds, a signature
  has the types of the formals, and what is declared has no value.
* `Task.Code` — the task is a part of a function, behind some of the function's declarations.

Principal results: `Compiled.consistent` — compiled programs are consistent; `reached_code` — in a
run of a consistent program every task is a part of the function that it runs in.
-/

set_option autoImplicit false

namespace Slang

open Grammar

/-! ## Compiled programs -/

/-- The formals and all declarations of a function. -/
def Procedure.declared (p : Procedure) : List Binding := p.formals ++ Stmt.declarationsAll p.body

/-- What a program is like that was compiled. -/
structure Consistent (program : Program) : Prop where
  admits : ∀ p ∈ program.procedures, p.Admits (Settled program.prototypes)
  linked : ∀ {f : Name} {sig : Prototype}, program.prototypes.get? f = some sig →
    ∃ q, program.find? f = some q ∧ q.prototype = sig
  formals : ∀ p ∈ program.procedures, p.prototype.formals = p.formals.map (·.ty)
  unassigned : ∀ p ∈ program.procedures, ∀ b ∈ p.declared, b.value = none

theorem forall_declarationsAll {P : Binding → Prop} {items : List (List Token × Stmt)}
    (h : ∀ i ∈ items, ∀ b ∈ i.2.declarations, P b) :
    ∀ b ∈ Stmt.declarationsAll (items.map (·.2)), P b := by
  induction items with
  | nil => simp [Stmt.declarationsAll]
  | cons i rest ih =>
    simp only [List.forall_mem_cons] at h
    intro b hb
    rcases List.mem_append.mp hb with hb | hb
    · exact h.1 b hb
    · exact ih h.2 b hb

theorem Grammar.StmtDerives.unassigned {known : Signatures} {ts : List Token} {s : Stmt}
    (h : StmtDerives known ts s) : ∀ b ∈ s.declarations, b.value = none := by
  induction h with
  | declare _ _ _ => simp [Stmt.declarations, Binding.declared]
  | print | assign | leave | ret => simp [Stmt.declarations]
  | ifThen _ _ _ _ _ ih | whileDo _ _ _ _ ih => exact forall_declarationsAll ih
  | ifElse _ _ _ _ _ _ _ ih ih' =>
    intro b hb
    rcases List.mem_append.mp hb with hb | hb
    · exact forall_declarationsAll ih b hb
    · exact forall_declarationsAll ih' b hb

/-- What a text declares has no value. -/
theorem Grammar.ProgramDerives.unassigned {tokens : List Token} {ps : List Procedure}
    (h : ProgramDerives tokens ps) : ∀ p ∈ ps, ∀ b ∈ p.declared, b.value = none := by
  cases h with
  | functions _ h =>
    refine List.forall_mem_map.mpr fun i hi => ?_
    have hd := h i hi
    generalize i.1 = ts at hd
    generalize i.2 = q at hd
    cases hd with | function _ _ _ _ _ hf _ hb _ =>
    intro b hb'
    rcases List.mem_append.mp hb' with hb' | hb'
    · obtain ⟨f, hmem, rfl⟩ := List.mem_map.mp hb'
      have hd := hf f hmem
      generalize f.1 = ts at hd
      generalize f.2 = c at hd
      cases hd
      rfl
    · exact forall_declarationsAll (fun i hi => (hb i hi).unassigned) b hb'
  | script h =>
    rintro p (_ | _) b hb
    · exact forall_declarationsAll (fun i hi => (h i hi).unassigned) b hb
    · contradiction

theorem Grammar.ProgramDerives.formals {tokens : List Token} {ps : List Procedure}
    (h : ProgramDerives tokens ps) : ∀ p ∈ ps, p.prototype.formals = p.formals.map (·.ty) := by
  cases h with
  | functions _ h =>
    refine List.forall_mem_map.mpr fun i hi => ?_
    have hd := h i hi
    generalize i.1 = ts at hd
    generalize i.2 = q at hd
    cases hd
    rfl
  | script _ => simp [scriptMain, Procedure.ofParts]

/-- **Compiled programs are consistent.** -/
theorem Compiled.consistent {source : String} {program : Program}
    (h : Compiled source program) : Consistent program := by
  refine ⟨h.settled, ?_, ?_, ?_⟩
  · intro f sig hf
    rw [h.signatures_eq, signatures_get?] at hf
    exact Option.map_eq_some_iff.mp hf
  · obtain ⟨tokens, t, _, _, hd, _⟩ := h.accepted
    intro p hp
    exact hd.formals p.bare (List.mem_map_of_mem hp)
  · obtain ⟨tokens, t, _, _, hd, _⟩ := h.accepted
    intro p hp b hb
    refine hd.unassigned p.bare (List.mem_map_of_mem hp) b ?_
    rw [Procedure.declared, Procedure.bare, Stmt.declarationsAll_bareAll]
    exact hb

/-! ## Parts of a function -/

/-- The task is a part of the function, and it stands behind some of its declarations. -/
def Task.Code (known : Signatures) (p : Procedure) : Task → Prop
  | .eval e => ∃ before T, before ⊆ p.declared ∧ Settled known (latest before) e T
  | .exec s => ∃ before, before ++ s.declarations ⊆ p.declared ∧
      s.Admits (Settled known) p.returns before
  | .block ss => ∃ before, before ++ Stmt.declarationsAll ss ⊆ p.declared ∧
      Stmt.AdmitsAll (Settled known) p.returns before ss
  | .loop _ c body _ => ∃ before, before ++ Stmt.declarationsAll body ⊆ p.declared ∧
      Settled known (latest before) c (some .boolean) ∧
      Stmt.AdmitsAll (Settled known) p.returns before body
  | .run _ => True

/-- The moment is one of the program: a part of one of its functions. -/
def Moment.Code (program : Program) (m : Moment) : Prop :=
  m.frame.procedure ∈ program.procedures ∧ m.task.Code program.prototypes m.frame.procedure

theorem nodes_of_operand {e a : Expr} (h : a ∈ e.operands) : a.nodes ⊆ e.nodes := by
  intro n hn
  cases e with
  | number | truth | text | var => cases h
  | arith | compare | logic =>
    simp only [Expr.operands, List.mem_cons, List.not_mem_nil, or_false] at h
    rcases h with rfl | rfl <;> simp [Expr.nodes, hn]
  | not | sign =>
    simp only [Expr.operands, List.mem_cons, List.not_mem_nil, or_false] at h
    subst h
    simp [Expr.nodes, hn]
  | call m t f p args =>
    have h : a ∈ args := h
    simp only [Expr.nodes, List.mem_cons, Expr.mem_nodesAll]
    exact .inr ⟨a, h, hn⟩

theorem Settled.operand {known : Signatures} {Γ : Types} {e a : Expr} {T : Tag}
    (h : Settled known Γ e T) (ha : a ∈ e.operands) : Settled known Γ a a.ty? :=
  ⟨fun n hn => h.recorded n (nodes_of_operand ha hn), rfl,
    fun m t f p args hm => h.linked m t f p args (nodes_of_operand ha hm)⟩

section Parts

variable {known : Signatures} {p : Procedure}

/-- The first expression of a statement is settled. -/
theorem first_code {s : Stmt} {e : Expr} (h : (Task.exec s).Code known p)
    (hs : s.first = some e) : (Task.eval e).Code known p := by
  obtain ⟨before, hsub, ha⟩ := h
  have hbefore : before ⊆ p.declared := fun b hb => hsub (List.mem_append_left _ hb)
  cases s with
  | print m e' =>
    cases hs
    obtain ⟨T, hT⟩ := ha
    exact ⟨before, T, hbefore, hT⟩
  | assign m v e' =>
    cases hs
    obtain ⟨T, _, hT⟩ := ha
    exact ⟨before, T, hbefore, hT⟩
  | ifThen m c m' body =>
    cases hs
    exact ⟨before, _, hbefore, ha.1⟩
  | ifElse m c m' body m'' other =>
    cases hs
    exact ⟨before, _, hbefore, ha.1⟩
  | ret m value ty =>
    cases hs
    exact ⟨before, _, hbefore, ha e rfl⟩
  | declare | whileDo => cases hs

theorem branch_code {s : Stmt} {b : Binding} {body : List Stmt} (h : (Task.exec s).Code known p)
    (hb : s.branch b = some body) : (Task.block body).Code known p := by
  obtain ⟨before, hsub, ha⟩ := h
  cases s with
  | ifThen m c m' body' =>
    simp only [Stmt.branch, Option.ite_none_right_eq_some, Option.some.injEq] at hb
    obtain ⟨_, rfl⟩ := hb
    exact ⟨before, hsub, ha.2⟩
  | ifElse m c m' body' m'' other =>
    simp only [Stmt.branch, Option.some.injEq] at hb
    simp only [Stmt.declarations, ← List.append_assoc] at hsub
    subst hb
    split
    · exact ⟨before, fun b hb => hsub (List.mem_append_left _ hb), ha.2.1⟩
    · exact ⟨before ++ Stmt.declarationsAll body', hsub, ha.2.2⟩
  | _ => cases hb

theorem block_code {s : Stmt} {rest : List Stmt} (h : (Task.block (s :: rest)).Code known p) :
    (Task.exec s).Code known p ∧ (Task.block rest).Code known p := by
  obtain ⟨before, hsub, hs, hrest⟩ := h
  simp only [Stmt.declarationsAll, ← List.append_assoc] at hsub
  exact ⟨⟨before, fun b hb => hsub (List.mem_append_left _ hb), hs⟩,
    ⟨before ++ s.declarations, hsub, hrest⟩⟩

end Parts

variable {program : Program} {limits : Limits}

/-- One thing that is code of the program takes only others that are. -/
theorem code_of_leads (hc : Consistent program) {m m' : Moment} (h : Leads program limits m m')
    (hm : m.Code program) : m'.Code program := by
  obtain ⟨hp, htask⟩ := hm
  cases h with
  | operand he _ =>
    obtain ⟨before, T, hsub, hT⟩ := htask
    exact ⟨hp, before, _, hsub, hT.operand (by simp [he])⟩
  | call _ hq => exact ⟨(find?_spec hq).1, trivial⟩
  | body => exact ⟨hp, _, fun b hb => hb, hc.admits _ hp⟩
  | first => exact ⟨hp, (block_code htask).1⟩
  | next _ => exact ⟨hp, (block_code htask).2⟩
  | value hs => exact ⟨hp, first_code htask hs⟩
  | branch _ _ hb => exact ⟨hp, branch_code htask hb⟩
  | enter =>
    obtain ⟨before, hsub, hcond, hbody⟩ := htask
    exact ⟨hp, before, hsub, hcond, hbody⟩
  | test =>
    obtain ⟨before, hsub, hcond, _⟩ := htask
    exact ⟨hp, before, _, fun b hb => hsub (List.mem_append_left _ hb), hcond⟩
  | round _ _ =>
    obtain ⟨before, hsub, _, hbody⟩ := htask
    exact ⟨hp, before, hsub, hbody⟩
  | again _ _ _ => exact ⟨hp, htask⟩

/-- **Whatever is done in a run is a part of the function that it is done in.** -/
theorem reached_code (hc : Consistent program) {actuals : List Binding} {m : Moment}
    (h : Reached program limits actuals m) : m.Code program := by
  obtain ⟨main, room, hmain, _, hto⟩ := h
  induction hto with
  | refl => exact ⟨(find?_spec hmain).1, trivial⟩
  | tail _ hl ih => exact code_of_leads hc hl ih

end Slang
