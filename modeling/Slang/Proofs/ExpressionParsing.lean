import Slang.Proofs.Repetition

/-!
# The parser reads the grammar of expressions exactly

* `Level.read` — the reader of a level.
* `reads_level` — soundness: whatever a level consumes derives the tree that it returns.
* `Level.Stops` — the tokens that a level stops at: no operator of the level or of one below it, and
  no opening parenthesis, with which a name would be a call.
* `accepts_level` — completeness: a level that stands before a derivation and a token to stop at
  reads exactly the derivation, unless it lacks frames; six frames for a token are enough.

Principal result: `logical_exact` — both directions for whole expressions.
-/

set_option autoImplicit false

namespace Slang.Grammar

variable {known : Signatures} {l m : Level} {s s' : State}

/-- The reader of a level. -/
def Level.read (known : Signatures) : Level → Nat → Reader Expr
  | factor => Grammar.factor known
  | term => Grammar.term known
  | sum => Grammar.sum known
  | comparison => Grammar.comparison known
  | logical => Grammar.logical known

theorem Level.read_succ (hl : l.inner = some m) (n : Nat) :
    l.read known (n + 1) = chain (m.read known n) l.pick (l.read known n) l.build := by
  cases l <;> cases hl <;> rfl

theorem Level.read_zero (l : Level) : l.read known 0 = tooDeep := by
  cases l <;> rfl

/-! ## Soundness -/

/-- The consumed tokens spell the tree, and no name is declared. -/
def Spelt (known : Signatures) (l : Level) (s : State) (ts : List Token) (e : Expr) (s' : State) :
    Prop :=
  Derives known l ts e ∧ s'.table = s.table

theorem reads_tooDeep {α : Type} {P : List Token → α → State → Prop} :
    Reads (tooDeep : Reader α) s P :=
  Reads.bind Reads.current fun _ _ _ _ _ => Reads.fail

theorem reads_chain {operand again : Reader Expr} (hl : l.inner = some m)
    (ho : ∀ s, Reads operand s (Spelt known m s)) (ha : ∀ s, Reads again s (Spelt known l s)) :
    Reads (chain operand l.pick again l.build) s (Spelt known l s) := by
  refine Reads.bind (ho s) ?_
  rintro ts left s₁ _ ⟨hd, ht⟩
  refine Reads.bind (Reads.accept rfl) ?_
  rintro us (_ | ⟨op, t⟩) s₂ _ ⟨ht', hf⟩
  · obtain rfl : us = [] := hf.1
    refine Reads.pure ⟨?_, ht'.trans ht⟩
    simpa using Derives.operand hl hd
  · obtain ⟨rfl, hop⟩ : us = [t] ∧ operator l.pick t.kind = some op := hf
    refine Reads.bind (ha s₂) ?_
    rintro vs right s₃ _ ⟨hd', ht''⟩
    refine Reads.pure ⟨?_, ht''.trans (ht'.trans ht)⟩
    simpa using Derives.chain hl hd hop hd'

/-- Behind a sign the same level is read again. -/
theorem reads_signed {n : Nat} {message : String} {t : Token} {rest : List Token}
    {build : Expr → Expr} (ih : ∀ s, Reads (factor known n) s (Spelt known .factor s))
    (hr : s.rest = t :: rest) (ht : t.kind ≠ .endOfInput)
    (hb : ∀ ts e, Derives known .factor ts e → Derives known .factor (t :: ts) (build e)) :
    Reads (do
      let _ ← advance message
      let e ← factor known n
      return build e) s (Spelt known .factor s) := by
  refine Reads.bind (Reads.advance hr ht) ?_
  rintro ts u s₁ _ ⟨rfl, rfl, ht₁⟩
  refine Reads.bind (ih s₁) ?_
  rintro us e s₂ _ ⟨hd, ht₂⟩
  refine Reads.pure ⟨?_, ht₂.trans ht₁⟩
  simpa using hb us e hd

/-- A literal is a single token. -/
theorem reads_literal {message : String} {t : Token} {rest : List Token} {e : Expr}
    (hr : s.rest = t :: rest) (hd : Derives known .factor [t] e) :
    Reads (do
      let _ ← advance message
      return e) s (Spelt known .factor s) := by
  refine Reads.bind (Reads.advance hr (hd.kinds t (by simp)).1) ?_
  rintro ts u s₁ _ ⟨rfl, rfl, ht₁⟩
  exact Reads.pure ⟨hd, ht₁⟩

theorem reads_factor {n : Nat} (hfactor : ∀ s, Reads (factor known n) s (Spelt known .factor s))
    (hlogical : ∀ s, Reads (logical known n) s (Spelt known .logical s))
    (hident : ∀ s, Reads (identifier known n) s (Spelt known .factor s)) :
    Reads (factor known (n + 1)) s (Spelt known .factor s) := by
  unfold factor
  refine Reads.bind Reads.current ?_
  rintro ts t s₀ _ ⟨rfl, rfl, rest, hr⟩
  split
  · exact reads_literal hr (.number ‹_›)
  · exact reads_literal hr (.text ‹_›)
  · exact reads_literal hr (.yes ‹_›)
  · exact reads_literal hr (.no ‹_›)
  · rename_i hk
    refine Reads.bind (Reads.advance hr (by simp [hk])) ?_
    rintro ts u s₁ _ ⟨rfl, rfl, ht₁⟩
    refine Reads.bind (hlogical s₁) ?_
    rintro us e s₂ _ ⟨hd, ht₂⟩
    refine Reads.bind Reads.expectSymbol ?_
    rintro vs closing s₃ _ ⟨rfl, hc, ht₃⟩
    refine Reads.pure ⟨?_, ht₃.trans (ht₂.trans ht₁)⟩
    simpa using Derives.paren hk hd hc
  · rename_i hk
    exact reads_signed hfactor hr (by simp [hk]) fun ts e hd => .sign hk rfl hd
  · rename_i hk
    exact reads_signed hfactor hr (by simp [hk]) fun ts e hd => .sign hk rfl hd
  · rename_i hk
    exact reads_signed hfactor hr (by simp [hk]) fun ts e hd => .not hk hd
  · exact hident s₀
  · exact Reads.bind Reads.report fun _ _ _ _ _ => Reads.fail

theorem reads_identifier {n : Nat}
    (hlogical : ∀ s, Reads (logical known n) s (Spelt known .logical s)) :
    Reads (identifier known (n + 1)) s (Spelt known .factor s) := by
  unfold identifier
  refine Reads.bind (Reads.expect (by simp)) ?_
  rintro ts t s₁ _ ⟨rfl, hk, ht₁⟩
  have hk : t.kind = .identifier := by simpa using hk
  dsimp only
  split
  · rename_i hp
    refine Reads.bind Reads.current ?_
    rintro us u s₂ _ ⟨rfl, rfl, rest, hr⟩
    split
    · exact Reads.fail
    · exact Reads.pure ⟨.var hk hp, ht₁⟩
  · rename_i p hp
    refine Reads.bind Reads.expectSymbol ?_
    rintro us opening s₂ _ ⟨rfl, ho, ht₂⟩
    refine Reads.bind Reads.acceptSymbol ?_
    rintro vs (_ | _) s₃ _ ⟨ht₃, hf⟩
    · obtain rfl : vs = [] := by simpa using hf
      refine Reads.bind Reads.remaining ?_
      rintro ws k s₄ _ ⟨rfl, rfl, rfl⟩
      have hitem : ∀ s, Reads (logical known n) s fun ts e s' =>
          ts ≠ [] ∧ Derives known .logical ts e ∧ s'.table = s.table :=
        fun s => (hlogical s).mono fun _ _ _ _ ⟨hd, ht⟩ => ⟨hd.ne_nil, hd, ht⟩
      refine Reads.bind (Reads.separated hitem _ [] s₄ (Nat.le_refl _)) ?_
      rintro ws args s₅ _ ⟨ht₅, items, _, hs, hall, rfl⟩
      refine Reads.bind Reads.expectSymbol ?_
      rintro xs closing s₆ _ ⟨rfl, hc, ht₆⟩
      refine Reads.pure ⟨?_, ht₆.trans (ht₅.trans (ht₃.trans (ht₂.trans ht₁)))⟩
      simpa using Derives.call hk hp ho hs hall hc
    · obtain ⟨closing, rfl, hc⟩ : ∃ u, vs = [u] ∧ u.kind = .symbol .rightParen := by simpa using hf
      refine Reads.pure ⟨?_, ht₃.trans (ht₂.trans ht₁)⟩
      simpa using Derives.call_nil hk hp ho hc

/-- **Whatever a level consumes derives the tree that it returns.** -/
theorem reads_level (known : Signatures) : ∀ n : Nat,
    (∀ l s, Reads (l.read known n) s (Spelt known l s)) ∧
      ∀ s, Reads (identifier known n) s (Spelt known .factor s)
  | 0 => ⟨fun l s => by rw [l.read_zero]; exact reads_tooDeep, fun s => reads_tooDeep⟩
  | n + 1 => by
    obtain ⟨hlevel, hident⟩ := reads_level known n
    refine ⟨fun l s => ?_, fun s => reads_identifier (hlevel .logical)⟩
    cases hl : l.inner with
    | none =>
      cases l <;> cases hl
      exact reads_factor (hlevel .factor) (hlevel .logical) hident
    | some m =>
      rw [Level.read_succ hl]
      exact reads_chain hl (hlevel m) (hlevel l)

/-! ## Completeness -/

/-- The tokens that a level stops at. -/
def Level.Stops (l : Level) : List Token → Prop
  | [] => False
  | t :: _ => t.kind ≠ .symbol .leftParen ∧
      ∀ m : Level, m.height ≤ l.height → operator m.pick t.kind = none

theorem Level.Stops.inner {rest : List Token} (h : l.Stops rest) (hl : l.inner = some m) :
    m.Stops rest := by
  cases rest with
  | nil => exact h
  | cons t rest =>
    refine ⟨h.1, fun k hk => h.2 k (Nat.le_trans hk ?_)⟩
    cases l <;> cases hl <;> decide

theorem Level.height_inner (hl : l.inner = some m) : l.height = m.height + 1 := by
  cases l <;> cases hl <;> rfl

/-- A symbol is an operator of one level at most. -/
theorem Level.eq_of_pick {x : Symbol} {a b : Operator} (hl : l.pick x = some a)
    (hm : m.pick x = some b) : l = m := by
  cases x <;> cases l <;> cases hl <;> cases m <;> cases hm <;> rfl

/-- A level stops at an operator of a level further out. -/
theorem stops_operator {t : Token} {op : Operator} (rest : List Token) (hl : l.inner = some m)
    (ht : operator l.pick t.kind = some op) : m.Stops (t :: rest) := by
  obtain ⟨x, hx, hop⟩ := operator_eq_some ht
  refine ⟨?_, fun k hk => ?_⟩
  · rw [hx]
    rintro ⟨⟩
    cases l <;> cases hop
  · rw [hx]
    refine Option.eq_none_iff_forall_ne_some.mpr fun b hb => ?_
    have := Level.eq_of_pick hop hb
    have := Level.height_inner hl
    subst_vars
    omega

/-- Every level stops at a token that is no operator and opens no parenthesis. -/
theorem stops_of_kind {t : Token} (rest : List Token) (ho : t.kind ≠ .symbol .leftParen)
    (h : ∀ m : Level, operator m.pick t.kind = none) : l.Stops (t :: rest) :=
  ⟨ho, fun m _ => h m⟩

theorem stops_symbol {t : Token} {x : Symbol} (rest : List Token) (ht : t.kind = .symbol x)
    (hx : x = .comma ∨ x = .rightParen ∨ x = .semicolon) : l.Stops (t :: rest) := by
  refine stops_of_kind rest ?_ fun m => ?_
  · rw [ht]
    rintro ⟨⟩
    simp at hx
  · rw [ht]
    rcases hx with rfl | rfl | rfl <;> cases m <;> rfl

theorem stops_keyword {t : Token} {k : Keyword} (rest : List Token) (ht : t.kind = .keyword k) :
    l.Stops (t :: rest) :=
  stops_of_kind rest (by simp [ht]) fun m => by rw [ht]; rfl

/-- The tree is returned, and no name is declared. -/
def Returned (s : State) (e : Expr) (e' : Expr) (s' : State) : Prop :=
  e' = e ∧ s'.table = s.table

theorem accepts_literal {message : String} {t : Token} {rest : List Token} {e : Expr}
    {short : Prop} (hr : s.rest = t :: rest) (ht : t.kind ≠ .endOfInput) :
    Accepts (do
      let _ ← advance message
      return e) s [t] (Returned s e) short := by
  refine (Accepts.advance hr ht).bind_nil ?_
  rintro u s₁ _ ⟨rfl, ht₁⟩
  exact Accepts.pure ⟨rfl, ht₁⟩

theorem accepts_signed {n : Nat} {message : String} {t : Token} {ts rest : List Token}
    {build : Expr → Expr} {e : Expr} {short : Prop} (hr : s.rest = t :: ts ++ rest)
    (ht : t.kind ≠ .endOfInput)
    (ih : ∀ s, s.rest = ts ++ rest → Accepts (factor known n) s ts (Returned s e) short) :
    Accepts (do
      let _ ← advance message
      let e ← factor known n
      return build e) s (t :: ts) (Returned s (build e)) short := by
  refine (Accepts.advance hr ht).bind ts ?_
  rintro u s₁ hm ⟨rfl, ht₁⟩
  refine (ih s₁ (hm.ahead hr)).bind_nil ?_
  rintro e' s₂ _ ⟨rfl, ht₂⟩
  exact Accepts.pure ⟨rfl, ht₂.trans ht₁⟩

/-- Whatever becomes of an operand becomes of the level, if no operator follows. -/
theorem accepts_chain_operand {operand again : Reader Expr} {P : Expr → State → Prop}
    {ts rest : List Token} {short : Prop} (hr : s.rest = ts ++ rest) (hs : l.Stops rest)
    (ho : Accepts operand s ts P short) :
    Accepts (chain operand l.pick again l.build) s ts P short := by
  refine ho.bind_nil ?_
  intro e s₁ hm he
  cases rest with
  | nil => exact hs.elim
  | cons t rest =>
    refine (Accepts.accept_none (hm.ahead hr) (hs.2 l (Nat.le_refl _))).bind_nil ?_
    rintro found s₂ _ ⟨rfl, rfl⟩
    exact Accepts.pure he

theorem accepts_chain {operand again : Reader Expr} {left : Expr} {t : Token}
    {op : Operator} {ts us rest : List Token} {P : Expr → State → Prop} {short : Prop}
    (hr : s.rest = ts ++ t :: us ++ rest) (ht : operator l.pick t.kind = some op)
    (ho : Accepts operand s ts (Returned s left) short)
    (ha : ∀ s', s'.rest = us ++ rest → s'.table = s.table →
      Accepts again s' us (fun right s'' => P (l.build (.ofPos t.pos) op left right) s'') short) :
    Accepts (chain operand l.pick again l.build) s (ts ++ t :: us) P short := by
  rw [List.append_assoc] at hr
  refine ho.bind (t :: us) ?_
  rintro e' s₁ hm ⟨rfl, ht₁⟩
  obtain ⟨x, hx, _⟩ := operator_eq_some ht
  refine (Accepts.accept_some (hm.ahead hr) ht (by simp [hx])).bind us ?_
  rintro found s₂ hm' ⟨rfl, ht₂⟩
  refine (ha s₂ (hm'.ahead (hm.ahead hr)) (ht₂.trans ht₁)).bind_nil ?_
  intro right s₃ _ hright
  exact Accepts.pure hright

/-- What a level does on a derivation: it returns the tree, or it lacks frames. -/
def Complete (known : Signatures) (l : Level) (ts : List Token) (e : Expr) : Prop :=
  ∀ n s rest, s.rest = ts ++ rest → l.Stops rest →
    Accepts (l.read known n) s ts (Returned s e) (n + 4 < 6 * ts.length + l.height)

theorem complete_of_succ {ts : List Token} {e : Expr} (hne : ts ≠ [])
    (h : ∀ n s rest, s.rest = ts ++ rest → l.Stops rest →
      Accepts (l.read known (n + 1)) s ts (Returned s e) (n + 5 < 6 * ts.length + l.height)) :
    Complete known l ts e := by
  rintro (_ | n) s rest hr hs
  · obtain ⟨t, ts, rfl⟩ := List.exists_cons_of_ne_nil hne
    rw [l.read_zero]
    exact Accepts.tooDeep hr (by simp only [List.length_cons]; omega)
  · exact h n s rest hr hs

theorem accepts_variable {t : Token} {rest : List Token} (ht : t.kind = .identifier)
    (hk : known.get? (some t.valueText) = none) (n : Nat) (hr : s.rest = t :: rest)
    (hs : Level.Stops .factor rest) :
    Accepts (identifier known n) s [t]
      (Returned s (.var ⟨.ofPos t.pos, none, some t.valueText⟩)) (n = 0) := by
  cases n with
  | zero => exact Accepts.tooDeep hr rfl
  | succ n =>
    unfold identifier
    refine (Accepts.expect hr (by simp [ht]) (by simp [ht])).bind_nil ?_
    rintro u s₁ hm ⟨rfl, ht₁⟩
    simp only [hk]
    cases rest with
    | nil => exact hs.elim
    | cons v rest =>
      refine Accepts.look (hm.ahead hr) ?_
      simp only [hs.1, if_false]
      exact Accepts.pure ⟨rfl, ht₁⟩

theorem accepts_call {t opening closing : Token} {p : Prototype} {ts rest : List Token}
    {args : List (List Token × Expr)} {short : Prop} (ht : t.kind = .identifier)
    (hk : known.get? (some t.valueText) = some p) (ho : opening.kind = .symbol .leftParen)
    (hs : Separated (args.map (·.1)) ts) (hc : closing.kind = .symbol .rightParen) (n : Nat)
    (hr : s.rest = t :: opening :: (ts ++ [closing]) ++ rest)
    (hfirst : ∀ a ∈ args, ∃ u us, a.1 = u :: us ∧ u.kind ≠ .symbol .rightParen)
    (ih : ∀ a ∈ args, ∀ s more, s.rest = a.1 ++ more → Level.Stops .logical more →
      Accepts (logical known n) s a.1 (Returned s a.2) short) :
    Accepts (identifier known (n + 1)) s (t :: opening :: (ts ++ [closing]))
      (Returned s (.call (.ofPos t.pos) none (some t.valueText) p (args.map (·.2)))) short := by
  unfold identifier
  refine (Accepts.expect hr (by simp [ht]) (by simp [ht])).bind (opening :: (ts ++ [closing])) ?_
  rintro u s₁ hm₁ ⟨rfl, ht₁⟩
  have hr₁ := hm₁.ahead hr
  simp only [hk]
  refine (Accepts.expectSymbol hr₁ ho).bind (ts ++ [closing]) ?_
  rintro u s₂ hm₂ ⟨rfl, ht₂⟩
  have hr₂ : s₂.rest = ts ++ closing :: rest := by simpa using hm₂.ahead hr₁
  cases args with
  | nil =>
    cases hs
    refine (Accepts.acceptSymbol_true hr₂ hc).bind_nil ?_
    rintro found s₃ hm₃ ⟨rfl, ht₃⟩
    exact Accepts.pure ⟨rfl, ht₃.trans (ht₂.trans ht₁)⟩
  | cons a args =>
    obtain ⟨v, us, hu, hne⟩ := hfirst a (by simp)
    have hhead := hs
    rw [List.map_cons, hu] at hhead
    obtain ⟨vs, hv⟩ := hhead.head
    have hcur : s₂.rest = v :: (vs ++ closing :: rest) := by rw [hr₂, hv, List.cons_append]
    refine (Accepts.acceptSymbol_false hcur hne).bind (ts ++ [closing]) ?_
    rintro found s₃ hm₃ ⟨rfl, rfl⟩
    refine Accepts.remaining.bind (ts ++ [closing]) ?_
    rintro k s₄ _ ⟨rfl, rfl⟩
    have hlen : (a :: args).length ≤ s₄.rest.length := by
      have := hs.length_le
      rw [hr₂]
      simp only [List.length_map, List.length_cons, List.length_append] at this ⊢
      omega
    refine (Accepts.separated (fun comma us hcomma => stops_symbol us hcomma (.inl rfl))
      (by simp [hc]) (stops_symbol rest hc (.inr (.inl rfl))) (a :: args) ts _ [] s₄ ih (by simp)
      hs hr₂ hlen).bind [closing] ?_
    rintro as s₅ hm₅ ⟨rfl, ht₅⟩
    refine (Accepts.expectSymbol (hm₅.ahead hr₂) hc).bind_nil ?_
    rintro u s₆ _ ⟨rfl, ht₆⟩
    exact Accepts.pure ⟨rfl, ht₆.trans (ht₅.trans (ht₂.trans ht₁))⟩

/-- **A level reads every derivation that it stands before, unless it lacks frames.** -/
theorem accepts_level {ts : List Token} {e : Expr} (h : Derives known l ts e) :
    Complete known l ts e := by
  induction h with
  | number ht | text ht | yes ht | no ht =>
    refine complete_of_succ (by simp) fun n s rest hr hs => ?_
    simp only [Level.read, factor]
    refine Accepts.look hr ?_
    simp only [ht]
    exact accepts_literal hr (by simp [ht])
  | @paren opening closing ts e ho h hc ih =>
    refine complete_of_succ (by simp) fun n s rest hr hs => ?_
    simp only [Level.read, factor]
    refine Accepts.look hr ?_
    simp only [ho]
    refine (Accepts.advance hr (by simp [ho])).bind (ts ++ [closing]) ?_
    rintro u s₁ hm₁ ⟨rfl, ht₁⟩
    have hr₁ : s₁.rest = ts ++ closing :: rest := by simpa using hm₁.ahead hr
    refine ((ih n s₁ _ hr₁ (stops_symbol rest hc (.inr (.inl rfl)))).mono (fun _ _ _ h => h)
      ?_).bind [closing] ?_
    · simp only [List.length_cons, List.length_append, Level.height]
      omega
    rintro e' s₂ hm₂ ⟨rfl, ht₂⟩
    refine (Accepts.expectSymbol (hm₂.ahead hr₁) hc).bind_nil ?_
    rintro u s₃ _ ⟨rfl, ht₃⟩
    exact Accepts.pure ⟨rfl, ht₃.trans (ht₂.trans ht₁)⟩
  | @sign t x op ts e ht hx h ih =>
    refine complete_of_succ (by simp) fun n s rest hr hs => ?_
    have hrec : ∀ s, s.rest = ts ++ rest → Accepts (factor known n) s ts (Returned s e)
        (n + 5 < 6 * (t :: ts).length + Level.height .factor) := fun s hr =>
      (ih n s rest hr hs).mono (fun _ _ _ h => h) (by simp only [List.length_cons]; omega)
    simp only [Level.read, factor]
    refine Accepts.look hr ?_
    cases x <;> cases hx <;> simp only [ht] <;> exact accepts_signed hr (by simp [ht]) hrec
  | @not t ts e ht h ih =>
    refine complete_of_succ (by simp) fun n s rest hr hs => ?_
    have hrec : ∀ s, s.rest = ts ++ rest → Accepts (factor known n) s ts (Returned s e)
        (n + 5 < 6 * (t :: ts).length + Level.height .factor) := fun s hr =>
      (ih n s rest hr hs).mono (fun _ _ _ h => h) (by simp only [List.length_cons]; omega)
    simp only [Level.read, factor]
    refine Accepts.look hr ?_
    simp only [ht]
    exact accepts_signed hr (by simp [ht]) hrec
  | var ht hk =>
    refine complete_of_succ (by simp) fun n s rest hr hs => ?_
    simp only [Level.read, factor]
    refine Accepts.look hr ?_
    simp only [ht]
    refine (accepts_variable ht hk n hr hs).mono (fun _ _ _ h => h) ?_
    rintro rfl
    simp [Level.height]
  | @call t opening closing p ts args ht hk ho hsep h hc ih =>
    refine complete_of_succ (by simp) fun n s rest hr hs => ?_
    simp only [Level.read, factor]
    refine Accepts.look hr ?_
    simp only [ht]
    cases n with
    | zero => exact Accepts.tooDeep hr (by simp only [List.length_cons, Level.height]; omega)
    | succ n =>
      refine accepts_call ht hk ho hsep hc n hr (fun a ha => ?_) fun a ha s more hr hs => ?_
      · obtain ⟨u, us, hu, hstart⟩ := (h a ha).starts
        exact ⟨u, us, hu, fun hk => by rw [hk] at hstart; cases hstart⟩
      · have := hsep.part_length_le (List.mem_map_of_mem ha)
        refine (ih a ha n s more hr hs).mono (fun _ _ _ h => h) ?_
        simp only [List.length_cons, List.length_append, Level.height]
        omega
  | operand hl h ih =>
    refine complete_of_succ h.ne_nil fun n s rest hr hs => ?_
    rw [Level.read_succ hl]
    refine accepts_chain_operand hr hs
      ((ih n s rest hr (hs.inner hl)).mono (fun _ _ _ h => h) ?_)
    have := Level.height_inner hl
    omega
  | @chain l m ts us t op left right hl h ht h' ih ih' =>
    refine complete_of_succ (by simp) fun n s rest hr hs => ?_
    rw [Level.read_succ hl]
    have hh := Level.height_inner hl
    refine accepts_chain hr ht ((ih n s (t :: (us ++ rest)) (by simpa using hr)
      (stops_operator _ hl ht)).mono (fun _ _ _ h => h) ?_) fun s' hr' htable =>
      (ih' n s' rest hr' hs).mono ?_ ?_
    · simp only [List.length_append, List.length_cons]
      omega
    · rintro e' s'' _ ⟨rfl, htable'⟩
      exact ⟨rfl, htable'.trans htable⟩
    · simp only [List.length_append, List.length_cons]
      omega

/-! ## Exactness -/

/-- The binary operators. -/
def binary : List Symbol :=
  [.plus, .minus, .times, .slash, .eq, .ne, .gt, .ge, .lt, .le, .and, .or]

/-- Whole expressions stop at whatever is neither a binary operator nor an opening parenthesis. -/
theorem stops_of_not_binary {t : Token} (rest : List Token) (hb : t.kind ∉ binary.map .symbol)
    (ho : t.kind ≠ .symbol .leftParen) : l.Stops (t :: rest) := by
  refine stops_of_kind rest ho fun m => ?_
  refine Option.eq_none_iff_forall_ne_some.mpr fun op hop => ?_
  obtain ⟨x, hx, hpick⟩ := operator_eq_some hop
  rw [hx] at hb
  refine hb (List.mem_map_of_mem ?_)
  cases x <;> cases m <;> cases hpick <;> decide

/-- A reader that accepts succeeds, or it is nested too deeply. -/
theorem Accepts.outcome {α : Type} {r : Reader α} {ts : List Token} {P : α → State → Prop}
    {short : Prop} (h : Accepts r s ts P short) :
    (∃ a s', outcome r s = .ok (a, s') ∧ Moved s ts s' ∧ P a s') ∨
      ∃ stop, outcome r s = .error stop ∧ stop.tooDeep ∧ short := by
  rcases ho : Grammar.outcome r s with stop | ⟨a, s'⟩
  · exact .inr ⟨stop, rfl, Ends.of_error ho h⟩
  · exact .inl ⟨a, s', rfl, Ends.of_ok ho h⟩

/-- **A token list spells one tree at most.** -/
theorem derives_unique {ts : List Token} {e e' : Expr} (h : Derives known l ts e)
    (h' : Derives known l ts e') : e = e' := by
  let eof : Token := ⟨.endOfInput, none, 0⟩
  have hs : l.Stops [eof] := stops_of_kind [] (by simp [eof]) fun m => rfl
  have henough : ¬ 6 * ts.length + 4 + 4 < 6 * ts.length + l.height := by
    cases l <;> simp only [Level.height] <;> omega
  have hread : ∀ e, Derives known l ts e →
      ∃ s', outcome (l.read known (6 * ts.length + 4)) (.start (ts ++ [eof])) = .ok (e, s') := by
    intro e h
    have hacc := accepts_level h (6 * ts.length + 4) (.start (ts ++ [eof])) _ rfl hs
    rcases hacc.outcome with ⟨a, s', ho, _, rfl, _⟩ | ⟨_, _, _, hn⟩
    · exact ⟨s', ho⟩
    · exact absurd hn henough
  obtain ⟨s₁, h₁⟩ := hread e h
  obtain ⟨s₂, h₂⟩ := hread e' h'
  rw [h₁] at h₂
  cases h₂
  rfl

/-- **Expressions are read exactly as the grammar says.**  Before a token that is neither a binary
operator nor an opening parenthesis, the parser of whole expressions stops exactly at that token
with a tree if and only if the tokens before it derive the tree, lack of frames apart; and six
frames for each token are enough.  Operators of one level group to the right, no token list has two
trees, and whatever the parser consumes on any input derives what it returns. -/
theorem logical_exact (known : Signatures) :
    (∀ (ts rest : List Token) (t : Token) (s : State) (n : Nat) (e : Expr),
      s.rest = ts ++ t :: rest → t.kind ∉ binary.map .symbol → t.kind ≠ .symbol .leftParen →
      (∀ stop, outcome (logical known n) s = .error stop → ¬ stop.tooDeep) →
      ((∃ s', outcome (logical known n) s = .ok (e, s') ∧ s'.rest = t :: rest) ↔
        Derives known .logical ts e)) ∧
    (∀ (ts rest : List Token) (t : Token) (s : State) (n : Nat) (e : Expr),
      s.rest = ts ++ t :: rest → t.kind ∉ binary.map .symbol → t.kind ≠ .symbol .leftParen →
      Derives known .logical ts e → 6 * ts.length ≤ n →
      ∃ s', outcome (logical known n) s = .ok (e, s') ∧ s'.rest = t :: rest ∧
        s'.index = s.index + ts.length) ∧
    (∀ (l m : Level) (first : List Token) (left : Expr) (links : List Link), l.inner = some m →
      Derives known m first left →
      (∀ k ∈ links, operator l.pick k.token.kind = some k.op ∧ Derives known m k.tokens k.tree) →
      ∀ e, Derives known l (chainTokens first links) e ↔ e = chainTree l left links) ∧
    (∀ (ts : List Token) (e e' : Expr), Derives known .logical ts e →
      Derives known .logical ts e' → e = e') ∧
    (∀ (n : Nat) (s s' : State) (e : Expr), outcome (logical known n) s = .ok (e, s') →
      ∃ ts, s.rest = ts ++ s'.rest ∧ s'.index = s.index + ts.length ∧
        Derives known .logical ts e) := by
  have hconsumed : ∀ (n : Nat) (s s' : State) (e : Expr),
      outcome (logical known n) s = .ok (e, s') →
      ∃ ts, s.rest = ts ++ s'.rest ∧ s'.index = s.index + ts.length ∧
        Derives known .logical ts e := by
    intro n s s' e ho
    obtain ⟨ts, hm, hd, _⟩ := Ends.of_ok ho ((reads_level known n).1 .logical s)
    exact ⟨ts, hm.rest, hm.index, hd⟩
  refine ⟨?_, ?_, ?_, fun ts e e' => derives_unique, hconsumed⟩
  · intro ts rest t s n e hr hb hp hdeep
    constructor
    · rintro ⟨s', ho, hs'⟩
      obtain ⟨us, hus, _, hd⟩ := hconsumed n s s' e ho
      rw [hr, hs'] at hus
      rw [List.append_cancel_right hus]
      exact hd
    · intro hd
      rcases (accepts_level hd n s _ hr (stops_of_not_binary rest hb hp)).outcome with
        ⟨a, s', ho, hm, rfl, _⟩ | ⟨stop, ho, htoo, _⟩
      · exact ⟨s', ho, hm.ahead hr⟩
      · exact absurd htoo (hdeep stop ho)
  · intro ts rest t s n e hr hb hp hd hn
    rcases (accepts_level hd n s _ hr (stops_of_not_binary rest hb hp)).outcome with
      ⟨a, s', ho, hm, rfl, _⟩ | ⟨_, _, _, hshort⟩
    · exact ⟨s', ho, hm.ahead hr, hm.index⟩
    · simp only [Level.height] at hshort
      omega
  · intro l m first left links hl hd hlinks e
    have hc := derives_chain hl links hd hlinks
    exact ⟨fun h => derives_unique h hc, fun h => h ▸ hc⟩

/-- Ten less three less two, before a semicolon: the second difference is the inner one. -/
theorem logical_exact_differences :
    let ten : Token := ⟨.number, some (.number 10), 0⟩
    let three : Token := ⟨.number, some (.number 3), 5⟩
    let two : Token := ⟨.number, some (.number 2), 9⟩
    let less (pos : Int) : Token := ⟨.symbol .minus, some (.text "-"), pos⟩
    let semicolon : Token := ⟨.symbol .semicolon, some (.text ";"), 10⟩
    ∃ s', outcome (logical Registry.empty 30)
        (.start [ten, less 3, three, less 7, two, semicolon]) =
        .ok (.arith (.ofPos (some 3)) none .sub (.number (.ofPos (some 0)) 10)
          (.arith (.ofPos (some 7)) none .sub (.number (.ofPos (some 5)) 3)
            (.number (.ofPos (some 9)) 2)), s') ∧
      s'.rest = [semicolon] := by
  intro ten three two less semicolon
  have hnumber : ∀ t : Token, t.kind = .number → Derives Registry.empty .term [t]
      (.number (.ofPos t.pos) (numberOf t)) := fun t ht => .operand rfl (.number ht)
  have hsum : Derives Registry.empty .sum [ten, less 3, three, less 7, two] _ :=
    .chain rfl (hnumber ten rfl) rfl (.chain rfl (hnumber three rfl) rfl
      (.operand rfl (hnumber two rfl)))
  obtain ⟨s', ho, hr, _⟩ := (logical_exact Registry.empty).2.1 [ten, less 3, three, less 7, two] []
    semicolon (.start _) 30 _ rfl (by decide) (by decide) (.operand rfl (.operand rfl hsum))
    (by decide)
  exact ⟨s', ho, hr⟩

end Slang.Grammar
