import Mathlib.Data.Nat.Find
import Slang.Proofs.ErrorPlaces

/-!
# Which headers are registered

The pass over the headers goes from token to token and remembers the names it has met.  What it does
can be said of the whole token list at once.

* `Header.at?`, `Header.listing` — the header that begins at an index, and all headers with their
  indices.
* `Header.Repeats`, `Header.RepeatsFirst` — an index whose header repeats an earlier name, and the
  first such index.
* `PrototypeReport.rows` — one report for each token.
* `Header.Clashes` — what a repeated name looks like from the middle of a list, where some names
  have been met before.
* `collectFrom_free`, `collectFrom_clash` — the pass from the middle of a list, by induction on what
  is left.

Principal result: `collection_exact` — the pass fails exactly if a name is announced twice, at the
first header that repeats one, and else reports every token and registers every header.
-/

set_option autoImplicit false

namespace Slang

/-! ## Headers and their indices -/

namespace Header

/-- The header that begins at an index: there is a token FUNCTION, and what is behind it can be
read. -/
def at? (tokens : List Token) (i : Nat) : Option Header :=
  if tokens[i]?.map (·.kind) = some (.keyword .function) then read (tokens.drop (i + 1)) else none

/-- The headers of a token list, each with the index at which it begins, in order. -/
def listing (tokens : List Token) : List (Nat × Header) :=
  (List.range tokens.length).filterMap fun i => (at? tokens i).map fun h => (i, h)

/-- The name that a header announces. -/
def name (h : Header) : Name := h.prototype.name

/-- The header at index `j` has the name of an earlier one. -/
def Repeats (tokens : List Token) (j : Nat) : Prop :=
  ∃ a ∈ listing tokens, ∃ b ∈ listing tokens, a.1 < b.1 ∧ b.1 = j ∧ a.2.name = b.2.name

/-- It is the first header that has the name of an earlier one. -/
def RepeatsFirst (tokens : List Token) (j : Nat) : Prop :=
  Repeats tokens j ∧ ∀ k, Repeats tokens k → j ≤ k

variable {tokens rest : List Token} {t : Token} {seen : List Name} {index i j k : Nat} {h : Header}

@[simp] theorem at?_nil (i : Nat) : at? [] i = none := by
  simp [at?]

@[simp] theorem at?_succ (t : Token) (rest : List Token) (i : Nat) :
    at? (t :: rest) (i + 1) = at? rest i := by
  simp [at?]

theorem lt_of_at? (hi : at? tokens i = some h) : i < tokens.length := by
  apply Classical.byContradiction
  intro hlong
  rw [at?, List.getElem?_eq_none (Nat.le_of_not_lt hlong)] at hi
  cases hi

theorem mem_listing : (i, h) ∈ listing tokens ↔ at? tokens i = some h := by
  simp only [listing, List.mem_filterMap, List.mem_range, Option.map_eq_some_iff, Prod.mk.injEq]
  constructor
  · rintro ⟨_, -, _, hi, rfl, rfl⟩
    exact hi
  · intro hi
    exact ⟨i, lt_of_at? hi, h, hi, rfl, rfl⟩

/-- The name of a header stands behind its type, and that is where it is reported. -/
theorem name_of_at? (hi : at? tokens i = some h) :
    ∃ u, tokens[i + 2]? = some u ∧ h.name = some u.valueText ∧ h.nameAt = u.pos := by
  unfold at? at hi
  split at hi
  · obtain ⟨u, hsecond, -, hpos, hname⟩ := read_name hi
    rw [List.getElem?_drop] at hsecond
    exact ⟨u, hsecond, hname, hpos⟩
  · cases hi

theorem repeats_iff : Repeats tokens j ↔
    ∃ h, at? tokens j = some h ∧ ∃ i < j, ∃ g, at? tokens i = some g ∧ g.name = h.name := by
  constructor
  · rintro ⟨⟨i, g⟩, hg, ⟨_, h⟩, hh, hlt, rfl, hname⟩
    exact ⟨h, mem_listing.1 hh, i, hlt, g, mem_listing.1 hg, hname⟩
  · rintro ⟨h, hh, i, hlt, g, hg, hname⟩
    exact ⟨(i, g), mem_listing.2 hg, (j, h), mem_listing.2 hh, hlt, rfl, hname⟩

/-- If a name is repeated, some header is the first to repeat one. -/
theorem exists_first (hj : Repeats tokens j) : ∃ k, RepeatsFirst tokens k := by
  classical
  have hex : ∃ k, Repeats tokens k := ⟨j, hj⟩
  exact ⟨Nat.find hex, Nat.find_spec hex, fun k hk => Nat.find_min' hex hk⟩

theorem listing_ascending (tokens : List Token) :
    (listing tokens).Pairwise fun a b => a.1 < b.1 := by
  unfold listing
  rw [List.pairwise_filterMap]
  apply List.Pairwise.imp _ List.pairwise_lt_range
  intro i k hik a ha b hb
  obtain ⟨_, -, rfl⟩ := Option.map_eq_some_iff.1 ha
  obtain ⟨_, -, rfl⟩ := Option.map_eq_some_iff.1 hb
  exact hik

/-- No header repeats a name exactly if the names are distinct. -/
theorem names_nodup_iff :
    ((listing tokens).map (·.2.name)).Nodup ↔ ∀ j, ¬ Repeats tokens j := by
  constructor
  · rintro hdistinct j ⟨a, ha, b, hb, hlt, -, hname⟩
    have hsame : a = b := List.inj_on_of_nodup_map hdistinct ha hb hname
    rw [hsame] at hlt
    omega
  · intro hnone
    rw [List.Nodup, List.pairwise_map]
    apply List.Pairwise.imp_of_mem _ (listing_ascending tokens)
    intro a b ha hb hlt hname
    exact hnone b.1 ⟨a, ha, b, hb, hlt, rfl, hname⟩

end Header

/-! ## The pass from the middle of a list -/

/-- One report for each token, numbered from `index` on, with the signature of the header that
begins there. -/
def PrototypeReport.rows (index : Nat) (tokens : List Token) : List PrototypeReport :=
  tokens.mapIdx fun i t => ⟨index + i, t, (Header.at? tokens i).map (·.prototype)⟩

namespace Header

/-- The header at index `j` has a name that has been met: before the list or in front of it. -/
def Clashes (seen : List Name) (tokens : List Token) (j : Nat) : Prop :=
  ∃ h, at? tokens j = some h ∧
    (h.name ∈ seen ∨ ∃ i < j, ∃ g, at? tokens i = some g ∧ g.name = h.name)

/-- The names that have been met behind the first token. -/
def met (seen : List Name) (t : Token) (rest : List Token) : List Name :=
  match at? (t :: rest) 0 with
  | some h => h.name :: seen
  | none => seen

variable {tokens rest : List Token} {t : Token} {seen : List Name} {index i j : Nat} {h : Header}

theorem clashes_nil_iff : Clashes [] tokens j ↔ Repeats tokens j := by
  simp [Clashes, repeats_iff]

theorem clashes_zero :
    Clashes seen (t :: rest) 0 ↔ ∃ h, at? (t :: rest) 0 = some h ∧ h.name ∈ seen := by
  simp [Clashes]

/-- Behind the first token, its name is one that has been met before. -/
theorem clashes_succ : Clashes seen (t :: rest) (j + 1) ↔ Clashes (met seen t rest) rest j := by
  have hmet : ∀ n : Name, n ∈ met seen t rest ↔
      n ∈ seen ∨ ∃ g, at? (t :: rest) 0 = some g ∧ g.name = n := by
    intro n
    unfold met
    cases at? (t :: rest) 0 with
    | none => simp
    | some g => simp [or_comm, eq_comm]
  simp only [Clashes, at?_succ, hmet]
  constructor
  · rintro ⟨h, hh, hseen | ⟨i, hlt, g, hg, hname⟩⟩
    · exact ⟨h, hh, .inl (.inl hseen)⟩
    · cases i with
      | zero => exact ⟨h, hh, .inl (.inr ⟨g, hg, hname⟩)⟩
      | succ i => exact ⟨h, hh, .inr ⟨i, by omega, g, at?_succ t rest i ▸ hg, hname⟩⟩
  · rintro ⟨h, hh, (hseen | ⟨g, hg, hname⟩) | ⟨i, hlt, g, hg, hname⟩⟩
    · exact ⟨h, hh, .inl hseen⟩
    · exact ⟨h, hh, .inr ⟨0, by omega, g, hg, hname⟩⟩
    · exact ⟨h, hh, .inr ⟨i + 1, by omega, g, (at?_succ t rest i).trans hg, hname⟩⟩

end Header

namespace Prototype

open Header PrototypeReport

variable {tokens rest : List Token} {t : Token} {seen : List Name} {index j : Nat} {h : Header}

/-- One step of the pass. -/
theorem collectFrom_cons (index : Nat) (seen : List Name) (t : Token) (rest : List Token) :
    collectFrom index seen (t :: rest) =
      match at? (t :: rest) 0 with
      | none => .emit ⟨index, t, none⟩ fun _ => collectFrom (index + 1) seen rest
      | some h =>
        if h.name ∈ seen then .done (.error ⟨.duplicateFunction h.name, some h.nameAt⟩)
        else .emit ⟨index, t, some h.prototype⟩ fun _ =>
          collectFrom (index + 1) (h.name :: seen) rest := by
  rw [collectFrom]
  by_cases ht : t.kind = .keyword .function
  · simp only [at?, ht, List.getElem?_cons_zero, Option.map_some, if_true, Nat.zero_add,
      List.drop_succ_cons, List.drop_zero]
    cases Header.read rest <;> rfl
  · simp [at?, ht]

theorem rows_cons (index : Nat) (t : Token) (rest : List Token) :
    rows index (t :: rest) =
      ⟨index, t, (at? (t :: rest) 0).map (·.prototype)⟩ :: rows (index + 1) rest := by
  simp [rows, List.mapIdx_cons, Nat.add_assoc, Nat.add_comm 1]

/-- A step that finds no name again: the token is reported, and the pass goes on. -/
theorem collectFrom_step (index : Nat) (hclash : ¬ Clashes seen (t :: rest) 0) :
    collectFrom index seen (t :: rest) =
      .emit ⟨index, t, (at? (t :: rest) 0).map (·.prototype)⟩ fun _ =>
        collectFrom (index + 1) (met seen t rest) rest := by
  rw [clashes_zero] at hclash
  rw [collectFrom_cons, met]
  cases hat : at? (t :: rest) 0 with
  | none => rfl
  | some h =>
    have hfresh : h.name ∉ seen := fun hseen => hclash ⟨h, hat, hseen⟩
    simp [hfresh]

/-- **Without a repeated name the pass reports every token.** -/
theorem collectFrom_free : ∀ (tokens : List Token) (index : Nat) (seen : List Name),
    (∀ j, ¬ Clashes seen tokens j) →
      (collectFrom index seen tokens).value = .ok () ∧
        (collectFrom index seen tokens).reports = rows index tokens := by
  intro tokens
  induction tokens with
  | nil =>
    intro index seen _
    exact ⟨rfl, rfl⟩
  | cons t rest ih =>
    intro index seen hfree
    have hrest : ∀ j, ¬ Clashes (met seen t rest) rest j := by
      intro j hj
      exact hfree (j + 1) (clashes_succ.2 hj)
    obtain ⟨hvalue, hreports⟩ := ih (index + 1) _ hrest
    rw [collectFrom_step index (hfree 0), rows_cons]
    exact ⟨hvalue, congrArg (List.cons _) hreports⟩

/-- **A repeated name ends the pass.** It reports the tokens in front of the first header with such
a name, and fails there. -/
theorem collectFrom_clash : ∀ (tokens : List Token) (index : Nat) (seen : List Name) (j : Nat),
    Clashes seen tokens j → (∀ k < j, ¬ Clashes seen tokens k) →
      ∃ h, at? tokens j = some h ∧
        (collectFrom index seen tokens).value =
          .error ⟨.duplicateFunction h.name, some h.nameAt⟩ ∧
        (collectFrom index seen tokens).reports = (rows index tokens).take j := by
  intro tokens
  induction tokens with
  | nil =>
    rintro index seen j ⟨h, hat, -⟩ _
    simp at hat
  | cons t rest ih =>
    intro index seen j hclash hfirst
    cases j with
    | zero =>
      obtain ⟨h, hat, hseen⟩ := clashes_zero.1 hclash
      refine ⟨h, hat, ?_⟩
      rw [collectFrom_cons, hat]
      simp [hseen, Trace.value, Trace.reports]
    | succ j =>
      have hbefore : ∀ k < j, ¬ Clashes (met seen t rest) rest k := by
        intro k hk hclash
        exact hfirst (k + 1) (by omega) (clashes_succ.2 hclash)
      obtain ⟨h, hat, hvalue, hreports⟩ := ih (index + 1) _ j (clashes_succ.1 hclash) hbefore
      rw [collectFrom_step index (hfirst 0 (by omega)), rows_cons, List.take_succ_cons]
      exact ⟨h, (at?_succ t rest j).trans hat, hvalue, congrArg (List.cons _) hreports⟩

/-! ## The whole pass -/

theorem length_rows (index : Nat) (tokens : List Token) :
    (rows index tokens).length = tokens.length := by
  simp [rows]

theorem rows_index (tokens : List Token) :
    (rows 0 tokens).map (·.index) = List.range tokens.length := by
  apply List.ext_getElem
  · simp [rows]
  · simp [rows]

theorem rows_token (tokens : List Token) : (rows 0 tokens).map (·.token) = tokens := by
  apply List.ext_getElem
  · simp [rows]
  · simp [rows]

/-- The signatures in the reports of all tokens are those of all headers. -/
theorem rows_prototypes : ∀ (tokens : List Token) (index : Nat),
    (rows index tokens).filterMap (·.prototype) = (listing tokens).map (·.2.prototype) := by
  intro tokens
  induction tokens with
  | nil =>
    intro index
    rfl
  | cons t rest ih =>
    intro index
    have hlisting : (listing (t :: rest)).map (·.2.prototype) =
        ((at? (t :: rest) 0).map (·.prototype)).toList ++ (listing rest).map (·.2.prototype) := by
      simp only [listing, List.length_cons, List.range_succ_eq_map, List.filterMap_cons,
        List.filterMap_map, Function.comp_def, at?_succ, List.map_filterMap, Option.map_map]
      cases at? (t :: rest) 0 <;> simp [List.map_filterMap, Function.comp_def]
    rw [rows_cons, hlisting, List.filterMap_cons, ih]
    cases at? (t :: rest) 0 <;> rfl

theorem collect_of_first (hj : RepeatsFirst tokens j) :
    ∃ h, at? tokens j = some h ∧
      (collect tokens).value = .error ⟨.duplicateFunction h.name, some h.nameAt⟩ ∧
      (collect tokens).reports = (rows 0 tokens).take j := by
  apply collectFrom_clash tokens 0 [] j (clashes_nil_iff.2 hj.1)
  intro k hk hclash
  have := hj.2 k (clashes_nil_iff.1 hclash)
  omega

theorem collect_of_distinct (hnone : ∀ j, ¬ Repeats tokens j) :
    (collect tokens).value = .ok () ∧ (collect tokens).reports = rows 0 tokens := by
  apply collectFrom_free tokens 0 []
  intro j hj
  exact hnone j (clashes_nil_iff.1 hj)

/-- The pass fails exactly at the first header that repeats a name. -/
theorem collect_eq_error (e : CompileError) : (collect tokens).value = .error e ↔
    ∃ j h, RepeatsFirst tokens j ∧ at? tokens j = some h ∧
      e = ⟨.duplicateFunction h.name, some h.nameAt⟩ := by
  constructor
  · intro he
    by_cases hrepeats : ∃ j, Repeats tokens j
    · obtain ⟨j, hj⟩ := exists_first hrepeats.choose_spec
      obtain ⟨h, hat, hvalue, -⟩ := collect_of_first hj
      rw [hvalue] at he
      exact ⟨j, h, hj, hat, (Except.error.inj he).symm⟩
    · obtain ⟨hvalue, -⟩ := collect_of_distinct (not_exists.1 hrepeats)
      rw [hvalue] at he
      cases he
  · rintro ⟨j, h, hj, hat, rfl⟩
    obtain ⟨g, hg, hvalue, -⟩ := collect_of_first hj
    rw [hat] at hg
    cases hg
    exact hvalue

/-- Two headers with one name, and a header that repeats a name. -/
theorem two_alike_iff : (∃ a ∈ listing tokens, ∃ b ∈ listing tokens,
    a.1 ≠ b.1 ∧ a.2.name = b.2.name) ↔ ∃ j, Repeats tokens j := by
  constructor
  · rintro ⟨a, ha, b, hb, hne, hname⟩
    rcases Nat.lt_or_gt_of_ne hne with hlt | hlt
    · exact ⟨b.1, a, ha, b, hb, hlt, rfl, hname⟩
    · exact ⟨a.1, b, hb, a, ha, hlt, rfl, hname.symm⟩
  · rintro ⟨j, a, ha, b, hb, hlt, -, hname⟩
    exact ⟨a, ha, b, hb, by omega, hname⟩

end Prototype

open Header Prototype PrototypeReport

/-- **What the pass over the headers does.** Consider all tokens FUNCTION of a token list behind
which a header can be read. The pass fails exactly if two of these headers have one name. The error
is then about the first header that repeats an earlier name: it carries this name and the offset of
the token where it stands, two behind FUNCTION, and it comes after the reports of just the tokens in
front of this FUNCTION. Otherwise there is one report for each token, numbered in order, and the
signatures in the reports are those of all the headers in order, no two of which have one name. -/
theorem collection_exact (tokens : List Token) :
    ((∃ e, (collect tokens).value = .error e) ↔
      ∃ a ∈ listing tokens, ∃ b ∈ listing tokens, a.1 ≠ b.1 ∧ a.2.name = b.2.name) ∧
    (∀ e, (collect tokens).value = .error e ↔
      ∃ j h u, RepeatsFirst tokens j ∧ (j, h) ∈ listing tokens ∧ tokens[j + 2]? = some u ∧
        h.name = some u.valueText ∧ e = ⟨.duplicateFunction h.name, some u.pos⟩) ∧
    (∀ j, RepeatsFirst tokens j →
      (collect tokens).reports = (rows 0 tokens).take j ∧ (collect tokens).reports.length = j) ∧
    ((collect tokens).value = .ok () →
      (collect tokens).reports.map (·.index) = List.range tokens.length ∧
      (collect tokens).reports.map (·.token) = tokens ∧
      (collect tokens).reports.filterMap (·.prototype) =
        (listing tokens).map (·.2.prototype) ∧
      ((listing tokens).map (·.2.name)).Nodup) := by
  refine ⟨?_, ?_, ?_, ?_⟩
  · rw [two_alike_iff]
    constructor
    · rintro ⟨e, he⟩
      obtain ⟨j, -, hj, -⟩ := (collect_eq_error e).1 he
      exact ⟨j, hj.1⟩
    · rintro ⟨j, hj⟩
      obtain ⟨k, hk⟩ := exists_first hj
      obtain ⟨h, -, hvalue, -⟩ := collect_of_first hk
      exact ⟨_, hvalue⟩
  · intro e
    rw [collect_eq_error]
    constructor
    · rintro ⟨j, h, hj, hat, rfl⟩
      obtain ⟨u, hu, hname, hpos⟩ := name_of_at? hat
      exact ⟨j, h, u, hj, mem_listing.2 hat, hu, hname, by rw [hpos]⟩
    · rintro ⟨j, h, u, hj, hmem, hu, -, rfl⟩
      obtain ⟨v, hv, -, hpos⟩ := name_of_at? (mem_listing.1 hmem)
      obtain rfl : u = v := Option.some.inj (hu.symm.trans hv)
      exact ⟨j, h, hj, mem_listing.1 hmem, by rw [hpos]⟩
  · intro j hj
    obtain ⟨h, hat, -, hreports⟩ := collect_of_first hj
    have hlt := lt_of_at? hat
    refine ⟨hreports, ?_⟩
    rw [hreports, List.length_take, length_rows]
    omega
  · intro hvalue
    have hnone : ∀ j, ¬ Repeats tokens j := by
      intro j hj
      obtain ⟨k, hk⟩ := exists_first hj
      obtain ⟨h, -, herror, -⟩ := collect_of_first hk
      rw [hvalue] at herror
      cases herror
    obtain ⟨-, hreports⟩ := collect_of_distinct hnone
    rw [hreports, rows_prototypes]
    exact ⟨rows_index tokens, rows_token tokens, rfl, names_nodup_iff.2 hnone⟩

/-- Of three functions the third has the name of the first: the reports stop before its FUNCTION,
which is token 12. -/
theorem collection_exact_third :
    ∃ tokens, Token.all ("FUNCTION NUMERIC f() END FUNCTION STRING g() END " ++
        "FUNCTION BOOLEAN f() END").toList = .ok tokens ∧
      RepeatsFirst tokens 12 ∧ (collect tokens).reports.length = 12 := by
  obtain ⟨tokens, htokens, heval⟩ : ∃ tokens, Token.all ("FUNCTION NUMERIC f() END " ++
      "FUNCTION STRING g() END FUNCTION BOOLEAN f() END").toList = .ok tokens ∧
      ((collect tokens).reports.length, (collect tokens).value.toOption.isSome) = (12, false) := by
    apply ok_of_toOption
    decide +kernel
  obtain ⟨hlength, hvalue⟩ := Prod.mk.inj heval
  obtain ⟨-, herror, hfirst, -⟩ := collection_exact tokens
  cases hv : (collect tokens).value with
  | ok done =>
    rw [hv] at hvalue
    cases hvalue
  | error e =>
    obtain ⟨j, -, -, hj, -⟩ := (herror e).1 hv
    obtain ⟨-, hj'⟩ := hfirst j hj
    rw [hlength] at hj'
    exact ⟨tokens, htokens, hj' ▸ hj, hlength⟩

end Slang
