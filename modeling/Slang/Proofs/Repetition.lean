import Slang.Proofs.Derivation
import Slang.Proofs.Reading

/-!
# Repeated items

What the two loops of the parser do with an item, given what the item does: `separated` reads items
between commas, `many` reads items as long as one begins.

* `Reads.separated`, `Accepts.separated` — the items with commas between them.
* `Along` — items of which each is judged in the light of those before it.
* `Reads.many`, `Accepts.many` — the items one after the other.

Both loops are bounded by the number of tokens ahead, and in both the bound is never the reason to
stop: an item takes a token, and the token behind the last item is ahead as well.
-/

set_option autoImplicit false

namespace Slang.Grammar

variable {α β ε : Type} {s s' : State}

/-! ## Items between commas -/

theorem Reads.separated {item : Reader α} {D : List Token → α → Prop}
    (hitem : ∀ s, Reads item s fun ts a s' => ts ≠ [] ∧ D ts a ∧ s'.table = s.table) :
    ∀ (n : Nat) (before : List α) (s : State), s.rest.length ≤ n →
      Reads (separated item n before) s fun ts as s' => s'.table = s.table ∧
        ∃ items : List (List Token × α), items ≠ [] ∧ Separated (items.map (·.1)) ts ∧
          (∀ i ∈ items, D i.1 i.2) ∧ as = before.reverse ++ items.map (·.2)
  | 0, _, s, hn => Starved.of_nil (List.length_eq_zero_iff.mp (Nat.le_zero.mp hn)) _
  | n + 1, before, s, hn => by
    refine Reads.bind (hitem s) ?_
    rintro ts a s₁ hm ⟨hne, hd, ht⟩
    refine Reads.bind Reads.acceptSymbol ?_
    rintro us (_ | _) s₂ hm' ⟨ht', hf⟩
    · obtain rfl : us = [] := by simpa using hf
      exact Reads.pure ⟨ht'.trans ht, [(ts, a)], by simp, by simpa using Separated.one ts,
        by simpa using hd, by simp⟩
    · obtain ⟨comma, rfl, hk⟩ : ∃ t, us = [t] ∧ t.kind = .symbol .comma := by simpa using hf
      have hlen : s₂.rest.length ≤ n := by
        have h₁ := hm.length_eq
        have h₂ := hm'.length_eq
        have h₃ := List.length_pos_iff.mpr hne
        simp only [List.length_singleton] at h₂
        omega
      refine (Reads.separated hitem n (a :: before) s₂ hlen).mono ?_
      rintro vs as s₃ _ ⟨ht'', items, hi, hs, hall, rfl⟩
      refine ⟨ht''.trans (ht'.trans ht), (ts, a) :: items, by simp, ?_, ?_, by simp⟩
      · simpa using Separated.more hk (by simpa using hi) hs
      · simpa using ⟨hd, by simpa using hall⟩

theorem Accepts.separated {item : Reader α} {short : Prop} {follow : List Token → Prop}
    (hcomma : ∀ comma ts, comma.kind = .symbol .comma → follow (comma :: ts))
    {t : Token} {rest : List Token} (ht : t.kind ≠ .symbol .comma) (hrest : follow (t :: rest)) :
    ∀ (items : List (List Token × α)) (ts : List Token) (n : Nat) (before : List α) (s : State),
      (∀ i ∈ items, ∀ s more, s.rest = i.1 ++ more → follow more →
        Accepts item s i.1 (fun a s' => a = i.2 ∧ s'.table = s.table) short) →
      items ≠ [] → Separated (items.map (·.1)) ts → s.rest = ts ++ t :: rest → items.length ≤ n →
      Accepts (separated item n before) s ts
        (fun as s' => as = before.reverse ++ items.map (·.2) ∧ s'.table = s.table) short
  | [], _, _, _, _, _, hne, _, _, _ => absurd rfl hne
  | i :: items, ts, 0, _, _, _, _, _, _, hn => absurd hn (by simp)
  | i :: items, ts, n + 1, before, s, hitem, _, hs, hr, hn => by
    have hi := hitem i (by simp)
    rw [List.map_cons] at hs
    generalize hparts : items.map (·.1) = parts at hs
    cases hs with
    | one =>
      obtain rfl : items = [] := List.map_eq_nil_iff.mp hparts
      refine (hi s (t :: rest) hr hrest).bind_nil ?_
      rintro a s₁ hm ⟨rfl, ht₁⟩
      refine (Accepts.acceptSymbol_false (hm.ahead hr) ht).bind_nil ?_
      rintro found s₂ _ ⟨rfl, rfl⟩
      exact Accepts.pure ⟨by simp, ht₁⟩
    | @more part parts comma us hc hp hs =>
      have hr' : s.rest = i.1 ++ (comma :: (us ++ t :: rest)) := by
        rw [hr, List.append_assoc, List.cons_append]
      refine (hi s _ hr' (hcomma comma _ hc)).bind (comma :: us) ?_
      rintro a s₁ hm ⟨rfl, ht₁⟩
      refine (Accepts.acceptSymbol_true (hm.ahead hr') hc).bind us ?_
      rintro found s₂ hm' ⟨rfl, ht₂⟩
      have hne : items ≠ [] := fun h => hp (by rw [← hparts, h, List.map_nil])
      refine (Accepts.separated hcomma ht hrest items us n (i.2 :: before) s₂
        (fun j hj => hitem j (List.mem_cons_of_mem _ hj)) hne (hparts ▸ hs)
        (hm'.ahead (hm.ahead hr')) (by simpa using hn)).mono ?_ id
      rintro as s₃ _ ⟨rfl, ht₃⟩
      exact ⟨by simp, ht₃.trans (ht₂.trans ht₁)⟩

/-! ## Items one after the other -/

/-- Each item is as `D` says in the light of what the items before it have left behind. -/
def Along (D : ε → List Token → α → Prop) (next : ε → α → ε) :
    ε → List (List Token × α) → Prop
  | _, [] => True
  | e, i :: items => D e i.1 i.2 ∧ Along D next (next e i.2) items

/-- What a list of items leaves behind. -/
def leaves (next : ε → α → ε) (e : ε) (items : List (List Token × α)) : ε :=
  items.foldl (fun e i => next e i.2) e

section Many

variable {item : Reader α} {begins : Token.Kind → Bool} {R : ε → State → Prop}

theorem Reads.many {D : ε → List Token → α → Prop} {next : ε → α → ε}
    (hitem : ∀ e s, R e s → Reads item s fun ts a s' => ts ≠ [] ∧ D e ts a ∧ R (next e a) s') :
    ∀ (n : Nat) (before : List α) (e : ε) (s : State), R e s → s.rest.length ≤ n →
      Reads (many begins item n before) s fun ts as s' =>
        ∃ items : List (List Token × α), ts = (items.map (·.1)).flatten ∧ Along D next e items ∧
          as = before.reverse ++ items.map (·.2) ∧ R (leaves next e items) s' ∧
          ∃ t rest, s'.rest = t :: rest ∧ begins t.kind = false
  | 0, _, _, s, _, hn => by
    have hnil : s.rest = [] := List.length_eq_zero_iff.mp (Nat.le_zero.mp hn)
    unfold Reads Grammar.many
    rw [ends_bind, ends_current]
    refine ⟨fun _ => Starved.of_nil hnil _, fun t rest h => ?_⟩
    rw [hnil] at h
    cases h
  | n + 1, before, e, s, he, hn => by
    refine Reads.bind Reads.current ?_
    rintro ts t s₀ _ ⟨rfl, rfl, rest, hr⟩
    by_cases hb : begins t.kind = true
    · simp only [hb, if_true]
      refine Reads.bind (hitem e s₀ he) ?_
      rintro us a s₁ hm ⟨hne, hd, he₁⟩
      have hlen : s₁.rest.length ≤ n := by
        have h₁ := hm.length_eq
        have h₂ := List.length_pos_iff.mpr hne
        omega
      refine (Reads.many hitem n (a :: before) _ s₁ he₁ hlen).mono ?_
      rintro vs as s₂ _ ⟨items, rfl, hal, rfl, hR, hstop⟩
      exact ⟨(us, a) :: items, by simp, ⟨hd, hal⟩, by simp, hR, hstop⟩
    · simp only [hb]
      exact Reads.pure ⟨[], rfl, trivial, by simp, he, t, rest, hr, by simpa using hb⟩

theorem Accepts.many {γ : Type} {view : α → γ} {D : ε → List Token → γ → Prop}
    {next : ε → γ → ε} {short : Prop} {t : Token} {rest : List Token}
    (ht : begins t.kind = false) :
    ∀ (items : List (List Token × γ)) (n : Nat) (before : List α) (e : ε) (s : State),
      (∀ i ∈ items, ∀ e s more, D e i.1 i.2 → R e s → s.rest = i.1 ++ more → more ≠ [] →
        (∃ u us, i.1 = u :: us ∧ begins u.kind = true) ∧
        Accepts item s i.1 (fun a s' => view a = i.2 ∧ R (next e i.2) s') short) →
      Along D next e items → R e s → s.rest = (items.map (·.1)).flatten ++ t :: rest →
      items.length ≤ n →
      Accepts (many begins item n before) s (items.map (·.1)).flatten
        (fun as s' => (∃ bs, as = before.reverse ++ bs ∧ bs.map view = items.map (·.2)) ∧
          R (leaves next e items) s') short
  | [], n, before, e, s, _, _, he, hr, _ => by
    have h : Accepts (Grammar.many begins item n before) s []
        (fun as s' => as = before.reverse ∧ s' = s) short := by
      cases n <;>
      · refine Accepts.look hr ?_
        simp only [ht]
        exact Accepts.pure ⟨rfl, rfl⟩
    refine h.mono ?_ id
    rintro as s' _ ⟨rfl, rfl⟩
    exact ⟨⟨[], by simp, rfl⟩, he⟩
  | _ :: _, 0, _, _, _, _, _, _, _, hn => absurd hn (by simp)
  | i :: items, n + 1, before, e, s, hitem, hal, he, hr, hn => by
    have hr' : s.rest = i.1 ++ ((items.map (·.1)).flatten ++ t :: rest) := by
      rw [hr, List.map_cons, List.flatten_cons, List.append_assoc]
    obtain ⟨⟨u, us, hu, hb⟩, hi⟩ := hitem i (by simp) e s _ hal.1 he hr' (by simp)
    have hcur : s.rest = u :: (us ++ ((items.map (·.1)).flatten ++ t :: rest)) := by
      rw [hr', hu, List.cons_append]
    refine Accepts.look hcur ?_
    simp only [hb, if_true]
    refine hi.bind _ ?_
    rintro a s₁ hm ⟨hv, he₁⟩
    refine (Accepts.many ht items n (a :: before) (next e i.2) s₁
      (fun j hj => hitem j (List.mem_cons_of_mem _ hj)) hal.2 he₁ (hm.ahead hr')
      (by simpa using hn)).mono ?_ id
    rintro as s₂ _ ⟨⟨bs, rfl, hbs⟩, hR⟩
    exact ⟨⟨a :: bs, by simp, by simp [hv, hbs]⟩, hR⟩

/-! ## Items that do not depend on each other -/

theorem along_iff_forall {γ : Type} {D : List Token → γ → Prop} :
    ∀ {items : List (List Token × γ)},
      Along (fun _ : Unit => D) (fun _ _ => ()) () items ↔ ∀ i ∈ items, D i.1 i.2
  | [] => by simp [Along]
  | i :: items => by simp only [Along, List.forall_mem_cons, along_iff_forall]

theorem Accepts.many_each {γ : Type} {view : α → γ} {short : Prop} {t : Token}
    {rest : List Token} (ht : begins t.kind = false) {items : List (List Token × γ)}
    (hstart : ∀ i ∈ items, ∃ u us, i.1 = u :: us ∧ begins u.kind = true)
    (hitem : ∀ i ∈ items, ∀ s more, s.rest = i.1 ++ more → more ≠ [] →
      Accepts item s i.1 (fun a _ => view a = i.2) short)
    (hr : s.rest = (items.map (·.1)).flatten ++ t :: rest) (hn : items.length ≤ s.rest.length) :
    Accepts (Grammar.many begins item s.rest.length []) s (items.map (·.1)).flatten
      (fun as _ => as.map view = items.map (·.2)) short := by
  refine (@Accepts.many α Unit item begins (fun _ _ => True) γ view (fun _ _ _ => True)
    (fun _ _ => ()) short t rest ht items _ [] () s ?_ ?_ trivial hr hn).mono ?_ id
  · intro i hi _ s more _ _ hr hmore
    exact ⟨hstart i hi, (hitem i hi s more hr hmore).mono (fun _ _ _ h => ⟨h, trivial⟩) id⟩
  · exact along_iff_forall.mpr fun _ _ => trivial
  · rintro as s' _ ⟨⟨bs, rfl, hbs⟩, _⟩
    exact hbs

end Many

end Slang.Grammar
