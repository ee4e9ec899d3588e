import Mathlib.Data.Finset.Card
import Slang.Binding

/-!
# Tables after many writes

A name comes into a table by a declaration, which brings its own name, or by an assignment, which
brings a value for a target.  Whatever the order of such writes, the table shows no more of them
than which name came first and what each name was given last.

* `Registry.mem_insert`, `Registry.entries_eq` — where the entries of a registry come from, and that
  its keys and its look-ups are all there is to it.
* `Table.Write` — a declaration or an assignment; `Write.name`, `Write.stored` — where it writes,
  and what.
* `Table.firstNames`, `Table.last?` — the names in the order of their first write, and the last
  write to a name.
* `Table.Records ws t` — the table shows these writes.
* `Records.write` — one write more; `records_written` — all of them.

Principal result: `table_of_writes` — all that a table is after any writes, and what determines it.
-/

set_option autoImplicit false

namespace Slang

/-! ## Registries -/

namespace Registry

variable {κ β : Type} [DecidableEq κ]

/-- An entry is the one that was written or was there before. -/
theorem mem_insert {r : Registry κ β} {k : κ} {v : β} {e : κ × β}
    (h : e ∈ (r.insert k v).entries) : e = (k, v) ∨ e ∈ r.entries := by
  have hwrite : ∀ es : List (κ × β), e ∈ write k v es → e = (k, v) ∨ e ∈ es := by
    intro es
    induction es with
    | nil =>
      intro hmem
      exact .inl (List.mem_singleton.mp hmem)
    | cons d rest ih =>
      intro hmem
      by_cases hd : d.1 = k
      · rw [write, if_pos hd] at hmem
        rcases List.mem_cons.mp hmem with hnew | hold
        · exact .inl hnew
        · exact .inr (List.mem_cons_of_mem d hold)
      · rw [write, if_neg hd] at hmem
        rcases List.mem_cons.mp hmem with rfl | hrest
        · exact .inr (List.mem_cons_self ..)
        · exact (ih hrest).imp id (List.mem_cons_of_mem d)
  exact hwrite r.entries h

/-- Where no key has two entries, the entries are the keys with what is found under them. -/
theorem entries_eq {r : Registry κ β} (h : r.keys.Nodup) :
    r.entries = r.keys.filterMap fun k => (r.get? k).map fun v => (k, v) := by
  obtain ⟨es⟩ := r
  induction es with
  | nil => rfl
  | cons e rest ih =>
    rw [keys, List.map_cons, List.nodup_cons] at h
    have hrest : ∀ k ∈ rest.map (·.1), get? ⟨e :: rest⟩ k = get? ⟨rest⟩ k := by
      intro k hk
      have hne : e.1 ≠ k := fun heq => h.1 (heq ▸ hk)
      simp [get?, hne]
    have hfirst : get? ⟨e :: rest⟩ e.1 = some e.2 := by
      simp [get?]
    rw [keys, List.map_cons, List.filterMap_cons, hfirst]
    refine congrArg (List.cons e) ((ih h.2).trans ?_)
    apply List.filterMap_congr
    intro k hk
    rw [hrest k hk]

/-- Registries with the same keys in the same order, and the same values under them, are equal. -/
theorem eq_of_get? {r s : Registry κ β} (h : r.keys.Nodup) (hkeys : r.keys = s.keys)
    (hget : ∀ k, r.get? k = s.get? k) : r = s := by
  have hr := entries_eq h
  have hs := entries_eq (hkeys ▸ h)
  obtain ⟨es⟩ := r
  obtain ⟨fs⟩ := s
  rw [← hkeys, ← funext hget] at hs
  exact congrArg Registry.mk (hr.trans hs.symm)

end Registry

/-! ## Writes -/

namespace Table

/-- What can be written into a table: a binding under its own name, or its value under the name of a
target. -/
inductive Write where
  | declare (b : Binding)
  | assign (target : Name) (b : Binding)

namespace Write

/-- The name that is written. -/
def name : Write → Name
  | declare b => b.name
  | assign target _ => target

/-- What is stored under this name. -/
def stored : Write → Binding
  | declare b => b
  | assign target b => b.renamed target

/-- The table after the write. -/
def perform (t : Table) : Write → Table
  | declare b => t.declare b
  | assign target b => t.assign target b

theorem perform_eq (t : Table) (w : Write) : w.perform t = t.insert w.name w.stored := by
  cases w <;> rfl

theorem stored_name (w : Write) : w.stored.name = w.name := by
  cases w <;> rfl

end Write

/-- The table after some writes, first to last. -/
def written (ws : List Write) : Table := ws.foldl Write.perform empty

/-- The names that are written, in the order of their first write. -/
def firstNames (ws : List Write) : List Name := (ws.map (·.name)).eraseDups

/-- The last write to a name. -/
def last? (ws : List Write) (name : Name) : Option Write := ws.findRev? (·.name = name)

variable {ws vs : List Write} {w : Write} {t : Table}

theorem mem_firstNames {name : Name} : name ∈ firstNames ws ↔ ∃ w ∈ ws, w.name = name := by
  simp [firstNames, List.mem_eraseDups]

/-- A name that is written again keeps its place. -/
theorem firstNames_again (h : w.name ∈ firstNames ws) : firstNames (ws ++ [w]) = firstNames ws := by
  have hmem := mem_firstNames.mp h
  simp [firstNames, List.eraseDups_append, List.removeAll, hmem]

/-- A new name comes last. -/
theorem firstNames_new (h : w.name ∉ firstNames ws) :
    firstNames (ws ++ [w]) = firstNames ws ++ [w.name] := by
  have hmem : ¬ ∃ v ∈ ws, v.name = w.name := fun hmem => h (mem_firstNames.mpr hmem)
  simp [firstNames, List.eraseDups_append, List.removeAll, List.eraseDups_cons, hmem]

/-- Of two names, the one that was written first stands first. -/
theorem firstNames_ordered (ws : List Write) : (firstNames ws).Pairwise fun a b =>
    (ws.map (·.name)).idxOf a < (ws.map (·.name)).idxOf b := by
  induction ws using List.reverseRecOn with
  | nil => exact .nil
  | append_singleton ws w ih =>
    -- A write behind the others does not move the first write to a name.
    have hkept : ∀ a ∈ firstNames ws,
        ((ws ++ [w]).map (·.name)).idxOf a = (ws.map (·.name)).idxOf a := by
      intro a ha
      rw [List.map_append, List.idxOf_append_of_mem (List.mem_eraseDups.mp ha)]
    have hold : (firstNames ws).Pairwise fun a b =>
        ((ws ++ [w]).map (·.name)).idxOf a < ((ws ++ [w]).map (·.name)).idxOf b := by
      apply ih.imp_of_mem
      intro a b ha hb hlt
      rwa [hkept a ha, hkept b hb]
    by_cases hmem : w.name ∈ firstNames ws
    · rw [firstNames_again hmem]
      exact hold
    · rw [firstNames_new hmem]
      refine List.pairwise_append.mpr ⟨hold, List.pairwise_singleton _ _, ?_⟩
      intro a ha b hb
      rw [List.mem_singleton.mp hb, hkept a ha]
      have hfresh : w.name ∉ ws.map (·.name) := fun h => hmem (List.mem_eraseDups.mpr h)
      have hlast : ((ws ++ [w]).map (·.name)).idxOf w.name = ws.length := by
        simp [List.map_append, List.idxOf_append_of_notMem hfresh]
      rw [hlast]
      simpa using List.idxOf_lt_length_of_mem (List.mem_eraseDups.mp ha)

theorem firstNames_nodup (ws : List Write) : (firstNames ws).Nodup := by
  apply (firstNames_ordered ws).imp
  rintro a b hlt rfl
  exact Nat.lt_irrefl _ hlt

theorem last?_concat (ws : List Write) (w : Write) (name : Name) :
    last? (ws ++ [w]) name = if w.name = name then some w else last? ws name := by
  by_cases h : w.name = name <;> simp [last?, h]

/-- The last write to a name has no write to this name behind it. -/
theorem last?_eq_some {name : Name} : last? ws name = some w ↔
    ∃ before after, ws = before ++ w :: after ∧ w.name = name ∧ ∀ v ∈ after, v.name ≠ name := by
  rw [last?, List.findRev?_eq_find?_reverse, List.find?_eq_some_iff_append]
  constructor
  · rintro ⟨hname, after, before, hsplit, hafter⟩
    refine ⟨before.reverse, after.reverse, ?_, by simpa using hname, ?_⟩
    · rw [← List.reverse_reverse ws, hsplit]
      simp
    · intro v hv
      simpa using hafter v (List.mem_reverse.mp hv)
  · rintro ⟨before, after, rfl, hname, hafter⟩
    refine ⟨by simpa using hname, after.reverse, before.reverse, by simp, ?_⟩
    intro v hv
    simpa using hafter v (List.mem_reverse.mp hv)

theorem last?_eq_none {name : Name} : last? ws name = none ↔ ∀ w ∈ ws, w.name ≠ name := by
  simp [last?]

/-- The table shows these writes: the names as they came first, each with what it was given last. -/
structure Records (ws : List Write) (t : Table) : Prop where
  keys : t.keys = firstNames ws
  lookup : ∀ name, t.lookup name = (last? ws name).map (·.stored)
  named : ∀ e ∈ t.entries, e.2.name = e.1

/-- **One write more.** -/
theorem Records.write (h : Records ws t) (w : Write) : Records (ws ++ [w]) (w.perform t) := by
  rw [w.perform_eq]
  refine ⟨?_, ?_, ?_⟩
  · rw [Registry.keys_insert, h.keys]
    by_cases hmem : w.name ∈ firstNames ws
    · rw [if_pos hmem, firstNames_again hmem]
    · rw [if_neg hmem, firstNames_new hmem]
  · intro name
    rw [Table.lookup, Registry.get?_insert, last?_concat]
    split
    · rfl
    · exact h.lookup name
  · intro e he
    rcases Registry.mem_insert he with rfl | hold
    · exact w.stored_name
    · exact h.named e hold

/-- **All writes.** -/
theorem records_written (ws : List Write) : Records ws (written ws) := by
  -- The writes are made first to last, so the induction takes off the last one.
  induction ws using List.reverseRecOn with
  | nil => exact ⟨rfl, fun _ => rfl, fun e he => absurd he (List.not_mem_nil)⟩
  | append_singleton ws w ih =>
    rw [written, List.foldl_append]
    exact ih.write w

/-! ## All that a table is -/

namespace Records

theorem names (h : Records ws t) : t.values.map (·.name) = firstNames ws := by
  rw [← h.keys, Registry.values, Registry.keys, List.map_map]
  exact List.map_congr_left h.named

theorem nodup (h : Records ws t) : t.keys.Nodup := by
  rw [h.keys]
  exact firstNames_nodup ws

theorem size (h : Records ws t) : t.size = (ws.map (·.name)).toFinset.card := by
  have hsize : t.size = (firstNames ws).length := by
    rw [← h.keys, Registry.keys, List.length_map, Registry.size]
  have hnames : (firstNames ws).toFinset = (ws.map (·.name)).toFinset := by
    ext name
    simp [mem_firstNames]
  rw [hsize, ← List.toFinset_card_of_nodup (firstNames_nodup ws), hnames]

/-- Two tables that show the same first and last writes are the same table. -/
theorem unique {t' : Table} (h : Records ws t) (h' : Records vs t')
    (hfirst : firstNames ws = firstNames vs)
    (hlast : ∀ name, (last? ws name).map (·.stored) = (last? vs name).map (·.stored)) : t = t' := by
  apply Registry.eq_of_get? h.nodup
  · rw [h.keys, h'.keys, hfirst]
  · intro name
    exact (h.lookup name).trans ((hlast name).trans (h'.lookup name).symm)

end Records

/-- **What a table is after any writes.** Its keys are distinct, and each binding has the name under
which it is stored.  The names of the bindings in order are those that are written, each where it
came first, and there are as many bindings as names.  Under a name there is what the last write to
it has stored, and nothing if there is no such write.  And two lists of writes leave the same table
exactly if the names come first in the same order and are given the same bindings last. -/
theorem table_of_writes (ws : List Write) :
    (written ws).keys.Nodup ∧
    (∀ e ∈ (written ws).entries, e.2.name = e.1) ∧
    (written ws).values.map (·.name) = firstNames ws ∧
    ((firstNames ws).Pairwise fun a b =>
      (ws.map (·.name)).idxOf a < (ws.map (·.name)).idxOf b) ∧
    (written ws).size = (ws.map (·.name)).toFinset.card ∧
    (∀ name b, (written ws).lookup name = some b ↔ ∃ before w after, ws = before ++ w :: after ∧
      w.name = name ∧ (∀ v ∈ after, v.name ≠ name) ∧ w.stored = b) ∧
    (∀ name, (written ws).lookup name = none ↔ ∀ w ∈ ws, w.name ≠ name) ∧
    ∀ vs, written vs = written ws ↔ firstNames vs = firstNames ws ∧
      ∀ name, (last? vs name).map (·.stored) = (last? ws name).map (·.stored) := by
  have h := records_written ws
  refine ⟨h.nodup, h.named, h.names, firstNames_ordered ws, h.size, ?_, ?_, ?_⟩
  · intro name b
    rw [h.lookup, Option.map_eq_some_iff]
    constructor
    · rintro ⟨w, hw, rfl⟩
      obtain ⟨before, after, hsplit, hname, hafter⟩ := last?_eq_some.mp hw
      exact ⟨before, w, after, hsplit, hname, hafter, rfl⟩
    · rintro ⟨before, w, after, hsplit, hname, hafter, hstored⟩
      exact ⟨w, last?_eq_some.mpr ⟨before, after, hsplit, hname, hafter⟩, hstored⟩
  · intro name
    rw [h.lookup, Option.map_eq_none_iff, last?_eq_none]
  · intro vs
    have hv := records_written vs
    constructor
    · intro heq
      refine ⟨?_, fun name => ?_⟩
      · rw [← hv.keys, ← h.keys, heq]
      · rw [← hv.lookup, ← h.lookup, heq]
    · rintro ⟨hfirst, hlast⟩
      exact hv.unique h hfirst hlast

/-- A name that is declared, another one that is assigned, and the first one declared again: it
keeps its place, and the table is the one without the first write. -/
theorem table_of_writes_again : ∃ a b c : Write,
    a = .declare (.declared "a" .numeric) ∧
    b = .assign (some "b") (.result (some .boolean) (.truth true)) ∧
    c = .declare (.declared "a" .string) ∧
    (written [a, b, c]).values.map (·.name) = [some "a", some "b"] ∧
    (written [a, b, c]).size = 2 ∧
    (written [a, b, c]).lookup (some "a") = some c.stored ∧
    (some "b", b.stored) ∈ (written [a, b, c]).entries ∧ b.stored.name = some "b" ∧
    written [c, b] = written [a, b, c] := by
  obtain ⟨a, ha⟩ : ∃ a, a = Write.declare (.declared "a" .numeric) := ⟨_, rfl⟩
  obtain ⟨b, hb⟩ : ∃ b, b = Write.assign (some "b") (.result (some .boolean) (.truth true)) :=
    ⟨_, rfl⟩
  obtain ⟨c, hc⟩ : ∃ c, c = Write.declare (.declared "a" .string) := ⟨_, rfl⟩
  have hnameA : a.name = some "a" := congrArg Write.name ha
  have hnameB : b.name = some "b" := congrArg Write.name hb
  have hnameC : c.name = some "a" := congrArg Write.name hc
  obtain ⟨-, hnamed, hnames, -, hsize, hlast, -, hsame⟩ := table_of_writes [a, b, c]
  have hfirst : firstNames [a, b, c] = [some "a", some "b"] := by
    simp only [firstNames, List.map_cons, List.map_nil, hnameA, hnameB, hnameC]
    decide
  have hentry : (some "b", b.stored) ∈ (written [a, b, c]).entries := by
    rw [ha, hb, hc]
    exact .tail _ (.head _)
  refine ⟨a, b, c, ha, hb, hc, hnames.trans hfirst, ?_, ?_, hentry, hnamed _ hentry, ?_⟩
  · rw [hsize]
    simp only [List.map_cons, List.map_nil, hnameA, hnameB, hnameC]
    decide
  · exact (hlast _ _).mpr ⟨[a, b], c, [], rfl, hnameC, by simp, rfl⟩
  · refine (hsame [c, b]).mpr ⟨?_, fun name => ?_⟩
    · rw [hfirst]
      simp only [firstNames, List.map_cons, List.map_nil, hnameB, hnameC]
      decide
    · by_cases hfound : some "b" = name
      · subst hfound
        simp [last?, hnameB, hnameC]
      · by_cases hfound' : some "a" = name
        · simp [last?, hnameB, hnameC, hfound, hfound']
        · simp [last?, hnameA, hnameB, hnameC, hfound, hfound']

end Table

end Slang
