/-!
# Registries: maps that remember the order of first writes

* `Registry` — entries in the order in which their keys were first written.
* `Registry.insert` — the last write wins, and an overwritten entry keeps its place.
* `Registry.get?`, `Registry.contains`, `Registry.keys`, `Registry.values`, `Registry.size` — the
  views.
* `get?_insert`, `keys_insert` — what a write does to the two views that determine the rest.
-/

set_option autoImplicit false

namespace Slang

/-- Keys with their values, in the order of the first write to each key. -/
structure Registry (κ β : Type) where
  entries : List (κ × β)
  deriving DecidableEq, Repr

namespace Registry

variable {κ β : Type} [DecidableEq κ]

/-- No entries. -/
def empty : Registry κ β := ⟨[]⟩

/-- Overwrite the entry of `k`, or append one. -/
def write (k : κ) (v : β) : List (κ × β) → List (κ × β)
  | [] => [(k, v)]
  | e :: rest => if e.1 = k then (k, v) :: rest else e :: write k v rest

/-- Write `v` under `k`. -/
def insert (r : Registry κ β) (k : κ) (v : β) : Registry κ β := ⟨write k v r.entries⟩

/-- The value last written under `k`. -/
def get? (r : Registry κ β) (k : κ) : Option β := (r.entries.find? (·.1 = k)).map (·.2)

/-- Whether anything was written under `k`. -/
def contains (r : Registry κ β) (k : κ) : Bool := r.entries.any (·.1 = k)

/-- The keys in the order of their first write. -/
def keys (r : Registry κ β) : List κ := r.entries.map (·.1)

/-- The values in the order of the first write to their keys. -/
def values (r : Registry κ β) : List β := r.entries.map (·.2)

/-- The number of keys. -/
def size (r : Registry κ β) : Nat := r.entries.length

/-- Write a list of entries, first to last. -/
def ofList (es : List (κ × β)) : Registry κ β := es.foldl (fun r e => r.insert e.1 e.2) empty

/-! ## Laws -/

theorem find?_write (k k' : κ) (v : β) (es : List (κ × β)) :
    ((write k v es).find? (·.1 = k')).map (·.2) =
      if k = k' then some v else (es.find? (·.1 = k')).map (·.2) := by
  induction es with
  | nil => by_cases h : k = k' <;> simp [write, h]
  | cons e rest ih =>
    by_cases he : e.1 = k
    · by_cases h : k = k'
      · simp [write, he, h]
      · simp [write, he, h]
    · by_cases h : e.1 = k'
      · subst h
        have hk : ¬ k = e.1 := fun hk => he hk.symm
        simp [write, he, hk]
      · simp only [write, he, if_false, List.find?_cons, h, decide_false, ih]

/-- **The last write wins.** -/
theorem get?_insert (r : Registry κ β) (k k' : κ) (v : β) :
    (r.insert k v).get? k' = if k = k' then some v else r.get? k' :=
  find?_write k k' v r.entries

theorem map_fst_write (k : κ) (v : β) (es : List (κ × β)) :
    (write k v es).map (·.1) = if k ∈ es.map (·.1) then es.map (·.1) else es.map (·.1) ++ [k] := by
  induction es with
  | nil => rfl
  | cons e rest ih =>
    by_cases he : e.1 = k
    · simp [write, he]
    · have hk : k ≠ e.1 := fun h => he h.symm
      simp only [write, he, if_false, List.map_cons, ih, List.mem_cons, hk, false_or]
      split <;> rfl

/-- **An overwritten entry keeps its place.** -/
theorem keys_insert (r : Registry κ β) (k : κ) (v : β) :
    (r.insert k v).keys = if k ∈ r.keys then r.keys else r.keys ++ [k] :=
  map_fst_write k v r.entries

end Registry

end Slang
