import Slang.Proofs.Rounding

/-!
# Shortest decimals

* `Digits.value` — the number that a decimal is.
* `Digits.lead_bounds` — the place of its leading digit, told from its exponent and its digits.
* `Window.holds_of_hit`, `Window.width_le_of_miss` — a hit is in the window, and a grid without a
  hit is coarser than the window is wide.
* `hit_of_seventeen` — with seventeen digits there is a hit.

Principal result: `shortest_holds` — the shortest decimal of a double is in its window.
-/

set_option autoImplicit false

namespace Slang.Number

/-! ## Decimals and their leading digits -/

namespace Digits

/-- The number that a decimal is. -/
def value (d : Digits) : ℚ := d.coefficient * 10 ^ d.exponent

/-- The place of the leading digit of a decimal. -/
def lead (d : Digits) : Int := d.exponent + (chars d.coefficient).length - 1

theorem length_chars_pos (n : Nat) : 0 < (chars n).length := Nat.length_toDigits_pos

theorem lt_pow_length (n : Nat) : n < 10 ^ (chars n).length :=
  (Nat.length_toDigits_le_iff (by omega) (length_chars_pos n)).mp le_rfl

theorem pow_length_le {n : Nat} (hn : 0 < n) : 10 ^ ((chars n).length - 1) ≤ n := by
  rcases Nat.eq_zero_or_pos ((chars n).length - 1) with h | h
  · rw [h]
    exact hn
  · by_contra hlt
    have hle := (Nat.length_toDigits_le_iff (b := 10) (by omega) h).mpr (Nat.lt_of_not_le hlt)
    have : (chars n).length ≤ (chars n).length - 1 := hle
    omega

theorem lead_bounds (d : Digits) (h : 0 < d.coefficient) :
    (10 : ℚ) ^ d.lead ≤ d.value ∧ d.value < 10 ^ (d.lead + 1) := by
  have hlength := length_chars_pos d.coefficient
  have hscale : (0 : ℚ) < 10 ^ d.exponent := by positivity
  have hlow : ((10 : ℚ) ^ ((chars d.coefficient).length - 1)) ≤ d.coefficient := by
    exact_mod_cast pow_length_le h
  have hhigh : (d.coefficient : ℚ) < 10 ^ (chars d.coefficient).length := by
    exact_mod_cast lt_pow_length d.coefficient
  have hlead : (10 : ℚ) ^ d.lead = 10 ^ ((chars d.coefficient).length - 1) * 10 ^ d.exponent := by
    rw [← zpow_natCast, ← zpow_add₀ (by norm_num), lead]
    congr 1
    omega
  have hnext : (10 : ℚ) ^ (d.lead + 1) = 10 ^ (chars d.coefficient).length * 10 ^ d.exponent := by
    rw [← zpow_natCast, ← zpow_add₀ (by norm_num), lead]
    congr 1
    omega
  rw [hlead, hnext, value]
  exact ⟨mul_le_mul_of_nonneg_right hlow hscale.le, mul_lt_mul_of_pos_right hhigh hscale⟩

/-- Moving zeros to the exponent does not change the number. -/
theorem value_trim (fuel : Nat) (d : Digits) : (trim fuel d).value = d.value := by
  induction fuel generalizing d with
  | zero => rfl
  | succ fuel ih =>
    unfold trim
    split
    case isTrue h =>
      have hten : d.coefficient = d.coefficient / 10 * 10 := by omega
      have hcast : (d.coefficient : ℚ) = (d.coefficient / 10 : Nat) * 10 := by exact_mod_cast hten
      rw [ih, value, value, hcast, zpow_add_one₀ (by norm_num)]
      ring
    case isFalse h => rfl

end Digits

/-! ## Hits of a grid -/

namespace Window

variable {w : Window} {grid : Int} {k : Nat}

theorem leading_le (w : Window) (h : 0 < w.value) :
    (10 : ℚ) ^ w.leading ≤ w.value * 2 ^ w.unit := by
  have hnum : 0 < w.value * pow2 w.unit.toNat := Nat.mul_pos h (Nat.pow_pos (by omega))
  have hden : 0 < pow2 (-w.unit).toNat := Nat.pow_pos (by omega)
  have hquotient : ((w.value * pow2 w.unit.toNat : Nat) : ℚ) / (pow2 (-w.unit).toNat : Nat) =
      w.value * 2 ^ w.unit := by
    have htwo := zpow_eq_div 2 w.unit
    push_cast at htwo
    rw [htwo, pow2_eq, pow2_eq]
    push_cast
    ring
  unfold leading
  dsimp only
  rw [← hquotient]
  generalize w.value * pow2 w.unit.toNat = num at hnum
  generalize pow2 (-w.unit).toNat = den at hden
  split
  case isTrue h => exact (zpow_le_div_iff (b := 10) (by omega) num hden _).mpr h
  case isFalse h =>
    have hlength := Digits.length_chars_pos num
    have hbelow := zpow_le_div (b := 10) (by omega) hden (Digits.pow_length_le hnum)
      (Digits.lt_pow_length den).le
    push_cast [hlength] at hbelow
    rw [sub_right_comm]
    exact hbelow

/-- In units of some positive number, the two parts of the ratio are the unit and the grid. -/
theorem ratio_scale (w : Window) (grid : Int) : 0 < (w.ratio grid).2 ∧ ∃ s : ℚ, 0 < s ∧
    (w.ratio grid).1 * s = 2 ^ w.unit ∧ (w.ratio grid).2 * s = 10 ^ grid := by
  have htwo := zpow_eq_div 2 w.unit
  have hten := zpow_eq_div 10 grid
  push_cast at htwo hten
  refine ⟨Nat.mul_pos (Nat.pow_pos (by omega)) (Nat.pow_pos (by omega)),
    1 / (2 ^ (-w.unit).toNat * 10 ^ (-grid).toNat), by positivity, ?_, ?_⟩
  · simp only [htwo, ratio, pow2_eq, pow10_eq]
    push_cast
    field_simp
  · simp only [hten, ratio, pow2_eq, pow10_eq]
    push_cast
    field_simp

/-- The last point of the grid that is not above the value. -/
def floor (w : Window) (grid : Int) : Nat := w.value * (w.ratio grid).1 / (w.ratio grid).2

theorem floor_bounds (w : Window) (grid : Int) :
    (w.floor grid : ℚ) * 10 ^ grid ≤ w.value * 2 ^ w.unit ∧
      (w.value : ℚ) * 2 ^ w.unit < (w.floor grid + 1) * 10 ^ grid := by
  obtain ⟨hden, s, hs, ha, hb⟩ := w.ratio_scale grid
  have hlow : w.floor grid * (w.ratio grid).2 ≤ w.value * (w.ratio grid).1 :=
    Nat.div_mul_le_self _ _
  have hhigh : w.value * (w.ratio grid).1 < (w.floor grid + 1) * (w.ratio grid).2 :=
    Nat.lt_mul_of_div_lt (Nat.lt_succ_self _) hden
  rw [← ha, ← hb, ← mul_assoc, ← mul_assoc, ← mul_assoc, mul_le_mul_iff_of_pos_right hs,
    mul_lt_mul_iff_of_pos_right hs]
  exact ⟨by exact_mod_cast hlow, by exact_mod_cast hhigh⟩

/-- The test that tells whether two numbers in the order of a bound are in the window. -/
def inside (w : Window) (x y : Nat) : Bool := if w.closed then x ≤ y else x < y

theorem inside_iff {x y : Nat} : w.inside x y = true ↔ Below w.closed x y := by
  unfold inside
  cases w.closed with
  | true => simp [Below]
  | false => simp [Below]

/-- The point below the value is in the window. -/
def LowHit (w : Window) (grid : Int) : Prop :=
  Below w.closed (w.lower * 2 ^ w.unit) (w.floor grid * 10 ^ grid)

/-- The point above the value is in the window. -/
def HighHit (w : Window) (grid : Int) : Prop :=
  Below w.closed ((w.floor grid + 1) * 10 ^ grid) (w.upper * 2 ^ w.unit)

/-- What is found on a grid: a point next to the value in the window, or neither of the two. -/
inductive Hits (w : Window) (grid : Int) : Option Nat → Prop
  | below (h : w.LowHit grid) : Hits w grid (some (w.floor grid))
  | above (h : w.HighHit grid) : Hits w grid (some (w.floor grid + 1))
  | none (hlow : ¬ w.LowHit grid) (hhigh : ¬ w.HighHit grid) : Hits w grid none

theorem hits (w : Window) (grid : Int) : w.Hits grid (w.hit? grid) := by
  obtain ⟨-, s, hs, ha, hb⟩ := w.ratio_scale grid
  have hlow : w.inside (w.lower * (w.ratio grid).1) (w.floor grid * (w.ratio grid).2) = true ↔
      w.LowHit grid := by
    rw [inside_iff, LowHit, ← ha, ← hb, ← mul_assoc, ← mul_assoc, below_mul_right hs]
    push_cast
    rfl
  have hhigh : w.inside ((w.floor grid + 1) * (w.ratio grid).2) (w.upper * (w.ratio grid).1) =
      true ↔ w.HighHit grid := by
    rw [inside_iff, HighHit, ← ha, ← hb, ← mul_assoc, ← mul_assoc, below_mul_right hs]
    push_cast
    rfl
  unfold hit?
  dsimp only
  split
  case h_1 hl hh =>
    split
    · exact .below (hlow.mp hl)
    · split
      · exact .above (hhigh.mp hh)
      · split
        · exact .below (hlow.mp hl)
        · exact .above (hhigh.mp hh)
  case h_2 hl hh => exact .below (hlow.mp hl)
  case h_3 hl hh => exact .above (hhigh.mp hh)
  case h_4 hl hh =>
    refine .none (fun h => ?_) (fun h => ?_)
    · exact absurd (hlow.mpr h) (Bool.eq_false_iff.mp hl)
    · exact absurd (hhigh.mpr h) (Bool.eq_false_iff.mp hh)

/-- A hit is in the window. -/
theorem holds_of_hit (hlow : w.lower < w.value) (hhigh : w.value < w.upper)
    (h : w.hit? grid = some k) : w.Holds (k * 10 ^ grid) := by
  obtain ⟨hfloor, hnext⟩ := w.floor_bounds grid
  have hunit : (0 : ℚ) < 2 ^ w.unit := by positivity
  have hbelow : (w.lower : ℚ) * 2 ^ w.unit < w.value * 2 ^ w.unit :=
    mul_lt_mul_of_pos_right (by exact_mod_cast hlow) hunit
  have habove : (w.value : ℚ) * 2 ^ w.unit < w.upper * 2 ^ w.unit :=
    mul_lt_mul_of_pos_right (by exact_mod_cast hhigh) hunit
  have hhits := w.hits grid
  rw [h] at hhits
  cases hhits with
  | below hlow => exact ⟨hlow, .of_lt (hfloor.trans_lt habove)⟩
  | above hhigh =>
    refine ⟨.of_lt ?_, ?_⟩ <;> push_cast
    · exact hbelow.trans hnext
    · exact hhigh

/-- A grid without a hit is no finer than the window is wide. -/
theorem width_le_of_miss (h : w.hit? grid = none) :
    ((w.upper : ℚ) - w.lower) * 2 ^ w.unit ≤ 10 ^ grid := by
  have hhits := w.hits grid
  rw [h] at hhits
  cases hhits with
  | none hlow hhigh =>
    have hbelow := Below.of_not hlow
    have habove := Below.of_not hhigh
    linarith

/-- The digits are those of a hit, if one of the seventeen grids has one. -/
theorem digits_of_hit {n : Nat} (hn : n < 17) (h : w.hit? (w.leading - n) ≠ none) :
    ∃ grid k, w.hit? grid = some k ∧ w.digits = Digits.trim 17 ⟨k, grid⟩ := by
  unfold digits
  dsimp only
  split
  case h_1 d rest hd =>
    have hmem := List.mem_cons_self (a := d) (l := rest)
    rw [← hd, List.mem_filterMap] at hmem
    obtain ⟨i, -, hi⟩ := hmem
    obtain ⟨k, hk, rfl⟩ := Option.map_eq_some_iff.mp hi
    exact ⟨_, k, hk, rfl⟩
  case h_2 hnil =>
    have hmiss := List.filterMap_eq_nil_iff.mp hnil n (List.mem_range.mpr hn)
    exact absurd (Option.map_eq_none_iff.mp hmiss) h

end Window

/-! ## The shortest decimal of a double -/

variable {m : Nat} {e : Int}

theorem window_value (m : Nat) (e : Int) :
    ((Exact.window m e).value : ℚ) * 2 ^ (Exact.window m e).unit = m * 2 ^ e := by
  show ((4 * m : Nat) : ℚ) * 2 ^ (e - 2) = m * 2 ^ e
  rw [zpow_sub₀ (by norm_num)]
  push_cast
  ring

theorem window_width (hm : 0 < m) (e : Int) :
    (((Exact.window m e).upper : ℚ) - (Exact.window m e).lower) * 2 ^ (Exact.window m e).unit =
      (1 / 2 + reach m e) * 2 ^ e := by
  obtain ⟨hlow, hhigh⟩ := window_ends hm e
  rw [sub_mul, hlow, hhigh]
  ring

/-- Seventeen digits suffice: their grid is finer than the window of a double is wide. -/
theorem hit_of_seventeen (hd : IsDouble m e) (hm : 0 < m) :
    (Exact.window m e).hit? ((Exact.window m e).leading - (16 : Nat)) ≠ none := by
  intro hmiss
  have hwidth := Window.width_le_of_miss hmiss
  have hlead := (Exact.window m e).leading_le (show 0 < 4 * m by omega)
  have hs : (0 : ℚ) < 2 ^ e := by positivity
  rw [window_width hm] at hwidth
  rw [window_value] at hlead
  have hgrid : (10 : ℚ) ^ ((Exact.window m e).leading - (16 : Nat)) ≤ m / 10 ^ 16 * 2 ^ e := by
    rw [zpow_sub₀ (by norm_num), zpow_natCast, div_mul_eq_mul_div]
    exact div_le_div_of_nonneg_right hlead (by norm_num)
  have hfine : (1 : ℚ) / 2 + reach m e ≤ m / 10 ^ 16 :=
    le_of_mul_le_mul_right (hwidth.trans hgrid) hs
  rcases reach_cases m e with ⟨hreach, rfl, -⟩ | ⟨hreach, -⟩
  · rw [hreach] at hfine
    norm_num at hfine
  · have hlt : (m : ℚ) < 2 ^ 53 := by exact_mod_cast hd.mantissa_lt
    rw [hreach, le_div_iff₀ (by norm_num)] at hfine
    norm_num at hfine hlt
    linarith

/-- **The shortest decimal of a double is in its window.** -/
theorem shortest_holds (hd : IsDouble m e) (hm : 0 < m) :
    (Exact.window m e).Holds (Exact.shortest m e).value := by
  obtain ⟨grid, k, hhit, hdigits⟩ := Window.digits_of_hit (by omega) (hit_of_seventeen hd hm)
  have hlow : (Exact.window m e).lower < (Exact.window m e).value := by
    show 4 * m - (if m = pow2 52 ∧ -1074 < e then 1 else 2) < 4 * m
    split <;> omega
  have hhigh : (Exact.window m e).value < (Exact.window m e).upper :=
    Nat.lt_add_of_pos_right (by omega)
  rw [Exact.shortest, if_neg hm.ne', hdigits, Digits.value_trim]
  exact Window.holds_of_hit hlow hhigh hhit

end Slang.Number
