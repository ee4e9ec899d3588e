import Slang.Proofs.Doubles

/-!
# What rounds to a double

The rounding is done on natural numbers; what it does is said of the quotients that they stand for.

* `zpow_le_div_iff` — how a comparison of natural numbers compares a power with a quotient.
* `log2Ratio_spec` — the leading bit of a quotient.
* `Between closed a b x` — between two bounds, which belong to it or do not.
* `Rounds`, `roundDiv_eq` — what rounds to a natural number: at most a half away, and a half only
  from an even number.
* `Window.Holds` — the numbers in a window.

Principal results: `magnitude?_eq` — what is in the window of a double rounds to this double;
`scaledBits_eq` — the same for a decimal.
-/

set_option autoImplicit false

namespace Slang.Number

/-! ## Powers and quotients -/

section Quotients

variable {b num den : Nat}

/-- A power is a quotient of natural numbers, one of which is one. -/
theorem zpow_eq_div (b : Nat) (n : Int) :
    (b : ℚ) ^ n = (b ^ n.toNat : Nat) / (b ^ (-n).toNat : Nat) := by
  rcases le_total 0 n with h | h
  · obtain ⟨k, rfl⟩ := Int.eq_ofNat_of_zero_le h
    simp
  · obtain ⟨k, hk⟩ := Int.eq_ofNat_of_zero_le (Int.neg_nonneg_of_nonpos h)
    obtain rfl : n = -(k : Int) := by omega
    simp

/-- How natural numbers are compared to compare a power with a quotient. -/
theorem zpow_le_div_iff (hb : 0 < b) (num : Nat) (hden : 0 < den) (n : Int) :
    (b : ℚ) ^ n ≤ num / den ↔ den * b ^ n.toNat ≤ num * b ^ (-n).toNat := by
  have hpow : (0 : ℚ) < (b ^ (-n).toNat : Nat) := by exact_mod_cast Nat.pow_pos hb
  rw [zpow_eq_div, div_le_div_iff₀ hpow (by exact_mod_cast hden), mul_comm]
  exact_mod_cast Iff.rfl

/-- How far a quotient lies from below, told from the leading digits of its parts. -/
theorem zpow_le_div {j l : Nat} (hb : 0 < b) (hden : 0 < den) (hnum : b ^ j ≤ num)
    (hle : den ≤ b ^ l) : (b : ℚ) ^ ((j : Int) - l) ≤ num / den := by
  have hb' : (b : ℚ) ≠ 0 := by exact_mod_cast hb.ne'
  rw [zpow_sub₀ hb', zpow_natCast, zpow_natCast]
  apply div_le_div₀
  · positivity
  · exact_mod_cast hnum
  · exact_mod_cast hden
  · exact_mod_cast hle

/-- The same from above. -/
theorem div_lt_zpow {j l : Nat} (hb : 0 < b) (hnum : num < b ^ j) (hle : b ^ l ≤ den) :
    (num : ℚ) / den < (b : ℚ) ^ ((j : Int) - l) := by
  have hb' : (0 : ℚ) < b := by exact_mod_cast hb
  rw [zpow_sub₀ hb'.ne', zpow_natCast, zpow_natCast]
  apply div_lt_div₀
  · exact_mod_cast hnum
  · exact_mod_cast hle
  · positivity
  · positivity

/-- **The leading bit of a quotient.** -/
theorem log2Ratio_spec (hnum : 0 < num) (hden : 0 < den) :
    (2 : ℚ) ^ log2Ratio num den ≤ num / den ∧
      (num : ℚ) / den < 2 ^ (log2Ratio num den + 1) := by
  have hbelow := zpow_le_div (b := 2) (by omega) hden (Nat.log2_self_le hnum.ne')
    (Nat.lt_log2_self (n := den)).le
  have habove := div_lt_zpow (b := 2) (by omega) (Nat.lt_log2_self (n := num))
    (Nat.log2_self_le hden.ne')
  have hguess := zpow_le_div_iff (b := 2) (by omega) num hden ((num.log2 : Int) - den.log2)
  simp only [← pow2_eq] at hguess
  push_cast at hbelow habove hguess
  unfold log2Ratio
  dsimp only
  split
  case isTrue h =>
    rw [sub_add_eq_add_sub]
    exact ⟨hguess.mpr h, habove⟩
  case isFalse h =>
    rw [sub_add_cancel, sub_sub]
    exact ⟨hbelow, lt_of_not_ge (mt hguess.mp h)⟩

end Quotients

/-! ## Between two bounds -/

/-- Below, or equal if the bound is closed. -/
def Below : Bool → ℚ → ℚ → Prop
  | true, x, y => x ≤ y
  | false, x, y => x < y

/-- Between two bounds, which are closed or are not. -/
structure Between (closed : Bool) (a b x : ℚ) : Prop where
  low : Below closed a x
  high : Below closed x b

section Between

variable {closed : Bool} {a b x y z : ℚ}

theorem Below.le (h : Below closed x y) : x ≤ y := by
  cases closed with
  | true => exact h
  | false => exact le_of_lt h

theorem Below.of_lt (h : x < y) : Below closed x y := by
  cases closed with
  | true => exact h.le
  | false => exact h

theorem Below.trans_le (h : Below closed x y) (hyz : y ≤ z) : Below closed x z := by
  cases closed with
  | true => exact le_trans h hyz
  | false => exact lt_of_lt_of_le h hyz

theorem Below.of_le (hxy : x ≤ y) (h : Below closed y z) : Below closed x z := by
  cases closed with
  | true => exact le_trans hxy h
  | false => exact lt_of_le_of_lt hxy h

theorem Below.of_not (h : ¬ Below closed x y) : y ≤ x := by
  cases closed with
  | true => exact (lt_of_not_ge h).le
  | false => exact le_of_not_gt h

/-- A positive factor changes nothing. -/
theorem below_mul_right {s : ℚ} (hs : 0 < s) : Below closed (x * s) (y * s) ↔ Below closed x y := by
  cases closed with
  | true => exact mul_le_mul_iff_of_pos_right hs
  | false => exact mul_lt_mul_iff_of_pos_right hs

/-- What lies between two such numbers is such a number. -/
theorem Between.convex (hx : Between closed a b x) (hz : Between closed a b z) (hxy : x ≤ y)
    (hyz : y ≤ z) : Between closed a b y :=
  ⟨hx.low.trans_le hxy, .of_le hyz hz.high⟩

theorem Between.mono {a' b' : ℚ} (h : Between closed a b x) (ha : a' ≤ a) (hb : b ≤ b') :
    Between closed a' b' x :=
  ⟨.of_le ha h.low, h.high.trans_le hb⟩

theorem between_mul_right {s : ℚ} (hs : 0 < s) :
    Between closed (a * s) (b * s) (x * s) ↔ Between closed a b x := by
  constructor
  · intro h
    exact ⟨(below_mul_right hs).mp h.low, (below_mul_right hs).mp h.high⟩
  · intro h
    exact ⟨(below_mul_right hs).mpr h.low, (below_mul_right hs).mpr h.high⟩

end Between

/-! ## Rounding a quotient -/

/-- What rounds to a natural number: at most a half away, and a half only from an even number. -/
def Rounds (x : ℚ) (m : Nat) : Prop := Between (decide (m % 2 = 0)) (m - 1 / 2) (m + 1 / 2) x

/-- A bound that belongs to the numbers between the bounds is closed. -/
theorem Below.closed {closed : Bool} {x y : ℚ} (h : Below closed x y) (heq : x = y) :
    closed = true := by
  cases closed with
  | true => rfl
  | false => exact absurd heq (ne_of_lt h)

theorem rest_of_half {num den j : Nat} (hden : 0 < den) (h : 2 * num = 2 * (j * den) + den) :
    2 * (num % den) = den := by
  obtain ⟨k, rfl⟩ : ∃ k, den = 2 * k := ⟨den / 2, by omega⟩
  obtain rfl : num = j * (2 * k) + k := by omega
  rw [Nat.mul_add_mod_self_right, Nat.mod_eq_of_lt (by omega)]

theorem Rounds.near {num den m : Nat} (hden : 0 < den) (h : Rounds (num / den) m) :
    2 * (m * den) ≤ 2 * num + den ∧ 2 * num ≤ 2 * (m * den) + den := by
  have hd : (0 : ℚ) < den := by exact_mod_cast hden
  have hlow := h.low.le
  have hhigh := h.high.le
  rw [le_div_iff₀ hd] at hlow
  rw [div_le_iff₀ hd] at hhigh
  have hlow' : (2 * (m * den) : ℚ) ≤ 2 * num + den := by linarith
  have hhigh' : (2 * num : ℚ) ≤ 2 * (m * den) + den := by linarith
  exact ⟨by exact_mod_cast hlow', by exact_mod_cast hhigh'⟩

/-- What lies a half away rounds to an even number only. -/
theorem Rounds.even {num den m : Nat} (hden : 0 < den) (h : Rounds (num / den) m)
    (hhalf : 2 * (m * den) = 2 * num + den ∨ 2 * num = 2 * (m * den) + den) : m % 2 = 0 := by
  have hd : (den : ℚ) ≠ 0 := by exact_mod_cast hden.ne'
  rcases hhalf with hhalf | hhalf
  · refine of_decide_eq_true (h.low.closed ?_)
    have hcast : (2 * (m * den) : ℚ) = 2 * num + den := by exact_mod_cast hhalf
    rw [eq_div_iff hd]
    linarith
  · refine of_decide_eq_true (h.high.closed ?_)
    have hcast : (2 * num : ℚ) = 2 * (m * den) + den := by exact_mod_cast hhalf
    rw [div_eq_iff hd]
    linarith

/-- **What a quotient rounds to.** -/
theorem roundDiv_eq {num den m : Nat} (hden : 0 < den) (h : Rounds (num / den) m) :
    roundDiv num den = m := by
  obtain ⟨hlow, hhigh⟩ := h.near hden
  obtain ⟨hnear, hnear'⟩ := roundDiv_near num den hden
  have heven := roundDiv_half num den
  generalize roundDiv num den = r at hnear hnear' heven
  have hle : r ≤ m + 1 := by
    apply Nat.le_of_mul_le_mul_right _ hden
    rw [Nat.add_mul]
    omega
  have hge : m ≤ r + 1 := by
    apply Nat.le_of_mul_le_mul_right _ hden
    rw [Nat.add_mul]
    omega
  -- A neighbour is as near only at a half. Then both numbers would have to be even.
  rcases Nat.lt_trichotomy r m with hlt | heq | hgt
  · obtain rfl : m = r + 1 := by omega
    have hnext : (r + 1) * den = r * den + den := Nat.succ_mul r den
    have hhalf : 2 * num = 2 * (r * den) + den := by omega
    have hm := h.even hden (.inl (by omega))
    have hr := heven (rest_of_half hden hhalf)
    omega
  · exact heq
  · obtain rfl : r = m + 1 := by omega
    have hnext : (m + 1) * den = m * den + den := Nat.succ_mul m den
    have hhalf : 2 * num = 2 * (m * den) + den := by omega
    have hm := h.even hden (.inr hhalf)
    have hr := heven (rest_of_half hden hhalf)
    omega

/-! ## The window of a double -/

/-- The numbers in a window. -/
def Window.Holds (w : Window) (x : ℚ) : Prop :=
  Between w.closed (w.lower * 2 ^ w.unit) (w.upper * 2 ^ w.unit) x

/-- How far the window of a double reaches down, in units of its last bit. -/
def reach (m : Nat) (e : Int) : ℚ := ((if m = pow2 52 ∧ -1074 < e then 1 else 2 : Nat) : ℚ) / 4

variable {m : Nat} {e : Int} {q : ℚ}

theorem reach_cases (m : Nat) (e : Int) :
    (reach m e = 1 / 4 ∧ m = 2 ^ 52 ∧ -1074 < e) ∨
      (reach m e = 1 / 2 ∧ (m ≠ 2 ^ 52 ∨ e ≤ -1074)) := by
  unfold reach
  split
  case isTrue h => exact .inl ⟨by norm_num, h⟩
  case isFalse h =>
    refine .inr ⟨by norm_num, ?_⟩
    rw [pow2_eq] at h
    omega

theorem reach_le (m : Nat) (e : Int) : reach m e ≤ 1 / 2 := by
  rcases reach_cases m e with ⟨h, -⟩ | ⟨h, -⟩ <;> rw [h]
  norm_num

/-- The ends of the window of a double, in units of its last bit. -/
theorem window_ends (hm : 0 < m) (e : Int) :
    ((Exact.window m e).lower : ℚ) * 2 ^ (Exact.window m e).unit = (m - reach m e) * 2 ^ e ∧
      ((Exact.window m e).upper : ℚ) * 2 ^ (Exact.window m e).unit = (m + 1 / 2) * 2 ^ e := by
  have hunit : (2 : ℚ) ^ (e - 2) = 2 ^ e / 4 := by
    rw [zpow_sub₀ (by norm_num)]
    norm_num
  have hgap : (if m = pow2 52 ∧ -1074 < e then 1 else 2 : Nat) ≤ 4 * m := by
    split <;> omega
  simp only [Exact.window, reach, hunit]
  rw [Nat.cast_sub hgap]
  push_cast
  constructor <;> ring

theorem window_holds (hm : 0 < m) :
    (Exact.window m e).Holds q ↔
      Between (decide (m % 2 = 0)) ((m - reach m e) * 2 ^ e) ((m + 1 / 2) * 2 ^ e) q := by
  obtain ⟨hlow, hhigh⟩ := window_ends hm e
  rw [Window.Holds, hlow, hhigh]
  rfl

/-- A positive double is in its window. -/
theorem window_self (hm : 0 < m) (e : Int) : (Exact.window m e).Holds (m * 2 ^ e) := by
  have hs : (0 : ℚ) < 2 ^ e := by positivity
  have hreach : 0 < reach m e := by
    rcases reach_cases m e with ⟨h, -⟩ | ⟨h, -⟩ <;> rw [h] <;> norm_num
  rw [window_holds hm]
  exact ⟨.of_lt (mul_lt_mul_of_pos_right (by linarith) hs),
    .of_lt (mul_lt_mul_of_pos_right (by linarith) hs)⟩

/-- What is in the window of a positive double is positive. -/
theorem pos_of_window (hm : 0 < m) (h : (Exact.window m e).Holds q) : 0 < q := by
  have hle := ((window_holds hm).mp h).low.le
  have hreach := reach_le m e
  have hone : (1 : ℚ) ≤ m := by exact_mod_cast hm
  have hpos : (0 : ℚ) < (m - reach m e) * 2 ^ e := mul_pos (by linarith) (by positivity)
  exact hpos.trans_le hle

theorem two_zpow_add (e : Int) (n : Nat) : (2 : ℚ) ^ (e + n) = 2 ^ n * 2 ^ e := by
  rw [zpow_add₀ (by norm_num), zpow_natCast, mul_comm]

/-- Only the window of a power of two reaches below all doubles with as many bits, and it does not
reach far. -/
theorem mantissa_of_below (h : (Exact.window m e).Holds q) (hm : 2 ^ 52 ≤ m)
    (hbelow : q < 2 ^ 52 * 2 ^ e) : m = 2 ^ 52 ∧ 2 ^ 51 * 2 ^ e < q := by
  have hs : (0 : ℚ) < 2 ^ e := by positivity
  have hmcast : (2 : ℚ) ^ 52 ≤ m := by exact_mod_cast hm
  have hreach := reach_le m e
  rw [window_holds (by omega)] at h
  have hlow := h.low.le
  constructor
  · have hlt : (m : ℚ) - reach m e < 2 ^ 52 := lt_of_mul_lt_mul_right (hlow.trans_lt hbelow) hs.le
    have hlt' : (m : ℚ) < 2 ^ 52 + 1 := by linarith
    have hle : m < 2 ^ 52 + 1 := by exact_mod_cast hlt'
    omega
  · refine (mul_lt_mul_of_pos_right ?_ hs).trans_le hlow
    linarith

/-- Next to a leading bit within the window of a double, the last bit is that of the double. Only
where the leading bit changes is it the one below. -/
theorem lastBit_of_window (hd : IsDouble m e) (hm : 0 < m) (h : (Exact.window m e).Holds q)
    {top : Int} (hbit : (2 : ℚ) ^ top ≤ q) (hbit' : q < 2 ^ (top + 1)) :
    lastBit top = e ∨
      (lastBit top = e - 1 ∧ m = 2 ^ 52 ∧ -1074 < e ∧ q < 2 ^ 52 * 2 ^ e) := by
  obtain ⟨hlt, hleast, -, hnormal⟩ := hd
  have hbase : (1 : ℚ) < 2 := by norm_num
  have hs : (0 : ℚ) < 2 ^ e := by positivity
  have htop : top < e + (53 : Nat) := by
    have hhigh := ((window_holds hm).mp h).high.le
    have hlt' : (m : ℚ) + 1 ≤ 2 ^ 53 := by exact_mod_cast hlt
    have hbelow : ((m : ℚ) + 1 / 2) * 2 ^ e < 2 ^ 53 * 2 ^ e :=
      mul_lt_mul_of_pos_right (by linarith) hs
    rw [← zpow_lt_zpow_iff_right₀ hbase, two_zpow_add]
    exact hbit.trans_lt (hhigh.trans_lt hbelow)
  by_cases hsame : e + 52 ≤ top ∨ e = -1074
  · left
    unfold lastBit
    split <;> omega
  · right
    have hq : q < 2 ^ 52 * 2 ^ e := by
      rw [← two_zpow_add]
      refine hbit'.trans_le (zpow_le_zpow_right₀ hbase.le ?_)
      push_cast
      omega
    obtain ⟨hm52, hfar⟩ := mantissa_of_below h (by omega) hq
    have hbelow : e + (51 : Nat) < top + 1 := by
      rw [← zpow_lt_zpow_iff_right₀ hbase, two_zpow_add]
      exact hfar.trans hbit'
    refine ⟨?_, hm52, by omega, hq⟩
    unfold lastBit
    split <;> omega

/-- A quotient in units of any bit is rounded to what it rounds to there. -/
theorem roundDiv_scaled {num den k : Nat} (hden : 0 < den) (unit : Int)
    (h : Rounds (num / den / 2 ^ unit) k) :
    roundDiv (num * pow2 (-unit).toNat) (den * pow2 unit.toNat) = k := by
  have hden' : 0 < den * pow2 unit.toNat := Nat.mul_pos hden (Nat.pow_pos (by omega))
  apply roundDiv_eq hden'
  have hscaled : ((num * pow2 (-unit).toNat : Nat) : ℚ) / (den * pow2 unit.toNat : Nat) =
      num / den / 2 ^ unit := by
    have hunit := zpow_eq_div 2 unit
    push_cast at hunit
    have hpow : ∀ n : Nat, (2 : ℚ) ^ n ≠ 0 := fun n => by positivity
    rw [hunit, pow2_eq, pow2_eq]
    push_cast
    have := hpow (-unit).toNat
    have := hpow unit.toNat
    have : (den : ℚ) ≠ 0 := by exact_mod_cast hden.ne'
    field_simp
  rw [hscaled]
  exact h

/-- In units of the last bit of a double, its window rounds to the mantissa. -/
theorem rounds_mantissa (hm : 0 < m) (h : (Exact.window m e).Holds q) : Rounds (q / 2 ^ e) m := by
  have hs : (0 : ℚ) < 2 ^ e := by positivity
  rw [window_holds hm] at h
  rw [Rounds, ← between_mul_right hs, div_mul_cancel₀ _ hs.ne']
  refine h.mono (mul_le_mul_of_nonneg_right ?_ hs.le) le_rfl
  linarith [reach_le m e]

/-- Where the window of a power of two reaches below it, the units are half as large, and so the
mantissa is twice as large. -/
theorem rounds_carry (hleast : -1074 < e) (h : (Exact.window (2 ^ 52) e).Holds q)
    (hbelow : q < 2 ^ 52 * 2 ^ e) : Rounds (q / 2 ^ (e - 1)) (2 ^ 53) := by
  have hs : (0 : ℚ) < 2 ^ (e - 1) := by positivity
  have hdouble : (2 : ℚ) ^ e = 2 ^ (e - 1) * 2 := by
    rw [← zpow_add_one₀ (by norm_num), sub_add_cancel]
  have hreach : reach (2 ^ 52) e = 1 / 4 := by
    rcases reach_cases (2 ^ 52) e with ⟨h, -⟩ | ⟨-, h⟩
    · exact h
    · omega
  have heven : decide (2 ^ 53 % 2 = 0) = true := by decide
  rw [window_holds (by omega)] at h
  have hlow := h.low.le
  rw [hreach, hdouble] at hlow
  rw [hdouble] at hbelow
  rw [Rounds, ← between_mul_right hs, div_mul_cancel₀ _ hs.ne', heven]
  push_cast at hlow ⊢
  constructor
  · show _ ≤ _
    linarith
  · show _ ≤ _
    linarith

/-- **What is in the window of a double rounds to this double.** -/
theorem magnitude?_eq {num den : Nat} (hd : IsDouble m e) (hm : 0 < m) (hden : 0 < den)
    (h : (Exact.window m e).Holds (num / den)) : magnitude? num den = some (bitsOf m e) := by
  have hnum : 0 < num := by
    apply Nat.pos_of_ne_zero
    rintro rfl
    have hpos := pos_of_window hm h
    simp at hpos
  obtain ⟨hbit, hbit'⟩ := log2Ratio_spec hnum hden
  have hbits : (lastBit (log2Ratio num den) + 1074).toNat * pow2 52 +
      roundDiv (num * pow2 (-lastBit (log2Ratio num den)).toNat)
        (den * pow2 (lastBit (log2Ratio num den)).toNat) = bitsOf m e := by
    rcases lastBit_of_window hd hm h hbit hbit' with hunit | ⟨hunit, rfl, hleast, hbelow⟩
    · rw [hunit, roundDiv_scaled hden e (rounds_mantissa hm h)]
      rfl
    · rw [hunit, roundDiv_scaled hden (e - 1) (rounds_carry hleast h hbelow), bitsOf, pow2_eq]
      omega
  unfold magnitude?
  dsimp only
  rw [if_neg hnum.ne', hbits, if_pos hd.bitsOf_lt]

/-! ## Rounding a decimal -/

/-- The windows of all positive doubles lie between these powers. -/
theorem window_bounds (hd : IsDouble m e) (hm : 0 < m) (h : (Exact.window m e).Holds q) :
    (2 : ℚ) ^ (-1075 : Int) ≤ q ∧ q < 2 ^ (1024 : Int) := by
  obtain ⟨hlt, hleast, hgreatest, -⟩ := hd
  rw [window_holds hm] at h
  have hs : (0 : ℚ) < 2 ^ e := by positivity
  constructor
  · have hone : (1 : ℚ) ≤ m := by exact_mod_cast hm
    have hhalf : (1 / 2 : ℚ) * 2 ^ e ≤ (m - reach m e) * 2 ^ e :=
      mul_le_mul_of_nonneg_right (by linarith [reach_le m e]) hs.le
    calc (2 : ℚ) ^ (-1075 : Int) ≤ 2 ^ (e - 1) := zpow_le_zpow_right₀ (by norm_num) (by omega)
      _ = 1 / 2 * 2 ^ e := by rw [zpow_sub_one₀ (by norm_num)]; ring
      _ ≤ (m - reach m e) * 2 ^ e := hhalf
      _ ≤ q := h.low.le
  · have hlt' : (m : ℚ) + 1 ≤ 2 ^ 53 := by exact_mod_cast hlt
    calc q ≤ (m + 1 / 2) * 2 ^ e := h.high.le
      _ < 2 ^ 53 * 2 ^ e := mul_lt_mul_of_pos_right (by linarith) hs
      _ = 2 ^ (e + (53 : Nat)) := (two_zpow_add e 53).symm
      _ ≤ 2 ^ (1024 : Int) := zpow_le_zpow_right₀ (by norm_num) (by push_cast; omega)

theorem two_zpow_lt_ten : (2 : ℚ) ^ (1152 : Int) < 10 ^ (351 : Int) := by
  have hbase : (2 : ℚ) ^ (128 : Int) < 10 ^ (39 : Int) := by norm_num
  have htwo : (1152 : Int) = 128 * 9 := by norm_num
  have hten : (351 : Int) = 39 * 9 := by norm_num
  rw [htwo, hten, zpow_mul, zpow_mul]
  exact zpow_lt_zpow_left₀ (by norm_num) (by positivity) hbase

/-- A decimal of that many digits is beyond all doubles. -/
theorem decimal_large {c : Nat} {n : Int} (hc : 0 < c) (h : 400 < n) :
    (2 : ℚ) ^ (1024 : Int) < c * 10 ^ n := by
  have hone : (1 : ℚ) ≤ c := by exact_mod_cast hc
  calc (2 : ℚ) ^ (1024 : Int) ≤ 2 ^ (1152 : Int) := zpow_le_zpow_right₀ (by norm_num) (by norm_num)
    _ < 10 ^ (351 : Int) := two_zpow_lt_ten
    _ ≤ 10 ^ n := zpow_le_zpow_right₀ (by norm_num) (by omega)
    _ ≤ c * 10 ^ n := le_mul_of_one_le_left (by positivity) hone

/-- A decimal with that many zeros behind the point is below all positive doubles. -/
theorem decimal_small {c : Nat} {n : Int} (h : n + (Nat.log2 c : Int) < -400) :
    (c : ℚ) * 10 ^ n < 2 ^ (-1075 : Int) := by
  have hpow : c < 2 * 10 ^ c.log2 :=
    calc c < 2 ^ (c.log2 + 1) := Nat.lt_log2_self
      _ = 2 * 2 ^ c.log2 := by rw [Nat.pow_succ, Nat.mul_comm]
      _ ≤ 2 * 10 ^ c.log2 := Nat.mul_le_mul_left 2 (Nat.pow_le_pow_left (by omega) _)
  have hdigits : (c : ℚ) < 2 * 10 ^ c.log2 := by exact_mod_cast hpow
  calc (c : ℚ) * 10 ^ n < 2 * 10 ^ c.log2 * 10 ^ n :=
        mul_lt_mul_of_pos_right hdigits (by positivity)
    _ = 2 * 10 ^ (n + c.log2) := by
        rw [zpow_add₀ (by norm_num), zpow_natCast]
        ring
    _ ≤ 2 * 10 ^ (-(351 : Int)) :=
        mul_le_mul_of_nonneg_left (zpow_le_zpow_right₀ (by norm_num) (by omega)) (by norm_num)
    _ ≤ 2 * 2 ^ (-(1152 : Int)) := by
        rw [zpow_neg, zpow_neg]
        refine mul_le_mul_of_nonneg_left ?_ (by norm_num)
        exact inv_anti₀ (by positivity) two_zpow_lt_ten.le
    _ = 2 ^ (-1151 : Int) := by rw [← zpow_one_add₀ (by norm_num)]; norm_num
    _ ≤ 2 ^ (-1075 : Int) := zpow_le_zpow_right₀ (by norm_num) (by norm_num)

theorem decimal_quotient (c : Nat) (n : Int) :
    ((c * pow10 n.toNat : Nat) : ℚ) / (pow10 (-n).toNat : Nat) = c * 10 ^ n := by
  have hten := zpow_eq_div 10 n
  push_cast at hten
  rw [hten, pow10_eq, pow10_eq]
  push_cast
  ring

/-- **What is in the window of a double rounds to this double**, also if it is given as a decimal.
The exponents that are not calculated with are out of reach of all windows. -/
theorem scaledBits_eq {c : Nat} {n : Int} (hd : IsDouble m e) (hm : 0 < m)
    (h : (Exact.window m e).Holds (c * 10 ^ n)) : scaledBits c n = bitsOf m e := by
  have hc : c ≠ 0 := by
    rintro rfl
    have hpos := pos_of_window hm h
    simp at hpos
  obtain ⟨hlow, hhigh⟩ := window_bounds hd hm h
  have hfew : ¬ 400 < n := fun hmany =>
    hhigh.not_gt (decimal_large (Nat.pos_of_ne_zero hc) hmany)
  have hnear : ¬ n + (Nat.log2 c : Int) < -400 := fun hfar => hlow.not_gt (decimal_small hfar)
  have hden : 0 < pow10 (-n).toNat := Nat.pow_pos (by omega)
  rw [← decimal_quotient] at h
  have hmagnitude := magnitude?_eq hd hm hden h
  unfold scaledBits
  rw [if_neg hc, if_neg hfew, if_neg hnear, hmagnitude, Option.getD_some]

end Slang.Number
