import Daloy.Foundations.NumberTexts

/-! # Arithmetic on doubles

Nothing here mentions a program. The sign of a zero is not kept.

* `Quantity.add`, `sub`, `mul`, `twoTo`: the operations, with one rounding each.
* `Quantity.jsMin`, `luaMin`, `luaMax`: they differ when there is no number.
* `add_int`, `sub_int`, `lt_int`: on small integers they are those of the integers.
* `luaMin_scaled`: a small cap on a number that doubles is met as if no number were rounded.
-/

namespace Daloy.Json.Quantity
set_option autoImplicit false

open Daloy.Doubles

/-! ## Operations -/

def rounded (x : ℚ) : Quantity :=
  match toDouble x with
  | some y => .finite y
  | none => .infinity (x < 0)

def neg : Quantity → Quantity
  | .nan => .nan
  | .infinity negative => .infinity !negative
  | .finite x => .finite (-x)

def add : Quantity → Quantity → Quantity
  | .nan, _ | _, .nan => .nan
  | .infinity a, .infinity b => if a = b then .infinity a else .nan
  | .infinity a, .finite _ | .finite _, .infinity a => .infinity a
  | .finite x, .finite y => rounded (x + y)

def sub (x y : Quantity) : Quantity := add x (neg y)

def mul : Quantity → Quantity → Quantity
  | .nan, _ | _, .nan => .nan
  | .infinity a, .infinity b => .infinity (a != b)
  | .infinity a, .finite x | .finite x, .infinity a =>
    if x = 0 then .nan else .infinity (a != decide (x < 0))
  | .finite x, .finite y => rounded (x * y)

def twoTo : Quantity → Quantity
  | .nan => .nan
  | .infinity negative => if negative then .finite 0 else .infinity false
  | .finite x => rounded (2 ^ ⌊x⌋)

def lt (x y : Quantity) : Bool := x.le y && !y.le x

/-- `Math.min(x, y)`. -/
def jsMin (x y : Quantity) : Quantity :=
  if x = .nan ∨ y = .nan then .nan else if y.lt x then y else x

def luaMin (x y : Quantity) : Quantity := if y.lt x then y else x

def luaMax (x y : Quantity) : Quantity := if x.lt y then y else x

/-! ## Small integers -/

def int (n : ℤ) : Quantity := .finite n

variable {m n : ℤ}

-- by `delta`: the equation of `rounded` evaluates its comparison
theorem rounded_eq (x : ℚ) :
    rounded x =
      if |nearest x| < 2 ^ 1024 then .finite (nearest x) else .infinity (x < 0) := by
  delta rounded toDouble
  by_cases h : |nearest x| < 2 ^ 1024
  · rw [if_pos h, if_pos h]
  · rw [if_neg h, if_neg h]

theorem rounded_int (h : |n| ≤ maxSafe) : rounded n = int n := by
  have hdouble := toDouble_int h
  delta rounded
  rw [hdouble, int]

theorem neg_int (n : ℤ) : neg (int n) = int (-n) := by
  rw [int, int, neg]
  push_cast
  rfl

theorem add_int (h : |m + n| ≤ maxSafe) : add (int m) (int n) = int (m + n) := by
  have hrounded := rounded_int h
  push_cast at hrounded
  exact hrounded

theorem sub_int (h : |m - n| ≤ maxSafe) : sub (int m) (int n) = int (m - n) := by
  rw [sub, neg_int, add_int (by rwa [← sub_eq_add_neg]), ← sub_eq_add_neg]

theorem le_int : (int m).le (int n) = decide (m ≤ n) := by
  rw [int, int, le]
  simp

theorem lt_int : (int m).lt (int n) = decide (m < n) := by
  rw [lt, le_int, le_int]
  by_cases h : m < n
  · have hle : m ≤ n := by omega
    have hnot : ¬ n ≤ m := by omega
    simp [h, hle, hnot]
  · have hle : n ≤ m := by omega
    simp [h, hle]

theorem luaMax_int : luaMax (int m) (int n) = int (max m n) := by
  rw [luaMax, lt_int]
  by_cases h : m < n
  · rw [if_pos (decide_eq_true h), max_eq_right (by omega)]
  · rw [if_neg (by simpa using h), max_eq_left (by omega)]

theorem luaMin_int : luaMin (int m) (int n) = int (min m n) := by
  rw [luaMin, lt_int]
  by_cases h : n < m
  · rw [if_pos (decide_eq_true h), min_eq_right (by omega)]
  · rw [if_neg (by simpa using h), min_eq_left (by omega)]

/-! ## Rounding beside a double -/

def IsDouble (x : ℚ) : Prop := toDouble x = some x

theorem IsDouble.spec {x : ℚ} (h : IsDouble x) : nearest x = x ∧ |x| < 2 ^ 1024 := by
  rw [IsDouble, toDouble] at h
  split at h
  · rename_i hsmall
    have hnearest := Option.some.inj h
    rw [hnearest] at hsmall
    exact ⟨hnearest, hsmall⟩
  · cases h

theorem nearest_zero : nearest 0 = 0 := by
  exact_mod_cast nearest_int (n := 0) (by norm_num)

theorem le_rounded {x y : ℚ} (hx : IsDouble x) (h : x ≤ y) : (finite x).le (rounded y) = true := by
  obtain ⟨hnearest, hsmall⟩ := hx.spec
  have hle := le_nearest hnearest h
  rw [rounded_eq]
  split_ifs with hfits
  · exact decide_eq_true hle
  · have hlarge : 0 < nearest y := by
      by_contra hneg
      rw [abs_of_nonpos (not_lt.mp hneg)] at hfits
      have hbelow := (abs_lt.mp hsmall).1
      linarith
    have hpos : ¬ y < 0 := fun hy => absurd (nearest_le nearest_zero hy.le) (not_le.mpr hlarge)
    simp only [hpos, decide_false]
    rfl

theorem rounded_le {x y : ℚ} (hx : IsDouble x) (h : y ≤ x) : (rounded y).le (finite x) = true := by
  obtain ⟨hnearest, hsmall⟩ := hx.spec
  have hle := nearest_le hnearest h
  rw [rounded_eq]
  split_ifs with hfits
  · exact decide_eq_true hle
  · have hlarge : nearest y < 0 := by
      by_contra hnonneg
      rw [abs_of_nonneg (not_lt.mp hnonneg)] at hfits
      have habove := (abs_lt.mp hsmall).2
      linarith
    have hneg : y < 0 := by
      by_contra hy
      exact absurd (le_nearest nearest_zero (not_lt.mp hy)) (not_le.mpr hlarge)
    simp only [hneg, decide_true]
    rfl

/-! ## Scaled by a power of two -/

def Large : Quantity → Prop
  | .nan => False
  | .infinity negative => negative = false
  | .finite x => (2 : ℚ) ^ 53 ≤ x

theorem large_rounded {x : ℚ} (h : (2 : ℚ) ^ 53 ≤ x) : (rounded x).Large := by
  have hpos : 0 < x := lt_of_lt_of_le (by norm_num) h
  have hnearest := nearest_of_large (x := x) (by rwa [abs_of_pos hpos])
  rw [abs_of_nonneg (nearest_nonneg hpos.le)] at hnearest
  rw [rounded_eq]
  by_cases hfinite : |nearest x| < 2 ^ 1024
  · rw [if_pos hfinite]
    exact hnearest
  · rw [if_neg hfinite]
    exact decide_eq_false (by linarith)

theorem luaMin_large {x : Quantity} (hn : |n| ≤ maxSafe) (hx : x.Large) : luaMin (int n) x = int n := by
  have hcap : (n : ℚ) < 2 ^ 53 := by
    have hlt : n < 2 ^ 53 := by
      have hle := (abs_le.mp hn).2
      unfold maxSafe at hle
      omega
    exact_mod_cast hlt
  rw [luaMin, if_neg]
  cases x with
  | nan => exact absurd hx id
  | infinity negative =>
    obtain rfl : negative = false := hx
    simp [lt, int, le]
  | finite y =>
    have hy : (2 : ℚ) ^ 53 ≤ y := hx
    have hnot : ¬ y ≤ (n : ℚ) := by linarith
    simp [lt, int, le, hnot]

theorem twoTo_overflow {k : ℕ} (h : 1024 ≤ k) : twoTo (int k) = .infinity false := by
  have hpow : (2 : ℚ) ^ 1024 ≤ 2 ^ k := pow_le_pow_right₀ (by norm_num) h
  have hlarge : ¬ |(2 : ℚ) ^ k| < 2 ^ 1024 := by
    rw [abs_of_pos (by positivity)]
    exact not_lt.mpr hpow
  have hpower : twoTo (int k) = rounded (2 ^ k) := by
    rw [int, twoTo]
    simp
  have hpos : ¬ (2 : ℚ) ^ k < 0 := not_lt.mpr (by positivity)
  rw [hpower, rounded_eq, nearest_twoPow, if_neg hlarge]
  exact congrArg _ (decide_eq_false hpos)

theorem mul_twoTo (hpos : 0 < m) (k : ℕ) :
    mul (int m) (twoTo (int k)) = int (m * 2 ^ k) ∧ |m * 2 ^ k| ≤ maxSafe ∨
      (mul (int m) (twoTo (int k))).Large ∧ maxSafe < m * 2 ^ k := by
  have hone : (1 : ℚ) ≤ (m : ℚ) := by exact_mod_cast hpos
  have hpower : (twoTo (int k)) = rounded (2 ^ k) := by
    rw [int, twoTo]
    simp
  have hnonneg : 0 ≤ m * 2 ^ k := by positivity
  rw [hpower]
  by_cases hsmall : m * 2 ^ k ≤ maxSafe
  · have hle : (2 : ℤ) ^ k ≤ m * 2 ^ k := le_mul_of_one_le_left (by positivity) hpos
    have hexact : rounded (2 ^ k) = int (2 ^ k) := by
      have hcast := rounded_int (n := 2 ^ k) (by
        rw [abs_of_nonneg (by positivity)]
        omega)
      push_cast at hcast
      exact hcast
    refine .inl ⟨?_, by rwa [abs_of_nonneg hnonneg]⟩
    rw [hexact, int, int, mul, ← Int.cast_mul]
    exact rounded_int (by rwa [abs_of_nonneg hnonneg])
  · refine .inr ⟨?_, by omega⟩
    have hlarge : (2 : ℚ) ^ 53 ≤ m * 2 ^ k := by
      have hint : (2 : ℤ) ^ 53 ≤ m * 2 ^ k := by
        unfold maxSafe at hsmall
        omega
      exact_mod_cast hint
    rw [rounded_eq, nearest_twoPow]
    by_cases hfinite : |(2 : ℚ) ^ k| < 2 ^ 1024
    · rw [if_pos hfinite, int, mul]
      exact large_rounded hlarge
    · rw [if_neg hfinite, int]
      dsimp only [mul]
      have hne : (m : ℚ) ≠ 0 := by linarith
      have hnot : ¬ (m : ℚ) < 0 := by linarith
      have hpow : ¬ (2 : ℚ) ^ k < 0 := not_lt.mpr (by positivity)
      rw [if_neg hne]
      simp [Large, hnot, hpow]

theorem luaMin_scaled (hpos : 0 < m) (hn : |n| ≤ maxSafe) (k : ℕ) :
    luaMin (int n) (mul (int m) (twoTo (int k))) = int (min n (m * 2 ^ k)) := by
  obtain ⟨hexact, -⟩ | ⟨hlarge, hlt⟩ := mul_twoTo hpos k
  · rw [hexact, luaMin_int]
  · rw [luaMin_large hn hlarge, min_eq_left]
    have hle := (abs_le.mp hn).2
    omega

end Daloy.Json.Quantity
