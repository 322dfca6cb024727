import Daloy.Foundations.Text
import Daloy.Foundations.UriComponent
import Mathlib.Data.Int.Log
import Mathlib.Data.Rat.Floor
import Mathlib.Tactic.Linarith
import Mathlib.Tactic.NormNum
import Mathlib.Tactic.FieldSimp

/-! # Doubles and their texts

Nothing here mentions a program. A number of the language is a rational, or `none` where it is not
finite; both zeros are one.

* `nearest`: the nearest double, ties to even. `nearest_int`: a small integer is a double.
* `number`: `Number(text)`. `number_integerText`: on the text of an integer.
-/

namespace Daloy.Doubles
set_option autoImplicit false

open Daloy.Json Daloy.Text Daloy.Unicode

/-! ## Rounding -/

/-- An integer next to `x`, the even one of two at the same distance. -/
def roundEven (x : ℚ) : ℤ :=
  if x - ⌊x⌋ < 1 / 2 ∨ x - ⌊x⌋ = 1 / 2 ∧ ⌊x⌋ % 2 = 0 then ⌊x⌋ else ⌊x⌋ + 1

/-- The exponent of the last bit of the doubles around `x`. -/
def lastBit (x : ℚ) : ℤ := max (Int.log 2 |x| - 52) (-1074)

def nearest (x : ℚ) : ℚ := roundEven (x / 2 ^ lastBit x) * 2 ^ lastBit x

/-- The number that `x` is rounded to. -/
def toDouble (x : ℚ) : Option ℚ := if |nearest x| < 2 ^ 1024 then some (nearest x) else none

/-- `Number.MAX_SAFE_INTEGER`. -/
def maxSafe : ℤ := 9007199254740991

def isSafeInteger (x : Option ℚ) : Bool := x.any fun (q : ℚ) => q.den = 1 ∧ |q| ≤ maxSafe

theorem roundEven_int (n : ℤ) : roundEven n = n := by
  have hrest : (n : ℚ) - ⌊(n : ℚ)⌋ < 1 / 2 := by
    rw [Int.floor_intCast]
    norm_num
  rw [roundEven, if_pos (.inl hrest), Int.floor_intCast]

theorem le_roundEven {k : ℤ} {x : ℚ} (h : (k : ℚ) ≤ x) : k ≤ roundEven x := by
  have hfloor : k ≤ ⌊x⌋ := Int.le_floor.mpr h
  unfold roundEven
  split
  · exact hfloor
  · omega

theorem roundEven_le {k : ℤ} {x : ℚ} (h : x ≤ (k : ℚ)) : roundEven x ≤ k := by
  obtain rfl | hlt := eq_or_lt_of_le h
  · rw [roundEven_int]
  · have hfloor : ⌊x⌋ < k := Int.floor_lt.mpr hlt
    unfold roundEven
    split
    · omega
    · omega

theorem nearest_int {n : ℤ} (h : |n| < 2 ^ 53) : nearest n = n := by
  have hbit : lastBit n ≤ 0 := by
    rw [lastBit, max_le_iff]
    refine ⟨?_, by omega⟩
    by_cases hzero : n = 0
    · simp [hzero]
    · have hpos : (0 : ℚ) < |(n : ℚ)| := abs_pos.mpr (Int.cast_ne_zero.mpr hzero)
      have hlt : |(n : ℚ)| < 2 ^ (53 : ℤ) := by exact_mod_cast h
      have hlog : Int.log 2 |(n : ℚ)| < 53 := (Int.lt_zpow_iff_log_lt one_lt_two hpos).mp hlt
      omega
  obtain ⟨k, hk⟩ : ∃ k : ℕ, lastBit n = -(k : ℤ) := ⟨(-lastBit n).toNat, by omega⟩
  have hscaled : (n : ℚ) / 2 ^ lastBit n = ((n * 2 ^ k : ℤ) : ℚ) := by
    rw [hk, zpow_neg, zpow_natCast, div_inv_eq_mul]
    push_cast
    rfl
  rw [nearest, hscaled, roundEven_int, hk, zpow_neg, zpow_natCast]
  push_cast
  field_simp

theorem lastBit_large {x : ℚ} (h : 2 ^ 53 ≤ |x|) :
    (2 : ℚ) ≤ 2 ^ lastBit x ∧ (2 : ℚ) ^ 52 * 2 ^ lastBit x ≤ |x| := by
  have hlarge : (2 : ℚ) ^ (53 : ℤ) ≤ |x| := by exact_mod_cast h
  have hpos : 0 < |x| := lt_of_lt_of_le (by norm_num) hlarge
  have hlog : 53 ≤ Int.log 2 |x| := (Int.zpow_le_iff_le_log one_lt_two hpos).mp hlarge
  have hbit : lastBit x = Int.log 2 |x| - 52 := by
    rw [lastBit, max_eq_left (by omega)]
  rw [hbit]
  constructor
  · calc (2 : ℚ) = 2 ^ (1 : ℤ) := by norm_num
      _ ≤ 2 ^ (Int.log 2 |x| - 52) := zpow_le_zpow_right₀ (by norm_num) (by omega)
  · calc (2 : ℚ) ^ 52 * 2 ^ (Int.log 2 |x| - 52)
        = 2 ^ ((52 : ℤ) + (Int.log 2 |x| - 52)) := by
          rw [zpow_add₀ (by norm_num)]
          norm_num
      _ = 2 ^ Int.log 2 |x| := by ring_nf
      _ ≤ |x| := by exact_mod_cast Int.zpow_log_le_self one_lt_two hpos

theorem nearest_of_large {x : ℚ} (h : 2 ^ 53 ≤ |x|) : (2 : ℚ) ^ 53 ≤ |nearest x| := by
  obtain ⟨htwo, hscale⟩ := lastBit_large h
  have hpos : (0 : ℚ) < 2 ^ lastBit x := by linarith
  have hround : (2 : ℤ) ^ 52 ≤ |roundEven (x / 2 ^ lastBit x)| := by
    obtain habs | habs := abs_choice x
    · rw [habs] at hscale
      refine le_trans (le_roundEven ?_) (le_abs_self _)
      rw [le_div_iff₀ hpos]
      exact_mod_cast hscale
    · rw [habs] at hscale
      refine le_trans ?_ (neg_le_abs _)
      have hle : roundEven (x / 2 ^ lastBit x) ≤ -2 ^ 52 := by
        apply roundEven_le
        rw [div_le_iff₀ hpos]
        push_cast
        linarith
      omega
  have hcast : (2 : ℚ) ^ 52 ≤ |(roundEven (x / 2 ^ lastBit x) : ℚ)| := by exact_mod_cast hround
  calc (2 : ℚ) ^ 53 = 2 ^ 52 * 2 := by norm_num
    _ ≤ |(roundEven (x / 2 ^ lastBit x) : ℚ)| * 2 ^ lastBit x :=
      mul_le_mul hcast htwo (by norm_num) (abs_nonneg _)
    _ = |nearest x| := by rw [nearest, abs_mul, abs_of_pos hpos]

theorem nearest_large {n : ℤ} (h : 2 ^ 53 ≤ |n|) : (2 : ℚ) ^ 53 ≤ |nearest n| :=
  nearest_of_large (by exact_mod_cast h)

theorem nearest_twoPow (k : ℕ) : nearest (2 ^ k) = 2 ^ k := by
  have hlog : Int.log 2 |(2 : ℚ) ^ k| = k := by
    have hpos : |(2 : ℚ) ^ k| = ((2 : ℕ) : ℚ) ^ (k : ℤ) := by
      rw [abs_of_pos (by positivity), zpow_natCast]
      rfl
    rw [hpos, Int.log_zpow one_lt_two]
  have hbit : lastBit (2 ^ k) = (k : ℤ) - 52 := by
    rw [lastBit, hlog, max_eq_left (by omega)]
  have hscaled : (2 : ℚ) ^ k / 2 ^ ((k : ℤ) - 52) = ((2 ^ 52 : ℤ) : ℚ) := by
    rw [← zpow_natCast, ← zpow_sub₀ (by norm_num)]
    norm_num
  rw [nearest, hbit, hscaled, roundEven_int, ← hscaled, div_mul_cancel₀]
  exact zpow_ne_zero _ (by norm_num)

/-- The scale of a number compared with that of a double: a double between zero and the number, or a
smaller one, is a multiple of the last bit or no more than half as far away. -/
theorem double_scale {x y : ℚ} (hx : nearest x = x) (hy : y ≠ 0) :
    (∃ k : ℤ, x = k * 2 ^ lastBit y) ∨
      |x| < 2 ^ (52 : ℕ) * 2 ^ lastBit y ∧ 2 ^ (52 : ℕ) * 2 ^ lastBit y ≤ |y| := by
  have htwo : (2 : ℚ) ≠ 0 := by norm_num
  obtain hle | hlt := le_or_gt (lastBit y) (lastBit x)
  · left
    obtain ⟨j, hj⟩ : ∃ j : ℕ, lastBit x = lastBit y + j :=
      ⟨(lastBit x - lastBit y).toNat, by omega⟩
    refine ⟨roundEven (x / 2 ^ lastBit x) * 2 ^ j, ?_⟩
    have hpow : (2 : ℚ) ^ lastBit x = 2 ^ j * 2 ^ lastBit y := by
      rw [hj, zpow_add₀ htwo, zpow_natCast, mul_comm]
    calc x = roundEven (x / 2 ^ lastBit x) * 2 ^ lastBit x := hx.symm
      _ = (roundEven (x / 2 ^ lastBit x) * 2 ^ j : ℤ) * 2 ^ lastBit y := by
        rw [hpow]
        push_cast
        ring
  · right
    have hlow : -1074 ≤ lastBit x := le_max_right _ _
    have hlogy : lastBit y = Int.log 2 |y| - 52 := by
      have hbit : lastBit y = max (Int.log 2 |y| - 52) (-1074) := rfl
      omega
    have hscale : (2 : ℚ) ^ (52 : ℕ) * 2 ^ lastBit y = 2 ^ Int.log 2 |y| := by
      rw [hlogy, ← zpow_natCast, ← zpow_add₀ htwo]
      norm_num
    refine ⟨?_, ?_⟩
    · rw [hscale]
      obtain rfl | hne := eq_or_ne x 0
      · rw [abs_zero]
        exact zpow_pos (by norm_num) _
      · have hlogx : Int.log 2 |x| + 1 ≤ Int.log 2 |y| := by
          have hbit : Int.log 2 |x| - 52 ≤ lastBit x := le_max_left _ _
          omega
        calc |x| < ((2 : ℕ) : ℚ) ^ (Int.log 2 |x| + 1) := Int.lt_zpow_succ_log_self one_lt_two _
          _ ≤ 2 ^ Int.log 2 |y| := zpow_le_zpow_right₀ (by norm_num) hlogx
    · rw [hscale]
      exact_mod_cast Int.zpow_log_le_self one_lt_two (abs_pos.mpr hy)

theorem le_nearest {x y : ℚ} (hx : nearest x = x) (h : x ≤ y) : x ≤ nearest y := by
  have hpos : (0 : ℚ) < 2 ^ lastBit y := zpow_pos (by norm_num) _
  obtain rfl | hy := eq_or_ne y 0
  · have hzero : nearest (0 : ℚ) = 0 := by exact_mod_cast nearest_int (n := 0) (by norm_num)
    rwa [hzero]
  obtain ⟨k, hk⟩ | ⟨hsmall, hlarge⟩ := double_scale hx hy
  · have hround : k ≤ roundEven (y / 2 ^ lastBit y) := by
      apply le_roundEven
      rw [le_div_iff₀ hpos, ← hk]
      exact h
    rw [hk, nearest]
    exact mul_le_mul_of_nonneg_right (by exact_mod_cast hround) hpos.le
  · have hposy : 0 < y := by
      by_contra hneg
      have habs : |y| ≤ |x| := by
        rw [abs_of_nonpos (not_lt.mp hneg), abs_of_nonpos (h.trans (not_lt.mp hneg))]
        exact neg_le_neg h
      linarith
    have hround : (2 : ℤ) ^ 52 ≤ roundEven (y / 2 ^ lastBit y) := by
      apply le_roundEven
      rw [le_div_iff₀ hpos]
      push_cast
      rwa [abs_of_pos hposy] at hlarge
    have hscaled : (2 : ℚ) ^ (52 : ℕ) * 2 ^ lastBit y ≤ nearest y := by
      rw [nearest]
      exact mul_le_mul_of_nonneg_right (by exact_mod_cast hround) hpos.le
    exact (le_abs_self x).trans (hsmall.le.trans hscaled)

theorem nearest_le {x y : ℚ} (hx : nearest x = x) (h : y ≤ x) : nearest y ≤ x := by
  have hpos : (0 : ℚ) < 2 ^ lastBit y := zpow_pos (by norm_num) _
  obtain rfl | hy := eq_or_ne y 0
  · have hzero : nearest (0 : ℚ) = 0 := by exact_mod_cast nearest_int (n := 0) (by norm_num)
    rwa [hzero]
  obtain ⟨k, hk⟩ | ⟨hsmall, hlarge⟩ := double_scale hx hy
  · have hround : roundEven (y / 2 ^ lastBit y) ≤ k := by
      apply roundEven_le
      rw [div_le_iff₀ hpos, ← hk]
      exact h
    rw [hk, nearest]
    exact mul_le_mul_of_nonneg_right (by exact_mod_cast hround) hpos.le
  · have hnegy : y < 0 := by
      by_contra hnonneg
      have habs : |y| ≤ |x| := by
        rw [abs_of_nonneg (not_lt.mp hnonneg), abs_of_nonneg ((not_lt.mp hnonneg).trans h)]
        exact h
      linarith
    have hround : roundEven (y / 2 ^ lastBit y) ≤ -2 ^ 52 := by
      apply roundEven_le
      rw [div_le_iff₀ hpos]
      push_cast
      rw [abs_of_neg hnegy] at hlarge
      linarith
    have hscaled : nearest y ≤ -2 ^ (52 : ℕ) * 2 ^ lastBit y := by
      rw [nearest]
      exact mul_le_mul_of_nonneg_right (by exact_mod_cast hround) hpos.le
    have hbelow := neg_abs_le x
    linarith

theorem nearest_nonneg {x : ℚ} (h : 0 ≤ x) : 0 ≤ nearest x := by
  have hscale : (0 : ℚ) < 2 ^ lastBit x := zpow_pos (by norm_num) _
  have hround : 0 ≤ roundEven (x / 2 ^ lastBit x) := by
    apply le_roundEven
    rw [Int.cast_zero]
    exact div_nonneg h hscale.le
  exact mul_nonneg (Int.cast_nonneg hround) hscale.le

theorem toDouble_int {n : ℤ} (h : |n| ≤ maxSafe) : toDouble n = some (n : ℚ) := by
  have hsmall : |n| < 2 ^ 53 := by
    unfold maxSafe at h
    omega
  have hcast : |(n : ℚ)| < 2 ^ 53 := by exact_mod_cast hsmall
  rw [toDouble, nearest_int hsmall,
    if_pos (lt_trans hcast (pow_lt_pow_right₀ (by norm_num) (by omega)))]

theorem isSafeInteger_toDouble (n : ℤ) : isSafeInteger (toDouble n) = true ↔ |n| ≤ maxSafe := by
  constructor
  · intro h
    by_contra hlarge
    have hnearest : (2 : ℚ) ^ 53 ≤ |nearest n| := nearest_large (by
      unfold maxSafe at hlarge
      omega)
    rw [isSafeInteger, toDouble] at h
    split at h
    · simp only [Option.any_some, decide_eq_true_eq] at h
      have hsafe := h.2
      unfold maxSafe at hsafe
      norm_num at hsafe hnearest
      linarith
    · simp at h
  · intro h
    rw [toDouble_int h, isSafeInteger]
    simp only [Option.any_some, Rat.den_intCast, decide_eq_true_eq, true_and]
    exact_mod_cast h

/-! ## Texts -/

def radixValue (radix : ℕ) (digits : JsString) : Option ℕ :=
  if digits = [] then none
  else digits.foldlM (fun n u =>
    ((hexDigit u).filter (· < radix)).map fun d => n * radix + d) 0

def radixOf (s : JsString) : Option ℕ :=
  if s.take 2 = js "0x" ∨ s.take 2 = js "0X" then some 16
  else if s.take 2 = js "0o" ∨ s.take 2 = js "0O" then some 8
  else if s.take 2 = js "0b" ∨ s.take 2 = js "0B" then some 2
  else none

def plusUnit : UInt16 := 0x2B
def pointUnit : UInt16 := 0x2E

/-- `e` or `E`. -/
def isExponentMark (u : UInt16) : Bool := u = 0x65 ∨ u = 0x45

def signed {α : Type} [Neg α] (unsigned : JsString → Option α) (s : JsString) : Option α :=
  if s.head? = some minus then (unsigned (s.drop 1)).map fun x => -x
  else if s.head? = some plusUnit then unsigned (s.drop 1)
  else unsigned s

def readExponent (s : JsString) : Option ℤ :=
  if s = [] then some 0
  else signed (fun digits =>
    if digits ≠ [] ∧ digits.all isDigit then some (decimal digits : ℤ) else none) (s.drop 1)

def readUnsigned (s : JsString) : Option ℚ :=
  let mantissa := s.takeWhile fun u => !isExponentMark u
  let whole := mantissa.takeWhile (· ≠ pointUnit)
  let fraction := (mantissa.dropWhile (· ≠ pointUnit)).drop 1
  if whole ++ fraction ≠ [] ∧ (whole ++ fraction).all isDigit then
    (readExponent (s.dropWhile fun u => !isExponentMark u)).map fun (exponent : ℤ) =>
      (decimal (whole ++ fraction) : ℚ) * 10 ^ (exponent - fraction.length)
  else none

/-- The numeral that a text is but for the blanks around it; the empty one is zero. -/
def numeral (text : JsString) : Option ℚ :=
  if trim text = [] then some 0
  else match radixOf (trim text) with
    | some radix => (radixValue radix ((trim text).drop 2)).map Nat.cast
    | none => signed readUnsigned (trim text)

def number (text : JsString) : Option ℚ := (numeral text).bind toDouble

theorem readUnsigned_write (n : ℕ) : readUnsigned (NumberText.write n) = some (n : ℚ) := by
  have hdigits : (NumberText.write n : JsString).all isDigit = true :=
    List.all_eq_true.mpr (write_digits n)
  have hunits : ∀ u ∈ (NumberText.write n : JsString), isExponentMark u = false ∧ u ≠ pointUnit := by
    have hdigit : ∀ d : Fin 10, isExponentMark (digitUnit d) = false ∧ digitUnit d ≠ pointUnit := by
      decide
    intro u hu
    obtain ⟨d, hd, rfl⟩ := List.mem_map.mp hu
    exact hdigit ⟨d, decimalDigits_lt hd⟩
  have hmark : ∀ u ∈ (NumberText.write n : JsString), (!isExponentMark u) = true := by
    intro u hu
    rw [(hunits u hu).1]
    rfl
  have hpoint : ∀ u ∈ (NumberText.write n : JsString), decide (u ≠ pointUnit) = true := by
    intro u hu
    exact decide_eq_true (hunits u hu).2
  have hvalue : decimal (NumberText.write n) = n := decimal_decimalDigits n
  unfold readUnsigned
  rw [List.takeWhile_eq_self_iff.mpr hmark, List.dropWhile_eq_nil_iff.mpr hmark]
  dsimp only
  rw [List.takeWhile_eq_self_iff.mpr hpoint, List.dropWhile_eq_nil_iff.mpr hpoint, List.drop_nil,
    List.append_nil, if_pos ⟨NumberText.write_ne_nil n, hdigits⟩, readExponent, if_pos rfl, hvalue]
  simp

theorem number_integerText (n : ℤ) : number (integerText n) = toDouble n := by
  have hblank : ∀ u ∈ integerText n, isWhitespace u = false := by
    cases n with
    | ofNat k => exact write_not_whitespace k
    | negSucc k => exact List.forall_mem_cons.mpr ⟨by decide, write_not_whitespace (k + 1)⟩
  have hletter : ∀ v ∈ [js "0x", js "0X", js "0o", js "0O", js "0b", js "0B"],
      (integerText n).take 2 ≠ v := by
    have hdigits : ∀ v ∈ [js "0x", js "0X", js "0o", js "0O", js "0b", js "0B"],
        ∃ u ∈ v, isDigit u = false ∧ u ≠ minus := by
      decide
    intro v hv heq
    obtain ⟨u, hu, hdigit, hminus⟩ := hdigits v hv
    have hmem : u ∈ integerText n := List.mem_of_mem_take (heq ▸ hu)
    cases n with
    | ofNat k => exact absurd (write_digits k u hmem) (by simp [hdigit])
    | negSucc k =>
      obtain rfl | hmem := List.mem_cons.mp hmem
      · exact hminus rfl
      · exact absurd (write_digits (k + 1) u hmem) (by simp [hdigit])
  have hradix : radixOf (integerText n) = none := by
    simp only [List.forall_mem_cons] at hletter
    simp [radixOf, hletter]
  have hne : integerText n ≠ [] := by
    cases n with
    | ofNat k => exact NumberText.write_ne_nil k
    | negSucc k => exact List.cons_ne_nil _ _
  have hsigned : signed readUnsigned (integerText n) = some (n : ℚ) := by
    cases n with
    | ofNat k =>
      have hhead : ∀ v ∈ [minus, plusUnit], (NumberText.write k : JsString).head? ≠ some v := by
        have hno : ∀ v ∈ [minus, plusUnit], isDigit v = false := by decide
        intro v hv heq
        have hdigit := write_digits k v (List.mem_of_mem_head? heq)
        rw [hno v hv] at hdigit
        exact Bool.false_ne_true hdigit
      rw [integerText, signed, if_neg (hhead _ (by simp)), if_neg (hhead _ (by simp)),
        readUnsigned_write]
      rfl
    | negSucc k =>
      rw [integerText, signed, List.head?_cons, if_pos rfl, List.drop_one, List.tail_cons,
        readUnsigned_write, Int.cast_negSucc]
      rfl
  rw [number, numeral, trim_of_no_blank hblank, if_neg hne, hradix]
  dsimp only
  rw [hsigned]
  rfl

end Daloy.Doubles
