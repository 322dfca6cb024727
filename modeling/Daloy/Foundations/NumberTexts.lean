import Daloy.Foundations.Doubles
import Daloy.Foundations.SortedText

/-! # What the text of a number denotes

Nothing here mentions a program.

* `Quantity`: a rational, an infinity or no number at all. The two zeros are one quantity.
* `Number.text`: `String(x)`.
* `readQuantity`: a decimal, or one of the words for the other numbers.
* `readQuantity_text`: the text of a number denotes that number.
-/

namespace Daloy.Json
set_option autoImplicit false

open Daloy.Unicode Daloy.Text

/-! ## Decimals -/

theorem decimal_append_digits (s t : JsString) :
    decimal (s ++ t) = decimal s * 10 ^ t.length + decimal t := by
  induction t using List.reverseRecOn with
  | nil => simp [decimal]
  | append_singleton t u ih =>
    rw [← List.append_assoc, decimal_append, decimal_append, ih, List.length_append,
      List.length_singleton, pow_succ]
    ring

theorem decimal_zeros (n : ℕ) : decimal (List.replicate n zeroUnit) = 0 := by
  induction n with
  | zero => rfl
  | succ n ih =>
    rw [List.replicate_succ', decimal_append, ih]
    decide

/-! ## The notation of a positive number -/

namespace Numeral

def value (x : Numeral) : ℚ := decimal x.units * 10 ^ (x.point - x.units.length)

theorem isExponentMark_of_digit {u : UInt16} (h : isDigit u = true) :
    Doubles.isExponentMark u = false ∧ u ≠ Doubles.pointUnit := by
  constructor
  · rw [Doubles.isExponentMark, decide_eq_false_iff_not]
    rintro (rfl | rfl) <;> exact absurd h (by decide)
  · rintro rfl
    exact absurd h (by decide)

def Ends (tail : JsString) : Prop := tail = [] ∨ tail.head?.any Doubles.isExponentMark = true

theorem span_mark {s tail : JsString} (hs : ∀ u ∈ s, Doubles.isExponentMark u = false)
    (h : Ends tail) :
    ((s ++ tail).takeWhile fun u => !Doubles.isExponentMark u) = s ∧
      ((s ++ tail).dropWhile fun u => !Doubles.isExponentMark u) = tail := by
  refine span_append (fun u hu => by rw [hs u hu]; rfl) fun u hu => ?_
  obtain rfl | hmark := h
  · cases hu
  · rw [hu, Option.any_some] at hmark
    rw [hmark]
    rfl

theorem readUnsigned_whole {s tail : JsString} (hs : AllDigits s) (hne : s ≠ []) (h : Ends tail)
    {exponent : ℤ} (hexponent : Doubles.readExponent tail = some exponent) :
    Doubles.readUnsigned (s ++ tail) = some ((decimal s : ℚ) * 10 ^ exponent) := by
  obtain ⟨htake, hdrop⟩ := span_mark (fun u hu => (isExponentMark_of_digit (hs u hu)).1) h
  have hpoint : ∀ u ∈ s, decide (u ≠ Doubles.pointUnit) = true :=
    fun u hu => decide_eq_true (isExponentMark_of_digit (hs u hu)).2
  have hall : s.all isDigit = true := List.all_eq_true.mpr hs
  unfold Doubles.readUnsigned
  rw [htake, hdrop, hexponent]
  dsimp only
  rw [List.takeWhile_eq_self_iff.mpr hpoint, List.dropWhile_eq_nil_iff.mpr hpoint, List.drop_nil,
    List.append_nil, if_pos ⟨hne, hall⟩]
  simp

theorem readUnsigned_point {s t tail : JsString} (hs : AllDigits s) (ht : AllDigits t)
    (hne : s ++ t ≠ []) (h : Ends tail) {exponent : ℤ}
    (hexponent : Doubles.readExponent tail = some exponent) :
    Doubles.readUnsigned (s ++ pointUnit :: t ++ tail) =
      some ((decimal (s ++ t) : ℚ) * 10 ^ (exponent - t.length)) := by
  have hmark : ∀ u ∈ s ++ pointUnit :: t, Doubles.isExponentMark u = false := by
    intro u hu
    obtain hu | hu := List.mem_append.mp hu
    · exact (isExponentMark_of_digit (hs u hu)).1
    obtain rfl | hu := List.mem_cons.mp hu
    · decide
    · exact (isExponentMark_of_digit (ht u hu)).1
  obtain ⟨htake, hdrop⟩ := span_mark hmark h
  have hpoint : ∀ u ∈ s, decide (u ≠ Doubles.pointUnit) = true :=
    fun u hu => decide_eq_true (isExponentMark_of_digit (hs u hu)).2
  have hstop : ∀ u, (pointUnit :: t).head? = some u → decide (u ≠ Doubles.pointUnit) = false := by
    intro u hu
    obtain rfl := Option.some.inj hu
    decide
  obtain ⟨hwhole, hfraction⟩ := span_append hpoint hstop
  have hall : (s ++ t).all isDigit = true := List.all_eq_true.mpr (hs.append ht)
  unfold Doubles.readUnsigned
  rw [htake, hdrop, hexponent]
  dsimp only
  rw [hwhole, hfraction, List.drop_one, List.tail_cons, if_pos ⟨hne, hall⟩]
  rfl

theorem ends_exponentText (x : Numeral) : Ends x.exponentText := .inr rfl

theorem readExponent_text (x : Numeral) (h : ¬ (-5 ≤ x.point ∧ x.point ≤ 21)) :
    Doubles.readExponent x.exponentText = some (x.point - 1) := by
  have hdigits : ((decimalDigits (x.point - 1).natAbs).map digitUnit).all isDigit = true := by
    rw [List.all_map, List.all_eq_true]
    exact fun d hd => isDigit_digitUnit (decimalDigits_lt hd)
  have hne : (decimalDigits (x.point - 1).natAbs).map digitUnit ≠ [] :=
    NumberText.write_ne_nil (x.point - 1).natAbs
  rw [exponentText, Doubles.readExponent, if_neg (by simp), List.drop_one, List.tail_cons,
    Doubles.signed]
  by_cases hneg : x.point < 0
  · rw [if_pos hneg, List.head?_cons, if_pos (by decide), List.drop_one, List.tail_cons,
      if_pos ⟨hne, hdigits⟩, decimal_decimalDigits, Option.map_some]
    congr 1
    omega
  · rw [if_neg hneg, List.head?_cons, if_neg (by decide), if_pos (by decide), List.drop_one,
      List.tail_cons, if_pos ⟨hne, hdigits⟩, decimal_decimalDigits]
    congr 1
    omega

theorem readUnsigned_text (x : Numeral) : Doubles.readUnsigned x.text = some x.value := by
  have hdigits := x.allDigits_units
  have hne := x.units_ne_nil
  have hlength : 0 < x.units.length := List.length_pos_iff.mpr hne
  have hnone : Doubles.readExponent [] = some 0 := rfl
  have hten : (10 : ℚ) ≠ 0 := by norm_num
  rw [text, value]
  split
  · split
    · next hle =>
      -- an integer, with the zeros behind its digits
      have hread := readUnsigned_whole
        (hdigits.append (allDigits_zeros (x.point - x.units.length).toNat)) (by simp [hne])
        (.inl rfl) hnone
      rw [List.append_nil, decimal_append_digits, decimal_zeros, List.length_replicate] at hread
      rw [hread, add_zero, zpow_zero, mul_one, Nat.cast_mul, Nat.cast_pow, ← zpow_natCast]
      congr 3
      omega
    split
    · next hlt hpos =>
      have hread := readUnsigned_point (hdigits.take x.point.toNat) (hdigits.drop x.point.toNat)
        (by rw [List.take_append_drop]; exact hne) (.inl rfl) hnone
      rw [List.append_nil, List.take_append_drop, List.length_drop] at hread
      rw [hread]
      congr 3
      omega
    · next hlt hpos =>
      -- a fraction, with the zeros before its digits
      have hread := readUnsigned_point (s := [zeroUnit]) (allDigits_zeros 1)
        ((allDigits_zeros (-x.point).toNat).append hdigits) (by simp) (.inl rfl) hnone
      have hvalue : decimal ([zeroUnit] ++ (List.replicate (-x.point).toNat zeroUnit ++ x.units)) =
          decimal x.units := by
        rw [← List.append_assoc, decimal_append_digits]
        have hzeros := decimal_zeros ((-x.point).toNat + 1)
        rw [List.replicate_succ] at hzeros
        rw [List.singleton_append, hzeros, Nat.zero_mul, Nat.zero_add]
      rw [List.append_nil, hvalue, List.length_append, List.length_replicate,
        List.singleton_append] at hread
      rw [hread]
      congr 3
      omega
  · next hfar =>
    have hexponent := x.readExponent_text hfar
    split
    · next hone =>
      rw [readUnsigned_whole hdigits hne x.ends_exponentText hexponent, hone]
      rfl
    · next hmany =>
      have hread := readUnsigned_point (hdigits.take 1) (hdigits.drop 1)
        (by rw [List.take_append_drop]; exact hne) x.ends_exponentText hexponent
      rw [List.take_append_drop, List.length_drop, List.append_assoc, List.cons_append] at hread
      rw [hread]
      congr 3
      omega

end Numeral

theorem integerText_ne_nil (n : ℤ) : integerText n ≠ [] := by
  cases n with
  | ofNat k => exact NumberText.write_ne_nil k
  | negSucc k => exact List.cons_ne_nil _ _

/-! ## Quantities -/

inductive Quantity
  | nan
  | infinity (negative : Bool)
  | finite (value : ℚ)
  deriving DecidableEq

/-- The order of the numbers, in which `nan` has no place. -/
def Quantity.le : Quantity → Quantity → Bool
  | .nan, _ => false
  | _, .nan => false
  | .infinity true, _ => true
  | _, .infinity false => true
  | .finite x, .finite y => x ≤ y
  | _, _ => false

namespace Number

def quantity : Number → Quantity
  | .nan => .nan
  | .infinity negative => .infinity negative
  | .zero _ => .finite 0
  | .finite negative magnitude => .finite (if negative then -magnitude.value else magnitude.value)

/-- `String(x)`. -/
def text : Number → JsString
  | .nan => js "NaN"
  | .infinity negative => (if negative then [minusUnit] else []) ++ js "Infinity"
  | .zero _ => [zeroUnit]
  | .finite negative magnitude => (if negative then [minusUnit] else []) ++ magnitude.text

/-- `-x`. -/
def neg : Number → Number
  | .nan => .nan
  | .infinity negative => .infinity !negative
  | .zero negative => .zero !negative
  | .finite negative magnitude => .finite (!negative) magnitude

/-- `x < 0`. -/
def isNegative : Number → Bool
  | .infinity negative => negative
  | .finite negative _ => negative
  | _ => false

end Number

/-! ## Reading a quantity -/

def infinityWords : List JsString := [js "Inf", js "Infinity"]

def readQuantity (s : JsString) : Option Quantity :=
  let negative := s.head? = some minusUnit
  let body := if negative ∨ s.head? = some plusUnit then s.tail else s
  if s = js "NaN" then some .nan
  else if body ∈ infinityWords then some (.infinity negative)
  else (Doubles.readUnsigned body).map fun q => .finite (if negative then -q else q)

theorem digit_not_sign {u : UInt16} (h : isDigit u = true) : u ≠ minusUnit ∧ u ≠ plusUnit := by
  constructor <;> rintro rfl <;> exact absurd h (by decide)

theorem digits_ne_word {u : UInt16} {rest word : JsString} (h : isDigit u = true)
    (hword : word.head?.any isDigit = false) : u :: rest ≠ word := by
  rintro rfl
  rw [List.head?_cons, Option.any_some, h] at hword
  cases hword

theorem digits_not_infinity {u : UInt16} {rest : JsString} (h : isDigit u = true) :
    u :: rest ∉ infinityWords := by
  simp only [infinityWords, List.mem_cons, List.not_mem_nil, or_false, not_or]
  exact ⟨digits_ne_word h (by decide), digits_ne_word h (by decide)⟩

theorem readQuantity_unsigned {u : UInt16} {rest : JsString} (h : isDigit u = true) :
    readQuantity (u :: rest) = (Doubles.readUnsigned (u :: rest)).map .finite := by
  obtain ⟨hminus, hplus⟩ := digit_not_sign h
  have hnan : u :: rest ≠ js "NaN" := digits_ne_word h (by decide)
  rw [readQuantity]
  simp [hminus, hplus, hnan, digits_not_infinity h]

theorem readQuantity_minus {u : UInt16} {rest : JsString} (h : isDigit u = true) :
    readQuantity (minusUnit :: u :: rest) =
      (Doubles.readUnsigned (u :: rest)).map fun q => .finite (-q) := by
  have hnan : minusUnit :: u :: rest ≠ js "NaN" := by
    intro heq
    exact absurd (congrArg List.head? heq) (by rw [List.head?_cons]; decide)
  rw [readQuantity]
  simp [hnan, digits_not_infinity h]

theorem readQuantity_text (x : Number) : readQuantity x.text = some x.quantity := by
  cases x with
  | nan => rfl
  | infinity negative => cases negative <;> rfl
  | zero negative =>
    have hzero : Doubles.readUnsigned [zeroUnit] = some 0 := by
      have hread := Doubles.readUnsigned_write 0
      exact hread
    rw [Number.text, readQuantity_unsigned (by decide), hzero]
    rfl
  | finite negative magnitude =>
    obtain ⟨u, rest, htext, hdigit⟩ := magnitude.isDigit_head_text
    have hread := magnitude.readUnsigned_text
    cases negative with
    | false =>
      rw [Number.text, if_neg (by simp), List.nil_append, htext, readQuantity_unsigned hdigit,
        ← htext, hread]
      rfl
    | true =>
      rw [Number.text, if_pos rfl, List.singleton_append, htext, readQuantity_minus hdigit,
        ← htext, hread]
      rfl

theorem readQuantity_write (n : ℕ) : readQuantity (NumberText.write n) = some (.finite n) := by
  obtain ⟨u, rest, hwrite⟩ := List.exists_cons_of_ne_nil (NumberText.write_ne_nil n)
  have hdigit := write_digits n u (by rw [hwrite]; exact List.mem_cons_self)
  have hread := Doubles.readUnsigned_write n
  rw [hwrite] at hread ⊢
  rw [readQuantity_unsigned hdigit, hread]
  rfl

namespace Number

theorem text_head {x : Number} (h : x.isFinite = true) :
    ∃ u rest, x.text = u :: rest ∧ (isDigit u = true ∨ u = minusUnit) := by
  cases x with
  | nan => cases h
  | infinity negative => cases h
  | zero negative => exact ⟨zeroUnit, [], rfl, .inl (by decide)⟩
  | finite negative magnitude =>
    obtain ⟨u, rest, htext, hdigit⟩ := magnitude.isDigit_head_text
    cases negative with
    | false => exact ⟨u, rest, htext, .inl hdigit⟩
    | true => exact ⟨minusUnit, magnitude.text, rfl, .inr rfl⟩

def isPrinting (u : UInt16) : Bool := 0x21 ≤ u.toNat && u.toNat < 0x7B

theorem isPrinting_of_isNumberUnit {u : UInt16} (h : isNumberUnit u = true) :
    isPrinting u = true := by
  simp only [isNumberUnit, isDigit, Bool.or_eq_true, Bool.and_eq_true, decide_eq_true_eq,
    beq_iff_eq] at h
  obtain ((((h | rfl) | rfl) | rfl) | rfl) | rfl := h
  · simp only [isPrinting, Bool.and_eq_true, decide_eq_true_eq]
    omega
  all_goals decide

theorem text_printing (x : Number) : ∀ u ∈ x.text, isPrinting u = true := by
  cases x with
  | nan => decide
  | infinity negative => cases negative <;> decide
  | zero negative => cases negative <;> decide
  | finite negative magnitude =>
    intro u hu
    obtain hu | hu := List.mem_append.mp hu
    · cases negative with
      | false => cases hu
      | true =>
        obtain rfl := List.mem_singleton.mp hu
        decide
    · exact isPrinting_of_isNumberUnit (magnitude.isNumberUnit_text u hu)

theorem write_printing (n : ℕ) : ∀ u ∈ (NumberText.write n : JsString), isPrinting u = true := by
  intro u hu
  refine isPrinting_of_isNumberUnit ?_
  rw [isNumberUnit, write_digits n u hu]
  rfl

theorem text_finite_ne_zero (negative : Bool) (x : Numeral) :
    (Number.finite negative x).text ≠ [zeroUnit] := by
  cases negative with
  | false => exact x.text_ne_zero
  | true =>
    intro h
    exact absurd (List.cons.inj h).1 (by decide)

theorem normal_eq_of_text {x y : Number} (hx : x.isFinite = true) (hy : y.isFinite = true)
    (h : x.text = y.text) : x.normal = y.normal := by
  cases x with
  | nan => cases hx
  | infinity negative => cases hx
  | zero negative =>
    cases y with
    | nan => cases hy
    | infinity negative' => cases hy
    | zero negative' => rfl
    | finite negative' y => exact absurd h.symm (text_finite_ne_zero negative' y)
  | finite negative x =>
    cases y with
    | nan => cases hy
    | infinity negative' => cases hy
    | zero negative' => exact absurd h (text_finite_ne_zero negative x)
    | finite negative' y =>
      obtain ⟨rfl, rfl⟩ := numberText_injective (h : (Leaf.number negative x).text = _)
      rfl

end Number

end Daloy.Json
