import Daloy.Foundations.Json
import Mathlib.Algebra.Order.Ring.Int
import Mathlib.Data.List.Basic
import Mathlib.Data.List.TakeWhile

/-! # Numbers and their texts

Nothing here mentions a program. A finite number other than zero is given by the shortest decimal
that denotes it: digits that neither begin nor end with a zero, and where the point stands.

* `Numeral.text`: the decimal notation of a positive number, with an exponent where the point is far
  away from the digits.
* `Numeral.text_injective`: a text is that of one number.
* `Number`: the finite numbers, the two zeros, the infinities and the number that is none.
-/

namespace Daloy.Json
set_option autoImplicit false

open Daloy.Unicode

def zeroUnit : UInt16 := 0x30
def pointUnit : UInt16 := 0x2e
def exponentUnit : UInt16 := 0x65
def plusUnit : UInt16 := 0x2b
def minusUnit : UInt16 := 0x2d

/-- The positive number `0.d₁d₂… * 10 ^ point`. -/
structure Numeral where
  digits : List (Fin 10)
  point : ℤ
  digits_ne_nil : digits ≠ []
  head_ne_zero : digits.head? ≠ some 0
  last_ne_zero : digits.getLast? ≠ some 0
  deriving DecidableEq

namespace Numeral

def units (x : Numeral) : JsString := x.digits.map fun d : Fin 10 => digitUnit d.val

/-- `e+21`. -/
def exponentText (x : Numeral) : JsString :=
  exponentUnit :: (if x.point < 0 then minusUnit else plusUnit) ::
    (decimalDigits (x.point - 1).natAbs).map digitUnit

/-- `Number::toString(x)`, with the digits and the point as its `s` and `n`. -/
def text (x : Numeral) : JsString :=
  if -5 ≤ x.point ∧ x.point ≤ 21 then
    if (x.units.length : ℤ) ≤ x.point then
      x.units ++ List.replicate (x.point - x.units.length).toNat zeroUnit
    else if 0 < x.point then
      x.units.take x.point.toNat ++ pointUnit :: x.units.drop x.point.toNat
    else zeroUnit :: pointUnit :: (List.replicate (-x.point).toNat zeroUnit ++ x.units)
  else if x.units.length = 1 then x.units ++ x.exponentText
  else x.units.take 1 ++ pointUnit :: (x.units.drop 1 ++ x.exponentText)

/-! ## Reading a text back -/

def readExponent : JsString → ℤ
  | _ :: sign :: digits => if sign = minusUnit then -(decimal digits : ℤ) else decimal digits
  | _ => 0

/-- The digits of a text without its point, and where the point stands among them. -/
def readPlaces (s : JsString) : JsString × ℤ :=
  let mantissa := s.takeWhile (· ≠ exponentUnit)
  (mantissa.filter (· ≠ pointUnit),
    (mantissa.takeWhile (· ≠ pointUnit)).length + readExponent (s.dropWhile (· ≠ exponentUnit)))

def strip (places : JsString × ℤ) : JsString × ℤ :=
  let front := places.1.dropWhile (· = zeroUnit)
  ((front.reverse.dropWhile (· = zeroUnit)).reverse,
    places.2 - (places.1.takeWhile (· = zeroUnit)).length)

def AllDigits (s : JsString) : Prop := ∀ u ∈ s, isDigit u = true

theorem AllDigits.append {s t : JsString} (hs : AllDigits s) (ht : AllDigits t) :
    AllDigits (s ++ t) := by
  intro u hu
  rcases List.mem_append.mp hu with hu | hu
  · exact hs u hu
  · exact ht u hu

theorem allDigits_zeros (n : ℕ) : AllDigits (List.replicate n zeroUnit) := by
  intro u hu
  rw [List.eq_of_mem_replicate hu]
  decide

theorem allDigits_units (x : Numeral) : AllDigits x.units := by
  intro u hu
  obtain ⟨d, -, rfl⟩ := List.mem_map.mp hu
  exact isDigit_digitUnit d.isLt

theorem AllDigits.take {s : JsString} (h : AllDigits s) (n : ℕ) : AllDigits (s.take n) :=
  fun u hu => h u (List.mem_of_mem_take hu)

theorem AllDigits.drop {s : JsString} (h : AllDigits s) (n : ℕ) : AllDigits (s.drop n) :=
  fun u hu => h u (List.mem_of_mem_drop hu)

theorem AllDigits.ne {s : JsString} (h : AllDigits s) {u v : UInt16} (hu : u ∈ s)
    (hv : isDigit v = false) : u ≠ v := by
  rintro rfl
  rw [h u hu] at hv
  exact Bool.false_ne_true hv.symm

def IsTail (tail : JsString) : Prop := tail = [] ∨ tail.head? = some exponentUnit

theorem takeWhile_of_tail {s tail : JsString} (hs : ∀ u ∈ s, u ≠ exponentUnit) (h : IsTail tail) :
    (s ++ tail).takeWhile (· ≠ exponentUnit) = s ∧
      (s ++ tail).dropWhile (· ≠ exponentUnit) = tail := by
  have hall : ∀ u ∈ s, decide (u ≠ exponentUnit) = true := by simpa using hs
  rw [List.takeWhile_append_of_pos hall, List.dropWhile_append_of_pos hall]
  rcases h with rfl | h
  · simp
  · cases tail with
    | nil => simp
    | cons u tail =>
      obtain rfl : u = exponentUnit := Option.some.inj h
      simp

theorem readPlaces_whole {s tail : JsString} (hs : AllDigits s) (h : IsTail tail) :
    readPlaces (s ++ tail) = (s, s.length + readExponent tail) := by
  obtain ⟨htake, hdrop⟩ :=
    takeWhile_of_tail (fun u hu => hs.ne hu (by decide)) h
  have hpoint : ∀ u ∈ s, decide (u ≠ pointUnit) = true := by
    intro u hu
    simpa using hs.ne hu (v := pointUnit) (by decide)
  rw [readPlaces, htake, hdrop, List.filter_eq_self.mpr hpoint, List.takeWhile_eq_self_iff.mpr hpoint]

theorem readPlaces_point {s t tail : JsString} (hs : AllDigits s) (ht : AllDigits t)
    (h : IsTail tail) :
    readPlaces (s ++ pointUnit :: (t ++ tail)) = (s ++ t, s.length + readExponent tail) := by
  have hmantissa : ∀ u ∈ s ++ pointUnit :: t, u ≠ exponentUnit := by
    intro u hu
    rcases List.mem_append.mp hu with hu | hu
    · exact hs.ne hu (by decide)
    · rcases List.mem_cons.mp hu with rfl | hu
      · decide
      · exact ht.ne hu (by decide)
  have hassoc : s ++ pointUnit :: (t ++ tail) = s ++ pointUnit :: t ++ tail := by simp
  obtain ⟨htake, hdrop⟩ := takeWhile_of_tail hmantissa h
  have hpoint : ∀ {r : JsString}, AllDigits r → ∀ u ∈ r, decide (u ≠ pointUnit) = true := by
    intro r hr u hu
    simpa using hr.ne hu (v := pointUnit) (by decide)
  rw [hassoc, readPlaces, htake, hdrop, List.filter_append, List.filter_cons,
    List.filter_eq_self.mpr (hpoint hs), List.filter_eq_self.mpr (hpoint ht),
    List.takeWhile_append_of_pos (hpoint hs)]
  simp

theorem dropWhile_zeros {n : ℕ} {s : JsString} (h : s.head? ≠ some zeroUnit) :
    (List.replicate n zeroUnit ++ s).dropWhile (· = zeroUnit) = s ∧
      (List.replicate n zeroUnit ++ s).takeWhile (· = zeroUnit) = List.replicate n zeroUnit := by
  have hzeros : ∀ u ∈ List.replicate n zeroUnit, decide (u = zeroUnit) = true := by
    intro u hu
    simpa using List.eq_of_mem_replicate hu
  rw [List.dropWhile_append_of_pos hzeros, List.takeWhile_append_of_pos hzeros]
  cases s with
  | nil => simp
  | cons u s =>
    have hu : u ≠ zeroUnit := fun heq => h (by rw [heq]; rfl)
    simp [hu]

theorem digitUnit_eq_zeroUnit {d : Fin 10} (h : digitUnit d.val = zeroUnit) : d = 0 := by
  have hnat := congrArg UInt16.toNat h
  rw [digitUnit_toNat d.isLt] at hnat
  have hzero : zeroUnit.toNat = 0x30 := rfl
  exact Fin.ext (by simp only [Fin.val_zero]; omega)

theorem head_units (x : Numeral) : x.units.head? ≠ some zeroUnit := by
  rw [units, List.head?_map]
  intro h
  obtain ⟨d, hd, heq⟩ := Option.map_eq_some_iff.mp h
  rw [digitUnit_eq_zeroUnit heq] at hd
  exact x.head_ne_zero hd

theorem last_units (x : Numeral) : x.units.getLast? ≠ some zeroUnit := by
  rw [units, List.getLast?_map]
  intro h
  obtain ⟨d, hd, heq⟩ := Option.map_eq_some_iff.mp h
  rw [digitUnit_eq_zeroUnit heq] at hd
  exact x.last_ne_zero hd

theorem units_ne_nil (x : Numeral) : x.units ≠ [] := by
  rw [units, Ne, List.map_eq_nil_iff]
  exact x.digits_ne_nil

theorem strip_zeros (x : Numeral) (before behind : ℕ) (point : ℤ) :
    strip (List.replicate before zeroUnit ++ (x.units ++ List.replicate behind zeroUnit), point) =
      (x.units, point - before) := by
  have hhead : (x.units ++ List.replicate behind zeroUnit).head? ≠ some zeroUnit := by
    rw [List.head?_append]
    cases hunits : x.units with
    | nil => exact absurd hunits x.units_ne_nil
    | cons u units =>
      have hu := x.head_units
      rw [hunits] at hu
      exact hu
  obtain ⟨hdrop, htake⟩ := dropWhile_zeros (n := before) hhead
  have hlast : x.units.reverse.head? ≠ some zeroUnit := by
    rw [List.head?_reverse]
    exact x.last_units
  rw [strip, hdrop, htake, List.reverse_append, List.reverse_replicate, (dropWhile_zeros hlast).1,
    List.reverse_reverse, List.length_replicate]

theorem readExponent_exponentText {x : Numeral} (h : ¬ (-5 ≤ x.point ∧ x.point ≤ 21)) :
    readExponent x.exponentText = x.point - 1 := by
  rw [exponentText, readExponent, decimal_decimalDigits]
  by_cases hneg : x.point < 0
  · rw [if_pos hneg, if_pos rfl]
    omega
  · rw [if_neg hneg, if_neg (by decide)]
    omega

theorem readExponent_nil : readExponent [] = 0 := rfl

theorem isTail_exponentText (x : Numeral) : IsTail x.exponentText := .inr rfl

theorem strip_readPlaces (x : Numeral) : strip (readPlaces x.text) = (x.units, x.point) := by
  have hdigits := x.allDigits_units
  have hlength : 0 < x.units.length := List.length_pos_iff.mpr x.units_ne_nil
  have hbare : ∀ point, strip (x.units, point) = (x.units, point) := by
    intro point
    simpa using x.strip_zeros 0 0 point
  rw [text]
  split
  · split
    · next hle =>
      -- an integer, with the zeros behind its digits
      have hread := @readPlaces_whole _ []
        (hdigits.append (allDigits_zeros (x.point - x.units.length).toNat)) (.inl rfl)
      rw [List.append_nil] at hread
      have hstrip := x.strip_zeros 0 (x.point - x.units.length).toNat x.point
      simp only [List.replicate_zero, List.nil_append, Nat.cast_zero, sub_zero] at hstrip
      rw [hread, ← hstrip, List.length_append, List.length_replicate, readExponent_nil]
      congr 2
      omega
    split
    · next hlt hpos =>
      have hread := @readPlaces_point _ _ [] (hdigits.take x.point.toNat)
        (hdigits.drop x.point.toNat) (.inl rfl)
      rw [List.append_nil, List.take_append_drop] at hread
      rw [hread, ← hbare x.point, List.length_take, readExponent_nil]
      congr 2
      omega
    · next hlt hpos =>
      -- a fraction, with the zeros before its digits
      have hread := @readPlaces_point [zeroUnit] _ [] (allDigits_zeros 1)
        ((allDigits_zeros (-x.point).toNat).append hdigits) (.inl rfl)
      have hstrip := x.strip_zeros ((-x.point).toNat + 1) 0 1
      rw [List.replicate_zero, List.append_nil, List.replicate_succ, List.cons_append] at hstrip
      rw [List.append_nil] at hread
      have htext : zeroUnit :: pointUnit :: (List.replicate (-x.point).toNat zeroUnit ++ x.units) =
          [zeroUnit] ++ pointUnit :: (List.replicate (-x.point).toNat zeroUnit ++ x.units) := rfl
      rw [htext, hread]
      refine hstrip.trans ?_
      congr 1
      omega
  · next hfar =>
    split
    · next hone =>
      have hread := readPlaces_whole hdigits x.isTail_exponentText
      rw [hread, readExponent_exponentText hfar, hbare, hone]
      congr 1
      omega
    · next hmany =>
      have hread := readPlaces_point (hdigits.take 1) (hdigits.drop 1) x.isTail_exponentText
      rw [hread, readExponent_exponentText hfar, List.take_append_drop, hbare, List.length_take]
      congr 1
      omega

theorem text_injective {x y : Numeral} (h : x.text = y.text) : x = y := by
  have hread := congrArg (fun s => strip (readPlaces s)) h
  simp only [strip_readPlaces, Prod.mk.injEq] at hread
  obtain ⟨hunits, hpoint⟩ := hread
  have hdigits : x.digits = y.digits := by
    refine List.map_injective_iff.mpr ?_ hunits
    intro d e heq
    have hnat := congrArg UInt16.toNat heq
    rw [digitUnit_toNat d.isLt, digitUnit_toNat e.isLt] at hnat
    exact Fin.ext (by omega)
  cases x
  cases y
  simp only [mk.injEq]
  exact ⟨hdigits, hpoint⟩

theorem text_ne_nil (x : Numeral) : x.text ≠ [] := by
  have hne := x.units_ne_nil
  rw [text]
  split_ifs <;> simp [hne]

theorem isDigit_head_text (x : Numeral) : ∃ u rest, x.text = u :: rest ∧ isDigit u = true := by
  obtain ⟨u, rest, hunits⟩ := List.exists_cons_of_ne_nil x.units_ne_nil
  have hu : isDigit u = true := x.allDigits_units u (by simp [hunits])
  rw [text, hunits]
  split
  · split
    · exact ⟨u, _, rfl, hu⟩
    split
    · next hpos =>
      obtain ⟨n, hn⟩ : ∃ n, x.point.toNat = n + 1 := ⟨x.point.toNat - 1, by omega⟩
      rw [hn]
      exact ⟨u, _, rfl, hu⟩
    · exact ⟨zeroUnit, _, rfl, by decide⟩
  · split
    · exact ⟨u, _, rfl, hu⟩
    · exact ⟨u, _, rfl, hu⟩

theorem text_ne_zero (x : Numeral) : x.text ≠ [zeroUnit] := by
  intro h
  have hread := x.strip_readPlaces
  rw [h] at hread
  have hstrip : strip (readPlaces [zeroUnit]) = ([], 0) := by decide
  rw [hstrip] at hread
  exact x.units_ne_nil (Prod.mk.inj hread).1.symm

theorem isNumberUnit_of_isDigit {u : UInt16} (h : isDigit u = true) : isNumberUnit u = true := by
  simp [isNumberUnit, h]

theorem isNumberUnit_exponentText (x : Numeral) : ∀ u ∈ x.exponentText, isNumberUnit u = true := by
  intro u hu
  rcases List.mem_cons.mp hu with rfl | hu
  · decide
  rcases List.mem_cons.mp hu with rfl | hu
  · split <;> decide
  · obtain ⟨d, hd, rfl⟩ := List.mem_map.mp hu
    exact isNumberUnit_of_isDigit (isDigit_digitUnit (decimalDigits_lt hd))

theorem isNumberUnit_text (x : Numeral) : ∀ u ∈ x.text, isNumberUnit u = true := by
  have hdigits : ∀ u ∈ x.units, isNumberUnit u = true :=
    fun u hu => isNumberUnit_of_isDigit (x.allDigits_units u hu)
  have hzeros : ∀ (n : ℕ), ∀ u ∈ List.replicate n zeroUnit, isNumberUnit u = true :=
    fun n u hu => isNumberUnit_of_isDigit (allDigits_zeros n u hu)
  have htake : ∀ n, ∀ u ∈ x.units.take n, isNumberUnit u = true :=
    fun n u hu => hdigits u (List.mem_of_mem_take hu)
  have hdrop : ∀ n, ∀ u ∈ x.units.drop n, isNumberUnit u = true :=
    fun n u hu => hdigits u (List.mem_of_mem_drop hu)
  have hexponent := x.isNumberUnit_exponentText
  have hpoint : isNumberUnit pointUnit = true := by decide
  have hzero : isNumberUnit zeroUnit = true := by decide
  rw [text]
  intro u hu
  split_ifs at hu <;> simp only [List.mem_append, List.mem_cons] at hu <;> grind

end Numeral

/-! ## All numbers -/

inductive Number
  | nan
  | infinity (negative : Bool)
  | zero (negative : Bool)
  | finite (negative : Bool) (magnitude : Numeral)
  deriving DecidableEq

namespace Number

def isFinite : Number → Bool
  | .zero _ => true
  | .finite _ _ => true
  | _ => false

def normal : Number → Number
  | .zero _ => .zero false
  | x => x

/-- The number with these digits behind its point, times a power of ten. -/
def ofDigits (digits : List ℕ) (point : ℤ) : Number :=
  let digits := digits.map (Fin.ofNat 10)
  if h : digits ≠ [] ∧ digits.head? ≠ some 0 ∧ digits.getLast? ≠ some 0 then
    .finite false ⟨digits, point, h.1, h.2.1, h.2.2⟩
  else .zero false

/-- `JSON.stringify(x)`. -/
def jsonText : Number → JsString
  | .nan => js "null"
  | .infinity _ => js "null"
  | .zero _ => [zeroUnit]
  | .finite negative magnitude => (if negative then [minusUnit] else []) ++ magnitude.text

end Number

/-- `1250`. -/
example : (Number.finite false ⟨[1, 2, 5], 4, by decide, by decide, by decide⟩).jsonText =
    js "1250" := by decide

/-- `-1.5e-7`. -/
example : (Number.finite true ⟨[1, 5], -6, by decide, by decide, by decide⟩).jsonText =
    js "-1.5e-7" := by decide

end Daloy.Json
