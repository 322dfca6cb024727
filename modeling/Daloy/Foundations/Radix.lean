import Daloy.Foundations.Unicode
import Mathlib.Data.Nat.Digits.Lemmas

/-! # Numbers in another base

Nothing here mentions a program. Natural numbers as `toString(b)` writes them, for a base up to 36,
and as `parseInt(text, b)` reads them.

* `parseRadix_radixText`: what is written is read back.
* `length_radixText_le`: how long it is.
-/

namespace Daloy.Radix
set_option autoImplicit false

open Daloy.Unicode

/-- A digit from `0` to `9`, then from `a` to `z`. -/
def digitUnit (d : ℕ) : UInt16 :=
  if d < 10 then UInt16.ofNat (0x30 + d) else UInt16.ofNat (0x57 + d)

/-- `[0-9a-z]`. -/
def isDigitUnit (u : UInt16) : Bool :=
  (0x30 ≤ u.toNat && u.toNat ≤ 0x39) || (0x61 ≤ u.toNat && u.toNat ≤ 0x7A)

def digitValue (u : UInt16) : ℕ := if u.toNat ≤ 0x39 then u.toNat - 0x30 else u.toNat - 0x57

/-- `n.toString(b)`. -/
def radixText (b n : ℕ) : JsString :=
  if n = 0 then [digitUnit 0] else (Nat.digits b n).reverse.map digitUnit

/-- `Number.parseInt(s, b)`, of digits of that base. -/
def parseRadix (b : ℕ) (s : JsString) : ℕ := s.foldl (fun n u => n * b + digitValue u) 0

theorem digitUnit_toNat {d : ℕ} (h : d < 36) :
    (digitUnit d).toNat = if d < 10 then 0x30 + d else 0x57 + d := by
  rw [digitUnit]
  split
  · rw [UInt16.toNat_ofNat_of_lt']
    rw [UInt16.size]
    omega
  · rw [UInt16.toNat_ofNat_of_lt']
    rw [UInt16.size]
    omega

theorem digitValue_digitUnit {d : ℕ} (h : d < 36) : digitValue (digitUnit d) = d := by
  rw [digitValue, digitUnit_toNat h]
  split
  · split <;> omega
  · split <;> omega

theorem isDigitUnit_digitUnit {d : ℕ} (h : d < 36) : isDigitUnit (digitUnit d) = true := by
  rw [isDigitUnit, digitUnit_toNat h]
  split
  · simp only [Bool.or_eq_true, Bool.and_eq_true, decide_eq_true_eq]
    omega
  · simp only [Bool.or_eq_true, Bool.and_eq_true, decide_eq_true_eq]
    omega

variable {b : ℕ}

theorem isDigitUnit_radixText (hb : 1 < b) (hb' : b ≤ 36) (n : ℕ) :
    (radixText b n).all isDigitUnit = true ∧ radixText b n ≠ [] := by
  rw [radixText]
  split
  · exact ⟨by decide, by simp⟩
  · rename_i hn
    refine ⟨?_, by simp [Nat.digits_ne_nil_iff_ne_zero.mpr hn]⟩
    rw [List.all_map, List.all_eq_true]
    intro d hd
    have hlt := Nat.digits_lt_base hb (List.mem_reverse.mp hd)
    exact isDigitUnit_digitUnit (by omega)

theorem parseRadix_radixText (hb : 1 < b) (hb' : b ≤ 36) (n : ℕ) :
    parseRadix b (radixText b n) = n := by
  have hfold : ∀ ds : List ℕ, (∀ d ∈ ds, d < b) →
      ((ds.reverse).map digitUnit).foldl (fun n u => n * b + digitValue u) 0 = Nat.ofDigits b ds := by
    intro ds
    induction ds with
    | nil => intro _; rfl
    | cons d ds ih =>
      intro h
      rw [List.reverse_cons, List.map_append, List.foldl_append,
        ih fun e he => h e (List.mem_cons_of_mem _ he), List.map_singleton, List.foldl_cons,
        List.foldl_nil, Nat.ofDigits_cons,
        digitValue_digitUnit (by have := h d List.mem_cons_self; omega), Nat.mul_comm, Nat.add_comm]
  rw [radixText, parseRadix]
  split
  · rename_i hn
    rw [hn]
    simp [digitValue_digitUnit]
  · rw [hfold _ fun d hd => Nat.digits_lt_base hb hd, Nat.ofDigits_digits]

theorem length_radixText_le (hb : 1 < b) {n k : ℕ} (hk : 0 < k) (h : n < b ^ k) :
    (radixText b n).length ≤ k := by
  rw [radixText]
  split
  · exact hk
  · rw [List.length_map, List.length_reverse]
    exact (Nat.digits_length_le_iff hb n).mpr h

end Daloy.Radix
