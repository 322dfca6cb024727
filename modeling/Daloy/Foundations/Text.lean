import Daloy.Foundations.Json
import Mathlib.Data.List.DropRight

/-! # Texts: whitespace, digits, pieces

Nothing here mentions a program. The string operations of the language that are not in
`Daloy.Unicode`, and how they act on texts of a known shape.

* `trim`: a text without the whitespace around it.
* `integerText`: the text of an integer; `readInteger` reads the longest one at the front of a text.
* `write_decimal`: digits without a leading zero are the text of their number.
-/

namespace Daloy.Text
set_option autoImplicit false

open Daloy.Unicode Daloy.Json

/-! ## Whitespace -/

def isWhitespace (u : UInt16) : Bool :=
  (0x09 ≤ u.toNat && u.toNat ≤ 0x0D) || u == 0x20 || u == 0xA0 || u == 0x1680 ||
    (0x2000 ≤ u.toNat && u.toNat ≤ 0x200A) || u == 0x2028 || u == 0x2029 || u == 0x202F ||
    u == 0x205F || u == 0x3000 || u == 0xFEFF

def trim (s : JsString) : JsString := s.dropWhile isWhitespace |>.rdropWhile isWhitespace

theorem trim_eq_self {s : JsString} {first last : UInt16} (hfirst : s.head? = some first)
    (hlast : s.getLast? = some last) (hf : isWhitespace first = false)
    (hl : isWhitespace last = false) : trim s = s := by
  have hdrop : s.dropWhile isWhitespace = s := by
    cases s with
    | nil => simp at hfirst
    | cons u s =>
      obtain rfl : u = first := by simpa using hfirst
      rw [List.dropWhile_cons_of_neg (by simp [hf])]
  obtain ⟨front, rfl⟩ := List.getLast?_eq_some_iff.mp hlast
  rw [trim, hdrop, List.rdropWhile_concat_neg _ _ _ (by simp [hl])]

theorem trim_of_no_blank {s : JsString} (h : ∀ u ∈ s, isWhitespace u = false) : trim s = s := by
  cases s with
  | nil => rfl
  | cons u s =>
    refine trim_eq_self rfl (List.getLast?_eq_getLast_of_ne_nil (by simp)) (h u (by simp)) ?_
    exact h _ (List.getLast_mem _)

/-! ## Separators -/

theorem separator_inj {α : Type} {sep : α} {a a' r r' : List α} (h : sep ∉ a) (h' : sep ∉ a')
    (heq : a ++ sep :: r = a' ++ sep :: r') : a = a' ∧ r = r' := by
  induction a generalizing a' with
  | nil =>
    cases a' with
    | nil => exact ⟨rfl, (List.cons.inj heq).2⟩
    | cons u a' =>
      rw [List.nil_append, List.cons_append] at heq
      exact absurd (List.mem_cons.mpr (.inl (List.cons.inj heq).1)) h'
  | cons u a ih =>
    cases a' with
    | nil =>
      rw [List.nil_append, List.cons_append] at heq
      exact absurd (List.mem_cons.mpr (.inl (List.cons.inj heq).1.symm)) h
    | cons v a' =>
      rw [List.cons_append, List.cons_append] at heq
      obtain ⟨rfl, htail⟩ := List.cons.inj heq
      obtain ⟨rfl, rfl⟩ := ih (fun hm => h (List.mem_cons_of_mem _ hm))
        (fun hm => h' (List.mem_cons_of_mem _ hm)) htail
      exact ⟨rfl, rfl⟩

theorem span_append {α : Type} {p : α → Bool} {s : List α} (hs : ∀ u ∈ s, p u = true)
    {rest : List α} (hrest : ∀ u, rest.head? = some u → p u = false) :
    (s ++ rest).takeWhile p = s ∧ (s ++ rest).dropWhile p = rest := by
  rw [List.takeWhile_append_of_pos hs, List.dropWhile_append_of_pos hs]
  cases rest with
  | nil => simp
  | cons u rest => simp [hrest u rfl]

/-- The same where the two separators may differ: each is the first unit that `p` rejects. -/
theorem span_inj {α : Type} {p : α → Bool} {a a' r r' : List α} {sep sep' : α}
    (h : ∀ u ∈ a, p u = true) (h' : ∀ u ∈ a', p u = true) (hsep : p sep = false)
    (hsep' : p sep' = false) (heq : a ++ sep :: r = a' ++ sep' :: r') :
    a = a' ∧ sep = sep' ∧ r = r' := by
  have htake := congrArg (List.takeWhile p) heq
  rw [List.takeWhile_append_of_pos h, List.takeWhile_append_of_pos h',
    List.takeWhile_cons_of_neg (by simp [hsep]), List.takeWhile_cons_of_neg (by simp [hsep']),
    List.append_nil, List.append_nil] at htake
  obtain rfl := htake
  obtain ⟨rfl, rfl⟩ := List.cons.inj (List.append_cancel_left heq)
  exact ⟨rfl, rfl, rfl⟩

/-! ## Integers -/

def minus : UInt16 := 0x2D

def integerText : ℤ → JsString
  | .ofNat n => NumberText.write n
  | .negSucc n => minus :: NumberText.write (n + 1)

def readDigits (s : JsString) : Option (ℕ × JsString) :=
  if (s.takeWhile isDigit).isEmpty then none
  else some (decimal (s.takeWhile isDigit), s.dropWhile isDigit)

/-- The integer at the front of a text, with an optional minus sign, and what follows it. -/
def readInteger : JsString → Option (ℤ × JsString)
  | [] => none
  | u :: s =>
    if u = minus then (readDigits s).map fun r => (-(r.1 : ℤ), r.2)
    else (readDigits (u :: s)).map fun r => ((r.1 : ℤ), r.2)

theorem write_digits (n : ℕ) : ∀ u ∈ (NumberText.write n : JsString), isDigit u = true := by
  intro u hu
  obtain ⟨d, hd, rfl⟩ := List.mem_map.mp hu
  exact isDigit_digitUnit (decimalDigits_lt hd)

theorem write_not_whitespace (n : ℕ) : ∀ u ∈ (NumberText.write n : JsString),
    isWhitespace u = false := by
  have hdigits : ∀ d : Fin 10, isWhitespace (digitUnit d) = false := by decide
  intro u hu
  obtain ⟨d, hd, rfl⟩ := List.mem_map.mp hu
  exact hdigits ⟨d, decimalDigits_lt hd⟩

theorem write_injective {m n : ℕ} (h : (NumberText.write m : JsString) = NumberText.write n) :
    m = n := by
  have hread := NumberText.read_write m
  rw [h, NumberText.read_write] at hread
  exact (Option.some.inj hread).symm

theorem decimal_append (part : JsString) (c : UInt16) :
    decimal (part ++ [c]) = decimal part * 10 + (c.toNat - 48) := by
  rw [decimal, List.foldl_append]
  rfl

theorem decimal_lt {part : JsString} (h : ∀ u ∈ part, isDigit u = true) :
    decimal part < 10 ^ part.length := by
  induction part using List.reverseRecOn with
  | nil => decide
  | append_singleton part c ih =>
    have hc := h c (by simp)
    have hpart := ih fun u hu => h u (List.mem_append_left _ hu)
    simp only [isDigit, Bool.and_eq_true, decide_eq_true_eq] at hc
    rw [decimal_append, List.length_append, List.length_singleton, Nat.pow_succ]
    omega

theorem write_decimal {part : JsString} (hdigits : ∀ u ∈ part, isDigit u = true)
    (hlead : part.head? = some 0x30 → part = [0x30]) (hne : part ≠ []) :
    (NumberText.write (decimal part) : JsString) = part := by
  have hdigit : ∀ u ∈ part, digitUnit (u.toNat - 48) = u := by
    intro u hu
    have hdig := hdigits u hu
    simp only [isDigit, Bool.and_eq_true, decide_eq_true_eq] at hdig
    have hsum : 0x30 + (u.toNat - 48) = u.toNat := by omega
    rw [digitUnit, hsum, UInt16.ofNat_toNat]
  have hlist : (decimalDigits (decimal part)).map digitUnit = part := by
    by_cases hzero : decimal part = 0
    · obtain ⟨u, rest, rfl⟩ := List.exists_cons_of_ne_nil hne
      have hu : u.toNat - 48 = 0 := by
        by_contra hpos
        have hfold : ∀ (l : JsString) (n : ℕ),
            n ≤ l.foldl (fun n u => n * 10 + (u.toNat - 0x30)) n := by
          intro l
          induction l with
          | nil => intro n; exact Nat.le_refl n
          | cons v l ih =>
            intro n
            rw [List.foldl_cons]
            have hrest := ih (n * 10 + (v.toNat - 0x30))
            omega
        have hle := hfold rest (0 * 10 + (u.toNat - 0x30))
        rw [decimal, List.foldl_cons] at hzero
        omega
      have hunit : u = (0x30 : UInt16) := by
        rw [← hdigit u List.mem_cons_self, hu]
        rfl
      rw [hlead (by rw [List.head?_cons, hunit])]
      decide
    · have hofDigits : Nat.ofDigits 10 (part.map fun u => u.toNat - 48).reverse = decimal part := by
        rw [decimal, Nat.ofDigits_eq_foldr, List.foldr_reverse, List.foldl_map]
        congr 1
        funext n u
        simp only [Nat.cast_id]
        omega
      have hlt : ∀ d ∈ (part.map fun u => u.toNat - 48).reverse, d < 10 := by
        intro d hd
        obtain ⟨u, hu, rfl⟩ := List.mem_map.mp (List.mem_reverse.mp hd)
        have hdig := hdigits u hu
        simp only [isDigit, Bool.and_eq_true, decide_eq_true_eq] at hdig
        omega
      have hlast : ∀ hne' : (part.map fun u => u.toNat - 48).reverse ≠ [],
          (part.map fun u => u.toNat - 48).reverse.getLast hne' ≠ 0 := by
        intro hne' hlast
        rw [List.getLast_reverse, List.head_map] at hlast
        have hhead : part.head hne = (0x30 : UInt16) := by
          rw [← hdigit _ (List.head_mem hne), hlast]
          rfl
        have hone := hlead (by rw [List.head?_eq_some_head hne, hhead])
        rw [hone] at hzero
        exact hzero (by decide)
      have hofdigits := Nat.digits_ofDigits 10 (by omega) _ hlt hlast
      rw [hofDigits] at hofdigits
      rw [decimalDigits, if_neg hzero, hofdigits, List.reverse_reverse, List.map_map]
      refine (List.map_congr_left fun u hu => ?_).trans (List.map_id _)
      exact hdigit u hu
  exact hlist

theorem readDigits_write (n : ℕ) {rest : JsString}
    (hrest : ∀ u, rest.head? = some u → isDigit u = false) :
    readDigits (NumberText.write n ++ rest) = some (n, rest) := by
  have htake : (NumberText.write n ++ rest).takeWhile isDigit = NumberText.write n := by
    rw [List.takeWhile_append_of_pos (write_digits n)]
    cases rest with
    | nil => simp
    | cons u rest => simp [hrest u rfl]
  have hdrop : (NumberText.write n ++ rest).dropWhile isDigit = rest := by
    rw [List.dropWhile_append_of_pos (write_digits n)]
    cases rest with
    | nil => rfl
    | cons u rest => simp [hrest u rfl]
  have hvalue : decimal (NumberText.write n) = n := decimal_decimalDigits n
  rw [readDigits, htake, hdrop, if_neg (by simpa using NumberText.write_ne_nil n), hvalue]

theorem readInteger_integerText (i : ℤ) {rest : JsString}
    (hrest : ∀ u, rest.head? = some u → isDigit u = false) :
    readInteger (integerText i ++ rest) = some (i, rest) := by
  cases i with
  | ofNat n =>
    obtain ⟨u, digits, hwrite⟩ := List.exists_cons_of_ne_nil (NumberText.write_ne_nil n)
    have hdigit := write_digits n u (by rw [hwrite]; exact List.mem_cons_self ..)
    have hminus : u ≠ minus := by
      rintro rfl
      exact absurd hdigit (by decide)
    have hread := readDigits_write n hrest
    rw [hwrite, List.cons_append] at hread
    rw [integerText, hwrite, List.cons_append, readInteger, if_neg hminus, hread]
    rfl
  | negSucc n =>
    rw [integerText, List.cons_append, readInteger, if_pos rfl, readDigits_write _ hrest]
    rfl

theorem mem_intercalate {sep u : UInt16} {parts : List JsString}
    (h : u ∈ [sep].intercalate parts) : u = sep ∨ ∃ part ∈ parts, u ∈ part := by
  induction parts with
  | nil => cases h
  | cons part parts ih =>
    cases parts with
    | nil => exact .inr ⟨part, by simp, by simpa [List.intercalate] using h⟩
    | cons next parts =>
      have hjoin : [sep].intercalate (part :: next :: parts) =
          part ++ sep :: [sep].intercalate (next :: parts) := by
        simp [List.intercalate]
      rw [hjoin, List.mem_append, List.mem_cons] at h
      obtain h | h | h := h
      · exact .inr ⟨part, by simp, h⟩
      · exact .inl h
      · obtain heq | ⟨other, hother, hu⟩ := ih h
        · exact .inl heq
        · exact .inr ⟨other, List.mem_cons_of_mem _ hother, hu⟩

end Daloy.Text
