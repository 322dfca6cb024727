import Daloy.Foundations.Encodings
import Daloy.Foundations.EventStream
import Daloy.Foundations.JsonGrammar

/-! # The texts of JSON values

What `stringify` writes. Nothing here mentions a program.

* `wellFormed_stringify`: the text has no lone surrogate, whatever strings are in the value.
* `written_stringify`: the tree of the text is the tree of the value, with the same members and the
  same depth.
-/

namespace Daloy.Unicode
set_option autoImplicit false

/-! ## Texts without lone surrogates -/

theorem WellFormed.append {s t : JsString} (hs : WellFormed s) (ht : WellFormed t) :
    WellFormed (s ++ t) := by
  have hboth : s ++ t = utf16 (scalars s ++ scalars t) := by
    rw [utf16_append, show utf16 (scalars s) = s from hs,
      show utf16 (scalars t) = t from ht]
  rw [hboth]
  exact wellFormed_utf16 _

theorem wellFormed_ascii {s : JsString} (h : ∀ u ∈ s, u.toNat < 0x80) : WellFormed s := by
  have happend := EventStream.toWellFormed_append (fun u hu => isPlain_ascii (h u hu)) []
  rw [List.append_nil] at happend
  exact happend.trans (List.append_nil s)

theorem wellFormed_plain {u : UInt16} (h : IsPlain u) : WellFormed [u] :=
  EventStream.toWellFormed_singleton h

theorem wellFormed_pair {u v : UInt16} (hu : isHighSurrogate u = true)
    (hv : isLowSurrogate v = true) : WellFormed [u, v] := by
  rw [WellFormed, scalars_pair u v [] hu hv]
  simp only [isHighSurrogate, isLowSurrogate, Bool.and_eq_true, decide_eq_true_eq] at hu hv
  have hvalid : (0x10000 + (u.toNat - 0xD800) * 0x400 + (v.toNat - 0xDC00)).isValidChar := by
    unfold Nat.isValidChar
    omega
  have hvalue : (combine u v).toNat =
      0x10000 + (u.toNat - 0xD800) * 0x400 + (v.toNat - 0xDC00) := by
    rw [combine, Char.ofNat, dif_pos hvalid]
    rfl
  have hhigh : 0xD800 + ((combine u v).toNat - 0x10000) / 0x400 = u.toNat := by omega
  have hlow : 0xDC00 + ((combine u v).toNat - 0x10000) % 0x400 = v.toNat := by omega
  rw [scalars, utf16_cons, utf16_nil, List.append_nil, utf16Char, if_neg (by omega), hhigh, hlow,
    UInt16.ofNat_toNat, UInt16.ofNat_toNat]

end Daloy.Unicode

namespace Daloy.Json

open Daloy.Unicode

theorem hexUnit_lt (n : ℕ) (h : n < 16) : (hexUnit n).toNat < 0x80 := by
  have hall : ∀ k : Fin 16, (hexUnit k.val).toNat < 0x80 := by decide
  exact hall ⟨n, h⟩

theorem wellFormed_quoteUnit (u : UInt16) : WellFormed (quoteUnit u) := by
  have hu := u.toNat_lt
  obtain ⟨v, h, -, -, hv⟩ | h | ⟨h, -, -, -, hhigh, hlow⟩ := quoteUnit_cases u
  · rw [h]
    refine wellFormed_ascii ?_
    simp only [List.forall_mem_cons]
    exact ⟨by decide, hv, by simp⟩
  · rw [h]
    refine wellFormed_ascii ?_
    simp only [unicodeEscape, List.forall_mem_cons]
    exact ⟨by decide, by decide, hexUnit_lt _ (by omega), hexUnit_lt _ (by omega),
      hexUnit_lt _ (by omega), hexUnit_lt _ (by omega), by simp⟩
  · rw [h]
    exact wellFormed_plain ⟨hhigh, hlow⟩

theorem wellFormed_quoteUnits (s : JsString) : WellFormed (quoteUnits s) := by
  fun_induction quoteUnits s with
  | case1 => rfl
  | case2 u => exact wellFormed_quoteUnit u
  | case3 u v rest hpair ih =>
    rw [Bool.and_eq_true] at hpair
    exact (wellFormed_pair hpair.1 hpair.2).append ih
  | case4 u v rest hpair ih => exact (wellFormed_quoteUnit u).append ih

theorem wellFormed_quote (s : JsString) : WellFormed (quote s) := by
  have hmark : WellFormed [0x22] := by decide
  exact hmark.append ((wellFormed_quoteUnits s).append hmark)

variable {ν : Type} [NumberText ν]

theorem isNumberUnit_lt {u : UInt16} (h : isNumberUnit u = true) : u.toNat < 0x80 := by
  simp only [isNumberUnit, isDigit, Bool.or_eq_true, Bool.and_eq_true, decide_eq_true_eq,
    beq_iff_eq] at h
  obtain ((((⟨-, hle⟩ | rfl) | rfl) | rfl) | rfl) | rfl := h
  · omega
  all_goals decide

theorem wellFormed_write (n : ν) : WellFormed (NumberText.write n) :=
  wellFormed_ascii fun u hu => isNumberUnit_lt (NumberText.write_units n u hu)

theorem head_stringify (v : Value ν) : ∃ u rest, stringify v = u :: rest ∧ u.toNat < 0x80 := by
  cases v with
  | null => exact ⟨_, _, rfl, by decide⟩
  | bool b => cases b <;> exact ⟨_, _, rfl, by decide⟩
  | num n =>
    obtain ⟨u, rest, hu⟩ := List.exists_cons_of_ne_nil (NumberText.write_ne_nil n)
    have hmem : u ∈ NumberText.write n := by simp [hu]
    exact ⟨u, rest, by rw [stringify, hu], isNumberUnit_lt (NumberText.write_units n u hmem)⟩
  | str s => exact ⟨_, _, rfl, by decide⟩
  | arr items => cases items <;> exact ⟨_, _, rfl, by decide⟩
  | obj members => cases members <;> exact ⟨_, _, rfl, by decide⟩

mutual
theorem wellFormed_stringify : ∀ v : Value ν, Unicode.WellFormed (stringify v)
  | .null => by rw [stringify]; decide
  | .bool true => by rw [stringify]; decide
  | .bool false => by rw [stringify]; decide
  | .num n => by rw [stringify]; exact wellFormed_write n
  | .str s => by rw [stringify]; exact wellFormed_quote s
  | .arr [] => by rw [stringify]; decide
  | .arr (v :: items) => by
    have hopen : Unicode.WellFormed [0x5b] := by decide
    rw [stringify]
    exact hopen.append ((wellFormed_stringify v).append (wellFormed_stringifyItems items))
  | .obj [] => by rw [stringify]; decide
  | .obj ((k, v) :: members) => by
    have hopen : Unicode.WellFormed [0x7b] := by decide
    have hcolon : Unicode.WellFormed [0x3a] := by decide
    rw [stringify]
    exact hopen.append ((wellFormed_quote k).append (hcolon.append
      ((wellFormed_stringify v).append (wellFormed_stringifyMembers members))))

theorem wellFormed_stringifyItems :
    ∀ items : List (Value ν), Unicode.WellFormed (stringifyItems items)
  | [] => by rw [stringifyItems]; decide
  | v :: items => by
    have hcomma : Unicode.WellFormed [0x2c] := by decide
    rw [stringifyItems]
    exact hcomma.append ((wellFormed_stringify v).append (wellFormed_stringifyItems items))

theorem wellFormed_stringifyMembers :
    ∀ members : List (JsString × Value ν), Unicode.WellFormed (stringifyMembers members)
  | [] => by rw [stringifyMembers]; decide
  | (k, v) :: members => by
    have hcomma : Unicode.WellFormed [0x2c] := by decide
    have hcolon : Unicode.WellFormed [0x3a] := by decide
    rw [stringifyMembers]
    exact hcomma.append ((wellFormed_quote k).append (hcolon.append
      ((wellFormed_stringify v).append (wellFormed_stringifyMembers members))))
end

/-! ## The tree of a value -/

mutual
def Value.members : Value ν → ℕ
  | .arr items => membersOfItems items
  | .obj members => membersOfMembers members
  | _ => 0

def membersOfItems : List (Value ν) → ℕ
  | [] => 0
  | v :: items => v.members + membersOfItems items

def membersOfMembers : List (JsString × Value ν) → ℕ
  | [] => 0
  | (_, v) :: members => 1 + v.members + membersOfMembers members
end

mutual
def Value.depth : Value ν → ℕ
  | .arr items => depthOfItems items + 1
  | .obj members => depthOfMembers members + 1
  | _ => 0

def depthOfItems : List (Value ν) → ℕ
  | [] => 0
  | v :: items => max v.depth (depthOfItems items)

def depthOfMembers : List (JsString × Value ν) → ℕ
  | [] => 0
  | (_, v) :: members => max v.depth (depthOfMembers members)
end

theorem stringBody_quoteUnit (u : UInt16) {t : JsString} (h : StringBody t) :
    StringBody (quoteUnit u ++ t) := by
  obtain ⟨v, hunit, hv, -⟩ | hunit | ⟨hunit, hquote, hslash, hcontrol, -⟩ := quoteUnit_cases u
  · rw [hunit]
    exact .escape (by rw [hv]; rfl) h
  · rw [hunit]
    exact .unicode (by rw [hexUnits_unicodeEscape u]; rfl) h
  · rw [hunit]
    exact .plain hquote hslash (not_lt.mp hcontrol) h

theorem stringBody_quoteUnits (s : JsString) : StringBody (quoteUnits s) := by
  fun_induction quoteUnits s with
  | case1 => exact .nil
  | case2 u =>
    have hbody := stringBody_quoteUnit u .nil
    rwa [List.append_nil] at hbody
  | case3 u v rest hpair ih =>
    simp only [isHighSurrogate, isLowSurrogate, Bool.and_eq_true, decide_eq_true_eq] at hpair
    have hne : ∀ w k : UInt16, 0xD800 ≤ w.toNat → k.toNat < 0xD800 → w ≠ k := by
      rintro w k hw hk rfl
      omega
    refine .plain (hne u _ (by omega) (by decide)) (hne u _ (by omega) (by decide)) (by omega) ?_
    exact .plain (hne v _ (by omega) (by decide)) (hne v _ (by omega) (by decide)) (by omega) ih
  | case4 u v rest hpair ih => exact stringBody_quoteUnit u ih

theorem stringText_quote (s : JsString) : StringText (quote s) :=
  ⟨quoteUnits s, stringBody_quoteUnits s, rfl⟩

theorem spaces_nil : Spaces [] := by simp [Spaces]

mutual
theorem written_stringify : ∀ v : Value ν, Written ν (stringify v) v.members v.depth
  | .null => Written.atom (.inr (.inr (.inl rfl)))
  | .bool true => Written.atom (.inl rfl)
  | .bool false => Written.atom (.inr (.inl rfl))
  | .num n => by
    have hread : (NumberText.read (NumberText.write n) : Option ν).isSome = true := by
      rw [NumberText.read_write]
      rfl
    exact Written.atom (.inr (.inr (.inr ⟨NumberText.write_units n, hread⟩)))
  | .str s => Written.string (stringText_quote s)
  | .arr [] => .emptyArray spaces_nil
  | .arr (v :: items) => by
    obtain ⟨t, htext, hitems⟩ := written_items items (written_stringify v)
    rw [stringify, htext, Value.members, Value.depth]
    exact .array hitems
  | .obj [] => .emptyObject spaces_nil
  | .obj ((k, v) :: members) => by
    obtain ⟨t, htext, hmembers⟩ := written_members members k (written_stringify v)
    rw [stringify, htext, Value.members, Value.depth]
    exact .object hmembers

theorem written_items : ∀ (items : List (Value ν)) {first : JsString} {m d : ℕ},
    Written ν first m d → ∃ t, first ++ stringifyItems items = t ++ [0x5d] ∧
      WrittenItems ν t (m + membersOfItems items) (max d (depthOfItems items))
  | [], first, m, d, h => by
    have hlast := WrittenItems.last h spaces_nil
    rw [List.append_nil] at hlast
    refine ⟨first, by rw [stringifyItems], ?_⟩
    simpa [membersOfItems, depthOfItems] using hlast
  | v :: items, first, m, d, h => by
    obtain ⟨t, htext, hitems⟩ := written_items items (written_stringify v)
    have hmore := WrittenItems.more h spaces_nil hitems
    rw [List.append_nil] at hmore
    refine ⟨first ++ 0x2c :: t, by rw [stringifyItems, htext]; simp, ?_⟩
    rw [membersOfItems, depthOfItems]
    exact hmore

theorem written_members : ∀ (members : List (JsString × Value ν)) (k : JsString)
    {first : JsString} {m d : ℕ}, Written ν first m d →
      ∃ t, quote k ++ 0x3a :: (first ++ stringifyMembers members) = t ++ [0x7d] ∧
        WrittenMembers ν t (1 + m + membersOfMembers members) (max d (depthOfMembers members))
  | [], k, first, m, d, h => by
    have hlast := WrittenMembers.last spaces_nil (stringText_quote k) spaces_nil h spaces_nil
    rw [List.append_nil, List.append_nil, List.nil_append] at hlast
    refine ⟨quote k ++ 0x3a :: first, by rw [stringifyMembers]; simp, ?_⟩
    simpa [membersOfMembers, depthOfMembers] using hlast
  | (l, v) :: members, k, first, m, d, h => by
    obtain ⟨t, htext, hmembers⟩ := written_members members l (written_stringify v)
    have hmore := WrittenMembers.more spaces_nil (stringText_quote k) spaces_nil h spaces_nil
      hmembers
    rw [List.append_nil, List.append_nil, List.nil_append] at hmore
    refine ⟨quote k ++ 0x3a :: (first ++ 0x2c :: t), ?_, ?_⟩
    · rw [stringifyMembers, htext]
      simp
    · rw [membersOfMembers, depthOfMembers]
      exact hmore
end

theorem isJsonText_stringify (v : Value ν) : IsJsonText ν (stringify v) v.members v.depth :=
  ⟨stringify v, [], written_stringify v, spaces_nil, (List.append_nil _).symm⟩

end Daloy.Json
