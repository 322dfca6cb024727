import Daloy.Foundations.Unicode
import Mathlib.Data.Nat.Digits.Defs

/-! # JSON values and their texts

Nothing here mentions a program. A value is a tree whose objects list their members in property
order: array indices first, ascending, then the other keys as they were added.

* `insertMember`, `ownOrder`: adding a property to an object, and the order a list of additions
  leaves behind; `Value.WellFormed` says that every object of a value is in that order.
* `deepEq`: equality of JSON values, where the order of members does not matter.
* `stringify`, `parse`: the text of a value and the reader of texts. Numbers are a parameter
  (`NumberText`), with the text of a number and its reader.
-/

namespace Daloy.Json
set_option autoImplicit false

open Daloy.Unicode

/-- A JSON value over the numbers `ν`. -/
inductive Value (ν : Type)
  | null
  | bool (b : Bool)
  | num (n : ν)
  | str (s : JsString)
  | arr (items : List (Value ν))
  | obj (members : List (JsString × Value ν))

/-! ## Property order -/

section Order
variable {α : Type}

/-- `0` to `9`. -/
def isDigit (u : UInt16) : Bool := 0x30 ≤ u.toNat && u.toNat ≤ 0x39

def decimal (s : JsString) : ℕ := s.foldl (fun n u => n * 10 + (u.toNat - 0x30)) 0

/-- An array index: a canonical decimal numeral below `2 ^ 32 - 1`. -/
def arrayIndex (key : JsString) : Option ℕ :=
  if key.all isDigit && !key.isEmpty && (key.head? != some 0x30 || key.length == 1) &&
      decimal key < 0xffffffff then
    some (decimal key)
  else none

/-- Whether the key `k`, new to an object, goes before its member with the key `l`. -/
def goesBefore (k l : JsString) : Bool :=
  match arrayIndex k, arrayIndex l with
  | some i, some j => i < j
  | some _, none => true
  | none, _ => false

def placeMember (k : JsString) (v : α) : List (JsString × α) → List (JsString × α)
  | [] => [(k, v)]
  | (l, w) :: rest =>
    if goesBefore k l then (k, v) :: (l, w) :: rest else (l, w) :: placeMember k v rest

def insertMember (members : List (JsString × α)) (member : JsString × α) : List (JsString × α) :=
  if members.any (·.1 == member.1) then
    members.map fun m => if m.1 = member.1 then member else m
  else placeMember member.1 member.2 members

def ownOrder (members : List (JsString × α)) : List (JsString × α) := members.foldl insertMember []

end Order

variable {ν : Type}

def OwnOrdered {α : Type} (members : List (JsString × α)) : Prop :=
  (members.map Prod.fst).Nodup ∧ members.Pairwise fun m m' => goesBefore m'.1 m.1 = false

mutual
def Value.WellFormed : Value ν → Prop
  | .arr items => WellFormedItems items
  | .obj members => OwnOrdered members ∧ WellFormedMembers members
  | _ => True

def WellFormedItems : List (Value ν) → Prop
  | [] => True
  | v :: items => v.WellFormed ∧ WellFormedItems items

def WellFormedMembers : List (JsString × Value ν) → Prop
  | [] => True
  | (_, v) :: members => v.WellFormed ∧ WellFormedMembers members
end

/-! ## Members in order -/

section Order
variable {α : Type}

theorem placeMember_end (k : JsString) (v : α) {members : List (JsString × α)}
    (h : ∀ m ∈ members, goesBefore k m.1 = false) : placeMember k v members = members ++ [(k, v)] := by
  induction members with
  | nil => rfl
  | cons m members ih =>
    obtain ⟨l, w⟩ := m
    rw [placeMember, if_neg (by simp [h (l, w) (List.mem_cons_self ..)]),
      ih fun m hm => h m (List.mem_cons_of_mem _ hm)]
    rfl

theorem foldl_insertMember {before after : List (JsString × α)} (h : OwnOrdered (before ++ after)) :
    after.foldl insertMember before = before ++ after := by
  induction after generalizing before with
  | nil => simp
  | cons m after ih =>
    have hassoc : before ++ m :: after = before ++ [m] ++ after := by simp
    have hstep : insertMember before m = before ++ [m] := by
      obtain ⟨hnodup, hpair⟩ := h
      have hnew : before.any (fun b => b.1 == m.1) = false := by
        rw [List.map_append, List.nodup_append] at hnodup
        rw [List.any_eq_false]
        intro b hb
        simpa using hnodup.2.2 b.1 (List.mem_map_of_mem hb) m.1 (by simp)
      rw [insertMember, if_neg (by simp [hnew])]
      apply placeMember_end
      intro b hb
      exact (List.pairwise_append.mp hpair).2.2 b hb m (List.mem_cons_self ..)
    rw [List.foldl_cons, hstep, ih (hassoc ▸ h), hassoc]

theorem OwnOrdered.ownOrder_eq {members : List (JsString × α)} (h : OwnOrdered members) :
    ownOrder members = members :=
  foldl_insertMember h

end Order

/-! ## Deep equality -/

section DeepEq
variable [DecidableEq ν]

mutual
def deepEq : Value ν → Value ν → Bool
  | .null, .null => true
  | .bool a, .bool b => a == b
  | .num a, .num b => a == b
  | .str s, .str t => s == t
  | .arr items, .arr items' => deepEqItems items items'
  | .obj members, .obj members' =>
    members.length == members'.length && deepEqMembers members members'
  | _, _ => false

def deepEqItems : List (Value ν) → List (Value ν) → Bool
  | [], [] => true
  | v :: items, w :: items' => deepEq v w && deepEqItems items items'
  | _, _ => false

def deepEqMembers : List (JsString × Value ν) → List (JsString × Value ν) → Bool
  | [], _ => true
  | (k, v) :: members, members' =>
    (match members'.lookup k with
      | some w => deepEq v w
      | none => false) && deepEqMembers members members'
end

end DeepEq

theorem lookup_of_mem {members : List (JsString × Value ν)} {k : JsString} {v : Value ν}
    (hnodup : (members.map Prod.fst).Nodup) (h : (k, v) ∈ members) :
    members.lookup k = some v := by
  induction members with
  | nil => simp at h
  | cons m members ih =>
    obtain ⟨l, w⟩ := m
    simp only [List.map_cons, List.nodup_cons] at hnodup
    rcases List.mem_cons.mp h with heq | hrest
    · obtain ⟨rfl, rfl⟩ := Prod.mk.inj heq
      simp
    · have hne : k ≠ l := by
        rintro rfl
        exact hnodup.1 (List.mem_map.mpr ⟨(k, v), hrest, rfl⟩)
      have hbeq : (k == l) = false := by simpa using hne
      simp only [List.lookup_cons, hbeq]
      exact ih hnodup.2 hrest

mutual
theorem deepEq_refl [DecidableEq ν] : ∀ v : Value ν, v.WellFormed → deepEq v v = true
  | .null, _ => rfl
  | .bool b, _ => by simp [deepEq]
  | .num n, _ => by simp [deepEq]
  | .str s, _ => by simp [deepEq]
  | .arr items, h => by
    rw [Value.WellFormed] at h
    rw [deepEq]
    exact deepEqItems_refl items h
  | .obj members, h => by
    rw [Value.WellFormed] at h
    rw [deepEq, beq_self_eq_true, Bool.true_and]
    exact deepEqMembers_refl members members h.1.1 (fun m hm => hm) h.2

theorem deepEqItems_refl [DecidableEq ν] :
    ∀ items : List (Value ν), WellFormedItems items → deepEqItems items items = true
  | [], _ => by simp [deepEqItems]
  | v :: items, h => by
    rw [WellFormedItems] at h
    rw [deepEqItems, deepEq_refl v h.1, deepEqItems_refl items h.2]
    rfl

theorem deepEqMembers_refl [DecidableEq ν] :
    ∀ (members all : List (JsString × Value ν)), (all.map Prod.fst).Nodup →
      (∀ m ∈ members, m ∈ all) → WellFormedMembers members → deepEqMembers members all = true
  | [], _, _, _, _ => by simp [deepEqMembers]
  | (k, v) :: members, all, hnodup, hmem, h => by
    rw [WellFormedMembers] at h
    rw [deepEqMembers, lookup_of_mem hnodup (hmem (k, v) (List.mem_cons_self ..))]
    dsimp only
    rw [deepEq_refl v h.1,
      deepEqMembers_refl members all hnodup (fun m hm => hmem m (List.mem_cons_of_mem _ hm)) h.2]
    rfl
end

/-! ## Texts -/

def hexUnit (n : ℕ) : UInt16 := UInt16.ofNat (if n < 10 then 0x30 + n else 0x57 + n)

def unicodeEscape (u : UInt16) : JsString :=
  [0x5c, 0x75, hexUnit (u.toNat / 4096), hexUnit (u.toNat / 256 % 16), hexUnit (u.toNat / 16 % 16),
    hexUnit (u.toNat % 16)]

/-- One code unit inside a quoted string, when it is not half of a surrogate pair. -/
def quoteUnit (u : UInt16) : JsString :=
  if u = 0x22 then [0x5c, 0x22]
  else if u = 0x5c then [0x5c, 0x5c]
  else if u = 0x08 then [0x5c, 0x62]
  else if u = 0x0c then [0x5c, 0x66]
  else if u = 0x0a then [0x5c, 0x6e]
  else if u = 0x0d then [0x5c, 0x72]
  else if u = 0x09 then [0x5c, 0x74]
  else if u.toNat < 0x20 || isHighSurrogate u || isLowSurrogate u then unicodeEscape u
  else [u]

def quoteUnits : JsString → JsString
  | [] => []
  | [u] => quoteUnit u
  | u :: v :: rest =>
    if isHighSurrogate u && isLowSurrogate v then u :: v :: quoteUnits rest
    else quoteUnit u ++ quoteUnits (v :: rest)

def quote (s : JsString) : JsString := 0x22 :: (quoteUnits s ++ [0x22])

def isNumberUnit (u : UInt16) : Bool :=
  isDigit u || u == 0x2b || u == 0x2d || u == 0x2e || u == 0x45 || u == 0x65

/-- Numbers with a text that is a JSON number and that reads back as the number it was made of. -/
class NumberText (ν : Type) where
  write : ν → JsString
  read : JsString → Option ν
  read_write : ∀ n, read (write n) = some n
  write_ne_nil : ∀ n, write n ≠ []
  write_units : ∀ n, ∀ u ∈ write n, isNumberUnit u = true

/-! ## Natural numbers as JSON numbers -/

def digitUnit (d : ℕ) : UInt16 := UInt16.ofNat (0x30 + d)

theorem digitUnit_toNat {d : ℕ} (h : d < 10) : (digitUnit d).toNat = 0x30 + d := by
  rw [digitUnit, UInt16.toNat_ofNat_of_lt' (by simp [UInt16.size]; omega)]

theorem isDigit_digitUnit {d : ℕ} (h : d < 10) : isDigit (digitUnit d) = true := by
  simp only [isDigit, digitUnit_toNat h, Bool.and_eq_true, decide_eq_true_eq]
  omega

def decimalDigits (n : ℕ) : List ℕ := if n = 0 then [0] else (Nat.digits 10 n).reverse

theorem decimalDigits_lt {n d : ℕ} (h : d ∈ decimalDigits n) : d < 10 := by
  unfold decimalDigits at h
  split at h
  · obtain rfl : d = 0 := by simpa using h
    omega
  · exact Nat.digits_lt_base (by omega) (List.mem_reverse.mp h)

theorem decimal_decimalDigits (n : ℕ) : decimal ((decimalDigits n).map digitUnit) = n := by
  have hfold : ∀ (ds : List ℕ) (acc : ℕ), (∀ d ∈ ds, d < 10) →
      (ds.map digitUnit).foldl (fun n u => n * 10 + (u.toNat - 0x30)) acc =
        ds.foldl (fun n d => n * 10 + d) acc := by
    intro ds
    induction ds with
    | nil => intro acc _; rfl
    | cons d ds ih =>
      intro acc h
      rw [List.map_cons, List.foldl_cons, List.foldl_cons,
        digitUnit_toNat (h d (List.mem_cons_self ..)), Nat.add_sub_cancel_left,
        ih _ fun e he => h e (List.mem_cons_of_mem _ he)]
  rw [decimal, hfold _ 0 fun d hd => decimalDigits_lt hd, decimalDigits]
  split
  · next h => simp [h]
  · rw [List.foldl_reverse]
    conv_rhs => rw [← Nat.ofDigits_digits 10 n]
    induction Nat.digits 10 n with
    | nil => rfl
    | cons d ds ih =>
      rw [List.foldr_cons, ih, Nat.ofDigits_cons]
      omega

/-- Natural numbers in base 10. -/
instance : NumberText ℕ where
  write n := (decimalDigits n).map digitUnit
  read s := if s.all isDigit && !s.isEmpty then some (decimal s) else none
  read_write n := by
    have hdigits : ((decimalDigits n).map digitUnit).all isDigit = true := by
      simp only [List.all_map, List.all_eq_true, Function.comp]
      exact fun d hd => isDigit_digitUnit (decimalDigits_lt hd)
    have hne : ((decimalDigits n).map digitUnit).isEmpty = false := by
      unfold decimalDigits
      split
      · rfl
      · next h => simp [Nat.digits_ne_nil_iff_ne_zero.mpr h]
    rw [hdigits, hne, decimal_decimalDigits]
    rfl
  write_ne_nil n := by
    unfold decimalDigits
    split
    · simp
    · next h => simp [Nat.digits_ne_nil_iff_ne_zero.mpr h]
  write_units n u hu := by
    obtain ⟨d, hd, rfl⟩ := List.mem_map.mp hu
    simp [isNumberUnit, isDigit_digitUnit (decimalDigits_lt hd)]
/-! ## The text of a value -/

section Text
variable [NumberText ν]

mutual
def stringify : Value ν → JsString
  | .null => js "null"
  | .bool true => js "true"
  | .bool false => js "false"
  | .num n => NumberText.write n
  | .str s => quote s
  | .arr [] => js "[]"
  | .arr (v :: items) => 0x5b :: (stringify v ++ stringifyItems items)
  | .obj [] => js "\x7b\x7d"
  | .obj ((k, v) :: members) =>
    0x7b :: (quote k ++ 0x3a :: (stringify v ++ stringifyMembers members))

def stringifyItems : List (Value ν) → JsString
  | [] => [0x5d]
  | v :: items => 0x2c :: (stringify v ++ stringifyItems items)

def stringifyMembers : List (JsString × Value ν) → JsString
  | [] => [0x7d]
  | (k, v) :: members => 0x2c :: (quote k ++ 0x3a :: (stringify v ++ stringifyMembers members))
end

end Text

end Daloy.Json
