import Mathlib.Tactic.Common

/-! # Brackets around the items of a list

Nothing here mentions a program. A list whose items may be put into groups, and the groups into
groups again, has a flat list of items. What is folded over the groups is folded over the items.
-/

namespace Daloy
set_option autoImplicit false

/-- An item, or a group of what may be groups in turn. -/
inductive Bracketed (α : Type)
  | item (a : α)
  | group (bs : List (Bracketed α))

namespace Bracketed
variable {α β M : Type}

mutual
def flatten : Bracketed α → List α
  | .item a => [a]
  | .group bs => flattenAll bs

def flattenAll : List (Bracketed α) → List α
  | [] => []
  | b :: bs => flatten b ++ flattenAll bs
end

@[simp] theorem flatten_item (a : α) : flatten (.item a) = [a] := rfl

@[simp] theorem flatten_group (bs : List (Bracketed α)) : flatten (.group bs) = flattenAll bs := rfl

@[simp] theorem flattenAll_nil : flattenAll ([] : List (Bracketed α)) = [] := rfl

@[simp] theorem flattenAll_cons (b : Bracketed α) (bs : List (Bracketed α)) :
    flattenAll (b :: bs) = flatten b ++ flattenAll bs := rfl

mutual
theorem induct {P : Bracketed α → Prop} (item : ∀ a, P (.item a))
    (group : ∀ bs : List (Bracketed α), (∀ b ∈ bs, P b) → P (.group bs)) : ∀ b, P b
  | .item a => item a
  | .group bs => group bs (inductAll item group bs)

theorem inductAll {P : Bracketed α → Prop} (item : ∀ a, P (.item a))
    (group : ∀ bs : List (Bracketed α), (∀ b ∈ bs, P b) → P (.group bs)) :
    ∀ bs : List (Bracketed α), ∀ b ∈ bs, P b
  | [], b, hb => absurd hb List.not_mem_nil
  | b :: bs, c, hc => by
    rcases List.mem_cons.mp hc with h | h
    · exact h ▸ induct item group b
    · exact inductAll item group bs c h
end

theorem foldr_flattenAll {op : M → M → M} {e : M} (assoc : ∀ a b c, op (op a b) c = op a (op b c))
    (left_unit : ∀ a, op e a = a) (right_unit : ∀ a, op a e = a) {φ : Bracketed α → M}
    (hgroup : ∀ bs, φ (.group bs) = (bs.map φ).foldr op e) (bs : List (Bracketed α)) :
    (bs.map φ).foldr op e = ((flattenAll bs).map fun a => φ (.item a)).foldr op e := by
  have hfold (xs ys : List M) : (xs ++ ys).foldr op e = op (xs.foldr op e) (ys.foldr op e) := by
    induction xs with
    | nil => exact (left_unit _).symm
    | cons x xs ih => rw [List.cons_append, List.foldr_cons, List.foldr_cons, ih, assoc]
  have hone (b : Bracketed α) : φ b = ((flatten b).map fun a => φ (.item a)).foldr op e := by
    induction b using induct with
    | item a => exact (right_unit _).symm
    | group bs ih =>
      rw [hgroup, flatten_group]
      induction bs with
      | nil => rfl
      | cons b bs ih' =>
        rw [flattenAll_cons, List.map_append, hfold, List.map_cons, List.foldr_cons,
          ih b List.mem_cons_self, ih' fun c hc => ih c (List.mem_cons_of_mem b hc)]
  induction bs with
  | nil => rfl
  | cons b bs ih =>
    rw [flattenAll_cons, List.map_append, hfold, List.map_cons, List.foldr_cons, hone b, ih]

theorem flatMap_flattenAll {φ : Bracketed α → List β}
    (hgroup : ∀ bs, φ (.group bs) = bs.flatMap φ) (bs : List (Bracketed α)) :
    bs.flatMap φ = (flattenAll bs).flatMap fun a => φ (.item a) := by
  have hflat {γ : Type} (f : γ → List β) (xs : List γ) :
      xs.flatMap f = (xs.map f).foldr (fun a b => a ++ b) [] := by
    induction xs with
    | nil => rfl
    | cons x xs ih => rw [List.flatMap_cons, ih, List.map_cons, List.foldr_cons]
  rw [hflat, hflat]
  apply foldr_flattenAll List.append_assoc List.nil_append List.append_nil
  intro bs
  rw [hgroup, hflat]

/-! ## Another value for each item -/

mutual
def map (f : α → β) : Bracketed α → Bracketed β
  | .item a => .item (f a)
  | .group bs => .group (mapAll f bs)

def mapAll (f : α → β) : List (Bracketed α) → List (Bracketed β)
  | [] => []
  | b :: bs => map f b :: mapAll f bs
end

mutual
theorem flatten_map (f : α → β) : ∀ b, flatten (map f b) = (flatten b).map f
  | .item _ => rfl
  | .group bs => flattenAll_mapAll f bs

theorem flattenAll_mapAll (f : α → β) : ∀ bs, flattenAll (mapAll f bs) = (flattenAll bs).map f
  | [] => rfl
  | b :: bs => by
    rw [mapAll, flattenAll_cons, flattenAll_cons, flatten_map f b, flattenAll_mapAll f bs,
      List.map_append]
end

theorem flattenAll_append (bs cs : List (Bracketed α)) :
    flattenAll (bs ++ cs) = flattenAll bs ++ flattenAll cs := by
  induction bs with
  | nil => rfl
  | cons b bs ih => rw [List.cons_append, flattenAll_cons, flattenAll_cons, ih, List.append_assoc]

theorem flattenAll_items (as : List α) : flattenAll (as.map .item) = as := by
  induction as with
  | nil => rfl
  | cons a as ih => rw [List.map_cons, flattenAll_cons, flatten_item, ih, List.singleton_append]

/-! ## Groups at any depth -/

/-- A group with the items in front of it and behind it. -/
inductive Encloses : List (Bracketed α) → List α → List (Bracketed α) → List α → Prop
  | here (before group after : List (Bracketed α)) :
    Encloses (before ++ .group group :: after) (flattenAll before) group (flattenAll after)
  | inside {outer : List (Bracketed α)} {front : List α} {group : List (Bracketed α)} {back : List α}
    (before after : List (Bracketed α)) (h : Encloses outer front group back) :
    Encloses (before ++ .group outer :: after) (flattenAll before ++ front) group
      (back ++ flattenAll after)

namespace Encloses
variable {bs : List (Bracketed α)} {front back : List α} {group : List (Bracketed α)}

theorem head (members : List (Bracketed α)) (bs : List (Bracketed α)) :
    Encloses (.group members :: bs) [] members (flattenAll bs) :=
  .here [] members bs

theorem member {members : List (Bracketed α)} (h : Encloses members front group back)
    (bs : List (Bracketed α)) :
    Encloses (.group members :: bs) front group (back ++ flattenAll bs) :=
  .inside [] bs h

theorem tail (b : Bracketed α) (h : Encloses bs front group back) :
    Encloses (b :: bs) (flatten b ++ front) group back := by
  cases h with
  | here before group after => exact .here (b :: before) group after
  | inside before after h =>
    rw [← List.append_assoc]
    exact .inside (b :: before) after h

theorem append (h : Encloses bs front group back) (cs : List (Bracketed α)) :
    Encloses (bs ++ cs) front group (back ++ flattenAll cs) := by
  cases h with
  | here before group after =>
    rw [List.append_assoc, List.cons_append, ← flattenAll_append]
    exact .here before group (after ++ cs)
  | inside before after h =>
    rw [List.append_assoc, List.append_assoc, List.cons_append, ← flattenAll_append]
    exact .inside before (after ++ cs) h

theorem sublist (h : Encloses bs front group back) : (flattenAll group).Sublist (flattenAll bs) := by
  induction h with
  | here before group after =>
    rw [flattenAll_append, flattenAll_cons, flatten_group]
    exact (List.sublist_append_left _ _).trans (List.sublist_append_right _ _)
  | inside before after h ih =>
    rw [flattenAll_append, flattenAll_cons, flatten_group]
    exact ih.trans ((List.sublist_append_left _ _).trans (List.sublist_append_right _ _))

end Encloses

end Bracketed

end Daloy
