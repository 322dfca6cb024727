import Daloy.Foundations.DoubleArithmetic
import Daloy.Security.SafeJson

/-! # Plain data and what JSON keeps of it

The payload and the header of a token are objects of plain data. JSON has no text for `undefined`,
which it leaves out of an object, nor for the numbers that are not finite, which become `null`.

* `wellFormed_toJson`, `lookup_membersToJson`: what is kept, and under which key.
* `lookup_insertMember`, `ownOrdered_insertMember`: a member set on an object.
-/

namespace Daloy.Jwt
set_option autoImplicit false

open Daloy.Unicode Daloy.Json Daloy.Security

/-- The numbers of JSON texts are doubles. -/
class JsonDouble (ν : Type) extends NumberText ν where
  quantity : ν → Quantity
  isDouble : ∀ n x, quantity n = .finite x → Quantity.IsDouble x

/-- Plain data, with what JSON has no text for. -/
inductive Data (ν : Type)
  | undefined
  | null
  | bool (b : Bool)
  | num (n : ν)
  | nan
  | infinity (negative : Bool)
  | str (s : JsString)
  | arr (items : List (Data ν))
  | obj (members : List (JsString × Data ν))

section
variable {ν : Type}

/-! ## What JSON keeps of data -/

mutual

/-- What `JSON.stringify` writes, if it writes anything. -/
def toJson : Data ν → Option (Value ν)
  | .undefined => none
  | .null | .nan | .infinity _ => some .null
  | .bool b => some (.bool b)
  | .num n => some (.num n)
  | .str s => some (.str s)
  | .arr items => some (.arr (itemsToJson items))
  | .obj members => some (.obj (membersToJson members))

def itemsToJson : List (Data ν) → List (Value ν)
  | [] => []
  | item :: rest => (toJson item).getD .null :: itemsToJson rest

def membersToJson : List (JsString × Data ν) → List (JsString × Value ν)
  | [] => []
  | (key, data) :: rest =>
    match toJson data with
    | some value => (key, value) :: membersToJson rest
    | none => membersToJson rest

end

mutual

def Data.WellFormed : Data ν → Prop
  | .arr items => ItemsWellFormed items
  | .obj members => OwnOrdered members ∧ MembersWellFormed members
  | _ => True

def ItemsWellFormed : List (Data ν) → Prop
  | [] => True
  | item :: rest => item.WellFormed ∧ ItemsWellFormed rest

def MembersWellFormed : List (JsString × Data ν) → Prop
  | [] => True
  | (_, data) :: rest => data.WellFormed ∧ MembersWellFormed rest

end

theorem keys_membersToJson (members : List (JsString × Data ν)) :
    ((membersToJson members).map Prod.fst).Sublist (members.map Prod.fst) := by
  induction members with
  | nil => exact List.Sublist.slnil
  | cons m rest ih =>
    obtain ⟨key, data⟩ := m
    rw [membersToJson]
    cases toJson data with
    | some value => exact ih.cons_cons key
    | none => exact ih.cons key

theorem ownOrdered_membersToJson {members : List (JsString × Data ν)} (h : OwnOrdered members) :
    OwnOrdered (membersToJson members) := by
  rw [ownOrdered_iff] at h ⊢
  exact ⟨h.1.sublist (keys_membersToJson members), h.2.sublist (keys_membersToJson members)⟩

mutual

theorem wellFormed_toJson : ∀ (data : Data ν) (value : Value ν), data.WellFormed →
    toJson data = some value → value.WellFormed
  | .undefined, _, _, h => by cases h
  | .null, _, _, h => by cases h; trivial
  | .nan, _, _, h => by cases h; trivial
  | .infinity _, _, _, h => by cases h; trivial
  | .bool _, _, _, h => by cases h; trivial
  | .num _, _, _, h => by cases h; trivial
  | .str _, _, _, h => by cases h; trivial
  | .arr items, value, hdata, h => by
    rw [toJson, Option.some.injEq] at h
    rw [← h, Value.WellFormed]
    rw [Data.WellFormed] at hdata
    exact wellFormed_itemsToJson items hdata
  | .obj members, value, hdata, h => by
    rw [toJson, Option.some.injEq] at h
    rw [← h, Value.WellFormed]
    rw [Data.WellFormed] at hdata
    exact ⟨ownOrdered_membersToJson hdata.1, wellFormed_membersToJson members hdata.2⟩

theorem wellFormed_itemsToJson : ∀ items : List (Data ν), ItemsWellFormed items →
    WellFormedItems (itemsToJson items)
  | [], _ => trivial
  | item :: rest, h => by
    rw [ItemsWellFormed] at h
    rw [itemsToJson, WellFormedItems]
    refine ⟨?_, wellFormed_itemsToJson rest h.2⟩
    cases hitem : toJson item with
    | none => trivial
    | some value => exact wellFormed_toJson item value h.1 hitem

theorem wellFormed_membersToJson : ∀ members : List (JsString × Data ν), MembersWellFormed members →
    WellFormedMembers (membersToJson members)
  | [], _ => trivial
  | (key, data) :: rest, h => by
    rw [MembersWellFormed] at h
    rw [membersToJson]
    cases hdata : toJson data with
    | none => exact wellFormed_membersToJson rest h.2
    | some value =>
      rw [WellFormedMembers]
      exact ⟨wellFormed_toJson data value h.1 hdata, wellFormed_membersToJson rest h.2⟩

end

theorem lookup_absent {α : Type} {members : List (JsString × α)} {key : JsString}
    (h : key ∉ members.map Prod.fst) : members.lookup key = none := by
  rw [List.lookup_eq_none_iff]
  intro m hm
  rw [bne_iff_ne]
  rintro rfl
  exact h (List.mem_map.mpr ⟨m, hm, rfl⟩)

theorem lookup_membersToJson {members : List (JsString × Data ν)}
    (h : (members.map Prod.fst).Nodup) (key : JsString) :
    (membersToJson members).lookup key = (members.lookup key).bind toJson := by
  induction members with
  | nil => rfl
  | cons m rest ih =>
    obtain ⟨k, data⟩ := m
    rw [List.map_cons, List.nodup_cons] at h
    rw [membersToJson, List.lookup_cons]
    by_cases hkey : key = k
    · subst hkey
      simp only [beq_self_eq_true]
      have habsent : rest.lookup key = none := lookup_absent h.1
      cases hdata : toJson data with
      | some value => simp [hdata]
      | none => simp [hdata, ih h.2, habsent]
    · have hbeq : (key == k) = false := by simpa using hkey
      rw [hbeq]
      cases toJson data with
      | some value =>
        simp only [List.lookup_cons, hbeq]
        exact ih h.2
      | none => exact ih h.2

/-- An object of plain data. -/
structure PlainObject (ν : Type) where
  members : List (JsString × Data ν)
  ordered : OwnOrdered members
  wellFormed : MembersWellFormed members

def PlainObject.json (object : PlainObject ν) : List (JsString × Value ν) :=
  membersToJson object.members

theorem wellFormed_json (payload : PlainObject ν) : (Value.obj payload.json).WellFormed := by
  rw [Value.WellFormed]
  exact ⟨ownOrdered_membersToJson payload.ordered, wellFormed_membersToJson _ payload.wellFormed⟩

theorem lookup_json (payload : PlainObject ν) (key : JsString) :
    payload.json.lookup key = (payload.members.lookup key).bind toJson :=
  lookup_membersToJson payload.ordered.1 key

def PlainObject.get (object : PlainObject ν) (name : String) : Data ν :=
  (object.members.lookup (js name)).getD .undefined

/-! ## Setting a member -/

theorem any_key_iff {α : Type} {members : List (JsString × α)} {key : JsString} :
    members.any (·.1 == key) = true ↔ key ∈ members.map Prod.fst := by
  simp [List.any_eq_true]

theorem insertMember_eq {α : Type} {members : List (JsString × α)} {key : JsString} (value : α)
    (hindex : arrayIndex key = none) :
    insertMember members (key, value) =
      if key ∈ members.map Prod.fst then members.map fun m => if m.1 = key then (key, value) else m
      else members ++ [(key, value)] := by
  rw [insertMember]
  by_cases hkey : key ∈ members.map Prod.fst
  · rw [if_pos (any_key_iff.mpr hkey), if_pos hkey]
  · rw [if_neg (fun h => hkey (any_key_iff.mp h)), if_neg hkey]
    refine placeMember_end key value fun m _ => ?_
    rw [goesBefore, hindex]

theorem keys_insertMember {α : Type} {members : List (JsString × α)} {key : JsString} (value : α)
    (hindex : arrayIndex key = none) :
    (insertMember members (key, value)).map Prod.fst =
      if key ∈ members.map Prod.fst then members.map Prod.fst else members.map Prod.fst ++ [key] := by
  rw [insertMember_eq value hindex]
  split
  · rw [List.map_map]
    refine List.map_congr_left fun m _ => ?_
    rw [Function.comp_apply]
    split
    · rename_i h
      exact h.symm
    · rfl
  · rw [List.map_append, List.map_singleton]

theorem ownOrdered_insertMember {α : Type} {members : List (JsString × α)} {key : JsString} (value : α)
    (hindex : arrayIndex key = none) (h : OwnOrdered members) :
    OwnOrdered (insertMember members (key, value)) := by
  rw [ownOrdered_iff] at h ⊢
  rw [keys_insertMember value hindex]
  split
  · exact h
  · rename_i hnew
    refine ⟨List.nodup_append.mpr ⟨h.1, List.nodup_singleton key, ?_⟩, ?_⟩
    · intro k hk l hl
      rw [List.mem_singleton] at hl
      subst hl
      rintro rfl
      exact hnew hk
    · rw [List.pairwise_append]
      refine ⟨h.2, List.pairwise_singleton _ _, fun k _ l hl => ?_⟩
      rw [List.mem_singleton.mp hl, goesBefore, hindex]

theorem lookup_replace {α : Type} (members : List (JsString × α)) (key k : JsString) (value : α) :
    (members.map fun m => if m.1 = key then (key, value) else m).lookup k =
      if k = key ∧ key ∈ members.map Prod.fst then some value else members.lookup k := by
  induction members with
  | nil => simp
  | cons m rest ih =>
    obtain ⟨l, w⟩ := m
    simp only [List.map_cons, List.mem_cons]
    by_cases hl : l = key
    · subst hl
      rw [if_pos rfl, List.lookup_cons]
      by_cases hk : k = l
      · simp [hk]
      · have hbeq : (k == l) = false := by simpa using hk
        rw [hbeq, ih]
        simp [hk, List.lookup_cons, hbeq]
    · rw [if_neg hl, List.lookup_cons, List.lookup_cons, ih]
      have hne : key ≠ l := Ne.symm hl
      by_cases hk : k = l
      · subst hk
        simp [hl]
      · have hbeq : (k == l) = false := by simpa using hk
        simp only [hbeq, hne, false_or]

theorem lookup_insertMember {α : Type} {members : List (JsString × α)} {key : JsString} (value : α)
    (hindex : arrayIndex key = none) (k : JsString) :
    (insertMember members (key, value)).lookup k = if k = key then some value else members.lookup k := by
  rw [insertMember_eq value hindex]
  split
  · rename_i hkey
    rw [lookup_replace]
    simp [hkey]
  · rename_i hnew
    rw [List.lookup_append]
    by_cases hk : k = key
    · subst hk
      have habsent : members.lookup k = none := lookup_absent hnew
      simp [habsent]
    · have hbeq : (k == key) = false := by simpa using hk
      simp [hk, List.lookup_cons, hbeq]

theorem membersWellFormed_insertMember {members : List (JsString × Data ν)} {key : JsString}
    {data : Data ν} (hindex : arrayIndex key = none) (h : MembersWellFormed members)
    (hdata : data.WellFormed) : MembersWellFormed (insertMember members (key, data)) := by
  have hiff : ∀ ms : List (JsString × Data ν), MembersWellFormed ms ↔ ∀ m ∈ ms, m.2.WellFormed := by
    intro ms
    induction ms with
    | nil => simp [MembersWellFormed]
    | cons m rest ih =>
      obtain ⟨k, d⟩ := m
      rw [MembersWellFormed, ih, List.forall_mem_cons]
  rw [hiff] at h ⊢
  rw [insertMember_eq data hindex]
  split
  · intro m hm
    obtain ⟨other, hother, rfl⟩ := List.mem_map.mp hm
    split
    · exact hdata
    · exact h other hother
  · intro m hm
    rw [List.mem_append, List.mem_singleton] at hm
    obtain hm | rfl := hm
    · exact h m hm
    · exact hdata

end

section
variable {ν : Type} [JsonDouble ν]

def Data.number? : Data ν → Option Quantity
  | .num n => some (JsonDouble.quantity n)
  | .nan => some .nan
  | .infinity negative => some (.infinity negative)
  | _ => none

end

end Daloy.Jwt
