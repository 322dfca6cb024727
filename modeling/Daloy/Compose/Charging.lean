import Daloy.Foundations.Brackets
import Mathlib.Data.List.Basic

/-! # What is due at a checkpoint

Nothing here mentions hooks. Some items of a list have a checkpoint, some have dues, and the items
stand in groups. At a checkpoint the dues met so far are paid group by group, from the inside out. A
group that has a checkpoint keeps its dues to itself.

* `unbroken_of_balanced`, `agreesAll_of_unbroken`: when what is paid is what all items up to the
  checkpoint owe.
-/

namespace Daloy.Compose
set_option autoImplicit false

open Bracketed

/-- A checkpoint, what is paid there for each group around it, and all that is due before it. -/
structure Checkpoint (γ : Type) where
  hook : γ
  levels : List (List γ)
  before : List γ

section Walk
variable {α γ : Type} (check : α → Option γ) (dues : α → List γ)

def HasCheck (a : α) : Bool := (check a).isSome

def Owes (a : α) : Bool := !(dues a).isEmpty

def left : Bracketed α → List γ
  | .item a => dues a
  | .group bs => if (flattenAll bs).any (HasCheck check) then []
    else (flattenAll bs).flatMap dues

mutual
def checkpoints (outer : List (List γ)) (pending before : List γ) :
    Bracketed α → List (Checkpoint γ)
  | .item a =>
    match check a with
    | none => []
    | some hook => [⟨hook, (pending ++ dues a) :: outer, before ++ dues a⟩]
  | .group bs => checkpointsAll (pending :: outer) [] before bs

def checkpointsAll (outer : List (List γ)) (pending before : List γ) :
    List (Bracketed α) → List (Checkpoint γ)
  | [] => []
  | b :: bs => checkpoints outer pending before b ++
    checkpointsAll outer (pending ++ left check dues b) (before ++ (flatten b).flatMap dues) bs
end

def Checkpoint.Agrees (x : Checkpoint γ) : Prop :=
  (x.levels.filter fun l => !l.isEmpty) = [x.before].filter fun l => !l.isEmpty

/-- As much is paid as is due, and for one group only. -/
structure Checkpoint.Balanced (x : Checkpoint γ) : Prop where
  total : x.levels.flatten.length = x.before.length
  one : (x.levels.filter fun l => !l.isEmpty).length ≤ 1

/-- Some `p` stands in front of some `q`, or is one. -/
def leads (p q : α → Bool) : List α → Bool
  | [] => false
  | x :: xs => p x && (x :: xs).any q || leads p q xs

/-- No group with a checkpoint has dues when a checkpoint follows it, or dues that its own
checkpoint meets when something is due in front of it. -/
def Unbroken (normal owing : α → Bool) (bs : List (Bracketed α)) : Prop :=
  ∀ front group back, Encloses bs front group back → (flattenAll group).any normal = true →
    ((flattenAll group).any owing = true → back.any normal = false) ∧
    (leads owing normal (flattenAll group) = true → front.any owing = false)

end Walk

/-! ## Lists -/

section Lists
variable {α : Type} {p q : α → Bool}

theorem leads_append (xs ys : List α) :
    leads p q (xs ++ ys) = (leads p q xs || leads p q ys || xs.any p && ys.any q) := by
  induction xs with
  | nil => simp [leads]
  | cons x xs ih =>
    rw [List.cons_append, leads, leads, ih, List.any_cons, List.any_cons, List.any_append,
      List.any_cons]
    cases p x <;> cases q x <;> cases xs.any q <;> cases leads p q xs <;> cases leads p q ys <;>
      cases xs.any p <;> cases ys.any q <;> rfl

theorem leads_eq_false_append {xs ys : List α} (h : leads p q (xs ++ ys) = false) :
    leads p q xs = false ∧ leads p q ys = false ∧ (xs.any p = true → ys.any q = false) := by
  rw [leads_append, Bool.or_eq_false_iff, Bool.or_eq_false_iff, Bool.and_eq_false_iff] at h
  obtain ⟨⟨hxs, hys⟩, hany⟩ := h
  refine ⟨hxs, hys, ?_⟩
  intro hp
  rcases hany with h | h
  · rw [hp] at h
    exact absurd h.symm Bool.false_ne_true
  · exact h

theorem any_of_sublist {xs ys : List α} (h : xs.Sublist ys) (hany : xs.any p = true) :
    ys.any p = true := by
  obtain ⟨x, hx, hp⟩ := List.any_eq_true.mp hany
  exact List.any_eq_true.mpr ⟨x, h.subset hx, hp⟩

theorem leads_of_sublist {xs ys : List α} (h : xs.Sublist ys) (hleads : leads p q xs = true) :
    leads p q ys = true := by
  induction h with
  | slnil => exact hleads
  | cons y h ih => rw [leads, ih hleads, Bool.or_true]
  | cons_cons x h ih =>
    rw [leads, Bool.or_eq_true, Bool.and_eq_true] at hleads ⊢
    rcases hleads with ⟨hp, hq⟩ | hleads
    · exact .inl ⟨hp, any_of_sublist (h.cons_cons x) hq⟩
    · exact .inr (ih hleads)

end Lists

section Walk
variable {α γ : Type} {check : α → Option γ} {dues : α → List γ}

theorem flatMap_eq_nil_of_owes {as : List α} (h : as.any (Owes dues) = false) :
    as.flatMap dues = [] := by
  rw [List.flatMap_eq_nil_iff]
  intro a ha
  have hnot := List.any_eq_false.mp h a ha
  simpa [Owes] using hnot

theorem flatMap_ne_nil_of_owes {as : List α} (h : as.any (Owes dues) = true) :
    as.flatMap dues ≠ [] := by
  obtain ⟨a, ha, howes⟩ := List.any_eq_true.mp h
  intro hnil
  have hdues := List.flatMap_eq_nil_iff.mp hnil a ha
  simp [Owes, hdues] at howes

theorem left_cases (b : Bracketed α) :
    left check dues b = (flatten b).flatMap dues ∨
      (left check dues b = [] ∧ (flatten b).any (HasCheck check) = true) := by
  cases b with
  | item a =>
    left
    rw [left, flatten_item, List.flatMap_singleton]
  | group bs =>
    rw [left, flatten_group]
    cases hany : (flattenAll bs).any (HasCheck check) with
    | true => exact .inr ⟨rfl, rfl⟩
    | false => exact .inl rfl

theorem flatMap_left {bs : List (Bracketed α)} (h : (flattenAll bs).any (HasCheck check) = false) :
    bs.flatMap (left check dues) = (flattenAll bs).flatMap dues := by
  induction bs with
  | nil => rfl
  | cons b bs ih =>
    rw [flattenAll_cons, List.any_append, Bool.or_eq_false_iff] at h
    rw [List.flatMap_cons, flattenAll_cons, List.flatMap_append, ih h.2]
    rcases left_cases b with hleft | ⟨-, hcheck⟩
    · rw [hleft]
    · rw [h.1] at hcheck
      exact absurd hcheck Bool.false_ne_true

theorem length_left_le (check : α → Option γ) (dues : α → List γ) (b : Bracketed α) :
    (left check dues b).length ≤ ((flatten b).flatMap dues).length := by
  rcases left_cases b with h | ⟨h, -⟩
  · exact Nat.le_of_eq (congrArg List.length h)
  · rw [h]
    exact Nat.zero_le _

mutual
theorem checkpoints_eq_nil (outer : List (List γ)) (pending before : List γ) :
    ∀ b : Bracketed α, checkpoints check dues outer pending before b = [] ↔
      (flatten b).any (HasCheck check) = false
  | .item a => by
    rw [checkpoints, flatten_item, List.any_cons, List.any_nil, Bool.or_false, HasCheck]
    cases check a <;> simp
  | .group bs => checkpointsAll_eq_nil (pending :: outer) [] before bs

theorem checkpointsAll_eq_nil (outer : List (List γ)) (pending before : List γ) :
    ∀ bs : List (Bracketed α), checkpointsAll check dues outer pending before bs = [] ↔
      (flattenAll bs).any (HasCheck check) = false
  | [] => by simp [checkpointsAll]
  | b :: bs => by
    rw [checkpointsAll, List.append_eq_nil_iff, checkpoints_eq_nil outer pending before b,
      checkpointsAll_eq_nil outer _ _ bs, flattenAll_cons, List.any_append, Bool.or_eq_false_iff]
end

theorem checkpointsAll_append (outer : List (List γ)) (pending before : List γ)
    (bs cs : List (Bracketed α)) :
    checkpointsAll check dues outer pending before (bs ++ cs) =
      checkpointsAll check dues outer pending before bs ++
        checkpointsAll check dues outer (pending ++ bs.flatMap (left check dues))
          (before ++ (flattenAll bs).flatMap dues) cs := by
  induction bs generalizing pending before with
  | nil => simp [checkpointsAll]
  | cons b bs ih =>
    rw [List.cons_append, checkpointsAll, checkpointsAll, ih, List.flatMap_cons, flattenAll_cons,
      List.flatMap_append]
    simp only [List.append_assoc]

/-! ## What is paid is due -/

/-- What is known of a checkpoint: the outer groups pay what they had, and no group pays more than
what came up since. -/
structure Within (outer : List (List γ)) (pending before : List γ) (x : Checkpoint γ) : Prop where
  levels : ∃ inner, x.levels = inner ++ outer ∧
    before.length + inner.flatten.length ≤ x.before.length + pending.length
  before : before.length ≤ x.before.length

mutual
theorem within_of_mem (outer : List (List γ)) (pending before : List γ) :
    ∀ (b : Bracketed α), ∀ x ∈ checkpoints check dues outer pending before b,
      Within outer pending before x
  | .item a, x, hx => by
    rw [checkpoints] at hx
    split at hx
    · simp at hx
    · rw [List.mem_singleton] at hx
      subst hx
      refine ⟨⟨[pending ++ dues a], rfl, ?_⟩, ?_⟩
      · simp only [List.flatten_cons, List.flatten_nil, List.append_nil, List.length_append]
        omega
      · rw [List.length_append]
        omega
  | .group bs, x, hx => by
    obtain ⟨⟨inner, hlevels, hle⟩, hbefore⟩ :=
      withinAll_of_mem (pending :: outer) [] before bs x hx
    refine ⟨⟨inner ++ [pending], ?_, ?_⟩, hbefore⟩
    · rw [hlevels, List.append_assoc, List.singleton_append]
    · rw [List.flatten_append, List.length_append, List.flatten_singleton]
      rw [List.length_nil] at hle
      omega

theorem withinAll_of_mem (outer : List (List γ)) (pending before : List γ) :
    ∀ (bs : List (Bracketed α)), ∀ x ∈ checkpointsAll check dues outer pending before bs,
      Within outer pending before x
  | [], x, hx => by simp [checkpointsAll] at hx
  | b :: bs, x, hx => by
    rw [checkpointsAll, List.mem_append] at hx
    rcases hx with hx | hx
    · exact within_of_mem outer pending before b x hx
    · obtain ⟨⟨inner, hlevels, hle⟩, hbefore⟩ := withinAll_of_mem outer _ _ bs x hx
      have hleft := length_left_le check dues b
      rw [List.length_append, List.length_append] at hle
      rw [List.length_append] at hbefore
      exact ⟨⟨inner, hlevels, by omega⟩, by omega⟩
end

mutual
theorem exists_due (outer : List (List γ)) (pending before : List γ) :
    ∀ b : Bracketed α, leads (Owes dues) (HasCheck check) (flatten b) = true →
      ∃ x ∈ checkpoints check dues outer pending before b, before.length < x.before.length
  | .item a, h => by
    rw [flatten_item, leads, leads, Bool.or_false, List.any_cons, List.any_nil, Bool.or_false,
      Bool.and_eq_true, HasCheck] at h
    obtain ⟨howes, hcheck⟩ := h
    obtain ⟨hook, hhook⟩ := Option.isSome_iff_exists.mp hcheck
    refine ⟨⟨hook, (pending ++ dues a) :: outer, before ++ dues a⟩, ?_, ?_⟩
    · rw [checkpoints, hhook]
      exact List.mem_singleton_self _
    · have hpos : 0 < (dues a).length := by
        apply List.length_pos_of_ne_nil
        intro hnil
        simp [Owes, hnil] at howes
      rw [List.length_append]
      omega
  | .group bs, h => exists_dueAll (pending :: outer) [] before bs h

theorem exists_dueAll (outer : List (List γ)) (pending before : List γ) :
    ∀ bs : List (Bracketed α), leads (Owes dues) (HasCheck check) (flattenAll bs) = true →
      ∃ x ∈ checkpointsAll check dues outer pending before bs, before.length < x.before.length
  | [], h => by simp [leads] at h
  | b :: bs, h => by
    rw [flattenAll_cons, leads_append, Bool.or_eq_true, Bool.or_eq_true, Bool.and_eq_true] at h
    rw [checkpointsAll]
    rcases h with (h | h) | ⟨howes, hcheck⟩
    · obtain ⟨x, hx, hlt⟩ := exists_due outer pending before b h
      exact ⟨x, List.mem_append_left _ hx, hlt⟩
    · obtain ⟨x, hx, hlt⟩ := exists_dueAll outer (pending ++ left check dues b)
        (before ++ (flatten b).flatMap dues) bs h
      rw [List.length_append] at hlt
      exact ⟨x, List.mem_append_right _ hx, by omega⟩
    · have hne : checkpointsAll check dues outer (pending ++ left check dues b)
          (before ++ (flatten b).flatMap dues) bs ≠ [] := by
        rw [Ne, checkpointsAll_eq_nil, hcheck]
        exact fun h => Bool.false_ne_true h.symm
      obtain ⟨x, hx⟩ := List.exists_mem_of_ne_nil _ hne
      have hle := (withinAll_of_mem outer _ _ bs x hx).before
      have hpos := List.length_pos_of_ne_nil (flatMap_ne_nil_of_owes howes)
      rw [List.length_append] at hle
      exact ⟨x, List.mem_append_right _ hx, by omega⟩
end

/-! ## Balanced checkpoints and unbroken groups -/

theorem exists_nonempty_level (levels : List (List γ)) (h : 0 < levels.flatten.length) :
    1 ≤ (levels.filter fun l => !l.isEmpty).length := by
  apply List.length_pos_of_ne_nil
  intro hnil
  have hall : levels.flatten = [] := by
    rw [List.flatten_eq_nil_iff]
    intro l hl
    have hnot := List.filter_eq_nil_iff.mp hnil l hl
    simpa using hnot
  rw [hall] at h
  exact Nat.lt_irrefl 0 h

theorem length_flatMap_left_le (check : α → Option γ) (dues : α → List γ)
    (bs : List (Bracketed α)) :
    (bs.flatMap (left check dues)).length ≤ ((flattenAll bs).flatMap dues).length := by
  induction bs with
  | nil => exact Nat.le_refl 0
  | cons b bs ih =>
    have hleft := length_left_le check dues b
    rw [List.flatMap_cons, flattenAll_cons, List.flatMap_append, List.length_append,
      List.length_append]
    omega

theorem no_check_behind {outer : List (List γ)} {pending before : List γ}
    {group after : List (Bracketed α)}
    (hle : (pending :: outer).flatten.length ≤ before.length)
    (hbalanced : ∀ x ∈ checkpointsAll check dues outer pending before (.group group :: after),
      x.Balanced)
    (hcheck : (flattenAll group).any (HasCheck check) = true)
    (howes : (flattenAll group).any (Owes dues) = true) :
    (flattenAll after).any (HasCheck check) = false := by
  rw [← checkpointsAll_eq_nil outer (pending ++ left check dues (.group group))
    (before ++ (flattenAll group).flatMap dues)]
  by_contra hne
  obtain ⟨x, hx⟩ := List.exists_mem_of_ne_nil _ hne
  have hleft : left check dues (.group group) = [] := if_pos hcheck
  obtain ⟨inner, hlevels, hpaid⟩ := (withinAll_of_mem outer _ _ after x hx).levels
  have htotal := (hbalanced x (List.mem_append_right _ hx)).total
  have hpos := List.length_pos_of_ne_nil (flatMap_ne_nil_of_owes howes)
  rw [hlevels, List.flatten_append, List.length_append] at htotal
  rw [hleft, List.append_nil, List.length_append] at hpaid
  rw [List.flatten_cons, List.length_append] at hle
  omega

theorem nothing_before {outer : List (List γ)} {pending before : List γ}
    {group after : List (Bracketed α)}
    (hle : (pending :: outer).flatten.length ≤ before.length)
    (hbalanced : ∀ x ∈ checkpointsAll check dues outer pending before (.group group :: after),
      x.Balanced)
    (hleads : leads (Owes dues) (HasCheck check) (flattenAll group) = true) : before = [] := by
  obtain ⟨x, hx, hlt⟩ := exists_dueAll (pending :: outer) [] before group hleads
  obtain ⟨inner, hlevels, hpaid⟩ := (withinAll_of_mem _ _ _ group x hx).levels
  obtain ⟨htotal, hone⟩ := hbalanced x (List.mem_append_left _ hx)
  rw [hlevels, List.flatten_append, List.length_append] at htotal
  rw [hlevels, List.filter_append, List.length_append] at hone
  rw [List.length_nil] at hpaid
  by_contra hne
  have hpos := List.length_pos_of_ne_nil hne
  have hinner := exists_nonempty_level inner (by omega)
  have houter := exists_nonempty_level (pending :: outer) (by omega)
  omega

theorem unbroken_of_balanced {bs : List (Bracketed α)} {outer : List (List γ)}
    {pending before : List γ} (hle : (pending :: outer).flatten.length ≤ before.length)
    (hbalanced : ∀ x ∈ checkpointsAll check dues outer pending before bs, x.Balanced) :
    Unbroken (HasCheck check) (Owes dues) bs := by
  intro front group back hencloses hcheck
  induction hencloses generalizing outer pending before with
  | here first group after =>
    have hfirst := length_flatMap_left_le check dues first
    have hle' : ((pending ++ first.flatMap (left check dues)) :: outer).flatten.length ≤
        (before ++ (flattenAll first).flatMap dues).length := by
      rw [List.flatten_cons, List.length_append] at hle ⊢
      rw [List.length_append, List.length_append]
      omega
    have hrest := fun x hx => hbalanced x (by
      rw [checkpointsAll_append]
      exact List.mem_append_right _ hx)
    refine ⟨no_check_behind hle' hrest hcheck, ?_⟩
    intro hleads
    have hnil := (List.append_eq_nil_iff.mp (nothing_before hle' hrest hleads)).2
    by_contra howes
    exact flatMap_ne_nil_of_owes (by simpa using howes) hnil
  | inside first after h ih =>
    have hfirst := length_flatMap_left_le check dues first
    have hle' : ((pending ++ first.flatMap (left check dues)) :: outer).flatten.length ≤
        (before ++ (flattenAll first).flatMap dues).length := by
      rw [List.flatten_cons, List.length_append] at hle ⊢
      rw [List.length_append, List.length_append]
      omega
    have hrest := fun x hx => hbalanced x (by
      rw [checkpointsAll_append]
      exact List.mem_append_right _ hx)
    have hinner := @ih ((pending ++ first.flatMap (left check dues)) :: outer) [] _ hle'
      (fun x hx => hrest x (List.mem_append_left _ hx)) hcheck
    constructor
    · intro howes
      rw [List.any_append, Bool.or_eq_false_iff]
      exact ⟨hinner.1 howes, no_check_behind hle' hrest (any_of_sublist h.sublist hcheck)
        (any_of_sublist h.sublist howes)⟩
    · intro hleads
      rw [List.any_append, Bool.or_eq_false_iff]
      refine ⟨?_, hinner.2 hleads⟩
      have hnil := (List.append_eq_nil_iff.mp
        (nothing_before hle' hrest (leads_of_sublist h.sublist hleads))).2
      by_contra howes
      exact flatMap_ne_nil_of_owes (by simpa using howes) hnil

/-! ## Unbroken groups and what is paid -/

def Quiet (outer : List (List γ)) (pending before : List γ) (x : Checkpoint γ) : Prop :=
  ∃ k, x.levels = List.replicate k [] ++ pending :: outer ∧ x.before = before

mutual
theorem quiet_of_mem (outer : List (List γ)) (pending before : List γ) :
    ∀ b : Bracketed α, leads (Owes dues) (HasCheck check) (flatten b) = false →
      ∀ x ∈ checkpoints check dues outer pending before b, Quiet outer pending before x
  | .item a, h, x, hx => by
    rw [checkpoints] at hx
    split at hx
    · simp at hx
    · next hook hhook =>
      rw [List.mem_singleton] at hx
      subst hx
      have hnil : dues a = [] := by
        simpa [leads, Owes, HasCheck, hhook] using h
      refine ⟨0, ?_, ?_⟩
      · rw [hnil, List.append_nil, List.replicate_zero, List.nil_append]
      · show before ++ dues a = before
        rw [hnil, List.append_nil]
  | .group bs, h, x, hx => by
    obtain ⟨k, hlevels, hbefore⟩ := quietAll_of_mem (pending :: outer) [] before bs h x hx
    refine ⟨k + 1, ?_, hbefore⟩
    rw [hlevels, List.replicate_succ', List.append_assoc, List.singleton_append]

theorem quietAll_of_mem (outer : List (List γ)) (pending before : List γ) :
    ∀ bs : List (Bracketed α), leads (Owes dues) (HasCheck check) (flattenAll bs) = false →
      ∀ x ∈ checkpointsAll check dues outer pending before bs, Quiet outer pending before x
  | [], _, x, hx => by simp [checkpointsAll] at hx
  | b :: bs, h, x, hx => by
    rw [flattenAll_cons] at h
    obtain ⟨hhead, htail, hany⟩ := leads_eq_false_append h
    rw [checkpointsAll, List.mem_append] at hx
    rcases hx with hx | hx
    · exact quiet_of_mem outer pending before b hhead x hx
    · cases howes : (flatten b).any (Owes dues) with
      | true =>
        rw [(checkpointsAll_eq_nil outer _ _ bs).mpr (hany howes)] at hx
        simp at hx
      | false =>
        have hnil := flatMap_eq_nil_of_owes howes
        have hleft : left check dues b = [] := by
          have hle := length_left_le check dues b
          rw [hnil] at hle
          exact List.eq_nil_of_length_eq_zero (Nat.le_zero.mp hle)
        rw [hnil, hleft, List.append_nil, List.append_nil] at hx
        exact quietAll_of_mem outer pending before bs htail x hx
end

/-- `Unbroken`, where it is known whether something is due in front of the list. -/
def UnbrokenFrom (normal owing : α → Bool) (due : Bool) (bs : List (Bracketed α)) : Prop :=
  ∀ front group back, Encloses bs front group back → (flattenAll group).any normal = true →
    ((flattenAll group).any owing = true → back.any normal = false) ∧
    (leads owing normal (flattenAll group) = true → due = false ∧ front.any owing = false)

section UnbrokenFrom
variable {normal owing : α → Bool} {due : Bool} {b : Bracketed α} {bs : List (Bracketed α)}

theorem Unbroken.start (h : Unbroken normal owing bs) : UnbrokenFrom normal owing false bs := by
  intro front group back hencloses hcheck
  obtain ⟨hbehind, hfront⟩ := h front group back hencloses hcheck
  exact ⟨hbehind, fun hleads => ⟨rfl, hfront hleads⟩⟩

theorem UnbrokenFrom.head (h : UnbrokenFrom normal owing due (b :: bs)) :
    UnbrokenFrom normal owing due [b] := by
  intro front group back hencloses hcheck
  obtain ⟨hbehind, hfront⟩ := h front group _ (hencloses.append bs) hcheck
  refine ⟨?_, hfront⟩
  intro howes
  have hnone := hbehind howes
  rw [List.any_append, Bool.or_eq_false_iff] at hnone
  exact hnone.1

theorem UnbrokenFrom.tail (h : UnbrokenFrom normal owing due (b :: bs)) :
    UnbrokenFrom normal owing (due || (flatten b).any owing) bs := by
  intro front group back hencloses hcheck
  obtain ⟨hbehind, hfront⟩ := h _ group back (hencloses.tail b) hcheck
  refine ⟨hbehind, ?_⟩
  intro hleads
  obtain ⟨hdue, hnone⟩ := hfront hleads
  rw [List.any_append, Bool.or_eq_false_iff] at hnone
  exact ⟨by rw [hdue, hnone.1, Bool.or_false], hnone.2⟩

theorem UnbrokenFrom.members (h : UnbrokenFrom normal owing due [.group bs]) :
    UnbrokenFrom normal owing due bs := by
  intro front group back hencloses hcheck
  obtain ⟨hbehind, hfront⟩ := h front group _ (hencloses.member []) hcheck
  rw [flattenAll_nil, List.append_nil] at hbehind
  exact ⟨hbehind, hfront⟩

end UnbrokenFrom

theorem filter_empties {outer : List (List γ)} (h : ∀ l ∈ outer, l = []) :
    (outer.filter fun l => !l.isEmpty) = [] := by
  rw [List.filter_eq_nil_iff]
  intro l hl
  rw [h l hl]
  exact Bool.false_ne_true

mutual
theorem agrees_of_unbroken {due : Bool} (outer : List (List γ)) (pending : List γ)
    (houter : ∀ l ∈ outer, l = []) (hdue : pending ≠ [] → due = true) :
    ∀ b : Bracketed α, UnbrokenFrom (HasCheck check) (Owes dues) due [b] →
      ∀ x ∈ checkpoints check dues outer pending pending b, x.Agrees
  | .item a, _, x, hx => by
    rw [checkpoints] at hx
    split at hx
    · simp at hx
    · rw [List.mem_singleton] at hx
      subst hx
      show (((pending ++ dues a) :: outer).filter _) = [pending ++ dues a].filter _
      rw [List.filter_cons, List.filter_cons, filter_empties houter, List.filter_nil]
  | .group bs, h, x, hx => by
    rw [checkpoints] at hx
    by_cases hpending : pending = []
    · subst hpending
      have hlevels : ∀ l ∈ [] :: outer, l = [] := by
        intro l hl
        rcases List.mem_cons.mp hl with rfl | hl
        · rfl
        · exact houter l hl
      exact agreesAll_of_unbroken ([] :: outer) [] hlevels (fun h => absurd rfl h) bs h.members x hx
    · have hcheck : (flattenAll bs).any (HasCheck check) = true := by
        by_contra hnone
        rw [(checkpointsAll_eq_nil _ _ _ bs).mpr (by simpa using hnone)] at hx
        simp at hx
      have hleads : leads (Owes dues) (HasCheck check) (flattenAll bs) = false := by
        by_contra hleads
        have hfront := (h [] bs [] (.head bs []) hcheck).2 (by simpa using hleads)
        rw [hdue hpending] at hfront
        exact Bool.false_ne_true hfront.1.symm
      obtain ⟨k, hlevels, hbefore⟩ := quietAll_of_mem (pending :: outer) [] pending bs hleads x hx
      rw [Checkpoint.Agrees, hlevels, hbefore, List.filter_append, filter_empties]
      · rw [List.nil_append, List.filter_cons, List.filter_cons, filter_empties houter,
          List.filter_cons, List.filter_nil]
        rfl
      · exact fun l hl => List.eq_of_mem_replicate hl

theorem agreesAll_of_unbroken {due : Bool} (outer : List (List γ)) (pending : List γ)
    (houter : ∀ l ∈ outer, l = []) (hdue : pending ≠ [] → due = true) :
    ∀ bs : List (Bracketed α), UnbrokenFrom (HasCheck check) (Owes dues) due bs →
      ∀ x ∈ checkpointsAll check dues outer pending pending bs, x.Agrees
  | [], _, x, hx => by simp [checkpointsAll] at hx
  | b :: bs, h, x, hx => by
    rw [checkpointsAll, List.mem_append] at hx
    rcases hx with hx | hx
    · exact agrees_of_unbroken outer pending houter hdue b h.head x hx
    · have hleft : left check dues b = (flatten b).flatMap dues := by
        rcases left_cases b with hleft | ⟨hleft, hcheck⟩
        · exact hleft
        · cases howes : (flatten b).any (Owes dues) with
          | false => rw [hleft, flatMap_eq_nil_of_owes howes]
          | true =>
            cases b with
            | item a => rw [left, flatten_item, List.flatMap_singleton]
            | group members =>
              have hnone := (h [] members _ (.head members bs) hcheck).1 howes
              rw [(checkpointsAll_eq_nil outer _ _ bs).mpr hnone] at hx
              simp at hx
      rw [hleft] at hx
      refine agreesAll_of_unbroken outer _ houter ?_ bs h.tail x hx
      intro hne
      rw [Bool.or_eq_true]
      by_cases hpending : pending = []
      · right
        by_contra howes
        rw [hpending, flatMap_eq_nil_of_owes (by simpa using howes)] at hne
        exact hne rfl
      · exact .inl (hdue hpending)
end

/-! ## Checkpoints of a flat list -/

def Checkpoint.flat (x : Checkpoint γ) : Checkpoint γ := { x with levels := [x.before] }

def Checkpoint.addLevel (level : List γ) (x : Checkpoint γ) : Checkpoint γ :=
  { x with levels := x.levels ++ [level] }

mutual
theorem checkpoints_flat (outer : List (List γ)) (pending before : List γ) :
    ∀ b : Bracketed α, (checkpoints check dues outer pending before b).map Checkpoint.flat =
      checkpointsAll check dues [] before before ((flatten b).map .item)
  | .item a => by
    rw [checkpoints, flatten_item, List.map_singleton, checkpointsAll, checkpoints, checkpointsAll,
      List.append_nil]
    cases check a <;> rfl
  | .group bs => checkpointsAll_flat (pending :: outer) [] before bs

theorem checkpointsAll_flat (outer : List (List γ)) (pending before : List γ) :
    ∀ bs : List (Bracketed α),
      (checkpointsAll check dues outer pending before bs).map Checkpoint.flat =
        checkpointsAll check dues [] before before ((flattenAll bs).map .item)
  | [] => rfl
  | b :: bs => by
    have hleft (as : List α) :
        (as.map .item).flatMap (left check dues) = as.flatMap dues := by
      rw [List.flatMap_map]
      rfl
    rw [checkpointsAll, List.map_append, checkpoints_flat outer pending before b,
      checkpointsAll_flat outer _ _ bs, flattenAll_cons, List.map_append, checkpointsAll_append,
      hleft, flattenAll_items]
end

mutual
theorem checkpoints_addLevel (level : List γ) (outer : List (List γ)) (pending before : List γ) :
    ∀ b : Bracketed α, checkpoints check dues (outer ++ [level]) pending before b =
      (checkpoints check dues outer pending before b).map (Checkpoint.addLevel level)
  | .item a => by
    rw [checkpoints, checkpoints]
    cases check a <;> rfl
  | .group bs => checkpointsAll_addLevel level (pending :: outer) [] before bs

theorem checkpointsAll_addLevel (level : List γ) (outer : List (List γ)) (pending before : List γ) :
    ∀ bs : List (Bracketed α), checkpointsAll check dues (outer ++ [level]) pending before bs =
      (checkpointsAll check dues outer pending before bs).map (Checkpoint.addLevel level)
  | [] => rfl
  | b :: bs => by
    rw [checkpointsAll, checkpointsAll, List.map_append, checkpoints_addLevel level outer _ _ b,
      checkpointsAll_addLevel level outer _ _ bs]
end

/-! ## Checkpoints by name -/

section Map
variable {β δ : Type} {check' : β → Option δ} {dues' : β → List δ} {f : β → α} {g : δ → γ}

def Checkpoint.map (g : δ → γ) (x : Checkpoint δ) : Checkpoint γ where
  hook := g x.hook
  levels := x.levels.map (List.map g)
  before := x.before.map g

theorem filter_map_levels (g : δ → γ) (levels : List (List δ)) :
    ((levels.map (List.map g)).filter fun l => !l.isEmpty) =
      (levels.filter fun l => !l.isEmpty).map (List.map g) := by
  have hempty : ((fun l => !l.isEmpty) ∘ List.map g) = fun l : List δ => !l.isEmpty := by
    funext l
    rw [Function.comp_apply, List.isEmpty_map]
  rw [List.filter_map, hempty]

theorem Checkpoint.Agrees.map {x : Checkpoint δ} (h : x.Agrees) (g : δ → γ) :
    (x.map g).Agrees := by
  have hbefore := filter_map_levels g [x.before]
  rw [← h, ← filter_map_levels] at hbefore
  exact hbefore.symm

theorem flatMap_dues_map (hdues : ∀ x, dues (f x) = (dues' x).map g) (xs : List β) :
    (xs.map f).flatMap dues = (xs.flatMap dues').map g := by
  rw [List.flatMap_map, List.map_flatMap]
  congr 1
  funext x
  exact hdues x

theorem left_map (hcheck : ∀ x, check (f x) = (check' x).map g)
    (hdues : ∀ x, dues (f x) = (dues' x).map g) (b : Bracketed β) :
    left check dues (Bracketed.map f b) = (left check' dues' b).map g := by
  have hhas : (fun x => HasCheck check (f x)) = HasCheck check' := by
    funext x
    rw [HasCheck, hcheck, Option.isSome_map, HasCheck]
  cases b with
  | item a => exact hdues a
  | group bs =>
    rw [Bracketed.map, left, left, flattenAll_mapAll, List.any_map, flatMap_dues_map hdues]
    change (if (flattenAll bs).any (fun x => HasCheck check (f x)) then _ else _) = _
    rw [hhas]
    split <;> rfl

mutual
theorem checkpoints_map (hcheck : ∀ x, check (f x) = (check' x).map g)
    (hdues : ∀ x, dues (f x) = (dues' x).map g) (outer : List (List δ)) (pending before : List δ) :
    ∀ b : Bracketed β,
      checkpoints check dues (outer.map (List.map g)) (pending.map g) (before.map g)
          (Bracketed.map f b) =
        (checkpoints check' dues' outer pending before b).map (Checkpoint.map g)
  | .item a => by
    rw [Bracketed.map, checkpoints, checkpoints, hcheck, hdues, ← List.map_append,
      ← List.map_append]
    cases check' a <;> rfl
  | .group bs => checkpointsAll_map hcheck hdues (pending :: outer) [] before bs

theorem checkpointsAll_map (hcheck : ∀ x, check (f x) = (check' x).map g)
    (hdues : ∀ x, dues (f x) = (dues' x).map g) (outer : List (List δ)) (pending before : List δ) :
    ∀ bs : List (Bracketed β),
      checkpointsAll check dues (outer.map (List.map g)) (pending.map g) (before.map g)
          (Bracketed.mapAll f bs) =
        (checkpointsAll check' dues' outer pending before bs).map (Checkpoint.map g)
  | [] => rfl
  | b :: bs => by
    rw [Bracketed.mapAll, checkpointsAll, checkpointsAll, List.map_append,
      checkpoints_map hcheck hdues outer pending before b, left_map hcheck hdues, flatten_map,
      flatMap_dues_map hdues, ← List.map_append, ← List.map_append,
      checkpointsAll_map hcheck hdues outer _ _ bs]
end

end Map

end Walk

end Daloy.Compose
