import Daloy.Foundations.SearchPatterns

/-! # Searching a text in windows

A pattern is looked for in overlapping windows of a text. Nothing here mentions a program.

* `test_collapse`: what is found stays to be found when every run of white space becomes one space.
* `exists_short_match`: in a text without such runs a match is short, and it is found in every window
  that holds it.
* The conditions on patterns (`collapses`, `span`, `windowed`) can be computed.
-/

namespace Daloy.SearchPatterns
set_option autoImplicit false

open Daloy.Unicode Daloy.Text

/-! ## White space made one space -/

def whiteAt : Option UInt16 → Bool
  | some u => isWhitespace u
  | none => false

/-- A run of white space becomes a space, and nothing where it goes on from what stands in front. -/
def collapseFrom : Bool → JsString → JsString
  | _, [] => []
  | behind, u :: rest =>
    if isWhitespace u then
      if behind then collapseFrom true rest else 0x20 :: collapseFrom true rest
    else u :: collapseFrom false rest

/-- `s.replace(/\s+/g, " ")`. -/
def collapse (s : JsString) : JsString := collapseFrom false s

def collapsedAt (prev : Option UInt16) : Option UInt16 :=
  prev.map fun u => if isWhitespace u then 0x20 else u

theorem collapseFrom_append (prev : Option UInt16) (x y : JsString) :
    collapseFrom (whiteAt prev) (x ++ y) =
      collapseFrom (whiteAt prev) x ++ collapseFrom (whiteAt (lastOf prev x)) y := by
  induction x generalizing prev with
  | nil => rfl
  | cons u x ih =>
    rw [List.cons_append, lastOf_cons, collapseFrom, collapseFrom]
    cases hu : isWhitespace u with
    | true =>
      have ih := ih (some u)
      rw [whiteAt, hu] at ih
      rw [if_pos rfl, if_pos rfl, ih]
      cases whiteAt prev <;> rfl
    | false =>
      have ih := ih (some u)
      rw [whiteAt, hu] at ih
      rw [if_neg Bool.false_ne_true, if_neg Bool.false_ne_true, ih]
      rfl

theorem collapsedAt_lastOf (prev : Option UInt16) (m : JsString) :
    collapsedAt (lastOf prev m) = lastOf (collapsedAt prev) (collapseFrom (whiteAt prev) m) := by
  induction m generalizing prev with
  | nil => rfl
  | cons u m ih =>
    have ih := ih (some u)
    rw [lastOf_cons, collapseFrom, ih, whiteAt]
    cases hu : isWhitespace u with
    | true =>
      have hspace : collapsedAt (some u) = some 0x20 := by rw [collapsedAt, Option.map_some, if_pos hu]
      rw [if_pos rfl, hspace]
      cases hprev : whiteAt prev with
      | true =>
        have hspace' : collapsedAt prev = some 0x20 := by
          cases prev with
          | none => cases hprev
          | some v =>
            rw [whiteAt] at hprev
            rw [collapsedAt, Option.map_some, if_pos hprev]
        rw [if_pos rfl, hspace']
      | false => rw [if_neg Bool.false_ne_true, lastOf_cons]
    | false =>
      have hsame : collapsedAt (some u) = some u := by
        rw [collapsedAt, Option.map_some, if_neg (by rw [hu]; exact Bool.false_ne_true)]
      rw [if_neg Bool.false_ne_true, hsame, lastOf_cons]

theorem isWordUnit_of_isWhitespace {u : UInt16} (h : isWhitespace u = true) :
    isWordUnit u = false := by
  rw [Bool.eq_false_iff]
  intro hword
  simp only [isWordUnit, Bool.or_eq_true, Bool.and_eq_true, decide_eq_true_eq, beq_iff_eq,
    UInt16.ext_iff] at hword
  simp only [isWhitespace, Bool.or_eq_true, Bool.and_eq_true, decide_eq_true_eq, beq_iff_eq,
    UInt16.ext_iff] at h
  simp at hword h
  omega

theorem wordAt_collapsedAt (prev : Option UInt16) : wordAt (collapsedAt prev) = wordAt prev := by
  cases prev with
  | none => rfl
  | some u =>
    rw [collapsedAt, Option.map_some]
    cases hu : isWhitespace u with
    | true =>
      rw [if_pos rfl, wordAt, wordAt, isWordUnit_of_isWhitespace hu]
      decide
    | false => rw [if_neg Bool.false_ne_true]

theorem boundary_collapse {prev : Option UInt16} {post : JsString}
    (h : wordAt prev ≠ wordAt post.head?) :
    wordAt (collapsedAt prev) ≠ wordAt (collapseFrom (whiteAt prev) post).head? := by
  rw [wordAt_collapsedAt]
  cases post with
  | nil => exact h
  | cons u post =>
    rw [collapseFrom]
    cases hu : isWhitespace u with
    | true =>
      have hword : wordAt (some u) = false := isWordUnit_of_isWhitespace hu
      rw [List.head?_cons, hword] at h
      rw [if_pos rfl]
      cases hprev : whiteAt prev with
      | true =>
        cases prev with
        | none => cases hprev
        | some v => exact absurd (isWordUnit_of_isWhitespace hprev) h
      | false =>
        rw [if_neg Bool.false_ne_true, List.head?_cons]
        exact h
    | false =>
      rw [if_neg Bool.false_ne_true, List.head?_cons]
      exact h

theorem collapseFrom_of_notWhite {m : JsString} (h : ∀ u ∈ m, isWhitespace u = false)
    (behind : Bool) : collapseFrom behind m = m := by
  induction m generalizing behind with
  | nil => rfl
  | cons u m ih =>
    rw [List.forall_mem_cons] at h
    rw [collapseFrom, h.1, if_neg Bool.false_ne_true, ih h.2]

theorem collapseFrom_of_white {m : JsString} (h : ∀ u ∈ m, isWhitespace u = true) (behind : Bool) :
    collapseFrom behind m = if m = [] || behind then [] else [0x20] := by
  have hbehind : ∀ m : JsString, (∀ u ∈ m, isWhitespace u = true) → collapseFrom true m = [] := by
    intro m hm
    induction m with
    | nil => rfl
    | cons u m ih =>
      rw [List.forall_mem_cons] at hm
      rw [collapseFrom, hm.1, if_pos rfl, if_pos rfl, ih hm.2]
  cases m with
  | nil => rfl
  | cons u m =>
    rw [List.forall_mem_cons] at h
    rw [collapseFrom, h.1, if_pos rfl, hbehind m h.2]
    cases behind <;> rfl

theorem length_collapseFrom_le (behind : Bool) (m : JsString) :
    (collapseFrom behind m).length ≤ m.length := by
  induction m generalizing behind with
  | nil => exact Nat.le_refl _
  | cons u m ih =>
    rw [collapseFrom, List.length_cons]
    split
    · split
      · exact (ih true).trans (Nat.le_succ _)
      · rw [List.length_cons]
        exact Nat.succ_le_succ (ih true)
    · rw [List.length_cons]
      exact Nat.succ_le_succ (ih false)

theorem mem_collapseFrom {behind : Bool} {m : JsString} {u : UInt16}
    (h : u ∈ collapseFrom behind m) :
    (u ∈ m ∧ isWhitespace u = false) ∨ u = 0x20 ∧ ∃ v ∈ m, isWhitespace v = true := by
  induction m generalizing behind with
  | nil => cases h
  | cons v m ih =>
    have hrest : ∀ behind, u ∈ collapseFrom behind m →
        (u ∈ v :: m ∧ isWhitespace u = false) ∨ u = 0x20 ∧ ∃ w ∈ v :: m, isWhitespace w = true := by
      intro behind h
      obtain ⟨hmem, hwhite⟩ | ⟨rfl, w, hw, hwhite⟩ := ih h
      · exact .inl ⟨List.mem_cons_of_mem _ hmem, hwhite⟩
      · exact .inr ⟨rfl, w, List.mem_cons_of_mem _ hw, hwhite⟩
    rw [collapseFrom] at h
    cases hv : isWhitespace v with
    | true =>
      rw [hv, if_pos rfl] at h
      cases behind with
      | true => exact hrest true h
      | false =>
        rw [if_neg Bool.false_ne_true, List.mem_cons] at h
        obtain rfl | h := h
        · exact .inr ⟨rfl, v, List.mem_cons_self .., hv⟩
        · exact hrest true h
    | false =>
      rw [hv, if_neg Bool.false_ne_true, List.mem_cons] at h
      obtain rfl | h := h
      · exact .inl ⟨List.mem_cons_self .., hv⟩
      · exact hrest false h

namespace Pattern

/-- Whether matches stay matches, from white space in front or not; then whether a match may end
with white space. -/
def collapses : Pattern → Bool → Option Bool
  | empty, behind => some behind
  | one c, behind =>
    if c.meetsSpace then if !behind && c.holds 0x20 then some true else none else some false
  | boundary, behind => some behind
  | spaces least, behind => if least = 0 || (least = 1 && !behind) then some true else none
  | upTo c least _, behind =>
    if c.meetsSpace then
      if c.holds 0x20 && (least = 0 || (least = 1 && !behind)) then some true else none
    else some (behind && least = 0)
  | seq p q, behind => (p.collapses behind).bind q.collapses
  | alt p q, behind =>
    match p.collapses behind, q.collapses behind with
    | some b, some b' => some (b || b')
    | _, _ => none

end Pattern

theorem CharClass.meetsSpace_of_holds {c : CharClass} {u : UInt16} (h : c.holds u = true)
    (hu : isWhitespace u = true) : c.meetsSpace = true := by
  have hnot := isWordUnit_of_isWhitespace hu
  have hfold : ∀ v, isWordUnit v = false → foldUnit v = v := by
    intro v hv
    rw [foldUnit, if_neg]
    intro hcapital
    simp [isWordUnit, hcapital.1, hcapital.2] at hv
  cases c with
  | letter v =>
    rw [holds, decide_eq_true_eq, hfold u hnot] at h
    have hword : isWordUnit v = false := by rw [← isWordUnit_foldUnit, ← h, hnot]
    rw [hfold v hword] at h
    rw [meetsSpace, ← h, hu]
  | digit =>
    rw [holds] at h
    rw [isWordUnit, h] at hnot
    cases hnot
  | word =>
    rw [holds, hnot] at h
    cases h
  | space => rfl
  | notSpace =>
    rw [holds, hu] at h
    cases h
  | any => rfl
  | among us =>
    rw [holds, decide_eq_true_eq] at h
    exact List.any_eq_true.mpr ⟨u, h, hu⟩
  | except v => rfl

theorem matches_collapse {p : Pattern} {behind ends : Bool} (hp : p.collapses behind = some ends)
    {prev : Option UInt16} {m post : JsString} (hprev : whiteAt prev = true → behind = true)
    (h : Matches p prev m post) :
    Matches p (collapsedAt prev) (collapseFrom (whiteAt prev) m)
        (collapseFrom (whiteAt (lastOf prev m)) post) ∧
      (whiteAt (lastOf prev m) = true → ends = true) := by
  induction p generalizing behind ends prev m post with
  | empty =>
    obtain rfl : m = [] := h
    rw [Pattern.collapses, Option.some.injEq] at hp
    exact ⟨rfl, fun hwhite => hp ▸ hprev hwhite⟩
  | one c =>
    obtain ⟨u, rfl, hu⟩ := h
    rw [Pattern.collapses] at hp
    cases hwhite : isWhitespace u with
    | true =>
      rw [CharClass.meetsSpace_of_holds hu hwhite, if_pos rfl] at hp
      split at hp
      · rename_i hspace
        rw [Bool.and_eq_true, Bool.not_eq_true'] at hspace
        have hnot : whiteAt prev = false := by
          cases hprev' : whiteAt prev with
          | true =>
            rw [hprev hprev'] at hspace
            cases hspace.1
          | false => rfl
        refine ⟨⟨0x20, ?_, hspace.2⟩, fun _ => (Option.some.inj hp).symm⟩
        rw [hnot, collapseFrom, hwhite]
        rfl
      · cases hp
    | false =>
      refine ⟨⟨u, ?_, hu⟩, fun hlast => ?_⟩
      · exact collapseFrom_of_notWhite (by simpa using hwhite) _
      · rw [lastOf_cons, lastOf_nil, whiteAt, hwhite] at hlast
        cases hlast
  | boundary =>
    obtain ⟨rfl, hboundary⟩ := h
    rw [Pattern.collapses, Option.some.injEq] at hp
    exact ⟨⟨rfl, boundary_collapse hboundary⟩, fun hwhite => hp ▸ hprev hwhite⟩
  | spaces least =>
    obtain ⟨hall, hleast⟩ := h
    rw [Pattern.collapses] at hp
    split at hp
    · rename_i hfew
      rw [Bool.or_eq_true, Bool.and_eq_true, decide_eq_true_eq, decide_eq_true_eq,
        Bool.not_eq_true'] at hfew
      refine ⟨?_, fun _ => (Option.some.inj hp).symm⟩
      rw [collapseFrom_of_white hall]
      refine ⟨fun u hu => ?_, ?_⟩
      · split at hu
        · cases hu
        · rw [List.mem_singleton.mp hu]
          decide
      · obtain rfl | ⟨rfl, hbehind⟩ := hfew
        · exact Nat.zero_le _
        · have hne : m ≠ [] := List.ne_nil_of_length_pos hleast
          have hnot : whiteAt prev = false := by
            cases hprev' : whiteAt prev with
            | true =>
              rw [hprev hprev'] at hbehind
              cases hbehind
            | false => rfl
          rw [hnot, if_neg (by simpa using hne)]
          exact Nat.le_refl 1
    · cases hp
  | upTo c least most =>
    obtain ⟨hall, hleast, hmost⟩ := h
    rw [Pattern.collapses] at hp
    split at hp
    · split at hp
      · rename_i hspace
        rw [Bool.and_eq_true, Bool.or_eq_true, Bool.and_eq_true, decide_eq_true_eq,
          decide_eq_true_eq, Bool.not_eq_true'] at hspace
        refine ⟨⟨fun u hu => ?_, ?_, (length_collapseFrom_le _ m).trans hmost⟩,
          fun _ => (Option.some.inj hp).symm⟩
        · obtain ⟨hmem, -⟩ | ⟨rfl, -⟩ := mem_collapseFrom hu
          · exact hall u hmem
          · exact hspace.1
        · obtain rfl | ⟨rfl, hbehind⟩ := hspace.2
          · exact Nat.zero_le _
          · have hnot : whiteAt prev = false := by
              cases hprev' : whiteAt prev with
              | true =>
                rw [hprev hprev'] at hbehind
                cases hbehind
              | false => rfl
            cases m with
            | nil => cases hleast
            | cons u m =>
              rw [hnot, collapseFrom]
              split <;> exact Nat.succ_le_succ (Nat.zero_le _)
      · cases hp
    · rename_i hmeets
      have hnone : ∀ u ∈ m, isWhitespace u = false := by
        intro u hu
        rw [Bool.eq_false_iff]
        exact fun hwhite => hmeets (CharClass.meetsSpace_of_holds (hall u hu) hwhite)
      rw [collapseFrom_of_notWhite hnone]
      refine ⟨⟨hall, hleast, hmost⟩, fun hwhite => ?_⟩
      obtain rfl := Option.some.inj hp
      obtain rfl | hne := eq_or_ne m []
      · rw [lastOf_nil] at hwhite
        rw [hprev hwhite, Nat.le_zero.mp hleast]
        rfl
      · rw [lastOf, List.getLast?_eq_getLast_of_ne_nil hne, Option.some_or, whiteAt,
          hnone _ (List.getLast_mem hne)] at hwhite
        cases hwhite
  | seq p q ihp ihq =>
    obtain ⟨m₁, m₂, rfl, hm₁, hm₂⟩ := h
    rw [Pattern.collapses] at hp
    obtain ⟨middle, hpm, hqm⟩ := Option.bind_eq_some_iff.mp hp
    obtain ⟨hfirst, hends⟩ := ihp hpm hprev hm₁
    obtain ⟨hsecond, hlast⟩ := ihq hqm hends hm₂
    rw [lastOf_append, collapseFrom_append]
    refine ⟨⟨_, _, rfl, ?_, ?_⟩, hlast⟩
    · rwa [collapseFrom_append] at hfirst
    · rwa [collapsedAt_lastOf] at hsecond
  | alt p q ihp ihq =>
    rw [Pattern.collapses] at hp
    cases hpc : p.collapses behind with
    | none =>
      rw [hpc] at hp
      cases hp
    | some b =>
      cases hqc : q.collapses behind with
      | none =>
        rw [hpc, hqc] at hp
        cases hp
      | some b' =>
        rw [hpc, hqc] at hp
        obtain rfl := Option.some.inj hp
        obtain h | h := h
        · obtain ⟨hmatch, hends⟩ := ihp hpc hprev h
          exact ⟨.inl hmatch, fun hwhite => by rw [hends hwhite, Bool.true_or]⟩
        · obtain ⟨hmatch, hends⟩ := ihq hqc hprev h
          exact ⟨.inr hmatch, fun hwhite => by rw [hends hwhite, Bool.or_true]⟩

theorem test_collapse {p : Pattern} (hp : (p.collapses true).isSome = true) {s : JsString}
    (h : p.test s = true) : p.test (collapse s) = true := by
  obtain ⟨ends, hends⟩ := Option.isSome_iff_exists.mp hp
  obtain ⟨front, m, post, rfl, hm⟩ := (test_iff p s).mp h
  rw [test_iff]
  have hlast : lastOf none front = front.getLast? := by rw [lastOf, Option.or_none]
  have hmatch := (matches_collapse hends (fun _ => rfl) hm).1
  refine ⟨collapse front, collapseFrom (whiteAt front.getLast?) m,
    collapseFrom (whiteAt (lastOf front.getLast? m)) post, ?_, ?_⟩
  · have hfront := collapseFrom_append none front (m ++ post)
    rw [hlast, collapseFrom_append (List.getLast? front)] at hfront
    exact hfront
  · have hcollapsed := collapsedAt_lastOf none front
    rw [hlast] at hcollapsed
    rw [hcollapsed, lastOf] at hmatch
    rwa [collapsedAt, Option.map_none, Option.or_none] at hmatch

/-! ## Short matches -/

/-- `/\s\s/.test(s)`. -/
def hasRun : JsString → Bool
  | u :: v :: rest => (isWhitespace u && isWhitespace v) || hasRun (v :: rest)
  | _ => false

theorem hasRun_append_left {x y : JsString} (h : hasRun x = true) : hasRun (x ++ y) = true := by
  fun_induction hasRun x with
  | case1 u v rest ih =>
    rw [List.cons_append, List.cons_append, hasRun]
    rw [Bool.or_eq_true] at h ⊢
    obtain h | h := h
    · exact .inl h
    · exact .inr (ih h)
  | case2 => cases h

theorem hasRun_append_right {x y : JsString} (h : hasRun y = true) : hasRun (x ++ y) = true := by
  induction x with
  | nil => exact h
  | cons u x ih =>
    cases hrest : x ++ y with
    | nil =>
      rw [hrest] at ih
      cases ih
    | cons v rest =>
      rw [List.cons_append, hrest, hasRun, ← hrest, ih, Bool.or_true]

theorem hasRun_collapse (s : JsString) : hasRun (collapse s) = false := by
  have hall : ∀ (s : JsString) (u : UInt16) (behind : Bool), (isWhitespace u = true → behind = true) →
      hasRun (u :: collapseFrom behind s) = false := by
    intro s
    induction s with
    | nil => intro _ _ _; rfl
    | cons v s ih =>
      intro u behind hbehind
      rw [collapseFrom]
      cases hv : isWhitespace v with
      | true =>
        rw [if_pos rfl]
        cases behind with
        | true => exact ih u true hbehind
        | false =>
          rw [if_neg Bool.false_ne_true, hasRun, ih 0x20 true (fun _ => rfl), Bool.or_false]
          cases hu : isWhitespace u with
          | true => cases hbehind hu
          | false => rfl
      | false =>
        rw [if_neg Bool.false_ne_true, hasRun, ih v false (fun h => by rw [hv] at h; cases h), hv,
          Bool.and_false, Bool.false_or]
  have hfirst := hall s 0x41 false (by decide)
  cases hs : collapse s with
  | nil => rfl
  | cons v rest =>
    rw [← collapse, hs, hasRun, Bool.or_eq_false_iff] at hfirst
    exact hfirst.2

namespace Pattern

def span : Pattern → ℕ
  | one _ => 1
  | spaces _ => 1
  | upTo _ _ most => most
  | seq p q => p.span + q.span
  | alt p q => max p.span q.span
  | _ => 0

def shrink : Pattern → Pattern
  | upTo c least most => upTo c least (min least most)
  | seq p q => seq p q.shrink
  | p => p

end Pattern

theorem length_le_span {p : Pattern} {prev : Option UInt16} {m post : JsString}
    (h : Matches p prev m post) (hrun : hasRun m = false) : m.length ≤ p.span := by
  induction p generalizing prev m post with
  | one c =>
    obtain ⟨u, rfl, -⟩ := h
    exact Nat.le_refl 1
  | spaces least =>
    obtain ⟨hall, -⟩ := h
    match m with
    | [] => exact Nat.zero_le 1
    | [u] => exact Nat.le_refl 1
    | u :: v :: rest =>
      rw [List.forall_mem_cons, List.forall_mem_cons] at hall
      rw [hasRun, hall.1, hall.2.1] at hrun
      cases hrun
  | upTo c least most => exact h.2.2
  | seq p q ihp ihq =>
    obtain ⟨m₁, m₂, rfl, hm₁, hm₂⟩ := h
    have h₁ : hasRun m₁ = false := by
      cases hm : hasRun m₁ with
      | true =>
        rw [hasRun_append_left hm] at hrun
        cases hrun
      | false => rfl
    have h₂ : hasRun m₂ = false := by
      cases hm : hasRun m₂ with
      | true =>
        rw [hasRun_append_right hm] at hrun
        cases hrun
      | false => rfl
    rw [List.length_append, Pattern.span]
    exact Nat.add_le_add (ihp hm₁ h₁) (ihq hm₂ h₂)
  | alt p q ihp ihq =>
    rw [Pattern.span]
    obtain h | h := h
    · exact (ihp h hrun).trans (Nat.le_max_left _ _)
    · exact (ihq h hrun).trans (Nat.le_max_right _ _)
  | empty =>
    obtain rfl : m = [] := h
    exact Nat.zero_le _
  | boundary =>
    obtain ⟨rfl, -⟩ := h
    exact Nat.zero_le _

theorem shrink_matches {p : Pattern} {prev : Option UInt16} {m post : JsString}
    (h : Matches p prev m post) :
    ∃ m' post', m ++ post = m' ++ post' ∧ Matches p.shrink prev m' post' := by
  induction p generalizing prev m post with
  | upTo c least most =>
    obtain ⟨hall, hleast, hmost⟩ := h
    refine ⟨m.take least, m.drop least ++ post, ?_, fun u hu => hall u (List.mem_of_mem_take hu), ?_,
      ?_⟩
    · rw [← List.append_assoc, List.take_append_drop]
    · rw [List.length_take]
      omega
    · rw [List.length_take]
      omega
  | seq p q ihp ihq =>
    obtain ⟨m₁, m₂, rfl, hm₁, hm₂⟩ := h
    obtain ⟨m', post', heq, hm'⟩ := ihq hm₂
    refine ⟨m₁ ++ m', post', ?_, m₁, m', rfl, ?_, hm'⟩
    · rw [List.append_assoc, heq, List.append_assoc]
    · rwa [← heq]
  | empty => exact ⟨m, post, rfl, h⟩
  | one c => exact ⟨m, post, rfl, h⟩
  | boundary => exact ⟨m, post, rfl, h⟩
  | spaces least => exact ⟨m, post, rfl, h⟩
  | alt p q => exact ⟨m, post, rfl, h⟩

theorem matches_of_shrink {p : Pattern} {prev : Option UInt16} {m post : JsString}
    (h : Matches p.shrink prev m post) : Matches p prev m post := by
  induction p generalizing prev m post with
  | upTo c least most =>
    obtain ⟨hall, hleast, hmost⟩ := h
    exact ⟨hall, hleast, hmost.trans (Nat.min_le_right _ _)⟩
  | seq p q ihp ihq =>
    obtain ⟨m₁, m₂, rfl, hm₁, hm₂⟩ := h
    exact ⟨m₁, m₂, rfl, hm₁, ihq hm₂⟩
  | empty => exact h
  | one c => exact h
  | boundary => exact h
  | spaces least => exact h
  | alt p q => exact h

namespace Pattern

def windowed (p : Pattern) (overlap : ℕ) : Bool :=
  (p.collapses true).isSome && p.shrink.leftSafe && p.shrink.rightSafe && p.shrink.span ≤ overlap

end Pattern

theorem exists_short_match {p : Pattern} {overlap : ℕ} (hp : p.windowed overlap = true)
    {s : JsString} (hrun : hasRun s = false) (h : p.test s = true) :
    ∃ front m post, s = front ++ (m ++ post) ∧ m.length ≤ overlap ∧
      ∀ front' post', front' <:+ front → post' <+: post → p.test (front' ++ (m ++ post')) = true := by
  rw [Pattern.windowed, Bool.and_eq_true, Bool.and_eq_true, Bool.and_eq_true,
    decide_eq_true_eq] at hp
  obtain ⟨⟨⟨-, hleft⟩, hright⟩, hspan⟩ := hp
  obtain ⟨front, m₀, post₀, rfl, hm₀⟩ := (test_iff p s).mp h
  obtain ⟨m, post, heq, hm⟩ := shrink_matches hm₀
  rw [heq] at hrun ⊢
  have hmrun : hasRun m = false := by
    cases hhas : hasRun m with
    | true =>
      rw [hasRun_append_right (hasRun_append_left hhas)] at hrun
      cases hrun
    | false => rfl
  refine ⟨front, m, post, rfl, (length_le_span hm hmrun).trans hspan, fun front' post' hf hpost => ?_⟩
  refine (test_iff p _).mpr ⟨front', m, post', rfl, matches_of_shrink ?_⟩
  refine rightSafe_matches hright hpost ?_
  obtain ⟨rest, rfl⟩ := hf
  cases hlast : front'.getLast? with
  | none => exact leftSafe_matches hleft hm
  | some u =>
    rw [List.getLast?_append, hlast] at hm
    exact hm

end Daloy.SearchPatterns
