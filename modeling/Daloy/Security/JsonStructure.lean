import Daloy.Foundations.JsonGrammar
import Daloy.Security.SafeJson
import Mathlib.Algebra.Order.Ring.Rat

/-! # `safeJsonParseLimited`

The structural limits of `src/security.ts`, which are checked on the text before it is parsed.

* `Measured t m d`: what the scan does on a piece of a text with `m` members and nested `d` deep.
* `written_measured`: every value of the grammar is measured by its own numbers.
* `structure_scan_iff`: the scan throws exactly when the tree of the text exceeds a limit.
-/

namespace Daloy.Security
set_option autoImplicit false

open Daloy.Unicode Daloy.Json

/-! ## The scan -/

structure Scan where
  depth : ℤ := 0
  keyCount : ℕ := 0
  inString : Bool := false
  escaped : Bool := false
  deriving DecidableEq

@[ext] theorem Scan.ext {s s' : Scan} (hdepth : s.depth = s'.depth)
    (hkeys : s.keyCount = s'.keyCount) (hin : s.inString = s'.inString)
    (hescaped : s.escaped = s'.escaped) : s = s' := by
  cases s
  cases s'
  simp_all

def scanUnit (maxKeys maxDepth : ℚ) (s : Scan) (c : UInt16) : Except String Scan :=
  if s.inString then
    if s.escaped then .ok { s with escaped := false }
    else if c = 0x5c then .ok { s with escaped := true }
    else if c = 0x22 then .ok { s with inString := false }
    else .ok s
  else if c = 0x22 then .ok { s with inString := true }
  else if c = 0x7b ∨ c = 0x5b then
    if maxDepth > 0 ∧ ((s.depth + 1 : ℤ) : ℚ) > maxDepth then
      .error "JSON exceeds maximum nesting depth"
    else .ok { s with depth := s.depth + 1 }
  else if c = 0x7d ∨ c = 0x5d then .ok { s with depth := s.depth - 1 }
  else if c = 0x3a then
    if maxKeys > 0 then
      if ((s.keyCount + 1 : ℕ) : ℚ) > maxKeys then .error "JSON exceeds maximum key count"
      else .ok { s with keyCount := s.keyCount + 1 }
    else .ok s
  else .ok s

def assertJsonTextStructure (text : JsString) (maxKeys maxDepth : ℚ) : Except String Unit :=
  (text.foldlM (scanUnit maxKeys maxDepth) {}).map fun _ => ()

variable {ν : Type} [NumberText ν]

def safeJsonParseLimited (text : JsString) (maxKeys : ℚ := 10000) (maxDepth : ℚ := 50) :
    Except String (Option (Value ν)) :=
  if text.length = 0 then .ok none
  else if maxKeys > 0 ∨ maxDepth > 0 then
    match assertJsonTextStructure text maxKeys maxDepth with
    | .error e => .error e
    | .ok () => safeJsonParse text
  else safeJsonParse text

/-! ## Loops that may throw -/

section Loops
variable {α ε σ : Type} {f : σ → α → Except ε σ} {a : α} {t t' : List α} {s s' : σ} {e : ε}

theorem foldlM_cons_ok (h : f s a = .ok s') : (a :: t).foldlM f s = t.foldlM f s' := by
  rw [List.foldlM_cons, h]
  rfl

theorem foldlM_cons_error (h : f s a = .error e) : (a :: t).foldlM f s = .error e := by
  rw [List.foldlM_cons, h]
  rfl

theorem foldlM_append_ok (h : t.foldlM f s = .ok s') :
    (t ++ t').foldlM f s = t'.foldlM f s' := by
  rw [List.foldlM_append, h]
  rfl

theorem foldlM_append_error (h : t.foldlM f s = .error e) :
    (t ++ t').foldlM f s = .error e := by
  rw [List.foldlM_append, h]
  rfl

end Loops

/-! ## Pieces of a text -/

section Measure
variable (maxKeys maxDepth : ℚ)

/-- The limits are exceeded `m` members and `d` levels further on. -/
def Exceeds (s : Scan) (m d : ℕ) : Prop :=
  (0 < maxKeys ∧ maxKeys < ((s.keyCount + m : ℕ) : ℚ)) ∨
    (0 < maxDepth ∧ maxDepth < ((s.depth + d : ℤ) : ℚ))

/-- The scan behind `m` members. -/
def Scan.count (s : Scan) (m : ℕ) : Scan :=
  { s with keyCount := if 0 < maxKeys then s.keyCount + m else s.keyCount }

/-- The scan outside of strings, within the limits. -/
structure Settled (s : Scan) : Prop where
  outside : s.inString = false
  plain : s.escaped = false
  within : ¬ Exceeds maxKeys maxDepth s 0 0

/-- A piece of a text counts `m` members and goes `d` levels deeper than where it starts, which is
where it ends. -/
def Measured (t : JsString) (m d : ℕ) : Prop :=
  ∀ s, Settled maxKeys maxDepth s →
    (Exceeds maxKeys maxDepth s m d →
      ∃ e, t.foldlM (scanUnit maxKeys maxDepth) s = .error e) ∧
    (¬ Exceeds maxKeys maxDepth s m d →
      t.foldlM (scanUnit maxKeys maxDepth) s = .ok (s.count maxKeys m))

variable {maxKeys maxDepth} {s : Scan}

theorem Exceeds.mono {m d m' d' : ℕ} (h : Exceeds maxKeys maxDepth s m d) (hm : m ≤ m')
    (hd : d ≤ d') : Exceeds maxKeys maxDepth s m' d' := by
  obtain ⟨hpos, hkeys⟩ | ⟨hpos, hdepth⟩ := h
  · refine .inl ⟨hpos, lt_of_lt_of_le hkeys ?_⟩
    exact_mod_cast Nat.add_le_add_left hm s.keyCount
  · refine .inr ⟨hpos, lt_of_lt_of_le hdepth ?_⟩
    exact_mod_cast (show s.depth + (d : ℤ) ≤ s.depth + (d' : ℤ) by omega)

theorem exceeds_count {m m' d : ℕ} :
    Exceeds maxKeys maxDepth (s.count maxKeys m) m' d ↔
      (0 < maxKeys ∧ maxKeys < ((s.keyCount + (m + m') : ℕ) : ℚ)) ∨
        (0 < maxDepth ∧ maxDepth < ((s.depth + d : ℤ) : ℚ)) := by
  unfold Exceeds Scan.count
  dsimp only
  rw [← Nat.add_assoc]
  constructor
  · rintro (⟨hpos, hkeys⟩ | hdepth)
    · rw [if_pos hpos] at hkeys
      exact .inl ⟨hpos, hkeys⟩
    · exact .inr hdepth
  · rintro (⟨hpos, hkeys⟩ | hdepth)
    · rw [if_pos hpos]
      exact .inl ⟨hpos, hkeys⟩
    · exact .inr hdepth

theorem count_count (m m' : ℕ) :
    (s.count maxKeys m).count maxKeys m' = s.count maxKeys (m + m') := by
  unfold Scan.count
  by_cases hpos : 0 < maxKeys
  · simp only [if_pos hpos, Nat.add_assoc]
  · simp only [if_neg hpos]

theorem Settled.count {m : ℕ} (h : Settled maxKeys maxDepth s)
    (hwithin : ¬ Exceeds maxKeys maxDepth s m 0) :
    Settled maxKeys maxDepth (s.count maxKeys m) := by
  refine ⟨h.outside, h.plain, fun hex => hwithin ?_⟩
  rwa [exceeds_count, Nat.add_zero] at hex

theorem Measured.append {t t' : JsString} {m d m' d' : ℕ} (h : Measured maxKeys maxDepth t m d)
    (h' : Measured maxKeys maxDepth t' m' d') :
    Measured maxKeys maxDepth (t ++ t') (m + m') (max d d') := by
  intro s hs
  obtain ⟨hthrows, hends⟩ := h s hs
  by_cases hfirst : Exceeds maxKeys maxDepth s m d
  · obtain ⟨e, he⟩ := hthrows hfirst
    refine ⟨fun _ => ⟨e, foldlM_append_error he⟩, fun hnot => absurd ?_ hnot⟩
    exact hfirst.mono (Nat.le_add_right m m') (Nat.le_max_left d d')
  · rw [foldlM_append_ok (hends hfirst)]
    have hsettled := hs.count (m := m) fun hex => hfirst (hex.mono (Nat.le_refl m) (Nat.zero_le d))
    obtain ⟨hthrows', hends'⟩ := h' _ hsettled
    have hiff : Exceeds maxKeys maxDepth (s.count maxKeys m) m' d' ↔
        Exceeds maxKeys maxDepth s (m + m') (max d d') := by
      rw [exceeds_count]
      constructor
      · rintro (hkeys | hdepth)
        · exact .inl hkeys
        · exact Exceeds.mono (.inr hdepth) (Nat.zero_le _) (Nat.le_max_right d d')
      · rintro (hkeys | ⟨hpos, hdepth⟩)
        · exact .inl hkeys
        · refine .inr ⟨hpos, ?_⟩
          obtain hmax | hmax := Nat.le_total d d'
          · rwa [Nat.max_eq_right hmax] at hdepth
          · rw [Nat.max_eq_left hmax] at hdepth
            exact absurd (Exceeds.mono (.inr ⟨hpos, hdepth⟩) (Nat.zero_le m) (Nat.le_refl d)) hfirst
    rw [← hiff, ← count_count]
    exact ⟨hthrows', hends'⟩

def isPassed (u : UInt16) : Bool :=
  u != 0x22 && u != 0x7b && u != 0x5b && u != 0x7d && u != 0x5d && u != 0x3a

theorem scanUnit_passed {u : UInt16} (hs : s.inString = false) (hu : isPassed u = true) :
    scanUnit maxKeys maxDepth s u = .ok s := by
  simp only [isPassed, Bool.and_eq_true, bne_iff_ne] at hu
  obtain ⟨⟨⟨⟨⟨hquote, hbrace⟩, hbracket⟩, hclose⟩, hclose'⟩, hcolon⟩ := hu
  rw [scanUnit, hs, if_neg Bool.false_ne_true, if_neg hquote, if_neg (by tauto),
    if_neg (by tauto), if_neg hcolon]

theorem count_zero : s.count maxKeys 0 = s := by
  unfold Scan.count
  split <;> rfl

theorem Measured.passed {t : JsString} (h : ∀ u ∈ t, isPassed u = true) :
    Measured maxKeys maxDepth t 0 0 := by
  intro s hs
  refine ⟨fun hex => absurd hex hs.within, fun _ => ?_⟩
  rw [count_zero]
  induction t with
  | nil => rfl
  | cons u t ih =>
    obtain ⟨hu, ht⟩ := List.forall_mem_cons.mp h
    rw [foldlM_cons_ok (scanUnit_passed hs.outside hu)]
    exact ih ht

theorem foldlM_stringBody {body : JsString} (h : StringBody body) (hin : s.inString = true)
    (hplain : s.escaped = false) :
    body.foldlM (scanUnit maxKeys maxDepth) s = .ok s := by
  have hslash : scanUnit maxKeys maxDepth s 0x5c = .ok { s with escaped := true } := by
    rw [scanUnit, if_pos hin, hplain, if_neg Bool.false_ne_true, if_pos rfl]
  have hescaped : ∀ u, scanUnit maxKeys maxDepth { s with escaped := true } u = .ok s := by
    intro u
    rw [scanUnit, if_pos hin, if_pos rfl]
    exact congrArg Except.ok (Scan.ext rfl rfl rfl hplain.symm)
  have hother : ∀ u, u ≠ 0x22 → u ≠ 0x5c → scanUnit maxKeys maxDepth s u = .ok s := by
    intro u hquote hslash
    rw [scanUnit, if_pos hin, hplain, if_neg Bool.false_ne_true, if_neg hslash, if_neg hquote]
  have hhex : ∀ {u : UInt16} {n : ℕ}, hexValue u = some n →
      scanUnit maxKeys maxDepth s u = .ok s := by
    intro u n hu
    apply hother
    · rintro rfl
      exact absurd hu (by simp [hexValue])
    · rintro rfl
      exact absurd hu (by simp [hexValue])
  induction h with
  | nil => rfl
  | plain hquote hslash' _ _ ih =>
    rw [foldlM_cons_ok (hother _ hquote hslash')]
    exact ih
  | escape _ _ ih =>
    rw [foldlM_cons_ok hslash, foldlM_cons_ok (hescaped _)]
    exact ih
  | @unicode a b c d t hhexes _ ih =>
    obtain ⟨w, hw⟩ := Option.isSome_iff_exists.mp hhexes
    unfold hexUnits at hw
    split at hw
    · next ha hb hc hd =>
      rw [foldlM_cons_ok hslash, foldlM_cons_ok (hescaped _), foldlM_cons_ok (hhex ha),
        foldlM_cons_ok (hhex hb), foldlM_cons_ok (hhex hc), foldlM_cons_ok (hhex hd)]
      exact ih
    · simp at hw

theorem Measured.string {t : JsString} (h : StringText t) : Measured maxKeys maxDepth t 0 0 := by
  obtain ⟨body, hbody, rfl⟩ := h
  intro s hs
  refine ⟨fun hex => absurd hex hs.within, fun _ => ?_⟩
  have hopen : scanUnit maxKeys maxDepth s 0x22 = .ok { s with inString := true } := by
    rw [scanUnit, hs.outside, if_neg Bool.false_ne_true, if_pos rfl]
  have hclose : scanUnit maxKeys maxDepth { s with inString := true } 0x22 = .ok s := by
    rw [scanUnit, if_pos rfl, hs.plain, if_neg Bool.false_ne_true, if_neg (by decide), if_pos rfl]
    exact congrArg Except.ok (Scan.ext rfl rfl hs.outside.symm hs.plain.symm)
  have hbody' : body.foldlM (scanUnit maxKeys maxDepth) { s with inString := true } =
      .ok { s with inString := true } := foldlM_stringBody hbody rfl hs.plain
  rw [count_zero, foldlM_cons_ok hopen, foldlM_append_ok hbody', foldlM_cons_ok hclose]
  rfl

theorem Measured.colon : Measured maxKeys maxDepth [0x3a] 1 0 := by
  intro s hs
  have hscan : scanUnit maxKeys maxDepth s 0x3a =
      if maxKeys > 0 then
        if ((s.keyCount + 1 : ℕ) : ℚ) > maxKeys then .error "JSON exceeds maximum key count"
        else .ok { s with keyCount := s.keyCount + 1 }
      else .ok s := by
    rw [scanUnit, hs.outside, if_neg Bool.false_ne_true, if_neg (by decide), if_neg (by decide),
      if_neg (by decide), if_pos rfl]
  constructor
  · rintro (⟨hpos, hkeys⟩ | hdeep)
    · rw [if_pos hpos, if_pos hkeys] at hscan
      exact ⟨_, foldlM_cons_error hscan⟩
    · exact absurd (.inr hdeep) hs.within
  · intro hnot
    unfold Scan.count
    by_cases hpos : maxKeys > 0
    · rw [if_pos hpos, if_neg fun hkeys => hnot (.inl ⟨hpos, hkeys⟩)] at hscan
      rw [foldlM_cons_ok hscan, if_pos hpos]
      rfl
    · rw [if_neg hpos] at hscan
      rw [foldlM_cons_ok hscan, if_neg hpos]
      rfl

theorem Measured.nest {t : JsString} {m d : ℕ} {left right : UInt16}
    (hleft : left = 0x7b ∨ left = 0x5b) (hright : right = 0x7d ∨ right = 0x5d)
    (h : Measured maxKeys maxDepth t m d) :
    Measured maxKeys maxDepth (left :: (t ++ [right])) m (d + 1) := by
  intro s hs
  have hopen : scanUnit maxKeys maxDepth s left =
      if maxDepth > 0 ∧ ((s.depth + 1 : ℤ) : ℚ) > maxDepth then
        .error "JSON exceeds maximum nesting depth"
      else .ok { s with depth := s.depth + 1 } := by
    have hquote : left ≠ 0x22 := by
      obtain rfl | rfl := hleft <;> decide
    rw [scanUnit, hs.outside, if_neg Bool.false_ne_true, if_neg hquote, if_pos hleft]
  have hclose : ∀ s', s'.inString = false →
      scanUnit maxKeys maxDepth s' right = .ok { s' with depth := s'.depth - 1 } := by
    intro s' hs'
    have hquote : right ≠ 0x22 ∧ ¬ (right = 0x7b ∨ right = 0x5b) := by
      obtain rfl | rfl := hright <;> decide
    rw [scanUnit, hs', if_neg Bool.false_ne_true, if_neg hquote.1, if_neg hquote.2, if_pos hright]
  have hdeeper : ∀ m d, Exceeds maxKeys maxDepth { s with depth := s.depth + 1 } m d ↔
      Exceeds maxKeys maxDepth s m (d + 1) := by
    intro m d
    have hsum : s.depth + 1 + (d : ℤ) = s.depth + ((d + 1 : ℕ) : ℤ) := by
      push_cast
      ring
    unfold Exceeds
    rw [hsum]
  by_cases hfull : maxDepth > 0 ∧ ((s.depth + 1 : ℤ) : ℚ) > maxDepth
  · rw [if_pos hfull] at hopen
    have hex : Exceeds maxKeys maxDepth s 0 1 := .inr hfull
    exact ⟨fun _ => ⟨_, foldlM_cons_error hopen⟩,
      fun hnot => absurd (hex.mono (Nat.zero_le m) (by omega)) hnot⟩
  · rw [if_neg hfull] at hopen
    have hsettled : Settled maxKeys maxDepth { s with depth := s.depth + 1 } := by
      refine ⟨hs.outside, hs.plain, ?_⟩
      rw [hdeeper]
      rintro (hkeys | hdepth)
      · exact hs.within (.inl hkeys)
      · exact hfull hdepth
    obtain ⟨hthrows, hends⟩ := h _ hsettled
    rw [foldlM_cons_ok hopen, ← hdeeper]
    constructor
    · intro hex
      obtain ⟨e, he⟩ := hthrows hex
      exact ⟨e, foldlM_append_error he⟩
    · intro hnot
      have houtside : (Scan.count maxKeys { s with depth := s.depth + 1 } m).inString = false :=
        hs.outside
      rw [foldlM_append_ok (hends hnot), foldlM_cons_ok (hclose _ houtside)]
      exact congrArg Except.ok (Scan.ext (add_sub_cancel_right s.depth 1) rfl rfl rfl)

/-! ## The grammar -/

theorem isPassed_of_isSpace {u : UInt16} (h : isSpace u = true) : isPassed u = true := by
  simp only [isSpace, Bool.or_eq_true, beq_iff_eq] at h
  obtain ((rfl | rfl) | rfl) | rfl := h <;> rfl

theorem Measured.spaces {ws : JsString} (h : Spaces ws) : Measured maxKeys maxDepth ws 0 0 :=
  .passed fun u hu => isPassed_of_isSpace (h u hu)

theorem Measured.atom {t : JsString} (h : Atom ν t) : Measured maxKeys maxDepth t 0 0 := by
  apply Measured.passed
  obtain rfl | rfl | rfl | ⟨hnumber, -⟩ := h
  · decide
  · decide
  · decide
  · intro u hu
    have hunit := hnumber u hu
    have hrange : u.toNat ≠ 0x22 ∧ u.toNat ≠ 0x7b ∧ u.toNat ≠ 0x5b ∧ u.toNat ≠ 0x7d ∧
        u.toNat ≠ 0x5d ∧ u.toNat ≠ 0x3a := by
      simp only [isNumberUnit, isDigit, Bool.or_eq_true, Bool.and_eq_true, decide_eq_true_eq,
        beq_iff_eq] at hunit
      obtain ((((⟨hlow, hhigh⟩ | rfl) | rfl) | rfl) | rfl) | rfl := hunit
      · omega
      all_goals decide
    have hne : ∀ v : UInt16, u.toNat ≠ v.toNat → u ≠ v := fun v hv heq => hv (congrArg _ heq)
    simp only [isPassed, Bool.and_eq_true, bne_iff_ne]
    exact ⟨⟨⟨⟨⟨hne _ hrange.1, hne _ hrange.2.1⟩, hne _ hrange.2.2.1⟩, hne _ hrange.2.2.2.1⟩,
      hne _ hrange.2.2.2.2.1⟩, hne _ hrange.2.2.2.2.2⟩

theorem Measured.behind {t t' : JsString} {m d : ℕ} (h : Measured maxKeys maxDepth t m d)
    (h' : Measured maxKeys maxDepth t' 0 0) : Measured maxKeys maxDepth (t ++ t') m d := by
  have hboth := h.append h'
  rwa [Nat.add_zero, Nat.max_zero] at hboth

theorem Measured.before {t t' : JsString} {m d : ℕ} (h : Measured maxKeys maxDepth t 0 0)
    (h' : Measured maxKeys maxDepth t' m d) : Measured maxKeys maxDepth (t ++ t') m d := by
  have hboth := h.append h'
  rwa [Nat.zero_add, Nat.zero_max] at hboth

theorem Measured.comma {t : JsString} {m d : ℕ} (h : Measured maxKeys maxDepth t m d) :
    Measured maxKeys maxDepth (0x2c :: t) m d := by
  have hcomma : Measured maxKeys maxDepth [0x2c] 0 0 := .passed (by decide)
  exact hcomma.before h

theorem Measured.member {before key after t : JsString} {m d : ℕ} (hbefore : Spaces before)
    (hkey : StringText key) (hafter : Spaces after) (h : Measured maxKeys maxDepth t m d) :
    Measured maxKeys maxDepth (before ++ key ++ after ++ 0x3a :: t) (1 + m) d := by
  have hhead : Measured maxKeys maxDepth (before ++ key ++ after) 0 0 :=
    ((Measured.spaces hbefore).behind (.string hkey)).behind (.spaces hafter)
  have hcolon : Measured maxKeys maxDepth ([0x3a] ++ t) (1 + m) (max 0 d) :=
    Measured.colon.append h
  rw [Nat.zero_max] at hcolon
  exact hhead.before hcolon

mutual
theorem written_measured {t : JsString} {m d : ℕ} :
    Written ν t m d → Measured maxKeys maxDepth t m d
  | .space hws h => (Measured.spaces hws).before (written_measured h)
  | .atom h => .atom h
  | .string h => .string h
  | .emptyArray hws => .nest (.inr rfl) (.inr rfl) (.spaces hws)
  | .array h => .nest (.inr rfl) (.inr rfl) (items_measured h)
  | .emptyObject hws => .nest (.inl rfl) (.inl rfl) (.spaces hws)
  | .object h => .nest (.inl rfl) (.inl rfl) (members_measured h)

theorem items_measured {t : JsString} {m d : ℕ} :
    WrittenItems ν t m d → Measured maxKeys maxDepth t m d
  | .last h hws => (written_measured h).behind (.spaces hws)
  | .more h hws hrest =>
    ((written_measured h).behind (.spaces hws)).append (items_measured hrest).comma

theorem members_measured {t : JsString} {m d : ℕ} :
    WrittenMembers ν t m d → Measured maxKeys maxDepth t m d
  | .last hbefore hkey hafter h hws =>
    .member hbefore hkey hafter ((written_measured h).behind (.spaces hws))
  | .more hbefore hkey hafter h hws hrest => by
    rw [Nat.add_assoc]
    exact .member hbefore hkey hafter
      (((written_measured h).behind (.spaces hws)).append (members_measured hrest).comma)
end

end Measure

/-! ## The limits -/

/-- The tree of a text is larger than the limits allow; a limit that is not positive allows all. -/
def TooLarge (maxKeys maxDepth : ℚ) (members depth : ℕ) : Prop :=
  (0 < maxKeys ∧ maxKeys < members) ∨ (0 < maxDepth ∧ maxDepth < depth)

theorem structure_scan_iff {text : JsString} {m d : ℕ} (h : IsJsonText ν text m d)
    (maxKeys maxDepth : ℚ) :
    (∃ e, assertJsonTextStructure text maxKeys maxDepth = .error e) ↔
      TooLarge maxKeys maxDepth m d := by
  obtain ⟨t, ws, hwritten, hws, rfl⟩ := h
  have hsettled : Settled maxKeys maxDepth {} := by
    refine ⟨rfl, rfl, ?_⟩
    rintro (⟨hpos, hlt⟩ | ⟨hpos, hlt⟩)
    · exact absurd hlt (not_lt.mpr (le_of_lt (by simpa using hpos)))
    · exact absurd hlt (not_lt.mpr (le_of_lt (by simpa using hpos)))
  have hexceeds : Exceeds maxKeys maxDepth {} m d ↔ TooLarge maxKeys maxDepth m d := by
    simp [Exceeds, TooLarge]
  obtain ⟨hthrows, hends⟩ := ((written_measured hwritten).behind (.spaces hws)) {} hsettled
  rw [← hexceeds, assertJsonTextStructure]
  constructor
  · rintro ⟨e, he⟩
    by_contra hnot
    rw [hends hnot] at he
    cases he
  · intro hex
    obtain ⟨e, he⟩ := hthrows hex
    exact ⟨e, by rw [he]; rfl⟩

theorem safeJsonParseLimited_of_ok {text : JsString} {maxKeys maxDepth : ℚ}
    (h : ∀ e, assertJsonTextStructure text maxKeys maxDepth ≠ .error e) :
    safeJsonParseLimited (ν := ν) text maxKeys maxDepth = safeJsonParse text := by
  rw [safeJsonParseLimited]
  split
  · next hempty => rw [safeJsonParse, if_pos hempty]
  split
  · cases hscan : assertJsonTextStructure text maxKeys maxDepth with
    | error e => exact absurd hscan (h e)
    | ok u => rfl
  · rfl

theorem safeJsonParseLimited_invalid {text : JsString} (hne : text ≠ [])
    (h : parse (ν := ν) text = none) (maxKeys maxDepth : ℚ) :
    ∃ e, safeJsonParseLimited (ν := ν) text maxKeys maxDepth = .error e := by
  have hlength : ¬ text.length = 0 := fun hzero => hne (List.eq_nil_of_length_eq_zero hzero)
  have hparse : safeJsonParse (ν := ν) text = .error "Invalid JSON" := by
    rw [safeJsonParse, if_neg hlength, h]
  rw [safeJsonParseLimited, if_neg hlength]
  split
  · cases assertJsonTextStructure text maxKeys maxDepth with
    | error e => exact ⟨e, rfl⟩
    | ok u => exact ⟨_, hparse⟩
  · exact ⟨_, hparse⟩

/-- **The limited reader.** A JSON text has a tree; the scan throws exactly when that tree is larger
than the limits allow, and then so does the reader, which otherwise returns what `safeJsonParse`
does. On a text that is not JSON it throws, unless the text is empty, for which it returns
`undefined`. -/
theorem limited_reader (text : JsString) (maxKeys maxDepth : ℚ) :
    (∀ v : Value ν, parse text = some v → ∃ m d, IsJsonText ν text m d) ∧
    (∀ m d, IsJsonText ν text m d →
      ((∃ e, assertJsonTextStructure text maxKeys maxDepth = .error e) ↔
        TooLarge maxKeys maxDepth m d) ∧
      (¬ TooLarge maxKeys maxDepth m d →
        safeJsonParseLimited (ν := ν) text maxKeys maxDepth = safeJsonParse text) ∧
      (TooLarge maxKeys maxDepth m d →
        ∃ e, safeJsonParseLimited (ν := ν) text maxKeys maxDepth = .error e)) ∧
    (parse (ν := ν) text = none → text ≠ [] →
      ∃ e, safeJsonParseLimited (ν := ν) text maxKeys maxDepth = .error e) ∧
    (text = [] → safeJsonParseLimited (ν := ν) text maxKeys maxDepth = .ok none) := by
  refine ⟨fun v hv => isJsonText_of_parse hv, ?_, ?_, ?_⟩
  · intro m d htext
    have hiff := structure_scan_iff htext maxKeys maxDepth
    refine ⟨hiff, ?_, ?_⟩
    · intro hfits
      exact safeJsonParseLimited_of_ok fun e he => hfits (hiff.mp ⟨e, he⟩)
    · intro hlarge
      obtain ⟨e, he⟩ := hiff.mpr hlarge
      have hlength : ¬ text.length = 0 := by
        intro hzero
        rw [List.eq_nil_of_length_eq_zero hzero] at he
        cases he
      have hlimited : maxKeys > 0 ∨ maxDepth > 0 := hlarge.imp And.left And.left
      exact ⟨e, by rw [safeJsonParseLimited, if_neg hlength, if_pos hlimited, he]⟩
  · exact fun hparse hne => safeJsonParseLimited_invalid hne hparse maxKeys maxDepth
  · rintro rfl
    rfl

theorem limited_reader_nested :
    ∃ e, safeJsonParseLimited (ν := ℕ) (js "\x7b\"a\":[]\x7d") 0 1 = .error e := by
  have hspaces : Spaces [] := by simp [Spaces]
  have hkey : StringText (js "\"a\"") :=
    ⟨[0x61], .plain (by decide) (by decide) (by decide) .nil, by decide⟩
  have htext : IsJsonText ℕ (js "\x7b\"a\":[]\x7d") 1 2 :=
    ⟨_, [], .object (.last hspaces hkey hspaces (.emptyArray hspaces) hspaces), hspaces, by decide⟩
  refine ((limited_reader (ν := ℕ) (js "\x7b\"a\":[]\x7d") 0 1).2.1 1 2 htext).2.2 ?_
  exact .inr (by norm_num)

theorem empty_text_is_read :
    ¬ ∀ text : JsString, parse (ν := ℕ) text = none →
      ∃ e, safeJsonParseLimited (ν := ℕ) text = .error e := by
  intro h
  obtain ⟨e, he⟩ := h [] rfl
  cases he

end Daloy.Security
