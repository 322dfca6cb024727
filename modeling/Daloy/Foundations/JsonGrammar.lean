import Daloy.Foundations.JsonParse
import Mathlib.Data.List.TakeWhile

/-! # The grammar of JSON texts

A text is described by how it is put together, with two numbers for its tree: the object members
that are written in it, a repeated key each time, and the depth to which its objects and arrays are
nested. Nothing here mentions a program.

* `Written`, `WrittenItems`, `WrittenMembers`: a value with the spaces before it, the inside of an
  array and of an object that is not empty.
* `IsJsonText`: a value with spaces around it.
* `isJsonText_of_parse`: what the reader accepts is such a text.
-/

namespace Daloy.Json
set_option autoImplicit false

open Daloy.Unicode

def Spaces (t : JsString) : Prop := ∀ u ∈ t, isSpace u = true

/-- What stands between the quotes of a string. -/
inductive StringBody : JsString → Prop
  | nil : StringBody []
  | plain {u : UInt16} {t : JsString} (hquote : u ≠ 0x22) (hslash : u ≠ 0x5c)
      (hcontrol : 0x20 ≤ u.toNat) (h : StringBody t) : StringBody (u :: t)
  | escape {v : UInt16} {t : JsString} (hv : (simpleEscape v).isSome = true) (h : StringBody t) :
      StringBody (0x5c :: v :: t)
  | unicode {a b c d : UInt16} {t : JsString} (hhex : (hexUnits a b c d).isSome = true)
      (h : StringBody t) : StringBody (0x5c :: 0x75 :: a :: b :: c :: d :: t)

def StringText (t : JsString) : Prop := ∃ body, StringBody body ∧ t = 0x22 :: (body ++ [0x22])

section Grammar
variable (ν : Type) [NumberText ν]

def Atom (t : JsString) : Prop :=
  t = js "true" ∨ t = js "false" ∨ t = js "null" ∨
    (∀ u ∈ t, isNumberUnit u = true) ∧ (NumberText.read t : Option ν).isSome = true

mutual
/-- A value, with the members in it and its depth. -/
inductive Written : JsString → ℕ → ℕ → Prop
  | space {ws t : JsString} {m d : ℕ} (hws : Spaces ws) (h : Written t m d) : Written (ws ++ t) m d
  | atom {t : JsString} (h : Atom ν t) : Written t 0 0
  | string {t : JsString} (h : StringText t) : Written t 0 0
  | emptyArray {ws : JsString} (hws : Spaces ws) : Written (0x5b :: (ws ++ [0x5d])) 0 1
  | array {t : JsString} {m d : ℕ} (h : WrittenItems t m d) :
      Written (0x5b :: (t ++ [0x5d])) m (d + 1)
  | emptyObject {ws : JsString} (hws : Spaces ws) : Written (0x7b :: (ws ++ [0x7d])) 0 1
  | object {t : JsString} {m d : ℕ} (h : WrittenMembers t m d) :
      Written (0x7b :: (t ++ [0x7d])) m (d + 1)

inductive WrittenItems : JsString → ℕ → ℕ → Prop
  | last {t ws : JsString} {m d : ℕ} (h : Written t m d) (hws : Spaces ws) :
      WrittenItems (t ++ ws) m d
  | more {t ws rest : JsString} {m d m' d' : ℕ} (h : Written t m d) (hws : Spaces ws)
      (hrest : WrittenItems rest m' d') :
      WrittenItems (t ++ ws ++ 0x2c :: rest) (m + m') (max d d')

inductive WrittenMembers : JsString → ℕ → ℕ → Prop
  | last {before key after t ws : JsString} {m d : ℕ} (hbefore : Spaces before)
      (hkey : StringText key) (hafter : Spaces after) (h : Written t m d) (hws : Spaces ws) :
      WrittenMembers (before ++ key ++ after ++ 0x3a :: (t ++ ws)) (1 + m) d
  | more {before key after t ws rest : JsString} {m d m' d' : ℕ} (hbefore : Spaces before)
      (hkey : StringText key) (hafter : Spaces after) (h : Written t m d) (hws : Spaces ws)
      (hrest : WrittenMembers rest m' d') :
      WrittenMembers (before ++ key ++ after ++ 0x3a :: (t ++ ws ++ 0x2c :: rest)) (1 + m + m')
        (max d d')
end

def IsJsonText (text : JsString) (members depth : ℕ) : Prop :=
  ∃ t ws, Written ν t members depth ∧ Spaces ws ∧ text = t ++ ws

end Grammar

/-! ## What the reader accepts -/

theorem skipSpace_split (s : JsString) : ∃ ws, Spaces ws ∧ s = ws ++ skipSpace s := by
  induction s with
  | nil => exact ⟨[], by simp [Spaces], rfl⟩
  | cons u rest ih =>
    rw [skipSpace]
    split
    · next hspace =>
      obtain ⟨ws, hws, heq⟩ := ih
      refine ⟨u :: ws, ?_, congrArg (u :: ·) heq⟩
      intro v hv
      obtain rfl | hv := List.mem_cons.mp hv
      · exact hspace
      · exact hws v hv
    · exact ⟨[], by simp [Spaces], rfl⟩

theorem skipSpace_eq_cons {s rest : JsString} {u : UInt16} (h : skipSpace s = u :: rest) :
    ∃ ws, Spaces ws ∧ s = ws ++ u :: rest := by
  obtain ⟨ws, hws, heq⟩ := skipSpace_split s
  exact ⟨ws, hws, by rw [heq, h]⟩

theorem parseUnits_split {s k rest : JsString} (h : parseUnits s = some (k, rest)) :
    ∃ body, StringBody body ∧ s = body ++ 0x22 :: rest := by
  induction hn : s.length using Nat.strongRecOn generalizing s k rest with
  | _ n ih =>
    cases s with
    | nil => simp [parseUnits] at h
    | cons u tail =>
      rw [parseUnits.eq_def] at h
      dsimp only at h
      split at h
      · next hquote =>
        obtain ⟨-, rfl⟩ := Prod.mk.inj (Option.some.inj h)
        exact ⟨[], .nil, by rw [hquote]; rfl⟩
      split at h
      · next hquote hslash =>
        subst hslash
        split at h
        · next a b c d tail' =>
          obtain ⟨w, hw, hmap⟩ := Option.bind_eq_some_iff.mp h
          obtain ⟨⟨k', rest'⟩, hread, heq⟩ := Option.map_eq_some_iff.mp hmap
          obtain ⟨-, rfl⟩ := Prod.mk.inj heq
          obtain ⟨body, hbody, rfl⟩ := ih _ (by simp only [← hn, List.length_cons]; omega) hread rfl
          exact ⟨_, .unicode (by simp [hw]) hbody, rfl⟩
        · next v tail' hnot =>
          obtain ⟨w, hw, hmap⟩ := Option.bind_eq_some_iff.mp h
          obtain ⟨⟨k', rest'⟩, hread, heq⟩ := Option.map_eq_some_iff.mp hmap
          obtain ⟨-, rfl⟩ := Prod.mk.inj heq
          obtain ⟨body, hbody, rfl⟩ := ih _ (by simp only [← hn, List.length_cons]; omega) hread rfl
          exact ⟨_, .escape (by simp [hw]) hbody, rfl⟩
        · simp at h
      split at h
      · simp at h
      · next hquote hslash hcontrol =>
        obtain ⟨⟨k', rest'⟩, hread, heq⟩ := Option.map_eq_some_iff.mp h
        obtain ⟨-, rfl⟩ := Prod.mk.inj heq
        obtain ⟨body, hbody, rfl⟩ := ih _ (by simp [← hn]) hread rfl
        exact ⟨_, .plain hquote hslash (by omega) hbody, rfl⟩

theorem stripWord_split {word s rest : JsString} (h : stripWord word s = some rest) :
    s = word ++ rest := by
  induction word generalizing s with
  | nil => exact Option.some.inj h
  | cons w word ih =>
    cases s with
    | nil => simp [stripWord] at h
    | cons u s =>
      rw [stripWord] at h
      split at h
      · next heq => rw [ih h, heq, List.cons_append]
      · simp at h

variable {ν : Type} [NumberText ν]

theorem parseNumber_split {s rest : JsString} {v : Value ν} (h : parseNumber s = some (v, rest)) :
    ∃ t, Atom ν t ∧ s = t ++ rest := by
  obtain ⟨n, hread, heq⟩ := Option.map_eq_some_iff.mp h
  obtain ⟨-, rfl⟩ := Prod.mk.inj heq
  refine ⟨s.takeWhile isNumberUnit, .inr (.inr (.inr ⟨?_, ?_⟩)), ?_⟩
  · exact fun u hu => List.mem_takeWhile_imp hu
  · rw [hread]
    rfl
  · rw [List.takeWhile_append_dropWhile]

theorem atom_split {s rest word : JsString} {w v : Value ν}
    (hword : word = js "true" ∨ word = js "false" ∨ word = js "null")
    (h : (stripWord word s).map (fun r => (w, r)) = some (v, rest)) :
    ∃ t, Atom ν t ∧ s = t ++ rest := by
  obtain ⟨r, hstrip, heq⟩ := Option.map_eq_some_iff.mp h
  obtain ⟨-, rfl⟩ := Prod.mk.inj heq
  refine ⟨word, ?_, stripWord_split hstrip⟩
  obtain rfl | rfl | rfl := hword
  · exact .inl rfl
  · exact .inr (.inl rfl)
  · exact .inr (.inr (.inl rfl))

theorem Spaces.append {ws ws' : JsString} (h : Spaces ws) (h' : Spaces ws') :
    Spaces (ws ++ ws') := by
  intro u hu
  obtain hu | hu := List.mem_append.mp hu
  · exact h u hu
  · exact h' u hu

theorem WrittenItems.space {ws t : JsString} {m d : ℕ} (hws : Spaces ws)
    (h : WrittenItems ν t m d) : WrittenItems ν (ws ++ t) m d := by
  cases h with
  | last h hws' =>
    rw [← List.append_assoc]
    exact .last (.space hws h) hws'
  | more h hws' hrest =>
    rw [← List.append_assoc, ← List.append_assoc]
    exact .more (.space hws h) hws' hrest

theorem WrittenMembers.space {ws t : JsString} {m d : ℕ} (hws : Spaces ws)
    (h : WrittenMembers ν t m d) : WrittenMembers ν (ws ++ t) m d := by
  cases h with
  | last hbefore hkey hafter h hws' =>
    rw [← List.append_assoc, ← List.append_assoc, ← List.append_assoc]
    exact .last (hws.append hbefore) hkey hafter h hws'
  | more hbefore hkey hafter h hws' hrest =>
    rw [← List.append_assoc, ← List.append_assoc, ← List.append_assoc]
    exact .more (hws.append hbefore) hkey hafter h hws' hrest

/-- What a reader with this fuel accepts is written by the grammar. -/
structure Sound (ν : Type) [NumberText ν] (fuel : ℕ) : Prop where
  value : ∀ {s rest : JsString} {v : Value ν}, parseValue fuel s = some (v, rest) →
    ∃ t m d, Written ν t m d ∧ s = t ++ rest
  items : ∀ {s rest : JsString} {vs : List (Value ν)}, parseItems fuel s = some (vs, rest) →
    ∃ t m d, WrittenItems ν t m d ∧ s = t ++ 0x5d :: rest
  members : ∀ {s rest : JsString} {vs : List (JsString × Value ν)},
    parseMembers fuel s = some (vs, rest) →
    ∃ t m d, WrittenMembers ν t m d ∧ s = t ++ 0x7d :: rest

theorem parseValue_sound {fuel : ℕ} (ih : Sound ν fuel) {s rest : JsString} {v : Value ν}
    (h : parseValue (fuel + 1) s = some (v, rest)) : ∃ t m d, Written ν t m d ∧ s = t ++ rest := by
  rw [parseValue] at h
  obtain ⟨ws, hws, hs⟩ := skipSpace_split s
  have hspace : ∀ {t : JsString} {m d : ℕ}, Written ν t m d → skipSpace s = t ++ rest →
      ∃ t m d, Written ν t m d ∧ s = t ++ rest := by
    intro t m d hwritten heq
    exact ⟨ws ++ t, m, d, .space hws hwritten, by rw [hs, heq, List.append_assoc]⟩
  have hatom : ∀ {t : JsString}, Atom ν t → skipSpace s = t ++ rest →
      ∃ t m d, Written ν t m d ∧ s = t ++ rest := fun hword => hspace (.atom hword)
  split at h
  · simp at h
  next u tail hskip =>
  split at h
  · -- a string
    next hu =>
    obtain ⟨⟨k, rest'⟩, hunits, heq⟩ := Option.map_eq_some_iff.mp h
    obtain ⟨-, rfl⟩ := Prod.mk.inj heq
    obtain ⟨body, hbody, rfl⟩ := parseUnits_split hunits
    refine hspace (.string ⟨body, hbody, rfl⟩) ?_
    rw [hskip, hu]
    simp
  split at h
  · -- an array
    next _ hu =>
    split at h
    · simp at h
    next u' tail' hskip' =>
    obtain ⟨ws', hws', rfl⟩ := skipSpace_eq_cons hskip'
    split at h
    · next hu' =>
      obtain ⟨-, rfl⟩ := Prod.mk.inj (Option.some.inj h)
      refine hspace (.emptyArray hws') ?_
      rw [hskip, hu, hu']
      simp
    · obtain ⟨⟨vs, rest'⟩, hitems, heq⟩ := Option.map_eq_some_iff.mp h
      obtain ⟨-, rfl⟩ := Prod.mk.inj heq
      obtain ⟨t, m, d, hwritten, htail⟩ := ih.items hitems
      refine hspace (.array (hwritten.space hws')) ?_
      rw [hskip, hu, htail]
      simp
  split at h
  · -- an object
    next _ _ hu =>
    split at h
    · simp at h
    next u' tail' hskip' =>
    obtain ⟨ws', hws', rfl⟩ := skipSpace_eq_cons hskip'
    split at h
    · next hu' =>
      obtain ⟨-, rfl⟩ := Prod.mk.inj (Option.some.inj h)
      refine hspace (.emptyObject hws') ?_
      rw [hskip, hu, hu']
      simp
    · obtain ⟨⟨vs, rest'⟩, hmembers, heq⟩ := Option.map_eq_some_iff.mp h
      obtain ⟨-, rfl⟩ := Prod.mk.inj heq
      obtain ⟨t, m, d, hwritten, htail⟩ := ih.members hmembers
      refine hspace (.object (hwritten.space hws')) ?_
      rw [hskip, hu, htail]
      simp
  split at h
  · obtain ⟨t, hword, heq⟩ := atom_split (.inl rfl) h
    exact hatom hword (hskip.trans heq)
  split at h
  · obtain ⟨t, hword, heq⟩ := atom_split (.inr (.inl rfl)) h
    exact hatom hword (hskip.trans heq)
  split at h
  · obtain ⟨t, hword, heq⟩ := atom_split (.inr (.inr rfl)) h
    exact hatom hword (hskip.trans heq)
  · obtain ⟨t, hword, heq⟩ := parseNumber_split h
    exact hatom hword (hskip.trans heq)

theorem parseItems_sound {fuel : ℕ} (ih : Sound ν fuel) {s rest : JsString} {vs : List (Value ν)}
    (h : parseItems (fuel + 1) s = some (vs, rest)) :
    ∃ t m d, WrittenItems ν t m d ∧ s = t ++ 0x5d :: rest := by
  rw [parseItems] at h
  obtain ⟨⟨v, behind⟩, hvalue, hbehind⟩ := Option.bind_eq_some_iff.mp h
  obtain ⟨t, m, d, hwritten, rfl⟩ := ih.value hvalue
  dsimp only at hbehind
  split at hbehind
  · simp at hbehind
  next u tail hskip =>
  obtain ⟨ws, hws, rfl⟩ := skipSpace_eq_cons hskip
  split at hbehind
  · next hu =>
    obtain ⟨-, rfl⟩ := Prod.mk.inj (Option.some.inj hbehind)
    exact ⟨_, m, d, .last hwritten hws, by rw [hu, List.append_assoc]⟩
  split at hbehind
  · next _ hu =>
    obtain ⟨⟨vs', rest'⟩, hitems, heq⟩ := Option.map_eq_some_iff.mp hbehind
    obtain ⟨-, rfl⟩ := Prod.mk.inj heq
    obtain ⟨t', m', d', hwritten', rfl⟩ := ih.items hitems
    exact ⟨_, m + m', max d d', .more hwritten hws hwritten', by rw [hu]; simp⟩
  · simp at hbehind

theorem parseMembers_sound {fuel : ℕ} (ih : Sound ν fuel) {s rest : JsString}
    {vs : List (JsString × Value ν)} (h : parseMembers (fuel + 1) s = some (vs, rest)) :
    ∃ t m d, WrittenMembers ν t m d ∧ s = t ++ 0x7d :: rest := by
  rw [parseMembers] at h
  split at h
  · simp at h
  next u tail hskip =>
  obtain ⟨before, hbefore, rfl⟩ := skipSpace_eq_cons hskip
  split at h
  swap
  · simp at h
  next hu =>
  obtain ⟨⟨k, behind⟩, hunits, hkey⟩ := Option.bind_eq_some_iff.mp h
  obtain ⟨body, hbody, rfl⟩ := parseUnits_split hunits
  dsimp only at hkey
  split at hkey
  · simp at hkey
  next c tail' hskip' =>
  obtain ⟨after, hafter, rfl⟩ := skipSpace_eq_cons hskip'
  split at hkey
  swap
  · simp at hkey
  next hc =>
  obtain ⟨⟨v, behind⟩, hvalue, hbehind⟩ := Option.bind_eq_some_iff.mp hkey
  obtain ⟨t, m, d, hwritten, rfl⟩ := ih.value hvalue
  dsimp only at hbehind
  split at hbehind
  · simp at hbehind
  next w tail'' hskip'' =>
  obtain ⟨ws, hws, rfl⟩ := skipSpace_eq_cons hskip''
  split at hbehind
  · next hw =>
    obtain ⟨-, rfl⟩ := Prod.mk.inj (Option.some.inj hbehind)
    refine ⟨_, _, d, .last hbefore ⟨body, hbody, rfl⟩ hafter hwritten hws, ?_⟩
    rw [hu, hc, hw]
    simp
  split at hbehind
  · next _ hw =>
    obtain ⟨⟨vs', rest'⟩, hmembers, heq⟩ := Option.map_eq_some_iff.mp hbehind
    obtain ⟨-, rfl⟩ := Prod.mk.inj heq
    obtain ⟨t', m', d', hwritten', rfl⟩ := ih.members hmembers
    refine ⟨_, _, _, .more hbefore ⟨body, hbody, rfl⟩ hafter hwritten hws hwritten', ?_⟩
    rw [hu, hc, hw]
    simp
  · simp at hbehind

theorem sound (ν : Type) [NumberText ν] (fuel : ℕ) : Sound ν fuel := by
  induction fuel with
  | zero => exact ⟨by simp [parseValue], by simp [parseItems], by simp [parseMembers]⟩
  | succ fuel ih => exact ⟨parseValue_sound ih, parseItems_sound ih, parseMembers_sound ih⟩

theorem isJsonText_of_parse {text : JsString} {v : Value ν} (h : parse text = some v) :
    ∃ m d, IsJsonText ν text m d := by
  obtain ⟨⟨w, rest⟩, hvalue, hrest'⟩ := Option.bind_eq_some_iff.mp h
  obtain ⟨t, m, d, hwritten, rfl⟩ := (sound ν _).value hvalue
  obtain ⟨ws, hws, hrest⟩ := skipSpace_split rest
  split at hrest'
  · next hempty =>
    rw [hempty, List.append_nil] at hrest
    exact ⟨m, d, t, ws, hwritten, hws, by rw [hrest]⟩
  · simp at hrest'

end Daloy.Json
