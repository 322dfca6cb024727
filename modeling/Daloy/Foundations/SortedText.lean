import Daloy.Foundations.JsonParse
import Daloy.Foundations.JsValues

/-! # JSON texts with sorted keys

Nothing here mentions a program. `sortedText` writes a value as JSON does, with the keys of objects
sorted. It writes an object by its own members, so that a `Date`, a `Map` and a `Set` come out as an
object without any, and it has no text for a `bigint`.

* `seen`: what the writer sees of a value, a tree of JSON leaves.
* `Tree.text_injective`: a text is that of one tree.
-/

namespace Daloy.Json
set_option autoImplicit false

open Daloy.Unicode

/-! ## Trees of leaves -/

inductive Leaf
  | undefined
  | null
  | bool (b : Bool)
  | zero
  | number (negative : Bool) (magnitude : Numeral)
  | string (s : JsString)
  deriving DecidableEq

inductive Tree
  | leaf (a : Leaf)
  | arr (items : List Tree)
  | obj (members : List (JsString × Tree))

def Leaf.text : Leaf → JsString
  | .undefined => js "undefined"
  | .null => js "null"
  | .bool true => js "true"
  | .bool false => js "false"
  | .zero => [zeroUnit]
  | .number negative magnitude => (if negative then [minusUnit] else []) ++ magnitude.text
  | .string s => quote s

mutual
def Tree.text : Tree → JsString
  | .leaf a => a.text
  | .arr [] => js "[]"
  | .arr (t :: items) => 0x5b :: (t.text ++ textItems items)
  | .obj [] => js "\x7b\x7d"
  | .obj ((k, t) :: members) => 0x7b :: (quote k ++ 0x3a :: (t.text ++ textMembers members))

def textItems : List Tree → JsString
  | [] => [0x5d]
  | t :: items => 0x2c :: (t.text ++ textItems items)

def textMembers : List (JsString × Tree) → JsString
  | [] => [0x7d]
  | (k, t) :: members => 0x2c :: (quote k ++ 0x3a :: (t.text ++ textMembers members))
end

/-! ## A text is that of one tree -/

def Closes (rest : JsString) : Prop :=
  ∀ u, rest.head? = some u → u = 0x2c ∨ u = 0x5d ∨ u = 0x7d

theorem closes_nil : Closes [] := by simp [Closes]

theorem closes_items (items : List Tree) (rest : JsString) : Closes (textItems items ++ rest) := by
  intro u hu
  cases items <;> simp [textItems] at hu <;> simp [← hu]

theorem closes_members (members : List (JsString × Tree)) (rest : JsString) :
    Closes (textMembers members ++ rest) := by
  intro u hu
  cases members with
  | nil =>
    simp [textMembers] at hu
    simp [← hu]
  | cons m members =>
    simp [textMembers] at hu
    simp [← hu]

theorem quote_append {s t rest rest' : JsString} (h : quote s ++ rest = quote t ++ rest') :
    s = t ∧ rest = rest' := by
  have hunits : quoteUnits s ++ 0x22 :: rest = quoteUnits t ++ 0x22 :: rest' := by
    simpa [quote] using h
  have hread := parseUnits_quoteUnits s rest
  rw [hunits, parseUnits_quoteUnits] at hread
  obtain ⟨hst, hrest⟩ := Prod.mk.inj (Option.some.inj hread)
  exact ⟨hst.symm, hrest.symm⟩

def isWordUnit (u : UInt16) : Bool := isNumberUnit u || (0x61 ≤ u.toNat && u.toNat ≤ 0x7a)

theorem Closes.takeWhile {rest : JsString} (h : Closes rest) : rest.takeWhile isWordUnit = [] := by
  cases rest with
  | nil => rfl
  | cons u rest =>
    rcases h u rfl with rfl | rfl | rfl <;> rfl

theorem word_append {s t rest rest' : JsString} (hs : ∀ u ∈ s, isWordUnit u = true)
    (ht : ∀ u ∈ t, isWordUnit u = true) (hrest : Closes rest) (hrest' : Closes rest')
    (h : s ++ rest = t ++ rest') : s = t ∧ rest = rest' := by
  have htake := congrArg (List.takeWhile isWordUnit) h
  rw [List.takeWhile_append_of_pos hs, List.takeWhile_append_of_pos ht, hrest.takeWhile,
    hrest'.takeWhile, List.append_nil, List.append_nil] at htake
  subst htake
  exact ⟨rfl, List.append_cancel_left h⟩

def Leaf.isString : Leaf → Bool
  | .string _ => true
  | _ => false

theorem Leaf.text_word {a : Leaf} (h : a.isString = false) :
    a.text ≠ [] ∧ ∀ u ∈ a.text, isWordUnit u = true := by
  cases a with
  | undefined => decide
  | null => decide
  | bool b => cases b <;> decide
  | zero => decide
  | number negative magnitude =>
    have hnumber : ∀ u ∈ magnitude.text, isWordUnit u = true := by
      intro u hu
      simp [isWordUnit, magnitude.isNumberUnit_text u hu]
    have hminus : isWordUnit minusUnit = true := by decide
    refine ⟨by simp [text, magnitude.text_ne_nil], ?_⟩
    intro u hu
    rcases List.mem_append.mp hu with hu | hu
    · cases negative <;> simp at hu
      rw [hu]
      exact hminus
    · exact hnumber u hu
  | string s => simp [isString] at h

theorem numberText_injective {negative negative' : Bool} {x y : Numeral}
    (h : (Leaf.number negative x).text = (Leaf.number negative' y).text) :
    negative = negative' ∧ x = y := by
  obtain ⟨u, rest, hx, hu⟩ := x.isDigit_head_text
  obtain ⟨v, rest', hy, hv⟩ := y.isDigit_head_text
  have hminus : isDigit minusUnit = false := by decide
  cases negative <;> cases negative' <;> simp only [Leaf.text, if_true, if_false,
    Bool.false_eq_true, List.nil_append, List.singleton_append] at h
  · exact ⟨rfl, Numeral.text_injective h⟩
  · rw [hx] at h
    rw [(List.cons.inj h).1, hminus] at hu
    exact absurd hu Bool.false_ne_true
  · rw [hy] at h
    rw [← (List.cons.inj h).1, hminus] at hv
    exact absurd hv Bool.false_ne_true
  · exact ⟨rfl, Numeral.text_injective (List.cons.inj h).2⟩

theorem numberText_head (negative : Bool) (x : Numeral) :
    ∃ u rest, (Leaf.number negative x).text = u :: rest ∧ (isDigit u = true ∨ u = minusUnit) := by
  obtain ⟨u, rest, hx, hu⟩ := x.isDigit_head_text
  cases negative with
  | false => exact ⟨u, rest, hx, .inl hu⟩
  | true => exact ⟨minusUnit, x.text, rfl, .inr rfl⟩

theorem numberText_ne (negative : Bool) (x : Numeral) {u : UInt16} {rest : JsString}
    (hdigit : isDigit u = false) (hminus : u ≠ minusUnit) :
    (Leaf.number negative x).text ≠ u :: rest := by
  intro h
  obtain ⟨v, rest', hx, hv⟩ := numberText_head negative x
  obtain ⟨rfl, -⟩ := List.cons.inj (hx.symm.trans h)
  rcases hv with hv | hv
  · rw [hdigit] at hv
    exact Bool.false_ne_true hv
  · exact hminus hv

theorem numberText_ne_zero (negative : Bool) (x : Numeral) :
    (Leaf.number negative x).text ≠ [zeroUnit] := by
  cases negative with
  | false => exact x.text_ne_zero
  | true =>
    intro h
    exact absurd (List.cons.inj h).1 (by decide)

theorem Leaf.text_injective {a b : Leaf} (ha : a.isString = false) (hb : b.isString = false)
    (h : a.text = b.text) : a = b := by
  have hne : ∀ (negative : Bool) (x : Numeral) (c : Leaf), c.isString = false →
      (∀ negative' y, c ≠ .number negative' y) → (Leaf.number negative x).text ≠ c.text := by
    intro negative x c hc hnot
    cases c with
    | undefined => exact numberText_ne negative x (by decide) (by decide)
    | null => exact numberText_ne negative x (by decide) (by decide)
    | bool b => cases b <;> exact numberText_ne negative x (by decide) (by decide)
    | zero => exact numberText_ne_zero negative x
    | number negative' y => exact absurd rfl (hnot negative' y)
    | string s => simp [isString] at hc
  by_cases hnumber : ∃ negative x, a = .number negative x
  · obtain ⟨negative, x, rfl⟩ := hnumber
    by_cases hnumber' : ∃ negative' y, b = .number negative' y
    · obtain ⟨negative', y, rfl⟩ := hnumber'
      obtain ⟨rfl, rfl⟩ := numberText_injective h
      rfl
    · exact absurd h (hne negative x b hb fun negative' y heq => hnumber' ⟨negative', y, heq⟩)
  · by_cases hnumber' : ∃ negative' y, b = .number negative' y
    · obtain ⟨negative', y, rfl⟩ := hnumber'
      exact absurd h.symm
        (hne negative' y a ha fun negative x heq => hnumber ⟨negative, x, heq⟩)
    · -- two of the literal names and zero
      rcases a with _ | _ | (_ | _) | _ | ⟨negative, x⟩ | s
      case number => exact absurd ⟨negative, x, rfl⟩ hnumber
      case string => simp [isString] at ha
      all_goals
        rcases b with _ | _ | (_ | _) | _ | ⟨negative, y⟩ | s
        case number => exact absurd ⟨negative, y, rfl⟩ hnumber'
        case string => simp [isString] at hb
        all_goals first
          | rfl
          | exact absurd h (by decide)

theorem Leaf.text_append {a b : Leaf} {rest rest' : JsString} (hrest : Closes rest)
    (hrest' : Closes rest') (h : a.text ++ rest = b.text ++ rest') : a = b ∧ rest = rest' := by
  have hquote : ∀ {s : JsString} {c : Leaf} {r r' : JsString}, c.isString = false →
      quote s ++ r ≠ c.text ++ r' := by
    intro s c r r' hc heq
    obtain ⟨hne, hword⟩ := Leaf.text_word hc
    obtain ⟨u, t, hu⟩ := List.exists_cons_of_ne_nil hne
    rw [hu, quote] at heq
    have hunit := hword u (by simp [hu])
    rw [← (List.cons.inj heq).1] at hunit
    exact absurd hunit (by decide)
  cases ha : a.isString with
  | false =>
    cases hb : b.isString with
    | false =>
      obtain ⟨htext, hr⟩ := word_append (Leaf.text_word ha).2 (Leaf.text_word hb).2 hrest hrest' h
      exact ⟨Leaf.text_injective ha hb htext, hr⟩
    | true =>
      cases b with
      | string t => exact absurd h.symm (hquote ha)
      | _ => simp [isString] at hb
  | true =>
    cases a with
    | string s =>
      cases b with
      | string t =>
        obtain ⟨rfl, hr⟩ := quote_append h
        exact ⟨rfl, hr⟩
      | _ => exact absurd h (hquote rfl)
    | _ => simp [isString] at ha

theorem Leaf.text_head (a : Leaf) :
    ∃ u rest, a.text = u :: rest ∧ u ≠ 0x5b ∧ u ≠ 0x7b ∧ u ≠ 0x5d := by
  cases ha : a.isString with
  | true =>
    cases a with
    | string s => exact ⟨_, _, rfl, by decide, by decide, by decide⟩
    | _ => simp [isString] at ha
  | false =>
    obtain ⟨hne, hword⟩ := Leaf.text_word ha
    obtain ⟨u, rest, hu⟩ := List.exists_cons_of_ne_nil hne
    have hunit := hword u (by simp [hu])
    refine ⟨u, rest, hu, ?_, ?_, ?_⟩ <;> rintro rfl <;> exact absurd hunit (by decide)

theorem Tree.text_head (t : Tree) : ∃ u rest, t.text = u :: rest ∧ u ≠ 0x5d := by
  cases t with
  | leaf a =>
    obtain ⟨u, rest, hu, -, -, hne⟩ := a.text_head
    exact ⟨u, rest, hu, hne⟩
  | arr items => cases items <;> exact ⟨_, _, rfl, by decide⟩
  | obj members =>
    rcases members with _ | ⟨⟨k, t⟩, members⟩ <;> exact ⟨_, _, rfl, by decide⟩

theorem leaf_ne_arr {a : Leaf} {items : List Tree} {rest rest' : JsString} :
    a.text ++ rest ≠ (Tree.arr items).text ++ rest' := by
  obtain ⟨u, tail, hu, hne, -⟩ := a.text_head
  rw [hu]
  cases items <;> exact fun h => hne (List.cons.inj h).1

theorem leaf_ne_obj {a : Leaf} {members : List (JsString × Tree)} {rest rest' : JsString} :
    a.text ++ rest ≠ (Tree.obj members).text ++ rest' := by
  obtain ⟨u, tail, hu, -, hne, -⟩ := a.text_head
  rw [hu]
  rcases members with _ | ⟨⟨k, t⟩, members⟩ <;> exact fun h => hne (List.cons.inj h).1

theorem arr_ne_obj {items : List Tree} {members : List (JsString × Tree)}
    {rest rest' : JsString} : (Tree.arr items).text ++ rest ≠ (Tree.obj members).text ++ rest' := by
  intro h
  cases items <;> rcases members with _ | ⟨⟨k, t⟩, members⟩ <;>
    exact absurd (List.cons.inj h).1 (by decide)

theorem nil_ne_cons {t : Tree} {rest rest' : JsString} : 0x5d :: rest ≠ t.text ++ rest' := by
  obtain ⟨u, tail, hu, hne⟩ := t.text_head
  rw [hu]
  exact fun h => hne (List.cons.inj h).1.symm

mutual
theorem Tree.text_append : ∀ (t t' : Tree) (rest rest' : JsString), Closes rest → Closes rest' →
    t.text ++ rest = t'.text ++ rest' → t = t' ∧ rest = rest'
  | .leaf a, .leaf b, rest, rest', hrest, hrest', h => by
    rw [Tree.text, Tree.text] at h
    obtain ⟨rfl, hr⟩ := Leaf.text_append hrest hrest' h
    exact ⟨rfl, hr⟩
  | .leaf a, .arr items, _, _, _, _, h => by
    rw [Tree.text] at h
    exact absurd h leaf_ne_arr
  | .leaf a, .obj members, _, _, _, _, h => by
    rw [Tree.text] at h
    exact absurd h leaf_ne_obj
  | .arr items, .leaf b, _, _, _, _, h => by
    rw [Tree.text.eq_def (.leaf b)] at h
    exact absurd h.symm leaf_ne_arr
  | .arr items, .obj members, _, _, _, _, h => absurd h arr_ne_obj
  | .obj members, .leaf b, _, _, _, _, h => by
    rw [Tree.text.eq_def (.leaf b)] at h
    exact absurd h.symm leaf_ne_obj
  | .obj members, .arr items, _, _, _, _, h => absurd h.symm arr_ne_obj
  | .arr [], .arr [], rest, rest', _, _, h => ⟨rfl, List.append_cancel_left h⟩
  | .arr [], .arr (t' :: items'), rest, rest', _, _, h => by
    rw [Tree.text.eq_def (.arr (t' :: items')), List.cons_append, List.append_assoc] at h
    exact absurd (List.cons.inj h).2 nil_ne_cons
  | .arr (t :: items), .arr [], rest, rest', _, _, h => by
    rw [Tree.text.eq_def (.arr (t :: items)), List.cons_append, List.append_assoc] at h
    exact absurd (List.cons.inj h).2.symm nil_ne_cons
  | .arr (t :: items), .arr (t' :: items'), rest, rest', hrest, hrest', h => by
    rw [Tree.text, Tree.text, List.cons_append, List.cons_append, List.append_assoc, List.append_assoc] at h
    obtain ⟨rfl, htail⟩ := Tree.text_append t t' _ _ (closes_items items rest)
      (closes_items items' rest') (List.cons.inj h).2
    obtain ⟨rfl, hr⟩ := textItems_append items items' rest rest' htail
    exact ⟨rfl, hr⟩
  | .obj [], .obj [], rest, rest', _, _, h => ⟨rfl, List.append_cancel_left h⟩
  | .obj [], .obj ((k', t') :: members'), rest, rest', _, _, h => by
    rw [Tree.text.eq_def (.obj ((k', t') :: members'))] at h
    exact absurd (List.cons.inj (List.cons.inj h).2).1 (by decide)
  | .obj ((k, t) :: members), .obj [], rest, rest', _, _, h => by
    rw [Tree.text.eq_def (.obj ((k, t) :: members))] at h
    exact absurd (List.cons.inj (List.cons.inj h).2).1 (by decide)
  | .obj ((k, t) :: members), .obj ((k', t') :: members'), rest, rest', hrest, hrest', h => by
    rw [Tree.text, Tree.text, List.cons_append, List.cons_append, List.append_assoc, List.append_assoc] at h
    obtain ⟨rfl, hvalue⟩ := quote_append (List.cons.inj h).2
    rw [List.cons_append, List.cons_append, List.append_assoc, List.append_assoc] at hvalue
    obtain ⟨rfl, htail⟩ := Tree.text_append t t' _ _ (closes_members members rest)
      (closes_members members' rest') (List.cons.inj hvalue).2
    obtain ⟨rfl, hr⟩ := textMembers_append members members' rest rest' htail
    exact ⟨rfl, hr⟩

theorem textItems_append : ∀ (items items' : List Tree) (rest rest' : JsString),
    textItems items ++ rest = textItems items' ++ rest' → items = items' ∧ rest = rest'
  | [], [], _, _, h => ⟨rfl, List.append_cancel_left h⟩
  | [], _ :: _, _, _, h => absurd (List.cons.inj h).1 (by decide)
  | _ :: _, [], _, _, h => absurd (List.cons.inj h).1 (by decide)
  | t :: items, t' :: items', rest, rest', h => by
    rw [textItems, textItems, List.cons_append, List.cons_append, List.append_assoc,
      List.append_assoc] at h
    obtain ⟨rfl, htail⟩ := Tree.text_append t t' _ _ (closes_items items rest)
      (closes_items items' rest') (List.cons.inj h).2
    obtain ⟨rfl, hr⟩ := textItems_append items items' rest rest' htail
    exact ⟨rfl, hr⟩

theorem textMembers_append : ∀ (members members' : List (JsString × Tree)) (rest rest' : JsString),
    textMembers members ++ rest = textMembers members' ++ rest' →
      members = members' ∧ rest = rest'
  | [], [], _, _, h => ⟨rfl, List.append_cancel_left h⟩
  | [], (_, _) :: _, _, _, h => absurd (List.cons.inj h).1 (by decide)
  | (_, _) :: _, [], _, _, h => absurd (List.cons.inj h).1 (by decide)
  | (k, t) :: members, (k', t') :: members', rest, rest', h => by
    rw [textMembers, textMembers, List.cons_append, List.cons_append, List.append_assoc,
      List.append_assoc] at h
    obtain ⟨rfl, hvalue⟩ := quote_append (List.cons.inj h).2
    rw [List.cons_append, List.cons_append, List.append_assoc, List.append_assoc] at hvalue
    obtain ⟨rfl, htail⟩ := Tree.text_append t t' _ _ (closes_members members rest)
      (closes_members members' rest') (List.cons.inj hvalue).2
    obtain ⟨rfl, hr⟩ := textMembers_append members members' rest rest' htail
    exact ⟨rfl, hr⟩
end

theorem Tree.text_injective {t t' : Tree} (h : t.text = t'.text) : t = t' :=
  (Tree.text_append t t' [] [] closes_nil closes_nil (by rw [h])).1

/-! ## The writer -/

/-- A `bigint` has no JSON text. -/
inductive TypeError
  | bigint
  deriving DecidableEq

def join (texts : List JsString) : JsString := [0x2c].intercalate texts

mutual
/-- The text of a value with the keys of its objects sorted; `undefined` is written like a leaf. -/
def sortedText (whenUndefined : Leaf) : JsValue → Except TypeError JsString
  | .undefined => .ok whenUndefined.text
  | .null => .ok (js "null")
  | .bool b => .ok (if b then js "true" else js "false")
  | .number n => .ok n.jsonText
  | .bigint _ => .error .bigint
  | .string s => .ok (quote s)
  | .array items => do
    let texts ← sortedTexts whenUndefined items
    return 0x5b :: (join texts ++ [0x5d])
  | .object members => do
    let texts ← memberTexts whenUndefined members
    return 0x7b :: (join ((sortMembers texts).map fun m => quote m.1 ++ 0x3a :: m.2) ++ [0x7d])
  -- these have no own enumerable property
  | .date _ => .ok (js "\x7b\x7d")
  | .map _ => .ok (js "\x7b\x7d")
  | .set _ => .ok (js "\x7b\x7d")

def sortedTexts (whenUndefined : Leaf) : List JsValue → Except TypeError (List JsString)
  | [] => .ok []
  | v :: items => do
    let text ← sortedText whenUndefined v
    let texts ← sortedTexts whenUndefined items
    return text :: texts

def memberTexts (whenUndefined : Leaf) :
    List (JsString × JsValue) → Except TypeError (List (JsString × JsString))
  | [] => .ok []
  | (k, v) :: members => do
    let text ← sortedText whenUndefined v
    let texts ← memberTexts whenUndefined members
    return (k, text) :: texts
end

mutual
/-- A `bigint` where the writer gets to: not inside of a `Map` or a `Set`. -/
def JsValue.holdsBigint : JsValue → Bool
  | .bigint _ => true
  | .array items => itemsHoldBigint items
  | .object members => membersHoldBigint members
  | _ => false

def itemsHoldBigint : List JsValue → Bool
  | [] => false
  | v :: items => v.holdsBigint || itemsHoldBigint items

def membersHoldBigint : List (JsString × JsValue) → Bool
  | [] => false
  | (_, v) :: members => v.holdsBigint || membersHoldBigint members
end

/-- `NaN` and the infinities are written like `null`. -/
def Number.leaf : Number → Leaf
  | .nan => .null
  | .infinity _ => .null
  | .zero _ => .zero
  | .finite negative magnitude => .number negative magnitude

mutual
/-- What the writer sees of a value that holds no `bigint`. -/
def JsValue.seen (whenUndefined : Leaf) : JsValue → Tree
  | .undefined => .leaf whenUndefined
  | .null => .leaf .null
  | .bool b => .leaf (.bool b)
  | .number n => .leaf n.leaf
  | .bigint _ => .leaf .null
  | .string s => .leaf (.string s)
  | .array items => .arr (seenItems whenUndefined items)
  | .object members => .obj (sortMembers (seenMembers whenUndefined members))
  | .date _ => .obj []
  | .map _ => .obj []
  | .set _ => .obj []

def seenItems (whenUndefined : Leaf) : List JsValue → List Tree
  | [] => []
  | v :: items => v.seen whenUndefined :: seenItems whenUndefined items

def seenMembers (whenUndefined : Leaf) : List (JsString × JsValue) → List (JsString × Tree)
  | [] => []
  | (k, v) :: members => (k, v.seen whenUndefined) :: seenMembers whenUndefined members
end

theorem Number.leaf_text (n : Number) : n.leaf.text = n.jsonText := by
  cases n <;> rfl

theorem join_cons (text : JsString) (texts : List JsString) :
    join (text :: texts) = text ++ texts.flatMap fun t => 0x2c :: t := by
  induction texts generalizing text with
  | nil => simp [join]
  | cons t texts ih =>
    have hcons : join (text :: t :: texts) = text ++ 0x2c :: join (t :: texts) := by
      simp [join, List.intercalate]
    rw [hcons, ih]
    simp

theorem textItems_eq (items : List Tree) :
    textItems items = (items.map Tree.text).flatMap (fun t => 0x2c :: t) ++ [0x5d] := by
  induction items with
  | nil => rfl
  | cons t items ih =>
    rw [textItems, ih]
    simp

theorem textMembers_eq (members : List (JsString × Tree)) :
    textMembers members =
      (members.map fun m => quote m.1 ++ 0x3a :: m.2.text).flatMap (fun t => 0x2c :: t) ++
        [0x7d] := by
  induction members with
  | nil => rfl
  | cons m members ih =>
    rw [textMembers, ih]
    simp

theorem text_arr (items : List Tree) :
    (Tree.arr items).text = 0x5b :: (join (items.map Tree.text) ++ [0x5d]) := by
  cases items with
  | nil => rfl
  | cons t items =>
    rw [Tree.text, textItems_eq, List.map_cons, join_cons, List.append_assoc]

theorem text_obj (members : List (JsString × Tree)) :
    (Tree.obj members).text =
      0x7b :: (join (members.map fun m => quote m.1 ++ 0x3a :: m.2.text) ++ [0x7d]) := by
  rcases members with _ | ⟨⟨k, t⟩, members⟩
  · rfl
  · rw [Tree.text, textMembers_eq, List.map_cons, join_cons]
    simp

theorem seenMembers_eq (whenUndefined : Leaf) (members : List (JsString × JsValue)) :
    seenMembers whenUndefined members =
      members.map (Prod.map id (JsValue.seen whenUndefined)) := by
  induction members with
  | nil => rfl
  | cons m members ih => rw [seenMembers, ih, List.map_cons, Prod.map, id]

mutual
theorem sortedText_eq (whenUndefined : Leaf) : ∀ v : JsValue, sortedText whenUndefined v =
    if v.holdsBigint then .error .bigint else .ok (v.seen whenUndefined).text
  | .undefined => rfl
  | .null => rfl
  | .bool true => rfl
  | .bool false => rfl
  | .number n => by
    rw [sortedText, JsValue.seen, Tree.text, n.leaf_text]
    rfl
  | .bigint _ => rfl
  | .string _ => rfl
  | .date _ => rfl
  | .map _ => rfl
  | .set _ => rfl
  | .array items => by
    rw [sortedText, JsValue.holdsBigint, sortedTexts_eq whenUndefined items]
    cases itemsHoldBigint items with
    | true => rfl
    | false =>
      rw [JsValue.seen, text_arr]
      rfl
  | .object members => by
    rw [sortedText, JsValue.holdsBigint, memberTexts_eq whenUndefined members]
    cases membersHoldBigint members with
    | true => rfl
    | false =>
      rw [JsValue.seen, text_obj]
      show Except.ok (0x7b :: (join ((sortMembers ((seenMembers whenUndefined members).map
        (Prod.map id Tree.text))).map fun m => quote m.1 ++ 0x3a :: m.2) ++ [0x7d])) = _
      rw [← map_sortMembers, List.map_map]
      rfl

theorem sortedTexts_eq (whenUndefined : Leaf) : ∀ items : List JsValue,
    sortedTexts whenUndefined items =
      if itemsHoldBigint items then .error .bigint
      else .ok ((seenItems whenUndefined items).map Tree.text)
  | [] => rfl
  | v :: items => by
    rw [sortedTexts, itemsHoldBigint, sortedText_eq whenUndefined v,
      sortedTexts_eq whenUndefined items]
    cases v.holdsBigint <;> cases itemsHoldBigint items <;> rfl

theorem memberTexts_eq (whenUndefined : Leaf) : ∀ members : List (JsString × JsValue),
    memberTexts whenUndefined members =
      if membersHoldBigint members then .error .bigint
      else .ok ((seenMembers whenUndefined members).map (Prod.map id Tree.text))
  | [] => rfl
  | (k, v) :: members => by
    rw [memberTexts, membersHoldBigint, sortedText_eq whenUndefined v,
      memberTexts_eq whenUndefined members]
    cases v.holdsBigint <;> cases membersHoldBigint members <;> rfl
end

/-- Two values have one text when they hold no `bigint` and the writer sees the same of both. -/
theorem sortedText_eq_iff (whenUndefined : Leaf) (v w : JsValue) :
    (∃ text, sortedText whenUndefined v = .ok text ∧ sortedText whenUndefined w = .ok text) ↔
      v.holdsBigint = false ∧ w.holdsBigint = false ∧
        v.seen whenUndefined = w.seen whenUndefined := by
  rw [sortedText_eq, sortedText_eq]
  cases v.holdsBigint <;> cases w.holdsBigint <;> simp only [Bool.false_eq_true, if_true, if_false,
    reduceCtorEq, false_and, and_false, exists_false, true_and, Bool.true_eq_false]
  constructor
  · rintro ⟨text, hv, hw⟩
    exact Tree.text_injective ((Except.ok.inj hv).trans (Except.ok.inj hw).symm)
  · intro h
    exact ⟨_, rfl, by rw [h]⟩

/-! ## Equal values are seen alike -/

theorem Number.leaf_normal (n : Number) : n.normal.leaf = n.leaf := by
  cases n <;> rfl

mutual
theorem seen_normal (whenUndefined : Leaf) : ∀ v : JsValue,
    v.normal.seen whenUndefined = v.seen whenUndefined
  | .undefined => rfl
  | .null => rfl
  | .bool _ => rfl
  | .number n => by rw [JsValue.normal, JsValue.seen, JsValue.seen, n.leaf_normal]
  | .bigint _ => rfl
  | .string _ => rfl
  | .date _ => rfl
  | .map _ => rfl
  | .set _ => rfl
  | .array items => by
    rw [JsValue.normal, JsValue.seen, JsValue.seen, seenItems_normal whenUndefined items]
  | .object members => by
    rw [JsValue.normal, JsValue.seen, JsValue.seen, seenMembers_eq, map_sortMembers,
      sortMembers_sortMembers, ← seenMembers_eq, seenMembers_normal whenUndefined members]

theorem seenItems_normal (whenUndefined : Leaf) : ∀ items : List JsValue,
    seenItems whenUndefined (normalItems items) = seenItems whenUndefined items
  | [] => rfl
  | v :: items => by
    rw [normalItems, seenItems, seenItems, seen_normal whenUndefined v,
      seenItems_normal whenUndefined items]

theorem seenMembers_normal (whenUndefined : Leaf) : ∀ members : List (JsString × JsValue),
    seenMembers whenUndefined (normalMembers members) = seenMembers whenUndefined members
  | [] => rfl
  | (k, v) :: members => by
    rw [normalMembers, seenMembers, seenMembers, seen_normal whenUndefined v,
      seenMembers_normal whenUndefined members]
end

theorem JsValue.Same.seen_eq {v w : JsValue} (h : v.Same w) (whenUndefined : Leaf) :
    v.seen whenUndefined = w.seen whenUndefined := by
  rw [← seen_normal whenUndefined v, ← seen_normal whenUndefined w, h]

end Daloy.Json
