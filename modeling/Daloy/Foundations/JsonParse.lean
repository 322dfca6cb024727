import Daloy.Foundations.Json

/-! # Reading JSON texts

`parse` reads a text with optional white space between its tokens; the members of an object are set
one after the other, so a repeated key keeps its first place and its last value.

* `parse_stringify`: a well-formed value is read back from its text.
* `stringify_injective`: two well-formed values with one text are the same value.
-/

namespace Daloy.Json
set_option autoImplicit false

open Daloy.Unicode

/-! ## Tokens -/

def isSpace (u : UInt16) : Bool := u == 0x20 || u == 0x09 || u == 0x0a || u == 0x0d

def skipSpace : JsString → JsString
  | [] => []
  | u :: rest => if isSpace u then skipSpace rest else u :: rest

def hexValue (u : UInt16) : Option ℕ :=
  let n := u.toNat
  if 0x30 ≤ n ∧ n ≤ 0x39 then some (n - 0x30)
  else if 0x61 ≤ n ∧ n ≤ 0x66 then some (n - 0x57)
  else if 0x41 ≤ n ∧ n ≤ 0x46 then some (n - 0x37)
  else none

/-- The unit behind a `\u`. -/
def hexUnits (a b c d : UInt16) : Option UInt16 :=
  match hexValue a, hexValue b, hexValue c, hexValue d with
  | some a, some b, some c, some d => some (UInt16.ofNat (a * 4096 + b * 256 + c * 16 + d))
  | _, _, _, _ => none

def simpleEscape (u : UInt16) : Option UInt16 :=
  if u = 0x22 ∨ u = 0x5c ∨ u = 0x2f then some u
  else if u = 0x62 then some 0x08
  else if u = 0x66 then some 0x0c
  else if u = 0x6e then some 0x0a
  else if u = 0x72 then some 0x0d
  else if u = 0x74 then some 0x09
  else none

/-- The units of a string up to its closing quote, and what stands behind it. -/
def parseUnits : JsString → Option (JsString × JsString)
  | [] => none
  | u :: rest =>
    if u = 0x22 then some ([], rest)
    else if u = 0x5c then
      match rest with
      | 0x75 :: a :: b :: c :: d :: rest' =>
        (hexUnits a b c d).bind fun w => (parseUnits rest').map fun r => (w :: r.1, r.2)
      | v :: rest' =>
        (simpleEscape v).bind fun w => (parseUnits rest').map fun r => (w :: r.1, r.2)
      | [] => none
    else if u.toNat < 0x20 then none
    else (parseUnits rest).map fun r => (u :: r.1, r.2)

def stripWord : JsString → JsString → Option JsString
  | [], s => some s
  | _ :: _, [] => none
  | w :: word, u :: s => if w = u then stripWord word s else none

/-! ## Values -/

variable {ν : Type} [NumberText ν]

def parseNumber (s : JsString) : Option (Value ν × JsString) :=
  (NumberText.read (s.takeWhile isNumberUnit)).map fun n => (.num n, s.dropWhile isNumberUnit)

mutual
/-- A value at the front of the input; `fuel` bounds the nesting and the length. -/
def parseValue : ℕ → JsString → Option (Value ν × JsString)
  | 0, _ => none
  | fuel + 1, s =>
    match skipSpace s with
    | [] => none
    | u :: rest =>
      if u = 0x22 then (parseUnits rest).map fun r => (.str r.1, r.2)
      else if u = 0x5b then
        match skipSpace rest with
        | [] => none
        | v :: rest' =>
          if v = 0x5d then some (.arr [], rest')
          else (parseItems fuel (v :: rest')).map fun r => (.arr r.1, r.2)
      else if u = 0x7b then
        match skipSpace rest with
        | [] => none
        | v :: rest' =>
          if v = 0x7d then some (.obj [], rest')
          else (parseMembers fuel (v :: rest')).map fun r => (.obj (ownOrder r.1), r.2)
      else if u = 0x74 then (stripWord (js "true") (u :: rest)).map fun r => (.bool true, r)
      else if u = 0x66 then (stripWord (js "false") (u :: rest)).map fun r => (.bool false, r)
      else if u = 0x6e then (stripWord (js "null") (u :: rest)).map fun r => (.null, r)
      else parseNumber (u :: rest)

def parseItems : ℕ → JsString → Option (List (Value ν) × JsString)
  | 0, _ => none
  | fuel + 1, s =>
    (parseValue fuel s).bind fun r =>
      match skipSpace r.2 with
      | [] => none
      | u :: rest =>
        if u = 0x5d then some ([r.1], rest)
        else if u = 0x2c then (parseItems fuel rest).map fun q => (r.1 :: q.1, q.2)
        else none

def parseMembers : ℕ → JsString → Option (List (JsString × Value ν) × JsString)
  | 0, _ => none
  | fuel + 1, s =>
    match skipSpace s with
    | [] => none
    | u :: rest =>
      if u = 0x22 then
        (parseUnits rest).bind fun k =>
          match skipSpace k.2 with
          | [] => none
          | c :: rest' =>
            if c = 0x3a then
              (parseValue fuel rest').bind fun r =>
                match skipSpace r.2 with
                | [] => none
                | w :: rest'' =>
                  if w = 0x7d then some ([(k.1, r.1)], rest'')
                  else if w = 0x2c then
                    (parseMembers fuel rest'').map fun q => ((k.1, r.1) :: q.1, q.2)
                  else none
            else none
      else none
end

/-- `JSON.parse(text)`, `none` for its `SyntaxError`. -/
def parse (text : JsString) : Option (Value ν) :=
  (parseValue (text.length + 1) text).bind fun r =>
    if skipSpace r.2 = [] then some r.1 else none

/-! ## Reading what was written -/

theorem hexValue_hexUnit : ∀ n : Fin 16, hexValue (hexUnit n) = some n.val := by decide

theorem hexUnits_unicodeEscape (u : UInt16) :
    hexUnits (hexUnit (u.toNat / 4096)) (hexUnit (u.toNat / 256 % 16))
      (hexUnit (u.toNat / 16 % 16)) (hexUnit (u.toNat % 16)) = some u := by
  have hu : u.toNat < 65536 := UInt16.toNat_lt u
  have h1 := hexValue_hexUnit ⟨u.toNat / 4096, by omega⟩
  have h2 := hexValue_hexUnit ⟨u.toNat / 256 % 16, by omega⟩
  have h3 := hexValue_hexUnit ⟨u.toNat / 16 % 16, by omega⟩
  have h4 := hexValue_hexUnit ⟨u.toNat % 16, by omega⟩
  dsimp only at h1 h2 h3 h4
  rw [hexUnits, h1, h2, h3, h4]
  dsimp only
  rw [show u.toNat / 4096 * 4096 + u.toNat / 256 % 16 * 256 + u.toNat / 16 % 16 * 16 +
    u.toNat % 16 = u.toNat by omega, UInt16.ofNat_toNat]

theorem parseUnits_end (rest : JsString) : parseUnits (0x22 :: rest) = some ([], rest) := by
  rw [parseUnits.eq_def]
  rfl

theorem parseUnits_unicode (a b c d : UInt16) (rest : JsString) :
    parseUnits (0x5c :: 0x75 :: a :: b :: c :: d :: rest) =
      (hexUnits a b c d).bind fun w => (parseUnits rest).map fun r => (w :: r.1, r.2) := by
  rw [parseUnits.eq_def]
  rfl

theorem parseUnits_plain {u : UInt16} (rest : JsString) (hquote : u ≠ 0x22) (hslash : u ≠ 0x5c)
    (hcontrol : ¬ u.toNat < 0x20) :
    parseUnits (u :: rest) = (parseUnits rest).map fun r => (u :: r.1, r.2) := by
  rw [parseUnits.eq_def]
  dsimp only
  rw [if_neg hquote, if_neg hslash, if_neg hcontrol]

theorem parseUnits_escape {v w : UInt16} (rest : JsString) (hv : simpleEscape v = some w)
    (hne : v ≠ 0x75) :
    parseUnits (0x5c :: v :: rest) = (parseUnits rest).map fun r => (w :: r.1, r.2) := by
  rw [parseUnits.eq_def]
  dsimp only
  rw [if_neg (by decide), if_pos rfl]
  split
  · next heq => exact absurd (List.cons.inj heq).1 hne
  · next heq =>
    obtain ⟨rfl, rfl⟩ := List.cons.inj heq
    rw [hv]
    rfl
  · next heq => cases heq

theorem quoteUnit_cases (u : UInt16) :
    (∃ v, quoteUnit u = [0x5c, v] ∧ simpleEscape v = some u ∧ v ≠ 0x75 ∧ v.toNat < 0x80) ∨
      quoteUnit u = unicodeEscape u ∨
      (quoteUnit u = [u] ∧ u ≠ 0x22 ∧ u ≠ 0x5c ∧ ¬ u.toNat < 0x20 ∧
        isHighSurrogate u = false ∧ isLowSurrogate u = false) := by
  unfold quoteUnit
  split
  · next h => exact .inl ⟨_, rfl, by rw [h]; rfl, by decide, by decide⟩
  split
  · next h => exact .inl ⟨_, rfl, by rw [h]; rfl, by decide, by decide⟩
  split
  · next h => exact .inl ⟨_, rfl, by rw [h]; rfl, by decide, by decide⟩
  split
  · next h => exact .inl ⟨_, rfl, by rw [h]; rfl, by decide, by decide⟩
  split
  · next h => exact .inl ⟨_, rfl, by rw [h]; rfl, by decide, by decide⟩
  split
  · next h => exact .inl ⟨_, rfl, by rw [h]; rfl, by decide, by decide⟩
  split
  · next h => exact .inl ⟨_, rfl, by rw [h]; rfl, by decide, by decide⟩
  split
  · exact .inr (.inl rfl)
  · next hquote hslash _ _ _ _ _ hplain =>
    simp only [Bool.or_eq_true, decide_eq_true_eq, not_or, Bool.not_eq_true] at hplain
    exact .inr (.inr ⟨rfl, hquote, hslash, hplain.1.1, hplain.1.2, hplain.2⟩)

theorem parseUnits_quoteUnit (u : UInt16) (rest : JsString) :
    parseUnits (quoteUnit u ++ rest) = (parseUnits rest).map fun r => (u :: r.1, r.2) := by
  obtain ⟨v, h, hv, hne, -⟩ | h | ⟨h, hquote, hslash, hcontrol, -⟩ := quoteUnit_cases u
  · rw [h]
    exact parseUnits_escape rest hv hne
  · rw [h, unicodeEscape]
    simp only [List.cons_append, List.nil_append]
    rw [parseUnits_unicode, hexUnits_unicodeEscape]
    rfl
  · rw [h, List.singleton_append]
    exact parseUnits_plain rest hquote hslash hcontrol

theorem parseUnits_quoteUnits (s rest : JsString) :
    parseUnits (quoteUnits s ++ 0x22 :: rest) = some (s, rest) := by
  induction s using quoteUnits.induct with
  | case1 => exact parseUnits_end rest
  | case2 u =>
    rw [quoteUnits, parseUnits_quoteUnit, parseUnits_end]
    rfl
  | case3 u v s hpair ih =>
    have hplain (w : UInt16) (hw : 0x20 < w.toNat ∧ w.toNat ≠ 0x22 ∧ w.toNat ≠ 0x5c)
        (tail : JsString) : parseUnits (w :: tail) = (parseUnits tail).map fun r => (w :: r.1, r.2) :=
      parseUnits_plain tail (by rintro rfl; exact hw.2.1 rfl) (by rintro rfl; exact hw.2.2 rfl)
        (by omega)
    simp only [isHighSurrogate, isLowSurrogate, Bool.and_eq_true, decide_eq_true_eq] at hpair
    rw [quoteUnits, if_pos (by simpa [isHighSurrogate, isLowSurrogate] using hpair),
      List.cons_append, List.cons_append, hplain u (by omega), hplain v (by omega), ih]
    rfl
  | case4 u v s hpair ih =>
    rw [quoteUnits, if_neg hpair, List.append_assoc, parseUnits_quoteUnit, ih]
    rfl

theorem skipSpace_cons {u : UInt16} (rest : JsString) (h : isSpace u = false) :
    skipSpace (u :: rest) = u :: rest := by
  rw [skipSpace, h]
  rfl

def NoNumberHead (rest : JsString) : Prop := ∀ u, rest.head? = some u → isNumberUnit u = false

theorem noNumberHead_cons {u : UInt16} (rest : JsString) (h : isNumberUnit u = false) :
    NoNumberHead (u :: rest) := by
  intro w hw
  obtain rfl : u = w := by simpa using hw
  exact h

theorem parseNumber_write (n : ν) {rest : JsString} (h : NoNumberHead rest) :
    parseNumber (NumberText.write n ++ rest) = some (.num n, rest) := by
  have hunits : ∀ u ∈ NumberText.write n, isNumberUnit u = true := NumberText.write_units n
  have hstop : rest.takeWhile isNumberUnit = [] ∧ rest.dropWhile isNumberUnit = rest := by
    cases rest with
    | nil => exact ⟨rfl, rfl⟩
    | cons u rest =>
      have hu := h u rfl
      simp [List.takeWhile, List.dropWhile, hu]
  rw [parseNumber, List.takeWhile_append_of_pos hunits, List.dropWhile_append_of_pos hunits,
    hstop.1, hstop.2, List.append_nil, NumberText.read_write]
  rfl

theorem stringify_head (v : Value ν) :
    ∃ u rest, stringify v = u :: rest ∧ isSpace u = false ∧ u ≠ 0x5d := by
  cases v with
  | null => exact ⟨_, _, rfl, by decide, by decide⟩
  | bool b =>
    cases b with
    | true => exact ⟨_, _, rfl, by decide, by decide⟩
    | false => exact ⟨_, _, rfl, by decide, by decide⟩
  | num n =>
    obtain ⟨u, rest, hu⟩ := List.exists_cons_of_ne_nil (NumberText.write_ne_nil n)
    have hunit : isNumberUnit u = true := NumberText.write_units n u (by simp [hu])
    refine ⟨u, rest, hu, ?_, ?_⟩
    · by_contra hspace
      simp only [Bool.not_eq_false, isSpace, Bool.or_eq_true, beq_iff_eq] at hspace
      rcases hspace with ((rfl | rfl) | rfl) | rfl <;> simp [isNumberUnit, isDigit] at hunit
    · rintro rfl
      simp [isNumberUnit, isDigit] at hunit
  | str s => exact ⟨_, _, rfl, by decide, by decide⟩
  | arr items =>
    cases items with
    | nil => exact ⟨_, _, rfl, by decide, by decide⟩
    | cons v items => exact ⟨_, _, rfl, by decide, by decide⟩
  | obj members =>
    cases members with
    | nil => exact ⟨_, _, rfl, by decide, by decide⟩
    | cons m members => exact ⟨_, _, rfl, by decide, by decide⟩

/-! ## The round trip -/

theorem parseValue_quote (s : JsString) (fuel : ℕ) (rest : JsString) :
    parseValue (ν := ν) (fuel + 1) (quote s ++ rest) = some (.str s, rest) := by
  rw [parseValue, quote, List.cons_append, skipSpace_cons _ (by decide)]
  dsimp only
  rw [if_pos rfl, List.append_assoc, List.singleton_append, parseUnits_quoteUnits]
  rfl

theorem parseValue_write (n : ν) (fuel : ℕ) {rest : JsString} (h : NoNumberHead rest) :
    parseValue (fuel + 1) (NumberText.write n ++ rest) = some (.num n, rest) := by
  obtain ⟨u, tail, hu⟩ := List.exists_cons_of_ne_nil (NumberText.write_ne_nil n)
  have hunit : isNumberUnit u = true := NumberText.write_units n u (by simp [hu])
  have hne (w : UInt16) (hw : isNumberUnit w = false) : u ≠ w := by
    rintro rfl
    rw [hunit] at hw
    simp at hw
  obtain ⟨u', tail', hu', hspace, -⟩ := stringify_head (Value.num n)
  obtain ⟨rfl, rfl⟩ := List.cons.inj (hu.symm.trans hu')
  have hread := parseNumber_write n h
  rw [hu, List.cons_append] at hread ⊢
  rw [parseValue, skipSpace_cons _ hspace]
  dsimp only
  rw [if_neg (hne _ (by decide)), if_neg (hne _ (by decide)), if_neg (hne _ (by decide)),
    if_neg (hne _ (by decide)), if_neg (hne _ (by decide)), if_neg (hne _ (by decide)), hread]

mutual
theorem parseValue_stringify : ∀ (v : Value ν) (fuel : ℕ) (rest : JsString), v.WellFormed →
    (stringify v).length ≤ fuel → NoNumberHead rest →
    parseValue fuel (stringify v ++ rest) = some (v, rest)
  | v, 0, _, _, hfuel, _ => by
    obtain ⟨u, tail, hu, -⟩ := stringify_head v
    simp [hu] at hfuel
  | .null, fuel + 1, rest, _, _, _ => by
    rw [parseValue.eq_def]
    rfl
  | .bool true, fuel + 1, rest, _, _, _ => by
    rw [parseValue.eq_def]
    rfl
  | .bool false, fuel + 1, rest, _, _, _ => by
    rw [parseValue.eq_def]
    rfl
  | .num n, fuel + 1, rest, _, _, hrest => by
    rw [stringify]
    exact parseValue_write n fuel hrest
  | .str s, fuel + 1, rest, _, _, _ => by
    rw [stringify]
    exact parseValue_quote s fuel rest
  | .arr [], fuel + 1, rest, _, _, _ => by
    rw [parseValue.eq_def]
    rfl
  | .arr (v :: items), fuel + 1, rest, hwf, hfuel, _ => by
    rw [Value.WellFormed] at hwf
    simp only [stringify, List.length_cons, List.length_append] at hfuel
    have hitems := parseItems_stringify v items fuel rest hwf
      (by rw [List.length_append]; omega)
    obtain ⟨u, tail, hu, hspace, hclose⟩ := stringify_head v
    rw [stringify, List.cons_append, parseValue, skipSpace_cons _ (by decide)]
    dsimp only
    rw [if_neg (by decide), if_pos rfl]
    rw [hu, List.cons_append, List.cons_append] at hitems ⊢
    rw [skipSpace_cons _ hspace]
    dsimp only
    rw [if_neg hclose, hitems]
    rfl
  | .obj [], fuel + 1, rest, _, _, _ => by
    rw [parseValue.eq_def]
    rfl
  | .obj ((k, v) :: members), fuel + 1, rest, hwf, hfuel, _ => by
    rw [Value.WellFormed] at hwf
    simp only [stringify, List.length_cons, List.length_append] at hfuel
    have hmembers := parseMembers_stringify k v members fuel rest hwf.2
      (by simp only [List.length_cons, List.length_append]; omega)
    rw [stringify, List.cons_append, parseValue, skipSpace_cons _ (by decide)]
    dsimp only
    rw [if_neg (by decide), if_neg (by decide), if_pos rfl]
    rw [quote] at hmembers ⊢
    rw [List.cons_append, List.cons_append] at hmembers ⊢
    rw [skipSpace_cons _ (by decide)]
    dsimp only
    rw [if_neg (by decide), hmembers, Option.map_some, hwf.1.ownOrder_eq]
termination_by _ fuel => fuel

theorem parseItems_stringify : ∀ (v : Value ν) (items : List (Value ν)) (fuel : ℕ)
    (rest : JsString), WellFormedItems (v :: items) →
    (stringify v ++ stringifyItems items).length ≤ fuel →
    parseItems fuel (stringify v ++ stringifyItems items ++ rest) = some (v :: items, rest)
  | v, _, 0, _, _, hfuel => by
    obtain ⟨u, tail, hu, -⟩ := stringify_head v
    simp [hu] at hfuel
  | v, [], fuel + 1, rest, hwf, hfuel => by
    rw [WellFormedItems] at hwf
    simp only [stringifyItems, List.length_append, List.length_singleton] at hfuel ⊢
    have hv := parseValue_stringify v fuel (0x5d :: rest) hwf.1 (by omega)
      (noNumberHead_cons rest (by decide))
    rw [List.append_assoc, List.singleton_append, parseItems, hv, Option.bind_some]
    dsimp only
    rw [skipSpace_cons _ (by decide)]
    rfl
  | v, w :: items, fuel + 1, rest, hwf, hfuel => by
    rw [WellFormedItems] at hwf
    simp only [stringifyItems, List.length_append, List.length_cons] at hfuel
    have hv := parseValue_stringify v fuel
      (0x2c :: (stringify w ++ stringifyItems items ++ rest)) hwf.1 (by omega)
      (noNumberHead_cons _ (by decide))
    have hitems := parseItems_stringify w items fuel rest hwf.2
      (by rw [List.length_append]; omega)
    rw [stringifyItems, List.append_assoc, List.cons_append, parseItems, hv, Option.bind_some]
    dsimp only
    rw [skipSpace_cons _ (by decide)]
    dsimp only
    rw [if_neg (by decide), if_pos rfl, hitems]
    rfl
termination_by _ _ fuel => fuel

theorem parseMembers_stringify : ∀ (k : JsString) (v : Value ν)
    (members : List (JsString × Value ν)) (fuel : ℕ) (rest : JsString),
    WellFormedMembers ((k, v) :: members) →
    (quote k ++ 0x3a :: (stringify v ++ stringifyMembers members)).length ≤ fuel →
    parseMembers fuel (quote k ++ 0x3a :: (stringify v ++ stringifyMembers members) ++ rest) =
      some ((k, v) :: members, rest)
  | k, _, _, 0, _, _, hfuel => by simp [quote] at hfuel
  | k, v, members, fuel + 1, rest, hwf, hfuel => by
    rw [WellFormedMembers] at hwf
    simp only [List.length_append, List.length_cons] at hfuel
    rw [quote, List.cons_append, List.cons_append, parseMembers, skipSpace_cons _ (by decide)]
    dsimp only
    rw [if_pos rfl, List.append_assoc, List.append_assoc, List.singleton_append,
      parseUnits_quoteUnits, Option.bind_some]
    dsimp only
    rw [List.cons_append, skipSpace_cons _ (by decide)]
    dsimp only
    rw [if_pos rfl]
    match members, hwf, hfuel with
    | [], hwf, hfuel =>
      rw [stringifyMembers, List.length_singleton] at hfuel
      have hv := parseValue_stringify v fuel (0x7d :: rest) hwf.1 (by omega)
        (noNumberHead_cons rest (by decide))
      rw [stringifyMembers, List.append_assoc, List.singleton_append, hv, Option.bind_some]
      dsimp only
      rw [skipSpace_cons _ (by decide)]
      rfl
    | (l, w) :: members, hwf, hfuel =>
      simp only [stringifyMembers, List.length_append, List.length_cons] at hfuel
      have hv := parseValue_stringify v fuel (0x2c :: (quote l ++ 0x3a :: (stringify w ++
        stringifyMembers members) ++ rest)) hwf.1 (by omega) (noNumberHead_cons _ (by decide))
      have hmembers := parseMembers_stringify l w members fuel rest hwf.2
        (by simp only [List.length_append, List.length_cons]; omega)
      rw [stringifyMembers, List.append_assoc, List.cons_append, hv, Option.bind_some]
      dsimp only
      rw [skipSpace_cons _ (by decide)]
      dsimp only
      rw [if_neg (by decide), if_pos rfl, hmembers]
      rfl
termination_by _ _ _ fuel => fuel
end

theorem parse_stringify {v : Value ν} (h : v.WellFormed) : parse (stringify v) = some v := by
  have hv := parseValue_stringify v ((stringify v).length + 1) [] h (Nat.le_succ _)
    (by intro u hu; simp at hu)
  rw [List.append_nil] at hv
  rw [parse, hv]
  rfl

theorem stringify_injective {v w : Value ν} (hv : v.WellFormed) (hw : w.WellFormed)
    (h : stringify v = stringify w) : v = w := by
  have hread := parse_stringify hv
  rw [h, parse_stringify hw] at hread
  exact (Option.some.inj hread).symm

end Daloy.Json
