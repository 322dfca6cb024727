import Daloy.Egress.CidrBits
import Mathlib.Data.List.Basic
import Mathlib.Tactic.Ring

/-! # Addresses as texts

What the texts of addresses denote, and that `parseIp` of `src/ip-match.ts` reads them so.

* `IPv4Text`, `IPv6Text`: the forms, with `::` and a dotted tail; `value` is the number they denote.
* `parseIPv6_text`: the groups of a form, once its dotted tail is rewritten.
-/

namespace Daloy.Egress
set_option autoImplicit false

open Daloy.Unicode Daloy.Text Daloy.Json

/-! ## The forms -/

def IsOctet (part : JsString) : Prop :=
  part.length ∈ [1, 2, 3] ∧ part.all isDigit = true ∧ decimal part ≤ 255

def IsGroup (group : JsString) : Prop :=
  group.length ∈ [1, 2, 3, 4] ∧ ∀ u ∈ group, (hexDigit u).isSome = true

def groupValue (group : JsString) : ℕ :=
  group.foldl (fun n u => 16 * n + (hexDigit u).getD 0) 0

def valueOf (bytes : List UInt8) : ℕ := bytes.foldl (fun n b => 256 * n + b.toNat) 0

structure IPv4Text where
  octets : List JsString
  count : octets.length = 4
  valid : ∀ part ∈ octets, IsOctet part

namespace IPv4Text

def text (q : IPv4Text) : JsString := [dot].intercalate q.octets

def value (q : IPv4Text) : ℕ := q.octets.foldl (fun n part => 256 * n + decimal part) 0

def pair (q : IPv4Text) : List ℕ := [q.value / 65536, q.value % 65536]

end IPv4Text

def quadWidth (quad : Option IPv4Text) : ℕ := if quad.isSome then 2 else 0

/-- Groups between colons: all eight, or those in front of a double colon and those behind it. The
last two may be a dotted tail. -/
structure IPv6Text where
  head : List JsString
  tail : Option (List JsString)
  quad : Option IPv4Text
  valid : ∀ group ∈ head ++ tail.getD [], IsGroup group
  fits : head.length + (tail.getD []).length + quadWidth quad ≤ 8
  full : tail = none → head.length + quadWidth quad = 8

namespace IPv6Text

def sideText (groups : List JsString) (quad : Option IPv4Text) : JsString :=
  [colon].intercalate (groups ++ (quad.map IPv4Text.text).toList)

def text (a : IPv6Text) : JsString :=
  match a.tail with
  | none => sideText a.head a.quad
  | some tail => [colon].intercalate a.head ++ [colon, colon] ++ sideText tail a.quad

def groups (a : IPv6Text) : List ℕ :=
  let last := (a.quad.map IPv4Text.pair).getD []
  let tail := a.tail.getD []
  a.head.map groupValue ++
    List.replicate (8 - (a.head.length + tail.length + quadWidth a.quad)) 0 ++
      tail.map groupValue ++ last

def value (a : IPv6Text) : ℕ := a.groups.foldl (fun n group => 65536 * n + group) 0

end IPv6Text

inductive IpText
  | v4 (q : IPv4Text)
  | v6 (a : IPv6Text)

namespace IpText

def family : IpText → Family
  | v4 _ => .v4
  | v6 _ => .v6

def text : IpText → JsString
  | v4 q => q.text
  | v6 a => a.text

def value : IpText → ℕ
  | v4 q => q.value
  | v6 a => a.value

end IpText

/-! ## IPv4 -/

theorem mapM_some {α β : Type} {f : α → Option β} {g : α → β} {l : List α}
    (h : ∀ a ∈ l, f a = some (g a)) : l.mapM f = some (l.map g) := by
  induction l with
  | nil => rfl
  | cons a l ih =>
    rw [List.mapM_cons, h a List.mem_cons_self, ih fun b hb => h b (List.mem_cons_of_mem _ hb)]
    rfl

theorem octet_of_isOctet {part : JsString} (h : IsOctet part) :
    octet part = some (UInt8.ofNat (decimal part)) := if_pos h

theorem isDigit_ne {u : UInt16} (h : isDigit u = true) : u ≠ dot ∧ u ≠ colon := by
  constructor
  · rintro rfl
    exact absurd h (by decide)
  · rintro rfl
    exact absurd h (by decide)

theorem IsOctet.units {part : JsString} (h : IsOctet part) :
    ∀ u ∈ part, u ≠ dot ∧ u ≠ colon :=
  fun u hu => isDigit_ne (List.all_eq_true.mp h.2.1 u hu)

def IPv4Text.bytes (q : IPv4Text) : List UInt8 :=
  q.octets.map fun part => UInt8.ofNat (decimal part)

theorem IPv4Text.parse (q : IPv4Text) :
    ∃ ip, parseIPv4 q.text = some ip ∧ ip.family = .v4 ∧ ip.bytes = q.bytes := by
  have hsplit : List.splitOn dot q.text = q.octets := by
    refine List.splitOn_intercalate dot ?_ ?_
    · intro part hpart hdot
      exact ((q.valid part hpart).units dot hdot).1 rfl
    · intro hnil
      have hcount := q.count
      rw [hnil] at hcount
      cases hcount
  have hmap : q.octets.mapM octet = some q.bytes :=
    mapM_some fun part hpart => octet_of_isOctet (q.valid part hpart)
  have hlength : q.bytes.length = Family.v4.size := by
    rw [IPv4Text.bytes, List.length_map, q.count]
    rfl
  refine ⟨⟨.v4, q.bytes, hlength⟩, ?_, rfl, rfl⟩
  rw [parseIPv4, hsplit, hmap]
  exact dif_pos hlength

theorem valueOf_bytes (q : IPv4Text) : valueOf q.bytes = q.value := by
  have hfold : ∀ (parts : List JsString) (n : ℕ), (∀ part ∈ parts, IsOctet part) →
      (parts.map fun part => UInt8.ofNat (decimal part)).foldl (fun n b => 256 * n + b.toNat) n =
        parts.foldl (fun n part => 256 * n + decimal part) n := by
    intro parts
    induction parts with
    | nil => intro n _; rfl
    | cons part parts ih =>
      intro n hvalid
      have hle := (hvalid part List.mem_cons_self).2.2
      have hnat : (UInt8.ofNat (decimal part)).toNat = decimal part :=
        UInt8.toNat_ofNat_of_lt' (by simp [UInt8.size]; omega)
      rw [List.map_cons, List.foldl_cons, List.foldl_cons, hnat]
      exact ih _ fun other hother => hvalid other (List.mem_cons_of_mem _ hother)
  exact hfold q.octets 0 q.valid

theorem IPv4Text.shape (q : IPv4Text) :
    ∃ a b c d : ℕ, a < 256 ∧ b < 256 ∧ c < 256 ∧ d < 256 ∧
      q.bytes = [UInt8.ofNat a, UInt8.ofNat b, UInt8.ofNat c, UInt8.ofNat d] ∧
      q.value = 256 * (256 * (256 * a + b) + c) + d := by
  obtain ⟨octets, hcount, hvalid⟩ := q
  match octets, hcount with
  | [a, b, c, d], _ =>
    have hlt : ∀ part ∈ [a, b, c, d], decimal part < 256 :=
      fun part hpart => Nat.lt_succ_of_le (hvalid part hpart).2.2
    refine ⟨decimal a, decimal b, decimal c, decimal d, hlt a (by simp), hlt b (by simp),
      hlt c (by simp), hlt d (by simp), rfl, ?_⟩
    simp [IPv4Text.value]

/-! ## Groups -/

theorem hexGroup_of_isGroup {group : JsString} (h : IsGroup group) :
    hexGroup group = some [UInt8.ofNat (groupValue group / 256),
      UInt8.ofNat (groupValue group % 256)] := by
  have hmap : group.mapM hexDigit = some (group.map fun u => (hexDigit u).getD 0) := by
    refine mapM_some fun u hu => ?_
    obtain ⟨d, hd⟩ := Option.isSome_iff_exists.mp (h.2 u hu)
    rw [hd, Option.getD_some]
  have hfold : (group.map fun u => (hexDigit u).getD 0).foldl (fun n d => 16 * n + d) 0 =
      groupValue group := List.foldl_map
  rw [hexGroup, hmap]
  simp only [Option.bind_eq_bind, Option.bind_some, List.length_map, if_pos h.1, hfold]

theorem hexDigit_lt {u : UInt16} {d : ℕ} (h : hexDigit u = some d) : d < 16 := by
  unfold hexDigit at h
  split at h
  · obtain rfl := Option.some.inj h
    omega
  · split at h
    · obtain rfl := Option.some.inj h
      omega
    · split at h
      · obtain rfl := Option.some.inj h
        omega
      · cases h

theorem groupValue_lt {group : JsString} (h : IsGroup group) : groupValue group < 65536 := by
  have hfold : ∀ (g : JsString) (n m : ℕ), n < m →
      g.foldl (fun n u => 16 * n + (hexDigit u).getD 0) n < m * 16 ^ g.length := by
    intro g
    induction g with
    | nil => intro n m hn; simpa using hn
    | cons u g ih =>
      intro n m hn
      have hd : (hexDigit u).getD 0 < 16 := by
        cases hu : hexDigit u with
        | none => simp
        | some d => exact hexDigit_lt hu
      have hrest := ih (16 * n + (hexDigit u).getD 0) (m * 16) (by omega)
      rw [List.foldl_cons, List.length_cons, pow_succ, Nat.mul_comm (16 ^ g.length) 16,
        ← Nat.mul_assoc]
      exact hrest
  have hlt := hfold group 0 1 (by omega)
  have hle : 16 ^ group.length ≤ 16 ^ 4 := by
    apply Nat.pow_le_pow_right (by omega)
    have hlength := h.1
    simp at hlength
    omega
  rw [Nat.one_mul] at hlt
  exact Nat.lt_of_lt_of_le hlt hle

theorem hexDigit_digitChar {d : ℕ} (h : d < 16) :
    ∃ u, utf16 [Nat.digitChar d] = [u] ∧ hexDigit u = some d := by
  have hall : ∀ d : Fin 16, utf16 [Nat.digitChar d] = [(utf16 [Nat.digitChar d]).headD 0] ∧
      hexDigit ((utf16 [Nat.digitChar d]).headD 0) = some d.val := by
    decide
  exact ⟨_, hall ⟨d, h⟩⟩

theorem hexText_eq (n : ℕ) : hexText n = utf16 (Nat.toDigits 16 n) := by
  rw [hexText, js, String.toList_ofList]

theorem groupValue_append (g : JsString) (u : UInt16) :
    groupValue (g ++ [u]) = 16 * groupValue g + (hexDigit u).getD 0 := by
  rw [groupValue, List.foldl_append]
  rfl

theorem hexText_spec (n : ℕ) :
    groupValue (hexText n) = n ∧ (∀ u ∈ hexText n, (hexDigit u).isSome = true) ∧
      ∀ k, n < 16 ^ (k + 1) → 1 ≤ (hexText n).length ∧ (hexText n).length ≤ k + 1 := by
  induction n using Nat.strong_induction_on with
  | _ n ih =>
    rw [hexText_eq]
    by_cases hsmall : n < 16
    · obtain ⟨u, hu, hd⟩ := hexDigit_digitChar hsmall
      rw [Nat.toDigits_of_lt_base hsmall, hu]
      refine ⟨by simp [groupValue, hd], by simp [hd], fun k _ => by simp⟩
    · obtain ⟨u, hu, hd⟩ := hexDigit_digitChar (Nat.mod_lt n (show 0 < 16 by omega))
      obtain ⟨hvalue, hunits, hlength⟩ := ih (n / 16) (by omega)
      rw [hexText_eq] at hvalue hunits hlength
      rw [Nat.toDigits_of_base_le (by omega) (by omega), utf16_append, hu]
      refine ⟨?_, ?_, ?_⟩
      · rw [groupValue_append, hvalue, hd, Option.getD_some]
        omega
      · intro v hv
        obtain hv | hv := List.mem_append.mp hv
        · exact hunits v hv
        · rw [List.mem_singleton.mp hv, hd]
          rfl
      · intro k hk
        cases k with
        | zero => omega
        | succ k =>
          have hdiv : n / 16 < 16 ^ (k + 1) := by
            rw [Nat.div_lt_iff_lt_mul (by omega), ← pow_succ]
            exact hk
          have hrest := hlength k hdiv
          rw [List.length_append, List.length_singleton]
          omega

theorem isGroup_hexText {n : ℕ} (h : n < 65536) : IsGroup (hexText n) := by
  obtain ⟨-, hunits, hlength⟩ := hexText_spec n
  have hle := hlength 3 h
  refine ⟨?_, hunits⟩
  simp
  omega

/-! ## The double colon -/

theorem hexDigit_ne {u : UInt16} (h : (hexDigit u).isSome = true) : u ≠ dot ∧ u ≠ colon := by
  constructor
  · rintro rfl
    exact absurd h (by decide)
  · rintro rfl
    exact absurd h (by decide)

theorem IsGroup.units {group : JsString} (h : IsGroup group) :
    ∀ u ∈ group, u ≠ dot ∧ u ≠ colon := fun u hu => hexDigit_ne (h.2 u hu)

theorem IsGroup.ne_nil {group : JsString} (h : IsGroup group) : group ≠ [] := by
  rintro rfl
  simp [IsGroup] at h

theorem splitDoubleColon_ne_nil (s : JsString) : splitDoubleColon s ≠ [] := by
  fun_cases splitDoubleColon s <;> simp_all

theorem splitDoubleColon_cons {u : UInt16} {s : JsString}
    (h : u ≠ colon ∨ s.head? ≠ some colon) :
    splitDoubleColon (u :: s) = (splitDoubleColon s).modifyHead (u :: ·) := by
  cases s with
  | nil => rfl
  | cons v s =>
    have hnot : ¬ (u = colon ∧ v = colon) := by
      rintro ⟨rfl, rfl⟩
      simp at h
    rw [splitDoubleColon, if_neg hnot]
    cases hsplit : splitDoubleColon (v :: s) with
    | nil => exact absurd hsplit (splitDoubleColon_ne_nil _)
    | cons piece pieces => rfl

theorem splitDoubleColon_append {g rest : JsString} (h : ∀ u ∈ g, u ≠ colon) :
    splitDoubleColon (g ++ rest) = (splitDoubleColon rest).modifyHead (g ++ ·) := by
  induction g with
  | nil =>
    rw [List.nil_append]
    cases splitDoubleColon rest <;> rfl
  | cons u g ih =>
    rw [List.cons_append, splitDoubleColon_cons (.inl (h u List.mem_cons_self)),
      ih fun v hv => h v (List.mem_cons_of_mem _ hv)]
    cases splitDoubleColon rest <;> rfl

theorem intercalate_cons_cons (g g' : JsString) (gs : List JsString) :
    [colon].intercalate (g :: g' :: gs) = g ++ colon :: [colon].intercalate (g' :: gs) := by
  simp [List.intercalate]

theorem head?_intercalate {g : JsString} (hg : g ≠ []) (gs : List JsString) :
    ([colon].intercalate (g :: gs)).head? = g.head? := by
  obtain ⟨u, g, rfl⟩ := List.exists_cons_of_ne_nil hg
  cases gs with
  | nil => simp [List.intercalate]
  | cons g' gs => rw [intercalate_cons_cons]; rfl

theorem splitDoubleColon_groups {gs : List JsString} (hgs : ∀ g ∈ gs, IsGroup g)
    {rest : JsString} :
    splitDoubleColon ([colon].intercalate gs ++ rest) =
      (splitDoubleColon rest).modifyHead ([colon].intercalate gs ++ ·) := by
  induction gs with
  | nil =>
    rw [show [colon].intercalate ([] : List JsString) = [] from rfl, List.nil_append]
    cases splitDoubleColon rest <;> rfl
  | cons g gs ih =>
    have hg := hgs g List.mem_cons_self
    have hunits : ∀ u ∈ g, u ≠ colon := fun u hu => (hg.units u hu).2
    cases gs with
    | nil =>
      rw [show [colon].intercalate [g] = g by simp [List.intercalate]]
      exact splitDoubleColon_append hunits
    | cons g' gs =>
      have hg' := hgs g' (by simp)
      have hhead : ([colon].intercalate (g' :: gs) ++ rest).head? ≠ some colon := by
        obtain ⟨u, t, rfl⟩ := List.exists_cons_of_ne_nil hg'.ne_nil
        have hu := head?_intercalate (g := u :: t) (by simp) gs
        rw [List.head?_append, hu]
        simpa using (hg'.units u List.mem_cons_self).2
      rw [intercalate_cons_cons, List.append_assoc, splitDoubleColon_append hunits,
        List.cons_append, splitDoubleColon_cons (.inr hhead),
        ih (fun g hg => hgs g (List.mem_cons_of_mem _ hg))]
      cases splitDoubleColon rest <;> simp

theorem groupsOf_intercalate {gs : List JsString} (hgs : ∀ g ∈ gs, IsGroup g) :
    groupsOf ([colon].intercalate gs) = gs := by
  cases gs with
  | nil => rfl
  | cons g gs =>
    have hne : [colon].intercalate (g :: gs) ≠ [] := by
      intro hnil
      have hhead := head?_intercalate (hgs g List.mem_cons_self).ne_nil gs
      rw [hnil] at hhead
      exact (hgs g List.mem_cons_self).ne_nil (List.head?_eq_none_iff.mp hhead.symm)
    rw [groupsOf, if_neg hne]
    refine List.splitOn_intercalate colon ?_ (by simp)
    intro g' hg' hcolon
    exact ((hgs g' hg').units colon hcolon).2 rfl

/-! ## Texts of groups only -/

def groupsText (head : List JsString) : Option (List JsString) → JsString
  | none => [colon].intercalate head
  | some tail => [colon].intercalate head ++ [colon, colon] ++ [colon].intercalate tail

def groupBytes (n : ℕ) : List UInt8 := [UInt8.ofNat (n / 256), UInt8.ofNat (n % 256)]

theorem parseIPv6_groups {input : JsString} {head : List JsString} {tail : Option (List JsString)}
    (hgroups : ∀ group ∈ head ++ tail.getD [], IsGroup group)
    (hfits : head.length + (tail.getD []).length ≤ 8) (hfull : tail = none → head.length = 8)
    (hworking : withoutDottedTail input = some (groupsText head tail)) :
    ∃ ip, parseIPv6 input = some ip ∧ ip.family = .v6 ∧
      ip.bytes = (head.map groupValue ++
        List.replicate (8 - (head.length + (tail.getD []).length)) 0 ++
          (tail.getD []).map groupValue).flatMap groupBytes := by
  have hhead : ∀ g ∈ head, IsGroup g := fun g hg => hgroups g (List.mem_append_left _ hg)
  have htail : ∀ g ∈ tail.getD [], IsGroup g := fun g hg => hgroups g (List.mem_append_right _ hg)
  have hzero : IsGroup (js "0") ∧ groupValue (js "0") = 0 := by
    refine ⟨⟨by decide, by decide⟩, by decide⟩
  have hmap : (head ++ List.replicate (8 - (head.length + (tail.getD []).length)) (js "0") ++
      tail.getD []).mapM hexGroup = some ((head ++
        List.replicate (8 - (head.length + (tail.getD []).length)) (js "0") ++ tail.getD []).map
          fun g => groupBytes (groupValue g)) := by
    refine mapM_some fun g hg => hexGroup_of_isGroup ?_
    obtain hg | hg := List.mem_append.mp hg
    · obtain hg | hg := List.mem_append.mp hg
      · exact hhead g hg
      · rw [List.eq_of_mem_replicate hg]
        exact hzero.1
    · exact htail g hg
  have hflat : ((head ++ List.replicate (8 - (head.length + (tail.getD []).length)) (js "0") ++
      tail.getD []).map fun g => groupBytes (groupValue g)).flatten =
        (head.map groupValue ++ List.replicate (8 - (head.length + (tail.getD []).length)) 0 ++
          (tail.getD []).map groupValue).flatMap groupBytes := by
    rw [List.flatMap, List.map_append, List.map_append, List.map_append, List.map_append,
      List.map_replicate, List.map_replicate, hzero.2, List.map_map, List.map_map]
    rfl
  have hlength : ((head.map groupValue ++
      List.replicate (8 - (head.length + (tail.getD []).length)) 0 ++
        (tail.getD []).map groupValue).flatMap groupBytes).length = Family.v6.size := by
    have hcount : ∀ l : List ℕ, (l.flatMap groupBytes).length = 2 * l.length := by
      intro l
      induction l with
      | nil => rfl
      | cons n l ih =>
        rw [List.flatMap_cons, List.length_append, ih, List.length_cons]
        simp only [groupBytes, List.length_cons, List.length_nil]
        omega
    rw [hcount]
    simp only [List.length_append, List.length_map, List.length_replicate, Family.size]
    omega
  refine ⟨⟨.v6, _, hlength⟩, ?_, rfl, rfl⟩
  rw [parseIPv6, hworking]
  cases tail with
  | none =>
    have hsplit : splitDoubleColon (groupsText head none) = [[colon].intercalate head] := by
      have h := @splitDoubleColon_groups head hhead []
      rw [List.append_nil] at h
      rw [groupsText, h]
      simp [splitDoubleColon]
    have height := hfull rfl
    have hone : ¬ 1 = 2 := by omega
    simp only [Option.getD_none, List.length_nil, Nat.add_zero, height, Nat.sub_self,
      List.replicate_zero, List.append_nil, List.map_nil] at hmap hflat hlength
    simp only [Option.bind_eq_bind, Option.bind_some, hsplit, List.headD_cons, List.length_singleton,
      groupsOf_intercalate hhead, height, hone, if_false, List.length_nil, Nat.add_zero,
      List.replicate_zero, List.append_nil]
    rw [if_neg (by omega), hmap]
    simp only [Option.bind_some, hflat, Option.getD_none, List.length_nil, Nat.add_zero,
      Nat.sub_self, List.replicate_zero, List.append_nil, List.map_nil]
    rw [dif_pos hlength]
  | some tail =>
    have hsplit : splitDoubleColon (groupsText head (some tail)) =
        [[colon].intercalate head, [colon].intercalate tail] := by
      have h := @splitDoubleColon_groups tail htail []
      rw [List.append_nil] at h
      rw [groupsText, List.append_assoc, splitDoubleColon_groups hhead]
      simp only [List.cons_append, List.nil_append]
      rw [splitDoubleColon, if_pos ⟨rfl, rfl⟩]
      rw [h]
      simp [splitDoubleColon]
    simp only [Option.getD_some] at hmap hflat hlength hfits htail
    simp only [Option.bind_eq_bind, Option.bind_some, hsplit, List.headD_cons, List.length_cons,
      List.length_nil, Nat.zero_add, Nat.reduceAdd, List.getD_cons_succ, List.getD_cons_zero,
      groupsOf_intercalate hhead, groupsOf_intercalate htail, if_true]
    rw [if_neg (by omega), hmap]
    simp only [Option.bind_some, hflat]
    rw [dif_pos hlength]
    rfl

/-! ## Dotted tails -/

theorem IPv4Text.units (q : IPv4Text) : ∀ u ∈ q.text, u ≠ colon := by
  intro u hu
  obtain rfl | ⟨part, hpart, hu⟩ := mem_intercalate hu
  · decide
  · exact ((q.valid part hpart).units u hu).2

theorem IPv4Text.dot_mem (q : IPv4Text) : dot ∈ q.text := by
  obtain ⟨octets, hcount, hvalid⟩ := q
  match octets, hcount with
  | [a, b, c, d], _ => simp [IPv4Text.text, List.intercalate]

theorem withoutDottedTail_quad (front : JsString) (q : IPv4Text) :
    withoutDottedTail (front ++ colon :: q.text) =
      some (front ++ colon :: (hexText (q.value / 65536) ++ colon :: hexText (q.value % 65536))) := by
  have htake : (front ++ colon :: q.text).rtakeWhile (· ≠ colon) = q.text := by
    rw [List.rtakeWhile, List.reverse_append, List.reverse_cons, List.append_assoc,
      List.takeWhile_append_of_pos, List.singleton_append, List.takeWhile_cons_of_neg (by simp),
      List.append_nil, List.reverse_reverse]
    intro u hu
    simpa using q.units u (List.mem_reverse.mp hu)
  have hdrop : (front ++ colon :: q.text).rdropWhile (· ≠ colon) = front ++ [colon] := by
    rw [List.rdropWhile, List.reverse_append, List.reverse_cons, List.append_assoc,
      List.dropWhile_append_of_pos, List.singleton_append, List.dropWhile_cons_of_neg (by simp),
      List.reverse_cons, List.reverse_reverse]
    intro u hu
    simpa using q.units u (List.mem_reverse.mp hu)
  obtain ⟨ip, hparse, -, hbytes⟩ := q.parse
  obtain ⟨a, b, c, d, ha, hb, hc, hd, hshape, hvalue⟩ := q.shape
  have hnat : ∀ n : ℕ, n < 256 → (UInt8.ofNat n).toNat = n :=
    fun n hn => UInt8.toNat_ofNat_of_lt' (by simpa [UInt8.size] using hn)
  have hhigh : (ip.bytes.getD 0 0).toNat * 256 + (ip.bytes.getD (0 + 1) 0).toNat =
      q.value / 65536 := by
    rw [hbytes, hshape, List.getD_cons_zero, List.getD_cons_succ, List.getD_cons_zero, hnat a ha,
      hnat b hb, hvalue]
    omega
  have hlow : (ip.bytes.getD 2 0).toNat * 256 + (ip.bytes.getD (2 + 1) 0).toNat =
      q.value % 65536 := by
    have hthird : ip.bytes.getD 2 0 = UInt8.ofNat c := by
      rw [hbytes, hshape]
      rfl
    have hfourth : ip.bytes.getD (2 + 1) 0 = UInt8.ofNat d := by
      rw [hbytes, hshape]
      rfl
    have hlast : 256 * c + d < 65536 := by omega
    have hsum : q.value = 65536 * (256 * a + b) + (256 * c + d) := by
      rw [hvalue]
      ring
    rw [hthird, hfourth, hnat c hc, hnat d hd, hsum, Nat.mul_add_mod, Nat.mod_eq_of_lt hlast,
      Nat.mul_comm c]
  unfold withoutDottedTail
  dsimp only
  rw [htake, hdrop, if_pos q.dot_mem, hparse, Option.bind_eq_bind, Option.bind_some, hhigh, hlow,
    List.append_assoc, List.append_assoc, List.append_assoc]
  rfl

theorem withoutDottedTail_of_not_mem {input : JsString} (h : dot ∉ input) :
    withoutDottedTail input = some input := by
  have hnot : dot ∉ input.rtakeWhile (· ≠ colon) :=
    fun hmem => h ((List.rtakeWhile_suffix _ _).subset hmem)
  rw [withoutDottedTail]
  exact if_neg hnot

theorem intercalate_concat {gs : List JsString} (hne : gs ≠ []) (g : JsString) :
    [colon].intercalate (gs ++ [g]) = [colon].intercalate gs ++ colon :: g := by
  induction gs with
  | nil => exact absurd rfl hne
  | cons g' gs ih =>
    cases gs with
    | nil => simp [List.intercalate]
    | cons g'' gs =>
      rw [List.cons_append, List.cons_append, intercalate_cons_cons, intercalate_cons_cons,
        ← List.cons_append, ih (by simp)]
      simp

theorem sideText_quad (gs : List JsString) (q : IPv4Text) (high low : JsString) :
    ∃ pre, IPv6Text.sideText gs (some q) = pre ++ q.text ∧
      [colon].intercalate (gs ++ [high, low]) = pre ++ (high ++ colon :: low) ∧
      (pre = [] ∨ ∃ front, pre = front ++ [colon]) ∧ (gs ≠ [] → pre ≠ []) := by
  by_cases hgs : gs = []
  · subst hgs
    exact ⟨[], by simp [IPv6Text.sideText, List.intercalate], by simp [List.intercalate], .inl rfl,
      fun h => absurd rfl h⟩
  · refine ⟨[colon].intercalate gs ++ [colon], ?_, ?_, .inr ⟨_, rfl⟩, by simp⟩
    · simp [IPv6Text.sideText, intercalate_concat hgs]
    · have hassoc : gs ++ [high, low] = gs ++ [high] ++ [low] := by simp
      rw [hassoc, intercalate_concat (by simp), intercalate_concat hgs]
      simp

theorem dot_not_mem_groups {gs : List JsString} (h : ∀ g ∈ gs, IsGroup g) :
    dot ∉ [colon].intercalate gs := by
  intro hmem
  obtain heq | ⟨g, hg, hmem⟩ := mem_intercalate hmem
  · exact absurd heq (by decide)
  · exact ((h g hg).units dot hmem).1 rfl

/-! ## Reading the forms -/

theorem IPv4Text.value_lt (q : IPv4Text) : q.value / 65536 < 65536 ∧ q.value % 65536 < 65536 := by
  obtain ⟨a, b, c, d, ha, hb, hc, hd, -, hvalue⟩ := q.shape
  refine ⟨?_, Nat.mod_lt _ (by omega)⟩
  rw [hvalue]
  omega

theorem IPv6Text.parse (a : IPv6Text) :
    ∃ ip, parseIPv6 a.text = some ip ∧ ip.family = .v6 ∧
      ip.bytes = a.groups.flatMap groupBytes := by
  obtain ⟨head, tail, quad, hvalid, hfits, hfull⟩ := a
  have hhead : ∀ g ∈ head, IsGroup g := fun g hg => hvalid g (List.mem_append_left _ hg)
  cases quad with
  | none =>
    have htext : (IPv6Text.mk head tail none hvalid hfits hfull).text = groupsText head tail := by
      cases tail <;> simp [IPv6Text.text, groupsText, IPv6Text.sideText]
    have hdot : dot ∉ groupsText head tail := by
      cases tail with
      | none => exact dot_not_mem_groups hhead
      | some tail =>
        have htail : ∀ g ∈ tail, IsGroup g := fun g hg => hvalid g (List.mem_append_right _ hg)
        simp only [groupsText, List.mem_append, not_or]
        exact ⟨⟨dot_not_mem_groups hhead, by decide⟩, dot_not_mem_groups htail⟩
    obtain ⟨ip, hparse, hfamily, hbytes⟩ := parseIPv6_groups hvalid hfits hfull
      (withoutDottedTail_of_not_mem hdot)
    refine ⟨ip, by rw [htext]; exact hparse, hfamily, ?_⟩
    rw [hbytes]
    simp [IPv6Text.groups, quadWidth]
  | some q =>
    obtain ⟨hhigh, hlow⟩ := q.value_lt
    have hgroups : ∀ g ∈ [hexText (q.value / 65536), hexText (q.value % 65536)], IsGroup g := by
      intro g hg
      obtain rfl | hg := List.mem_cons.mp hg
      · exact isGroup_hexText hhigh
      · rw [List.mem_singleton.mp hg]
        exact isGroup_hexText hlow
    have hvalues : [hexText (q.value / 65536), hexText (q.value % 65536)].map groupValue =
        q.pair := by
      simp only [List.map_cons, List.map_nil, (hexText_spec _).1, IPv4Text.pair]
    have hwidth : quadWidth (some q) = 2 := rfl
    cases tail with
    | none =>
      have hsix := hfull rfl
      have hne : head ≠ [] := by
        rintro rfl
        rw [hwidth] at hsix
        cases hsix
      obtain ⟨pre, hside, hjoin, hpre, hprene⟩ := sideText_quad head q
        (hexText (q.value / 65536)) (hexText (q.value % 65536))
      obtain ⟨front, rfl⟩ := hpre.resolve_left (hprene hne)
      have hworking : withoutDottedTail (IPv6Text.mk head none (some q) hvalid hfits hfull).text =
          some (groupsText (head ++ [hexText (q.value / 65536), hexText (q.value % 65536)])
            none) := by
        rw [IPv6Text.text, hside, List.append_assoc, List.singleton_append, withoutDottedTail_quad,
          groupsText, hjoin, List.append_assoc, List.singleton_append]
      obtain ⟨ip, hparse, hfamily, hbytes⟩ := @parseIPv6_groups _ _ none
        (by
          intro g hg
          rw [Option.getD_none, List.append_nil] at hg
          exact (List.mem_append.mp hg).elim (hhead g) (hgroups g))
        (by simp; omega) (fun _ => by simp; omega) hworking
      refine ⟨ip, hparse, hfamily, ?_⟩
      rw [hbytes, IPv6Text.groups]
      simp only [Option.getD_none, List.map_append, hvalues, List.map_nil, List.append_nil,
        List.length_nil, List.length_append, List.length_cons, Nat.add_zero, Nat.zero_add, hwidth,
        Option.map_some, Option.getD_some, hsix]
      simp only [hwidth] at hsix
      simp [hsix]
    | some tail =>
      have htail : ∀ g ∈ tail, IsGroup g := fun g hg => hvalid g (List.mem_append_right _ hg)
      obtain ⟨pre, hside, hjoin, hpre, -⟩ := sideText_quad tail q
        (hexText (q.value / 65536)) (hexText (q.value % 65536))
      have hfront : ∃ front, [colon].intercalate head ++ [colon, colon] ++ pre =
          front ++ [colon] := by
        obtain rfl | ⟨front, rfl⟩ := hpre
        · exact ⟨[colon].intercalate head ++ [colon], by simp⟩
        · exact ⟨[colon].intercalate head ++ [colon, colon] ++ front, by simp⟩
      obtain ⟨front, hfront⟩ := hfront
      have hworking : withoutDottedTail
          (IPv6Text.mk head (some tail) (some q) hvalid hfits hfull).text =
            some (groupsText head
              (some (tail ++ [hexText (q.value / 65536), hexText (q.value % 65536)]))) := by
        have htext : (IPv6Text.mk head (some tail) (some q) hvalid hfits hfull).text =
            front ++ colon :: q.text := by
          show [colon].intercalate head ++ [colon, colon] ++ IPv6Text.sideText tail (some q) = _
          rw [hside, ← List.append_assoc, hfront, List.append_assoc, List.singleton_append]
        rw [htext, withoutDottedTail_quad, groupsText, hjoin, ← List.append_assoc, hfront,
          List.append_assoc, List.singleton_append]
      obtain ⟨ip, hparse, hfamily, hbytes⟩ := @parseIPv6_groups _ _
        (some (tail ++ [hexText (q.value / 65536), hexText (q.value % 65536)]))
        (by
          intro g hg
          rw [Option.getD_some] at hg
          obtain hg | hg := List.mem_append.mp hg
          · exact hhead g hg
          · exact (List.mem_append.mp hg).elim (htail g) (hgroups g))
        (by
          rw [hwidth] at hfits
          simp only [Option.getD_some, List.length_append, List.length_cons,
            List.length_nil] at hfits ⊢
          omega)
        (fun h => by cases h) hworking
      refine ⟨ip, hparse, hfamily, ?_⟩
      rw [hbytes, IPv6Text.groups]
      simp only [Option.getD_some, List.map_append, hvalues, List.length_append, List.length_cons,
        List.length_nil, Nat.zero_add, hwidth, Option.map_some, List.append_assoc, Nat.add_assoc,
        Nat.reduceAdd]

theorem IPv6Text.colon_mem (a : IPv6Text) : colon ∈ a.text := by
  obtain ⟨head, tail, quad, hvalid, hfits, hfull⟩ := a
  cases tail with
  | some tail => simp [IPv6Text.text]
  | none =>
    have hcount := hfull rfl
    have hwidth : quadWidth quad ≤ 2 := by
      unfold quadWidth
      split <;> omega
    match head, hcount with
    | [], hcount => simp at hcount; omega
    | [g], hcount => simp at hcount; omega
    | g :: g' :: gs, _ =>
      rw [IPv6Text.text, IPv6Text.sideText]
      dsimp only
      rw [List.cons_append, List.cons_append, intercalate_cons_cons]
      simp

theorem valueOf_groupBytes (groups : List ℕ) (h : ∀ n ∈ groups, n < 65536) :
    valueOf (groups.flatMap groupBytes) = groups.foldl (fun n group => 65536 * n + group) 0 := by
  have hfold : ∀ (l : List ℕ) (acc : ℕ), (∀ n ∈ l, n < 65536) →
      (l.flatMap groupBytes).foldl (fun n b => 256 * n + b.toNat) acc =
        l.foldl (fun n group => 65536 * n + group) acc := by
    intro l
    induction l with
    | nil => intro acc _; rfl
    | cons n l ih =>
      intro acc hl
      have hn := hl n List.mem_cons_self
      have hhigh : (UInt8.ofNat (n / 256)).toNat = n / 256 :=
        UInt8.toNat_ofNat_of_lt' (by simp only [UInt8.size]; omega)
      have hlow : (UInt8.ofNat (n % 256)).toNat = n % 256 :=
        UInt8.toNat_ofNat_of_lt' (by simp only [UInt8.size]; omega)
      have hjoin : 256 * (256 * acc + n / 256) + n % 256 = 65536 * acc + n := by omega
      rw [List.flatMap_cons, List.foldl_append, List.foldl_cons, groupBytes, List.foldl_cons,
        List.foldl_cons, List.foldl_nil, hhigh, hlow, hjoin]
      exact ih _ fun m hm => hl m (List.mem_cons_of_mem _ hm)
  exact hfold groups 0 h

theorem IPv6Text.groups_lt (a : IPv6Text) : ∀ n ∈ a.groups, n < 65536 := by
  intro n hn
  rw [IPv6Text.groups] at hn
  simp only [List.mem_append] at hn
  obtain ((hn | hn) | hn) | hn := hn
  · obtain ⟨g, hg, rfl⟩ := List.mem_map.mp hn
    exact groupValue_lt (a.valid g (List.mem_append_left _ hg))
  · rw [List.eq_of_mem_replicate hn]
    omega
  · obtain ⟨g, hg, rfl⟩ := List.mem_map.mp hn
    exact groupValue_lt (a.valid g (List.mem_append_right _ hg))
  · cases hquad : a.quad with
    | none => simp [hquad] at hn
    | some q =>
      obtain ⟨hhigh, hlow⟩ := q.value_lt
      simp only [hquad, Option.map_some, Option.getD_some, IPv4Text.pair, List.mem_cons,
        List.not_mem_nil, or_false] at hn
      obtain rfl | rfl := hn
      · exact hhigh
      · exact hlow

theorem parseIp_text {input : JsString} {form : IpText} (h : trim input = form.text) :
    ∃ ip, parseIp input = some ip ∧ ip.family = form.family ∧ valueOf ip.bytes = form.value := by
  rw [parseIp, h]
  cases form with
  | v4 q =>
    have hcolon : colon ∉ q.text := fun hmem => q.units colon hmem rfl
    obtain ⟨ip, hparse, hfamily, hbytes⟩ := q.parse
    exact ⟨ip, by rw [IpText.text, if_neg hcolon]; exact hparse, hfamily,
      by rw [hbytes, valueOf_bytes]; rfl⟩
  | v6 a =>
    obtain ⟨ip, hparse, hfamily, hbytes⟩ := a.parse
    exact ⟨ip, by rw [IpText.text, if_pos a.colon_mem]; exact hparse, hfamily,
      by rw [hbytes, valueOf_groupBytes _ a.groups_lt]; rfl⟩

/-! ## The result -/

/-- **Ranges are exact.** A compiled pattern has the family of its address and the bits of its
prefix, cleared behind it; it contains an address when that, read as the pattern reads it, has the
same family and the same first bits; and every textual form is read as the number it denotes. -/
theorem cidr_exact :
    (∀ (pattern : JsString) (m : IpMatcher), compileCidrMatcher pattern = .ok m →
      ∃ net bits, parseIp (pattern.takeWhile (· ≠ slash)) = some net ∧
        GivesPrefix pattern (8 * net.family.size) bits ∧
        m.family = net.family ∧ m.prefixBits = bits ∧
        (bitsOf m.bytes).take bits = (bitsOf net.bytes).take bits ∧
        (∀ bit ∈ (bitsOf m.bytes).drop bits, bit = false) ∧
        ∀ ip, matchesMatcher ip m = true ↔ InRange net bits ip) ∧
    ∀ (form : IpText) (input : JsString), trim input = form.text →
      ∃ ip, parseIp input = some ip ∧ ip.family = form.family ∧ valueOf ip.bytes = form.value := by
  refine ⟨?_, fun form input h => parseIp_text h⟩
  intro pattern m hm
  obtain ⟨net, bits, hnet, hgives, rfl⟩ := compileCidrMatcher_eq_ok hm
  have hle : bits ≤ (bitsOf net.bytes).length := by
    rw [length_bitsOf, net.sized]
    exact hgives.1
  have hlength : ((bitsOf net.bytes).take bits).length = bits := by
    rw [List.length_take]
    omega
  refine ⟨net, bits, hnet, hgives, rfl, rfl, ?_, ?_, matchesMatcher_iff net bits⟩
  · dsimp only
    rw [bitsOf_applyPrefixMask, List.take_append_of_le_length (Nat.le_of_eq hlength.symm),
      List.take_take, Nat.min_self]
  · intro bit hbit
    dsimp only at hbit
    rw [bitsOf_applyPrefixMask, List.drop_append_of_le_length (Nat.le_of_eq hlength.symm),
      List.drop_take, Nat.sub_self, List.take_zero, List.nil_append] at hbit
    exact List.eq_of_mem_replicate hbit

end Daloy.Egress
