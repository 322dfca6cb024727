import Daloy.Foundations.UrlStandard

/-! # References against a base URL

Nothing here mentions a program. What the URL standard makes of a text and a base of the schemes
`http` and `https`.

* `resolveReference`: a text with a scheme of its own, behind two slashes, or a path.
* `resolveReference_path`, `resolveReference_authority`: a text without a scheme, a query and a
  fragment, against a base without a path. With two slashes in front it names an authority.
-/

namespace Daloy.UrlStandard
set_option autoImplicit false

open Daloy.Unicode

def colonSign : UInt16 := 0x3A

def isLetter (u : UInt16) : Bool :=
  (0x61 ≤ u.toNat && u.toNat ≤ 0x7A) || (0x41 ≤ u.toNat && u.toNat ≤ 0x5A)

def isSchemeUnit (u : UInt16) : Bool :=
  isLetter u || (0x30 ≤ u.toNat && u.toNat ≤ 0x39) || u ∈ js "+-."

def schemeOf (s : JsString) : Option (JsString × JsString) :=
  match s.takeWhile isSchemeUnit, s.dropWhile isSchemeUnit with
  | first :: scheme, u :: rest =>
    if isLetter first = true ∧ u = colonSign then
      some (lowerAscii (first :: scheme) ++ [colonSign], rest)
    else none
  | _, _ => none

section Parsing

variable [UrlParser]

open UrlParser

def relative (base : Url) (s : JsString) : Option Url :=
  match s with
  | [] => some base
  | u :: rest =>
    if isSlash u then reference base (u :: rest)
    else if u = questionMark then some { base with query := queryOf (u :: rest) }
    else if u = numberSign then some base
    else some { base with
      segments :=
        resolve base.segments.dropLast (List.splitOnP isSlash (pathPart (u :: rest)))
      query := queryOf (u :: rest) }

/-- `new URL(s, base)`, for a base of one of the two schemes; `none` where it throws. -/
def resolveReference (base : Url) (s : JsString) : Option Url :=
  match schemeOf (clean s) with
  | some (scheme, rest) =>
    if scheme = base.protocol ∧ ¬ js "//" <+: rest then relative base rest else parse (clean s)
  | none => relative base (clean s)

end Parsing

/-! ## Texts that are a path -/

def PlainPath (s : JsString) : Prop :=
  ∀ u ∈ s, keptInPath u = true ∧ u ≠ reverseSolidus ∧ u ≠ colonSign

theorem PlainPath.visible {s : JsString} (h : PlainPath s) : Visible s := by
  intro u hu
  have hkept := (h u hu).1
  simp only [keptInPath, Bool.and_eq_true, decide_eq_true_eq] at hkept
  rw [isControlOrSpace, decide_eq_false_iff_not]
  omega

theorem PlainPath.clean {s : JsString} (h : PlainPath s) : clean s = s := by
  cases s with
  | nil => rfl
  | cons u s =>
    rw [clean_eq_cleanEnd (h.visible u List.mem_cons_self),
      cleanEnd_visible fun v hv => h.visible v (List.mem_cons_of_mem _ hv)]

theorem PlainPath.schemeOf {s : JsString} (h : PlainPath s) : schemeOf s = none := by
  rw [UrlStandard.schemeOf]
  split
  · rename_i first scheme u rest _ hdrop
    have hmem : u ∈ s := (List.dropWhile_sublist _).subset (hdrop ▸ List.mem_cons_self)
    rw [if_neg fun hcolon => (h u hmem).2.2 hcolon.2]
  · rfl

theorem PlainPath.open_end {s : JsString} (h : PlainPath s) : ∀ u ∈ s, endsPath u = false :=
  fun u hu => keptInPath_not_endsPath (h u hu).1

theorem PlainPath.pathPart {s : JsString} (h : PlainPath s) : pathPart s = s := by
  have hwhole := pathPart_append h.open_end (q := []) (by simp [Ended])
  rwa [List.append_nil] at hwhole

theorem PlainPath.isSlash {s : JsString} (h : PlainPath s) {u : UInt16} (hu : u ∈ s) :
    isSlash u = true ↔ u = solidus := by
  simp [UrlStandard.isSlash, (h u hu).2.1]

section References

variable [UrlParser]

open UrlParser

theorem resolveReference_path {base : Url} (hbase : base.segments = [[]]) {s : JsString}
    (h : PlainPath s) (hslashes : ¬ js "//" <+: s) :
    ∃ query, resolveReference base s = some { base with segments := segmentsOf s, query } := by
  rw [resolveReference, h.clean, h.schemeOf]
  dsimp only
  cases s with
  | nil => exact ⟨base.query, by rw [relative, show segmentsOf [] = [[]] by decide, ← hbase]⟩
  | cons u rest =>
    have hend := h.open_end u List.mem_cons_self
    simp only [endsPath, Bool.or_eq_false_iff, beq_eq_false_iff_ne] at hend
    rw [relative]
    by_cases hu : u = solidus
    · rw [if_pos ((h.isSlash List.mem_cons_self).mpr hu), reference, h.clean]
      cases rest with
      | nil => exact ⟨_, rfl⟩
      | cons v rest =>
        have hv : isSlash v ≠ true := by
          intro hv
          rw [h.isSlash (List.mem_cons_of_mem _ List.mem_cons_self)] at hv
          rw [hu, hv] at hslashes
          exact hslashes ⟨rest, rfl⟩
        dsimp only
        exact ⟨_, by rw [if_neg hv]⟩
    · have hslash : isSlash u ≠ true := fun hslash => hu ((h.isSlash List.mem_cons_self).mp hslash)
      rw [if_neg hslash, if_neg hend.1, if_neg hend.2, hbase, segmentsOf, pieces, h.pathPart,
        List.head?_cons, Option.any_some, if_neg hslash]
      exact ⟨_, rfl⟩

theorem resolveReference_authority {base : Url} {s : JsString} (h : PlainPath (js "//" ++ s)) :
    resolveReference base (js "//" ++ s) = parseBehind base.protocol s := by
  rw [resolveReference, h.clean, h.schemeOf]
  dsimp only
  have hcons : js "//" ++ s = solidus :: solidus :: s := rfl
  rw [hcons] at h ⊢
  rw [relative, if_pos isSlash_solidus, reference, h.clean]
  dsimp only
  rw [if_pos isSlash_solidus]

end References

/-! ## Joined segments -/

def join : List JsString → JsString
  | [] => []
  | s :: rest => s ++ pathname rest

theorem join_nil_cons (rest : List JsString) : join ([] :: rest) = pathname rest := rfl

theorem pathname_append (a b : List JsString) : pathname (a ++ b) = pathname a ++ pathname b := by
  rw [pathname, List.flatMap_append]
  rfl

theorem join_append {a : List JsString} (hne : a ≠ []) (b : List JsString) :
    join (a ++ b) = join a ++ pathname b := by
  obtain ⟨s, rest, rfl⟩ := List.exists_cons_of_ne_nil hne
  rw [List.cons_append, join, join, pathname_append, List.append_assoc]

theorem splitOnP_join {s : JsString} {rest : List JsString}
    (h : ∀ t ∈ s :: rest, ∀ u ∈ t, isSlash u = false) :
    List.splitOnP isSlash (join (s :: rest)) = s :: rest := by
  induction rest generalizing s with
  | nil =>
    rw [join, pathname, List.flatMap_nil, List.append_nil]
    exact List.splitOnP_eq_singleton (h s List.mem_cons_self)
  | cons next rest ih =>
    rw [join, pathname, List.flatMap_cons, List.cons_append,
      List.splitOnP_append_cons_of_forall_mem (h s List.mem_cons_self) _ isSlash_solidus,
      ← pathname, ← join, ih fun t ht => h t (List.mem_cons_of_mem _ ht)]

theorem segmentsOf_join {s : JsString} {rest : List JsString} (hne : s ≠ [])
    (h : ∀ t ∈ s :: rest, Settled t) : segmentsOf (join (s :: rest)) = s :: rest := by
  have hslash : ∀ t ∈ s :: rest, ∀ u ∈ t, isSlash u = false :=
    fun t ht u hu => ((h t ht).kept u hu).2
  have hpath : pathPart (join (s :: rest)) = join (s :: rest) := by
    have hwhole := pathPart_append (p := join (s :: rest)) (q := []) ?_ (by simp [Ended])
    · rwa [List.append_nil] at hwhole
    · intro u hu
      rw [join] at hu
      obtain hu | hu := List.mem_append.mp hu
      · exact keptInPath_not_endsPath ((h s List.mem_cons_self).kept u hu).1
      · exact pathname_not_endsPath (fun t ht => h t (List.mem_cons_of_mem _ ht)) u hu
  obtain ⟨u, s, rfl⟩ := List.exists_cons_of_ne_nil hne
  have hfirst : isSlash u = false := hslash _ List.mem_cons_self u List.mem_cons_self
  rw [segmentsOf, hpath, pieces, if_neg (by simp [join, hfirst]), splitOnP_join hslash,
    resolve_of_settled h, List.nil_append]

end Daloy.UrlStandard
