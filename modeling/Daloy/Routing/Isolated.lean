import Daloy.Foundations.UrlReferences
import Daloy.Routing.Captures

/-! # A path that one pattern matches

* `splitPath_pathname`, `isTraversal_pathname`: the pathname of non-empty segments is read back, and
  passes the guard.
* `shapeMatches`: a pattern matches segments, whatever a capture may bind.
* `Router.find_isolated`: when only one pattern matches, the lookup ends there.
-/

namespace Daloy.Routing
set_option autoImplicit false

open Daloy.Unicode Daloy.UrlStandard

variable {T : Type}

/-! ## Between the slashes -/

theorem trim_append_replicate {path : JsString} (h : path ≠ []) (k : ℕ) :
    trimTrailingSlashes (path ++ List.replicate k slash) = trimTrailingSlashes path := by
  induction k with
  | zero => rw [List.replicate_zero, List.append_nil]
  | succ k ih =>
    rw [List.replicate_succ', ← List.append_assoc, trimTrailingSlashes_snoc (by simp [h]), ih]

theorem splitOn_slash (rest : JsString) :
    (slash :: rest).splitOn slash = [] :: rest.splitOn slash :=
  List.splitOn_append_cons_self [] rest

theorem splitOn_snoc (path : JsString) :
    (path ++ [slash]).splitOn slash = path.splitOn slash ++ [[]] := by
  rw [List.splitOn_append_cons_self]
  rfl

def lead (path : JsString) : List JsString := if path.head? = some slash then [[]] else []

/-- **A path between its slashes**: its segments, nothing behind trailing slashes, and nothing in
front of a leading one. -/
theorem splitOn_path (path : JsString) :
    ∃ k, path.splitOn slash = lead path ++ splitPath path ++ List.replicate k [] := by
  induction path using List.reverseRecOn with
  | nil => exact ⟨1, rfl⟩
  | append_singleton front u ih =>
    obtain htrim | ⟨front', hne, heq⟩ := trimmed_or_snoc (show front ++ [u] ≠ [] by simp)
    · rw [splitPath, htrim.trim_eq, lead]
      by_cases hroot : front ++ [u] = [slash]
      · rw [hroot]
        exact ⟨1, rfl⟩
      · refine ⟨0, ?_⟩
        rw [if_neg hroot, List.replicate_zero, List.append_nil]
        obtain ⟨v, rest, hcons⟩ := List.exists_cons_of_ne_nil (show front ++ [u] ≠ [] by simp)
        rw [hcons, List.head?_cons]
        by_cases hv : v = slash
        · rw [hv, if_pos rfl, if_pos rfl, List.drop_one, List.tail_cons]
          exact splitOn_slash rest
        · rw [if_neg (by simpa using hv), if_neg (by simpa using hv)]
          rfl
    · obtain ⟨rfl, rfl⟩ := List.append_inj' heq rfl |>.imp id (fun h => List.singleton_inj.mp h)
      obtain ⟨k, hk⟩ := ih
      refine ⟨k + 1, ?_⟩
      have hlead : lead (front ++ [slash]) = lead front := by
        rw [lead, lead, List.head?_append_of_ne_nil _ hne]
      have hsplit : splitPath (front ++ [slash]) = splitPath front := by
        rw [splitPath, splitPath, trimTrailingSlashes_snoc hne]
      rw [splitOn_snoc, hk, hlead, hsplit, List.replicate_succ', List.append_assoc]

def Plain (segments : List JsString) : Prop := ∀ s ∈ segments, s ≠ [] ∧ slash ∉ s

theorem intercalate_eq_join (segments : List JsString) :
    [slash].intercalate segments = join segments := by
  cases segments with
  | nil => rfl
  | cons s rest =>
    induction rest generalizing s with
    | nil => simp [join, pathname]
    | cons next rest ih =>
      rw [List.intercalate_cons_cons, ih, List.append_assoc]
      rfl

theorem splitOn_pathname {segments : List JsString} (h : ∀ s ∈ segments, slash ∉ s) :
    (pathname segments).splitOn slash = [] :: segments := by
  rw [← join_nil_cons, ← intercalate_eq_join, List.splitOn_intercalate]
  · intro s hs
    obtain rfl | hs := List.mem_cons.mp hs
    · simp
    · exact h s hs
  · simp

theorem pathname_replicate (k : ℕ) :
    pathname (List.replicate k []) = List.replicate k slash := by
  induction k with
  | zero => rfl
  | succ k ih =>
    rw [List.replicate_succ, pathname, List.flatMap_cons, ← pathname, ih, List.replicate_succ]
    rfl

theorem splitPath_pathname {segments : List JsString} (h : Plain segments) (k : ℕ) :
    splitPath (pathname (segments ++ List.replicate k [])) = segments := by
  rw [pathname_append, pathname_replicate]
  obtain rfl | ⟨front, last, rfl⟩ := List.eq_nil_or_concat' segments
  · cases k with
    | zero => rfl
    | succ k =>
      have hroot := @trim_append_replicate [slash] (by simp) k
      rw [pathname, List.flatMap_nil, List.nil_append, List.replicate_succ, splitPath,
        ← List.singleton_append, hroot]
      rfl
  · obtain ⟨hne, hlast⟩ := h last (by simp)
    have hsplit := splitOn_pathname fun s hs => (h s hs).2
    have hcons : pathname (front ++ [last]) ≠ [] := by
      intro hnil
      rw [hnil] at hsplit
      simp at hsplit
    obtain ⟨v, rest, hpath⟩ := List.exists_cons_of_ne_nil hcons
    have hlead : v = slash := by
      have hhead : (pathname (front ++ [last])).head? = some slash := by
        cases front <;> rfl
      rw [hpath] at hhead
      exact Option.some.inj hhead
    have htrim : Trimmed (pathname (front ++ [last])) := by
      refine ⟨hcons, .inr fun hend => ?_⟩
      rw [pathname_append, pathname, pathname, List.flatMap_cons, List.flatMap_nil,
        List.append_nil, List.getLast?_append_of_ne_nil _ (by simp),
        List.getLast?_cons_of_ne_nil hne] at hend
      exact hlast (List.mem_of_getLast? hend)
    have hroot : v :: rest ≠ [slash] := by
      intro hroot
      rw [hpath, hroot] at hsplit
      have hone : [slash].splitOn slash = [[], []] := rfl
      rw [hone, List.cons.injEq] at hsplit
      have hmem : last ∈ [([] : JsString)] := by
        rw [hsplit.2]
        simp
      exact hne (List.mem_singleton.mp hmem)
    rw [splitPath, trim_append_replicate hcons, htrim.trim_eq]
    rw [hpath] at hsplit ⊢
    rw [if_neg hroot, List.head?_cons, hlead, if_pos rfl, List.drop_one, List.tail_cons]
    rw [hlead] at hsplit
    exact (List.cons.inj ((splitOn_slash rest).symm.trans hsplit)).2

/-! ## The guard -/

theorem inner_of_slashes {path : JsString} (h : js "//" <:+: path) :
    [] ∈ (path.splitOn slash).tail.dropLast := by
  obtain ⟨a, b, hinfix⟩ := h
  have hpath : path = a ++ slash :: (slash :: b) := by
    rw [← hinfix, List.append_assoc]
    rfl
  obtain ⟨first, front, hfront⟩ := List.exists_cons_of_ne_nil (List.splitOn_ne_nil slash a)
  obtain ⟨next, back, hback⟩ := List.exists_cons_of_ne_nil (List.splitOn_ne_nil slash b)
  rw [hpath, List.splitOn_append_cons_self, splitOn_slash, hfront, hback, List.cons_append,
    List.tail_cons, List.dropLast_append_cons, List.dropLast_cons_cons]
  simp

theorem isTraversal_pathname {segments : List JsString} (h : Plain segments)
    (hdots : [dot, dot] ∉ segments) {k : ℕ} (hk : k ≤ 1) :
    isTraversal (pathname (segments ++ List.replicate k [])) = false := by
  have hslash : ∀ s ∈ segments ++ List.replicate k [], slash ∉ s := by
    intro s hs
    obtain hs | hs := List.mem_append.mp hs
    · exact (h s hs).2
    · rw [(List.mem_replicate.mp hs).2]
      simp
  have hsplit := splitOn_pathname hslash
  have hparent : [dot, dot] ∉ [] :: (segments ++ List.replicate k []) := by
    intro hmem
    obtain hmem | hmem := List.mem_cons.mp hmem
    · simp at hmem
    obtain hmem | hmem := List.mem_append.mp hmem
    · exact hdots hmem
    · have hnil := (List.mem_replicate.mp hmem).2
      simp at hnil
  simp only [isTraversal, Bool.or_eq_false_iff, decide_eq_false_iff_not]
  refine ⟨⟨?_, ?_⟩, ?_⟩
  · rintro ⟨a, b, hinfix⟩
    have hpath : a ++ slash :: ([dot, dot] ++ slash :: b) =
        pathname (segments ++ List.replicate k []) := by
      rw [← hinfix, List.append_assoc]
      rfl
    rw [← hpath, List.splitOn_append_cons_self, List.splitOn_append_cons_self] at hsplit
    refine hparent ?_
    rw [← hsplit]
    have hone : [dot, dot].splitOn slash = [[dot, dot]] := by decide
    rw [hone]
    simp
  · rintro ⟨a, hsuffix⟩
    have hpath : a ++ slash :: [dot, dot] = pathname (segments ++ List.replicate k []) := hsuffix
    rw [← hpath, List.splitOn_append_cons_self] at hsplit
    refine hparent ?_
    rw [← hsplit]
    have hone : [dot, dot].splitOn slash = [[dot, dot]] := by decide
    rw [hone]
    simp
  · intro hslashes
    have hinner := inner_of_slashes hslashes
    rw [hsplit, List.tail_cons] at hinner
    have hsegments : ([] : JsString) ∈ segments := by
      obtain rfl | rfl : k = 0 ∨ k = 1 := by omega
      · rw [List.replicate_zero, List.append_nil] at hinner
        exact List.dropLast_subset _ hinner
      · rwa [List.replicate_one, List.dropLast_concat] at hinner
    exact (h [] hsegments).1 rfl

theorem getLast?_splitPath (path : JsString) : (splitPath path).getLast? ≠ some [] := by
  obtain ⟨hsplit, -⟩ | ⟨text, hne, hlast, hsplit, -⟩ := splitPath_cases path
  · rw [hsplit]
    simp
  · intro hend
    obtain ⟨front, hfront⟩ := List.getLast?_eq_some_iff.mp hend
    have htext := @List.intercalate_splitOn _ text _ _ slash
    rw [← hsplit, hfront] at htext
    obtain rfl | hfrontne := eq_or_ne front []
    · exact hne htext.symm
    · obtain ⟨s, rest, rfl⟩ := List.exists_cons_of_ne_nil hfrontne
      rw [intercalate_eq_join, List.cons_append, join, pathname_append, ← List.append_assoc] at htext
      rw [← htext] at hlast
      exact hlast (by simp [pathname, solidus, slash])

theorem isTraversal_of_mem {path : JsString} (hlead : path.head? = some slash)
    (h : [] ∈ splitPath path) : isTraversal path = true := by
  obtain ⟨k, hk⟩ := splitOn_path path
  obtain ⟨front, back, hsplit⟩ := List.append_of_mem h
  have hback : back ≠ [] := by
    rintro rfl
    exact getLast?_splitPath path (by rw [hsplit]; simp)
  obtain ⟨next, rest, rfl⟩ := List.exists_cons_of_ne_nil hback
  have hpath := @List.intercalate_splitOn _ path _ _ slash
  rw [hk, hsplit, lead, if_pos hlead, intercalate_eq_join, List.append_assoc, List.singleton_append,
    join_nil_cons, List.append_assoc, pathname_append] at hpath
  have hinfix : js "//" <:+: path := by
    refine ⟨pathname front, next ++ pathname (rest ++ List.replicate k []), ?_⟩
    rw [← hpath, List.append_assoc]
    rfl
  simp [isTraversal, hinfix]

theorem isTraversal_trailing (segments : List JsString) (k : ℕ) :
    isTraversal (pathname (segments ++ List.replicate (k + 2) [])) = true := by
  have hinfix : js "//" <:+: pathname (segments ++ List.replicate (k + 2) []) := by
    refine ⟨pathname segments, List.replicate k slash, ?_⟩
    rw [pathname_append, pathname_replicate, List.replicate_succ, List.replicate_succ,
      List.append_assoc]
    rfl
  simp [isTraversal, hinfix]

/-! ## Matching -/

def shapeMatches : List Segment → List JsString → Bool
  | [], [] => true
  | .literal text :: pattern, segment :: segments =>
    text = segment && shapeMatches pattern segments
  | .param _ :: pattern, _ :: segments => shapeMatches pattern segments
  | [.wildcard _], _ :: _ => true
  | _, _ => false

theorem routeMatches_iff {pattern : List Segment} {segments : List JsString} :
    routeMatches pattern segments = true ↔
      shapeMatches pattern segments = true ∧
        ∀ segment ∈ captured pattern segments, binds segment = true := by
  induction pattern generalizing segments with
  | nil => cases segments <;> simp [routeMatches, shapeMatches, captured]
  | cons s pattern ih =>
    cases segments with
    | nil => cases s <;> simp [routeMatches, shapeMatches]
    | cons segment segments =>
      cases s with
      | literal text => simp [routeMatches, shapeMatches, captured, ih, and_assoc]
      | param name =>
        simp only [routeMatches, shapeMatches, captured, Bool.and_eq_true, ih, List.forall_mem_cons]
        tauto
      | wildcard name =>
        cases pattern with
        | nil => simp [routeMatches, shapeMatches, captured]
        | cons t pattern => simp [routeMatches, shapeMatches]

theorem mem_of_shapeMatches {pattern : List Segment} {segments : List JsString}
    (h : shapeMatches pattern segments = true) {text : JsString}
    (htext : .literal text ∈ pattern) : text ∈ segments := by
  induction pattern generalizing segments with
  | nil => simp at htext
  | cons s pattern ih =>
    cases segments with
    | nil => cases s <;> simp [shapeMatches] at h
    | cons segment segments =>
      cases s with
      | literal text' =>
        simp only [shapeMatches, Bool.and_eq_true, decide_eq_true_eq] at h
        obtain heq | hrest := List.mem_cons.mp htext
        · rw [Segment.literal.inj heq, h.1]
          exact List.mem_cons_self
        · exact List.mem_cons_of_mem _ (ih h.2 hrest)
      | param name =>
        obtain heq | hrest := List.mem_cons.mp htext
        · simp at heq
        · exact List.mem_cons_of_mem _ (ih h hrest)
      | wildcard name =>
        cases pattern with
        | nil => simp at htext
        | cons t pattern => simp [shapeMatches] at h

theorem precedes_irrefl (pattern : List Segment) : precedes pattern pattern = false := by
  induction pattern with
  | nil => rfl
  | cons s pattern ih => simp [precedes, ih]

/-! ## Lookups that end at one pattern -/

namespace Router

def Answered (_ : Router T) (history : List (Call T × Answer T)) : Prop :=
  ∀ entry ∈ history, ∃ router : Router T, entry.2 = (router.answer entry.1).2

theorem answered_step (router : Router T) (call : Call T) (history : List (Call T × Answer T))
    (h : Answered router history) :
    Answered (router.answer call).1 (history ++ [(call, (router.answer call).2)]) := by
  intro entry hentry
  obtain hentry | hentry := List.mem_append.mp hentry
  · exact h entry hentry
  · obtain rfl := List.mem_singleton.mp hentry
    exact ⟨router, rfl⟩

theorem scanCaptures_of_registered {calls : List (Call T)} {route : Route T}
    (h : route ∈ registrations calls) :
    ∃ names, scanCaptures route.path route.pattern none = .ok names := by
  have hnil : Answered (new : Router T) [] := by
    intro entry hentry
    simp at hentry
  have hanswers := Runs.feed_history_invariant answered_step hnil calls
  obtain ⟨⟨call, result⟩, hentry, hsuccess⟩ := List.mem_filterMap.mp h
  obtain ⟨router, hresult⟩ := hanswers _ hentry
  cases call with
  | find method path => simp [success] at hsuccess
  | allowedMethods path => simp [success] at hsuccess
  | add added =>
    rw [answer] at hresult
    obtain ⟨router', outcome, hadd⟩ : ∃ router' outcome,
        router.add added.method added.path added.handler added.operationId = (router', outcome) :=
      ⟨_, _, rfl⟩
    rw [hadd] at hresult
    dsimp only at hresult
    subst hresult
    cases outcome with
    | error message => simp [success] at hsuccess
    | ok done =>
      obtain rfl := Option.some.inj hsuccess
      exact scanCaptures_of_add hadd

def Isolated (routes : List (Route T)) (route : Route T) (path : JsString) : Prop :=
  ∀ other ∈ routes, routeMatches other.pattern (splitPath path) = true →
    other.pattern = route.pattern

theorem isDynamic_pattern (route : Route T) :
    route.isDynamic = true ↔ captureNames route.pattern ≠ [] := by
  rw [Route.isDynamic, captureNames]
  induction route.pattern with
  | nil => simp
  | cons s pattern ih =>
    rw [List.any_cons, Bool.or_eq_true, ih, List.filterMap_cons]
    cases s.captureName with
    | none => simp
    | some name => simp

theorem bindings_eq_nil {pattern : List Segment} {segments : List JsString}
    (h : routeMatches pattern segments = true) (hnames : captureNames pattern = []) :
    bindings pattern segments = [] := by
  have hkeys := keys_bindings h
  rw [hnames] at hkeys
  exact List.map_eq_nil_iff.mp hkeys

theorem find_isolated {calls : List (Call T)} {route : Route T}
    (hroute : route ∈ registrations calls) {path : JsString} (hlead : path.head? = some slash)
    (hguard : isTraversal path = false)
    (hmatch : routeMatches route.pattern (splitPath path) = true)
    (hisolated : Isolated (registrations calls) route path) :
    ∃ result, (after calls).find route.method path = some result ∧
      result.handler = route.handler ∧
      result.params.entries = bindings route.pattern (splitPath path) := by
  have h := holds_after calls
  have hne : path ≠ [] := by
    rintro rfl
    simp at hlead
  have htable : (((after calls).staticEntry path).bind fun entry => entry.get? route.method) =
      (((after calls).staticTable.get? (staticKey (splitPath path))).getD ∅).get? route.method := by
    rw [h.staticEntry_eq hne, staticKey_splitPath hlead]
    cases (after calls).staticTable.get? (trimTrailingSlashes path) <;> rfl
  by_cases hkind : route.isDynamic = true
  · -- no static route matches, for it would have captures
    have hstatic : (((after calls).staticEntry path).bind fun entry => entry.get? route.method) =
        none := by
      rw [← Option.not_isSome_iff_eq_none, h.static_iff hlead]
      rintro ⟨other, hother, hplain, -, hmatch'⟩
      have hpattern := hisolated other hother hmatch'
      rw [← Bool.not_eq_true, isDynamic_pattern, hpattern, ← isDynamic_pattern] at hplain
      exact hplain hkind
    have hfound : ((after calls).find route.method path).isSome := by
      rw [Option.isSome_iff_ne_none, Ne, find_eq_none_iff calls _ _ hlead hguard]
      intro hbehind
      obtain ⟨-, other, hother, -, hmatch', hprecedes⟩ := hbehind route hroute rfl hmatch
      rw [hisolated other hother hmatch', precedes_irrefl] at hprecedes
      exact absurd hprecedes (by decide)
    obtain ⟨result, hresult⟩ := Option.isSome_iff_exists.mp hfound
    obtain ⟨server, hserves, hentries, -⟩ := serves_of_find hresult hstatic
    have hpattern := hisolated server hserves.mem hserves.routeMatches
    refine ⟨result, hresult, ?_, by rw [hentries, hpattern]⟩
    -- the handler is the one that the table at the pattern has for the method
    have hget : (((after calls).root.handlersAt route.pattern).getD ∅).get? route.method =
        some route.handler := (h.dynamic _ _ _).mpr ⟨route, hroute, ⟨hkind, rfl⟩, rfl, rfl⟩
    rw [find, if_neg (by simp [hguard]), hstatic] at hresult
    dsimp only at hresult
    have hwalks : Node.Tries ((after calls).root.walk (splitPath path)) ∅ fun found captures =>
        ∃ pattern, (after calls).root.Binds (splitPath path) ∅ pattern found captures :=
      Node.walk_spec h.complete (fresh_after calls)
    have hfinds := hwalks.finds false
    obtain ⟨node, captures, hwalk⟩ : ∃ node captures,
        (after calls).root.walk (splitPath path) ⟨∅, false⟩ = (node, captures) := ⟨_, _, rfl⟩
    rw [hwalk] at hresult hfinds
    cases node with
    | none => simp at hresult
    | some found =>
      obtain ⟨pattern, ⟨hreach, -⟩, -, -⟩ := hfinds found rfl
      obtain ⟨other, hother, -, rfl⟩ := h.route_of_reaches hreach
      rw [Node.handlersAt, ← hisolated other hother hreach.routeMatches, hreach.leads,
        Option.bind_some] at hget
      dsimp only at hresult
      rw [hget] at hresult
      obtain rfl := Option.some.inj hresult
      rfl
  · have hplain : route.isDynamic = false := by simpa using hkind
    have hkey : splitPath route.path = splitPath path :=
      (route.routeMatches_static hplain _).mp hmatch
    have hget : (((after calls).staticEntry path).bind fun entry => entry.get? route.method) =
        some route.handler := by
      rw [htable]
      exact (h.static _ _ _).mpr ⟨route, hroute, ⟨hplain, by rw [hkey]⟩, rfl, rfl⟩
    refine ⟨⟨route.handler, ∅, false⟩, ?_, rfl, ?_⟩
    · rw [find, if_neg (by simp [hguard]), hget]
    · have hnames : captureNames route.pattern = [] := by
        by_contra hnames
        exact hkind ((isDynamic_pattern route).mpr hnames)
      rw [bindings_eq_nil hmatch hnames]
      rfl

end Router

end Daloy.Routing
