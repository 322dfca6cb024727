import Daloy.Routing.Registration

/-! # What `find` finds

The walk does not look at the method: it stops at the first pattern that matches the path, in the
order of `precedes`, and a method that has no handler there is not found.

* `Router.find_eq_none_iff`: a lookup fails exactly when every registered route with its method that
  matches the path is a dynamic route behind another that matches too.
* `Router.shadowed_route`: such a route behind another, which has only other methods.
-/

namespace Daloy.Routing
set_option autoImplicit false

open Daloy.Unicode

variable {T : Type}

theorem routeMatches_literal {texts : List JsString}
    (h : (texts.map Segment.ofText).any (fun segment => segment.captureName.isSome) = false)
    (segments : List JsString) :
    routeMatches (texts.map Segment.ofText) segments = true ↔ texts = segments := by
  induction texts generalizing segments with
  | nil => cases segments <;> simp [routeMatches]
  | cons text texts ih =>
    rw [List.map_cons, List.any_cons, Bool.or_eq_false_iff] at h
    have htext : Segment.ofText text = .literal text := by
      have hname := h.1
      unfold Segment.ofText at hname ⊢
      split at hname
      · simp [Segment.captureName] at hname
      split at hname
      · simp [Segment.captureName] at hname
      · next hstar hcolon => rw [if_neg hstar, if_neg hcolon]
    rw [List.map_cons, htext]
    cases segments with
    | nil => simp [routeMatches]
    | cons segment segments =>
      simp only [routeMatches, Bool.and_eq_true, decide_eq_true_eq, List.cons.injEq, ih h.2]

theorem Route.routeMatches_static {route : Route T} (h : route.isDynamic = false)
    (segments : List JsString) :
    routeMatches route.pattern segments = true ↔ splitPath route.path = segments :=
  routeMatches_literal h segments

namespace Router

/-! ## The static table -/

theorem Holds.staticEntry_eq {router : Router T} {routes : List (Route T)}
    (h : Holds router routes) {path : JsString} (hne : path ≠ []) :
    router.staticEntry path = router.staticTable.get? (trimTrailingSlashes path) := by
  rw [staticEntry]
  rcases trimmed_or_snoc hne with htrim | ⟨front, hfront, rfl⟩
  · rw [htrim.trim_eq]
    cases router.staticTable.get? path <;> simp
  · -- no key ends in a slash that trimming removes
    have hkey : router.staticTable.get? (front ++ [slash]) = none := by
      rw [← Option.not_isSome_iff_eq_none]
      intro hsome
      obtain ⟨path', heq⟩ := h.keys _ hsome
      obtain ⟨-, hone | hlast⟩ := trimmed_staticKey path'
      · rw [← heq] at hone
        have := congrArg List.length hone
        simp at this
        exact hfront this
      · rw [← heq] at hlast
        simp at hlast
    rw [hkey, if_pos (by simp)]

theorem Holds.staticEntry_nil {router : Router T} {routes : List (Route T)}
    (h : Holds router routes) : router.staticEntry [] = none := by
  have hkey : router.staticTable.get? [] = none := by
    rw [← Option.not_isSome_iff_eq_none]
    intro hsome
    obtain ⟨path', heq⟩ := h.keys _ hsome
    simp [staticKey] at heq
  rw [staticEntry, hkey]
  rfl

theorem Holds.static_iff {router : Router T} {routes : List (Route T)} (h : Holds router routes)
    {path : JsString} (hlead : path.head? = some slash) (method : HttpMethod) :
    ((router.staticEntry path).bind fun entry => entry.get? method).isSome ↔
      ∃ route ∈ routes, route.isDynamic = false ∧ route.method = method ∧
        routeMatches route.pattern (splitPath path) = true := by
  have hne : path ≠ [] := by
    rintro rfl
    simp at hlead
  have htable : ((router.staticEntry path).bind fun entry => entry.get? method) =
      ((router.staticTable.get? (staticKey (splitPath path))).getD ∅).get? method := by
    rw [h.staticEntry_eq hne, staticKey_splitPath hlead]
    cases router.staticTable.get? (trimTrailingSlashes path) <;> rfl
  rw [htable, Option.isSome_iff_exists]
  constructor
  · rintro ⟨handler, hget⟩
    obtain ⟨route, hroute, ⟨hstatic, hkey⟩, hmethod, -⟩ := (h.static _ _ _).mp hget
    exact ⟨route, hroute, hstatic, hmethod,
      (route.routeMatches_static hstatic _).mpr (staticKey_injective hkey)⟩
  · rintro ⟨route, hroute, hstatic, hmethod, hmatch⟩
    refine ⟨route.handler, (h.static _ _ _).mpr ⟨route, hroute, ⟨hstatic, ?_⟩, hmethod, rfl⟩⟩
    rw [(route.routeMatches_static hstatic _).mp hmatch]

/-! ## The trie -/

theorem Holds.reaches {router : Router T} {routes : List (Route T)} (h : Holds router routes)
    {route : Route T} (hroute : route ∈ routes) (hdynamic : route.isDynamic = true)
    {segments : List JsString} (hmatch : routeMatches route.pattern segments = true) :
    ∃ found, router.root.Reaches segments route.pattern found ∧
      ((found.handlers.getD ∅).get? route.method).isSome := by
  have hget : ((router.root.handlersAt route.pattern).getD ∅).get? route.method =
      some route.handler := (h.dynamic _ _ _).mpr ⟨route, hroute, ⟨hdynamic, rfl⟩, rfl, rfl⟩
  obtain ⟨found, hfound, handlers, hhandlers⟩ : ∃ found, router.root.at? route.pattern = some found ∧
      ∃ handlers, found.handlers = some handlers := by
    cases hat : router.root.at? route.pattern with
    | none => simp [Node.handlersAt, hat] at hget
    | some found =>
      cases hhandlers : found.handlers with
      | none => simp [Node.handlersAt, hat, hhandlers] at hget
      | some handlers => exact ⟨found, rfl, handlers, hhandlers⟩
  rw [Node.handlersAt, hfound, Option.bind_some] at hget
  exact ⟨found, ⟨hfound, by rw [hhandlers]; rfl, hmatch⟩, by rw [hget]; rfl⟩

theorem Holds.route_of_reaches {router : Router T} {routes : List (Route T)}
    (h : Holds router routes) {segments : List JsString} {pattern : List Segment} {found : Node T}
    (hreach : router.root.Reaches segments pattern found) :
    ∃ route ∈ routes, route.InTrie pattern := by
  apply h.completed
  rw [Node.handlersAt, hreach.leads]
  exact hreach.completed

theorem Holds.dynamic_iff {router : Router T} {routes : List (Route T)} (h : Holds router routes)
    (segments : List JsString) (method : HttpMethod) :
    (∃ found, router.root.stop segments = some found ∧
        ((found.handlers.getD ∅).get? method).isSome) ↔
      ∃ route ∈ routes, route.isDynamic = true ∧ route.method = method ∧
        routeMatches route.pattern segments = true ∧
        ∀ other ∈ routes, other.isDynamic = true → routeMatches other.pattern segments = true →
          precedes other.pattern route.pattern = false := by
  constructor
  · rintro ⟨found, hstop, hsome⟩
    obtain ⟨pattern, hreach, hfirst⟩ := Node.first_of_stop h.complete hstop
    obtain ⟨handler, hget⟩ := Option.isSome_iff_exists.mp hsome
    have htable : ((router.root.handlersAt pattern).getD ∅).get? method = some handler := by
      rw [Node.handlersAt, hreach.leads]
      exact hget
    obtain ⟨route, hroute, ⟨hdynamic, rfl⟩, hmethod, -⟩ := (h.dynamic _ _ _).mp htable
    refine ⟨route, hroute, hdynamic, hmethod, hreach.routeMatches, ?_⟩
    intro other hother hdynamic' hmatch'
    obtain ⟨found', hreach', -⟩ := h.reaches hother hdynamic' hmatch'
    exact hfirst _ _ hreach'
  · rintro ⟨route, hroute, hdynamic, rfl, hmatch, hfirst⟩
    obtain ⟨found, hreach, hsome⟩ := h.reaches hroute hdynamic hmatch
    obtain ⟨found', hstop⟩ := Option.isSome_iff_exists.mp (Node.isSome_stop_of_reaches hreach)
    obtain ⟨pattern, hreach', hfirst'⟩ := Node.first_of_stop h.complete hstop
    -- the walk stopped at the route's own pattern
    have hpattern : route.pattern = pattern := by
      rcases Node.reaches_trichotomy hreach hreach' with heq | hbefore | hafter
      · exact heq
      · rw [hfirst' _ _ hreach] at hbefore
        exact absurd hbefore (by decide)
      · obtain ⟨other, hother, hdynamic', rfl⟩ := h.route_of_reaches hreach'
        rw [hfirst other hother hdynamic' hreach'.routeMatches] at hafter
        exact absurd hafter (by decide)
    subst hpattern
    obtain rfl : found = found' := Option.some.inj (hreach.leads.symm.trans hreach'.leads)
    exact ⟨found, hstop, hsome⟩

/-! ## The lookup -/

theorem isSome_find {router : Router T} {path : JsString} (hguard : isTraversal path = false)
    (method : HttpMethod) :
    (router.find method path).isSome ↔
      ((router.staticEntry path).bind fun entry => entry.get? method).isSome ∨
        ∃ found, router.root.stop (splitPath path) = some found ∧
          ((found.handlers.getD ∅).get? method).isSome := by
  rw [find, if_neg (by simp [hguard]), ← Node.walk_fst _ _ ⟨∅, false⟩]
  cases (router.staticEntry path).bind fun entry => entry.get? method with
  | some handler => simp
  | none =>
    rcases router.root.walk (splitPath path) ⟨∅, false⟩ with ⟨found, captures⟩
    cases found with
    | none => simp
    | some found =>
      cases hget : (found.handlers.getD ∅).get? method <;> simp [hget]

/-- **`find`, for every route table.** A lookup of a path that starts with a slash and passes the
guard answers nothing exactly when every registered route with the method that matches the path is a
dynamic route behind a dynamic route that matches too, of whatever method. -/
theorem find_eq_none_iff (calls : List (Call T)) (method : HttpMethod) (path : JsString)
    (hlead : path.head? = some slash) (hguard : isTraversal path = false) :
    (after calls).find method path = none ↔
      ∀ route ∈ registrations calls, route.method = method →
        routeMatches route.pattern (splitPath path) = true →
        route.isDynamic = true ∧ ∃ other ∈ registrations calls, other.isDynamic = true ∧
          routeMatches other.pattern (splitPath path) = true ∧
          precedes other.pattern route.pattern = true := by
  have h := holds_after calls
  rw [← Option.not_isSome_iff_eq_none, isSome_find hguard, h.static_iff hlead, h.dynamic_iff]
  constructor
  · intro hnone route hroute hmethod hmatch
    obtain ⟨hstatic, hdynamic⟩ := not_or.mp hnone
    have hkind : route.isDynamic = true := by
      by_contra hkind
      exact hstatic ⟨route, hroute, by simpa using hkind, hmethod, hmatch⟩
    refine ⟨hkind, ?_⟩
    by_contra hfirst
    apply hdynamic
    refine ⟨route, hroute, hkind, hmethod, hmatch, ?_⟩
    intro other hother hkind' hmatch'
    by_contra hprecedes
    exact hfirst ⟨other, hother, hkind', hmatch', by simpa using hprecedes⟩
  · rintro hbehind (⟨route, hroute, hstatic, hmethod, hmatch⟩ |
      ⟨route, hroute, -, hmethod, hmatch, hfirst⟩)
    · have hkind := (hbehind route hroute hmethod hmatch).1
      rw [hstatic] at hkind
      exact absurd hkind (by decide)
    · obtain ⟨-, other, hother, hkind', hmatch', hprecedes⟩ := hbehind route hroute hmethod hmatch
      rw [hfirst other hother hkind' hmatch'] at hprecedes
      exact absurd hprecedes (by decide)

/-- Two dynamic routes that both match `/users/me/details`. -/
def overlappingRoutes : List (Call ℕ) :=
  [.add ⟨.get, js "/users/:id/details", 1, none⟩, .add ⟨.post, js "/users/*rest", 2, none⟩]

/-- `POST /users/me/avatar` is found: only the wildcard matches it. -/
theorem find_ne_none_avatar :
    (after overlappingRoutes).find .post (js "/users/me/avatar") ≠ none := by
  rw [Ne, find_eq_none_iff overlappingRoutes .post (js "/users/me/avatar") (by decide +kernel)
    (by decide +kernel)]
  decide +kernel

/-- `POST /users/me/details` is not, although the wildcard route has the method and matches: the
walk stops at the parameter, where there is only `GET`. -/
theorem shadowed_route :
    ∃ route ∈ registrations overlappingRoutes, route.method = .post ∧
      routeMatches route.pattern (splitPath (js "/users/me/details")) = true ∧
      (js "/users/me/details").head? = some slash ∧
      isTraversal (js "/users/me/details") = false ∧
      (after overlappingRoutes).find .post (js "/users/me/details") = none := by
  refine ⟨⟨.post, js "/users/*rest", 2, none⟩, ?_⟩
  decide +kernel

end Router

end Daloy.Routing
