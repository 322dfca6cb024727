import Daloy.Routing.Matching

/-! # `find` and `allowedMethods` agree

* `Router.methodsAt`: the methods at a path, worked out anew. It is the same with and without
  trailing slashes.
* `Router.Fresh`: an entry of the cache that has the router's revision is what would be worked out
  now. Every call keeps it.
-/

namespace Daloy.Routing
set_option autoImplicit false

open Daloy.Unicode

variable {T : Type}

namespace Router

def dynamicMethods (router : Router T) (path : JsString) : List HttpMethod :=
  ((router.root.stop (splitPath path)).map fun node => objectKeys (node.handlers.getD ∅)).getD []

/-- The methods at a path, without the cache and the shortcut for routers with no dynamic route. -/
def methodsAt (router : Router T) (path : JsString) : List HttpMethod :=
  match router.staticEntry path with
  | none => router.dynamicMethods path
  | some entry =>
    objectKeys entry ++ (router.dynamicMethods path).filter fun m => (entry.get? m).isNone

theorem mem_objectKeys {handlers : Handlers T} {method : HttpMethod} :
    method ∈ objectKeys handlers ↔ (handlers.get? method).isSome := by
  rw [← Option.ne_none_iff_isSome, Ne, JsMap.get?_eq_none, objectKeys, not_not]

theorem mem_dynamicMethods {router : Router T} {path : JsString} {method : HttpMethod} :
    method ∈ router.dynamicMethods path ↔
      ∃ found, router.root.stop (splitPath path) = some found ∧
        ((found.handlers.getD ∅).get? method).isSome := by
  rw [dynamicMethods]
  cases router.root.stop (splitPath path) with
  | none => simp
  | some found => simp [mem_objectKeys]

theorem mem_methodsAt {router : Router T} {path : JsString} {method : HttpMethod} :
    method ∈ router.methodsAt path ↔
      ((router.staticEntry path).bind fun entry => entry.get? method).isSome ∨
        method ∈ router.dynamicMethods path := by
  rw [methodsAt]
  cases router.staticEntry path with
  | none => simp
  | some entry =>
    rw [List.mem_append, mem_objectKeys, List.mem_filter, Option.bind_some]
    cases entry.get? method <;> simp

theorem nodup_methodsAt (router : Router T) (path : JsString) : (router.methodsAt path).Nodup := by
  have hdynamic : (router.dynamicMethods path).Nodup := by
    rw [dynamicMethods]
    cases router.root.stop (splitPath path) with
    | none => exact List.nodup_nil
    | some found => exact (found.handlers.getD ∅).nodup
  rw [methodsAt]
  cases router.staticEntry path with
  | none => exact hdynamic
  | some entry =>
    apply List.Nodup.append entry.nodup (hdynamic.filter _)
    intro method hkey hmem
    have hnone := (List.mem_filter.mp hmem).2
    have hsome : (entry.get? method).isSome := mem_objectKeys.mp hkey
    rw [Option.isNone_iff_eq_none.mp hnone] at hsome
    simp at hsome

theorem Holds.methodsAt_trim {router : Router T} {routes : List (Route T)}
    (h : Holds router routes) {path : JsString} (hne : path ≠ []) :
    router.methodsAt (trimTrailingSlashes path) = router.methodsAt path := by
  rw [methodsAt, methodsAt, h.staticEntry_eq hne, h.staticEntry_eq (trimmed_trim path).1, trim_trim,
    dynamicMethods, dynamicMethods, splitPath_trim]

/-! ## The cache -/

/-- What the cache holds under the router's revision is what would be worked out now. -/
structure Fresh (router : Router T) : Prop where
  revision : ∀ key cached, router.staticMethods.get? key = some cached →
    cached.revision ≤ router.revision
  methods : ∀ key cached, router.staticMethods.get? key = some cached →
    cached.revision = router.revision →
    isTraversal key = false ∧ cached.methods = router.methodsAt key

theorem Holds.found_eq {router : Router T} {routes : List (Route T)} (h : Holds router routes)
    (path : JsString) :
    (if router.hasDynamicRoutes then (router.root.walk (splitPath path) ⟨∅, false⟩).1 else none) =
      router.root.stop (splitPath path) := by
  split
  · exact Node.walk_fst _ _ _
  · next hnone =>
    rw [h.noDynamic (by simpa using hnone)]
    cases splitPath path with
    | nil => rfl
    | cons segment segments => simp [Node.stop, Node.child?, createNode]

/-- What `allowedMethods` answers, and the one entry of the cache it may write. -/
theorem Holds.allowedMethods_eq {router : Router T} {routes : List (Route T)}
    (h : Holds router routes) (hfresh : Fresh router) (path : JsString) :
    (router.allowedMethods path).2 =
        (if isTraversal path then [] else router.methodsAt path) ∧
      ((router.allowedMethods path).1 = router ∨
        isTraversal path = false ∧ path ≠ [] ∧
          (router.allowedMethods path).1 = { router with
            staticMethods := router.staticMethods.set (trimTrailingSlashes path)
              ⟨router.revision, router.methodsAt path⟩ }) := by
  rw [allowedMethods, h.found_eq]
  dsimp only
  cases hcached : (router.staticMethods.get? path).filter
      fun c => decide (c.revision = router.revision) with
  | some cached =>
    obtain ⟨hget, hrevision⟩ := Option.filter_eq_some_iff.mp hcached
    obtain ⟨hguard, hmethods⟩ := hfresh.methods path cached hget (by simpa using hrevision)
    refine ⟨?_, .inl rfl⟩
    rw [hguard]
    exact hmethods
  | none =>
    cases hguard : isTraversal path with
    | true => exact ⟨rfl, .inl rfl⟩
    | false =>
      cases hentry : router.staticEntry path with
      | none =>
        refine ⟨?_, .inl rfl⟩
        rw [methodsAt, hentry]
        rfl
      | some entry =>
        have hne : path ≠ [] := by
          rintro rfl
          rw [h.staticEntry_nil] at hentry
          simp at hentry
        have hmethods : router.methodsAt path =
            objectKeys entry ++ (router.dynamicMethods path).filter fun m => (entry.get? m).isNone := by
          rw [methodsAt, hentry]
        refine ⟨?_, .inr ⟨rfl, hne, ?_⟩⟩
        · rw [hmethods]
          rfl
        · rw [hmethods]
          rfl

theorem fresh_new : Fresh (new : Router T) where
  revision := by
    intro key cached hget
    simp [new] at hget
  methods := by
    intro key cached hget
    simp [new] at hget

theorem Fresh.add {router router' : Router T} (hfresh : Fresh router) (route : Route T)
    {result : Except JsString Unit}
    (hadd : router.add route.method route.path route.handler route.operationId =
      (router', result)) : Fresh router' := by
  have hlater : ∀ (newer : Router T), newer.staticMethods = router.staticMethods →
      newer.revision = router.revision + 1 → Fresh newer := by
    intro newer hcache hrevision
    refine ⟨?_, ?_⟩
    · intro key cached hget
      rw [hcache] at hget
      have := hfresh.revision key cached hget
      omega
    · intro key cached hget heq
      rw [hcache] at hget
      have := hfresh.revision key cached hget
      omega
  rcases add_cases router route with ⟨message, heq⟩ | ⟨-, staticTable, heq, -⟩ |
      ⟨-, -, root, -, heq⟩ <;> rw [heq] at hadd <;> rw [← (Prod.mk.inj hadd).1]
  · exact hfresh
  · exact hlater _ rfl rfl
  · exact hlater _ rfl rfl

theorem Fresh.allowedMethods {router : Router T} {routes : List (Route T)}
    (h : Holds router routes) (hfresh : Fresh router) (path : JsString) :
    Fresh (router.allowedMethods path).1 := by
  rcases (h.allowedMethods_eq hfresh path).2 with heq | ⟨hguard, hne, heq⟩
  · rw [heq]
    exact hfresh
  · rw [heq]
    refine ⟨?_, ?_⟩
    · intro key cached hget
      rw [JsMap.get?_set] at hget
      split at hget
      · rw [← Option.some.inj hget]
      · exact hfresh.revision key cached hget
    · intro key cached hget hrevision
      rw [JsMap.get?_set] at hget
      split at hget
      · next hkey =>
        rw [hkey, ← Option.some.inj hget]
        exact ⟨isTraversal_trim hne hguard, (h.methodsAt_trim hne).symm⟩
      · exact hfresh.methods key cached hget hrevision

theorem holds_and_fresh_after (calls : List (Call T)) :
    ∃ routes, Holds (after calls) routes ∧ Fresh (after calls) := by
  have hstep : ∀ (router : Router T) (call : Call T), (∃ routes, Holds router routes ∧ Fresh router) →
      ∃ routes, Holds (router.answer call).1 routes ∧ Fresh (router.answer call).1 := by
    rintro router call ⟨routes, h, hfresh⟩
    refine ⟨_, holds_answer h call, ?_⟩
    cases call with
    | add route => exact hfresh.add route rfl
    | find method path => exact hfresh
    | allowedMethods path => exact hfresh.allowedMethods h path
  exact Runs.feed_invariant hstep ⟨[], holds_new, fresh_new⟩ calls

/-- **The two lookups agree.** After any calls of the three methods, whether they threw or not, a
lookup finds a method at a path exactly when the method is among the path's allowed methods, and
those are distinct. -/
theorem find_iff_mem_allowedMethods (calls : List (Call T)) (path : JsString) :
    (∀ method, ((after calls).find method path).isSome ↔
      method ∈ ((after calls).allowedMethods path).2) ∧
    ((after calls).allowedMethods path).2.Nodup := by
  obtain ⟨routes, h, hfresh⟩ := holds_and_fresh_after calls
  rw [(h.allowedMethods_eq hfresh path).1]
  cases hguard : isTraversal path with
  | true =>
    refine ⟨?_, List.nodup_nil⟩
    intro method
    rw [find, hguard]
    simp
  | false =>
    refine ⟨?_, nodup_methodsAt _ path⟩
    intro method
    rw [isSome_find hguard, ← mem_dynamicMethods, ← mem_methodsAt]
    rfl

end Router

end Daloy.Routing
