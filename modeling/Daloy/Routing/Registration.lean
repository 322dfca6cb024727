import Daloy.Routing.Walk

/-! # What the router holds after its calls

* `Router.add_cases`: an `add` that throws changes nothing; one that returns puts the handler into
  one table.
* `Router.Holds`: the tables of the router are those of the routes that were registered. It is kept
  by every call, so it holds after any sequence of them (`Router.holds_after`).
-/

namespace Daloy.Routing
set_option autoImplicit false

open Daloy.Unicode

variable {T : Type}

theorem scanCaptures_ok {path : JsString} {pattern : List Segment}
    {names result : Option (Finset JsString)} (h : scanCaptures path pattern names = .ok result) :
    WildcardLast pattern ∧
      result.isSome = (names.isSome || pattern.any fun segment => segment.captureName.isSome) := by
  induction pattern generalizing names with
  | nil =>
    obtain rfl : names = result := Except.ok.inj h
    simp [WildcardLast]
  | cons segment pattern ih =>
    rw [scanCaptures] at h
    split at h
    · simp at h
    · next hlast =>
      have hterminal : segment.isWildcard → pattern = [] :=
        fun hwild => not_not.mp fun hne => hlast ⟨hwild, hne⟩
      cases hname : segment.captureName with
      | none =>
        rw [hname] at h
        obtain ⟨hpattern, hresult⟩ := ih h
        exact ⟨⟨hterminal, hpattern⟩, by simp [hresult, hname]⟩
      | some name =>
        rw [hname] at h
        dsimp only at h
        split at h
        · simp at h
        · obtain ⟨hpattern, hresult⟩ := ih h
          exact ⟨⟨hterminal, hpattern⟩, by simp [hresult, hname]⟩

namespace Router

/-! ## One registration -/

theorem add_cases (router : Router T) (route : Route T) :
    (∃ message, router.add route.method route.path route.handler route.operationId =
      (router, .error message)) ∨
    (route.isDynamic = false ∧ ∃ staticTable,
      router.add route.method route.path route.handler route.operationId =
        (registered { router with staticTable } route.operationId, .ok ()) ∧
      ((router.staticTable.get? (staticKey (splitPath route.path))).getD ∅).get? route.method =
        none ∧
      ∀ key, staticTable.get? key = if key = staticKey (splitPath route.path) then
        some (((router.staticTable.get? key).getD ∅).set route.method route.handler)
        else router.staticTable.get? key) ∨
    (route.isDynamic = true ∧ WildcardLast route.pattern ∧ ∃ root,
      router.root.insert route.method route.path route.handler route.pattern = (root, .ok ()) ∧
      router.add route.method route.path route.handler route.operationId =
        (registered { router with root, hasDynamicRoutes := true } route.operationId, .ok ())) := by
  rw [add]
  split
  · exact .inl ⟨_, rfl⟩
  · rw [← Route.pattern]
    cases hscan : scanCaptures route.path route.pattern none with
    | error message => exact .inl ⟨message, rfl⟩
    | ok names =>
      obtain ⟨hlast, hdynamic⟩ := scanCaptures_ok hscan
      rw [Option.isSome_none, Bool.false_or, ← Route.isDynamic] at hdynamic
      cases names with
      | none =>
        dsimp only
        cases hentry : router.staticTable.get? (staticKey (splitPath route.path)) with
        | none =>
          -- a table that is new has no method
          right; left
          refine ⟨hdynamic.symm, _, rfl, rfl, ?_⟩
          intro key
          rw [JsMap.get?_set, JsMap.get?_set]
          by_cases hkey : key = staticKey (splitPath route.path)
          · rw [if_pos hkey, if_pos hkey, hkey, hentry, Option.getD_none]
          · rw [if_neg hkey, if_neg hkey, if_neg hkey]
        | some entry =>
          dsimp only
          split
          · exact .inl ⟨_, rfl⟩
          · next hnew =>
            right; left
            refine ⟨hdynamic.symm, _, rfl, by simpa using hnew, ?_⟩
            intro key
            rw [JsMap.get?_set]
            by_cases hkey : key = staticKey (splitPath route.path)
            · rw [if_pos hkey, if_pos hkey, hkey, hentry, Option.getD_some]
            · rw [if_neg hkey, if_neg hkey]
      | some names =>
        dsimp only
        rcases hinsert : router.root.insert route.method route.path route.handler route.pattern with
          ⟨root, message | ⟨⟩⟩
        · left
          refine ⟨message, ?_⟩
          rw [Node.insert_error hlast hinsert]
        · exact .inr (.inr ⟨hdynamic.symm, hlast, root, rfl, rfl⟩)

theorem add_error {router router' : Router T} {route : Route T} {message : JsString}
    (h : router.add route.method route.path route.handler route.operationId =
      (router', .error message)) : router' = router := by
  rcases add_cases router route with ⟨_, heq⟩ | ⟨_, _, heq, _⟩ | ⟨_, _, _, _, heq⟩ <;>
    rw [heq] at h
  · exact (Prod.mk.inj h).1.symm
  · simp at h
  · simp at h

end Router

/-! ## Tables of routes -/

def Route.InTrie (route : Route T) (pattern : List Segment) : Prop :=
  route.isDynamic = true ∧ route.pattern = pattern

def Route.InStaticTable (route : Route T) (key : JsString) : Prop :=
  route.isDynamic = false ∧ staticKey (splitPath route.path) = key

/-- A family of handler tables holds the handlers of the routes that belong to it. -/
def Tabulates {κ : Type} (tables : κ → Handlers T) (belongs : Route T → κ → Prop)
    (routes : List (Route T)) : Prop :=
  ∀ key method handler, (tables key).get? method = some handler ↔
    ∃ route ∈ routes, belongs route key ∧ route.method = method ∧ route.handler = handler

section Tabulates

variable {κ : Type} {tables tables' : κ → Handlers T} {belongs : Route T → κ → Prop}
variable {routes : List (Route T)} {route : Route T}

theorem Tabulates.skip (h : Tabulates tables belongs routes) (hnot : ∀ key, ¬ belongs route key) :
    Tabulates tables belongs (routes ++ [route]) := by
  intro key method handler
  rw [h key method handler]
  constructor
  · rintro ⟨r, hr, hbelongs⟩
    exact ⟨r, List.mem_append_left _ hr, hbelongs⟩
  · rintro ⟨r, hr, hbelongs⟩
    rcases List.mem_append.mp hr with hr | hr
    · exact ⟨r, hr, hbelongs⟩
    · rw [List.mem_singleton.mp hr] at hbelongs
      exact absurd hbelongs.1 (hnot key)

theorem Tabulates.set [DecidableEq κ] (h : Tabulates tables belongs routes) {key : κ}
    (hbelongs : ∀ k, belongs route k ↔ key = k) (hnew : (tables key).get? route.method = none)
    (hset : ∀ k, tables' k =
      if k = key then (tables k).set route.method route.handler else tables k) :
    Tabulates tables' belongs (routes ++ [route]) := by
  intro k method handler
  have hlast : (∃ r ∈ routes ++ [route], belongs r k ∧ r.method = method ∧ r.handler = handler) ↔
      (tables k).get? method = some handler ∨
        key = k ∧ route.method = method ∧ route.handler = handler := by
    rw [h k method handler, ← hbelongs]
    simp only [List.mem_append, List.mem_singleton, or_and_right, exists_or, exists_eq_left]
  rw [hlast, hset]
  by_cases hk : k = key
  · subst hk
    rw [if_pos rfl, JsMap.get?_set]
    by_cases hmethod : method = route.method
    · subst hmethod
      simp [hnew]
    · have hne : route.method ≠ method := fun heq => hmethod heq.symm
      simp [hmethod, hne]
  · have hne : key ≠ k := fun heq => hk heq.symm
    simp [hk, hne]

end Tabulates

namespace Router

/-! ## Any sequence of calls -/

/-- The tables of the router are those of the routes. -/
structure Holds (router : Router T) (routes : List (Route T)) : Prop where
  complete : router.root.Complete
  dynamic : Tabulates (fun pattern => (router.root.handlersAt pattern).getD ∅) Route.InTrie routes
  completed : ∀ pattern, (router.root.handlersAt pattern).isSome →
    ∃ route ∈ routes, route.InTrie pattern
  static : Tabulates (fun key => (router.staticTable.get? key).getD ∅) Route.InStaticTable routes
  keys : ∀ key, (router.staticTable.get? key).isSome → ∃ path, key = staticKey (splitPath path)
  noDynamic : router.hasDynamicRoutes = false → router.root = createNode

theorem holds_new : Holds (new : Router T) [] where
  complete := Node.complete_createNode
  dynamic := by
    intro pattern method handler
    simp [new, Node.handlersAt_createNode]
  completed := by
    intro pattern
    simp [new, Node.handlersAt_createNode]
  static := by
    intro key method handler
    simp [new]
  keys := by
    intro key
    simp [new]
  noDynamic := fun _ => rfl

theorem holds_add {router router' : Router T} {routes : List (Route T)} (h : Holds router routes)
    (route : Route T)
    (hadd : router.add route.method route.path route.handler route.operationId =
      (router', .ok ())) : Holds router' (routes ++ [route]) := by
  rcases add_cases router route with ⟨message, heq⟩ | ⟨hstatic, staticTable, heq, hnew, htable⟩ |
    ⟨hdynamic, hlast, root, hinsert, heq⟩
  · rw [heq] at hadd
    simp at hadd
  · rw [heq] at hadd
    obtain rfl := (Prod.mk.inj hadd).1
    refine ⟨h.complete, h.dynamic.skip ?_, ?_, h.static.set ?_ hnew ?_, ?_, h.noDynamic⟩
    · intro pattern hin
      rw [hin.1] at hstatic
      exact absurd hstatic (by decide)
    · intro pattern hsome
      obtain ⟨r, hr, hin⟩ := h.completed pattern hsome
      exact ⟨r, List.mem_append_left _ hr, hin⟩
    · intro key
      exact and_iff_right hstatic
    · intro key
      show (staticTable.get? key).getD ∅ = _
      rw [htable]
      split <;> rfl
    · intro key hsome
      by_cases hkey : key = staticKey (splitPath route.path)
      · exact ⟨route.path, hkey⟩
      · apply h.keys key
        have := htable key
        rw [if_neg hkey] at this
        rw [← this]
        exact hsome
  · rw [heq] at hadd
    obtain rfl := (Prod.mk.inj hadd).1
    obtain ⟨hnew, htables⟩ := Node.handlersAt_insert hlast hinsert
    refine ⟨Node.complete_insert hlast h.complete hinsert, h.dynamic.set ?_ hnew ?_, ?_,
      h.static.skip ?_, h.keys, ?_⟩
    · intro pattern
      exact and_iff_right hdynamic
    · intro pattern
      show (root.handlersAt pattern).getD ∅ = _
      rw [htables]
      by_cases hpattern : pattern = route.pattern
      · rw [if_pos hpattern, if_pos hpattern, hpattern, Option.getD_some]
      · rw [if_neg hpattern, if_neg hpattern]
    · intro pattern hsome
      by_cases hpattern : pattern = route.pattern
      · exact ⟨route, by simp, hdynamic, hpattern.symm⟩
      · have htable := htables pattern
        rw [if_neg hpattern] at htable
        obtain ⟨r, hr, hin⟩ := h.completed pattern (by rw [← htable]; exact hsome)
        exact ⟨r, List.mem_append_left _ hr, hin⟩
    · intro key hin
      rw [hin.1] at hdynamic
      exact absurd hdynamic (by decide)
    · intro hfalse
      exact absurd hfalse (by simp [registered])

theorem allowedMethods_fst (router : Router T) (path : JsString) :
    ∃ staticMethods, (router.allowedMethods path).1 = { router with staticMethods } := by
  unfold allowedMethods
  dsimp only
  split
  · exact ⟨_, rfl⟩
  split
  · exact ⟨_, rfl⟩
  split
  · exact ⟨_, rfl⟩
  · exact ⟨_, rfl⟩

theorem holds_answer {router : Router T} {routes : List (Route T)} (h : Holds router routes)
    (call : Call T) :
    Holds (router.answer call).1 (routes ++ (success (call, (router.answer call).2)).toList) := by
  cases call with
  | add route =>
    rcases hadd : router.add route.method route.path route.handler route.operationId with
      ⟨router', message | ⟨⟩⟩
    · obtain rfl := add_error hadd
      simpa [answer, hadd, success] using h
    · simpa [answer, hadd, success] using holds_add h route hadd
  | find method path => simpa [answer, success] using h
  | allowedMethods path =>
    obtain ⟨staticMethods, heq⟩ := allowedMethods_fst router path
    have hkept : Holds (router.allowedMethods path).1 routes := by
      rw [heq]
      exact ⟨h.complete, h.dynamic, h.completed, h.static, h.keys, h.noDynamic⟩
    simpa [answer, success] using hkept

theorem holds_after (calls : List (Call T)) : Holds (after calls) (registrations calls) := by
  have hstep : ∀ (router : Router T) (call : Call T) (history : List (Call T × Answer T)),
      Holds router (history.filterMap success) →
      Holds (router.answer call).1
        ((history ++ [(call, (router.answer call).2)]).filterMap success) := by
    intro router call history h
    have hnext := holds_answer h call
    rw [List.filterMap_append, List.filterMap_cons, List.filterMap_nil]
    cases hsuccess : success (call, (router.answer call).2) with
    | none => simpa [hsuccess] using hnext
    | some route => simpa [hsuccess] using hnext
  have hnew : Holds (new : Router T) (List.filterMap success []) := holds_new
  exact Runs.feed_history_invariant hstep hnew calls

/-! ## A registration that throws -/

theorem answer_failed {router : Router T} {route : Route T} {message : JsString}
    (h : (router.answer (.add route)).2 = .added (.error message)) :
    (router.answer (.add route)).1 = router := by
  rw [answer] at h ⊢
  rcases hadd : router.add route.method route.path route.handler route.operationId with
    ⟨router', result⟩
  rw [hadd] at h
  have hresult : result = .error message := by simpa using h
  subst hresult
  exact add_error hadd

/-- **`add` is atomic.** After any calls, when an `add` throws, every later call answers as it does
without the one that threw. -/
theorem failed_add_traceless (before later : List (Call T)) (route : Route T) (message : JsString)
    (h : ((after before).answer (.add route)).2 = .added (.error message)) :
    (Runs.feed answer (after (before ++ [.add route])) later).2 =
      (Runs.feed answer (after before) later).2 := by
  have hafter : after (before ++ [.add route]) = ((after before).answer (.add route)).1 := by
    rw [after, Runs.feed_append]
    rfl
  rw [hafter, answer_failed h]

/-- The parameter at the third segment has another name, when `/a/b` has been walked. -/
def conflictingAdd : Route ℕ := ⟨.post, js "/a/:key/:y", 2, some (js "op")⟩

theorem failed_add_traceless_example :
    (Runs.feed answer (after ([.add ⟨.get, js "/a/:key/:x", 1, none⟩] ++ [.add conflictingAdd]))
        [.add ⟨.post, js "/a/:key/:x", 3, some (js "op")⟩, .find .post (js "/a/1/2")]).2 =
      (Runs.feed answer (after [.add ⟨.get, js "/a/:key/:x", 1, none⟩])
        [.add ⟨.post, js "/a/:key/:x", 3, some (js "op")⟩, .find .post (js "/a/1/2")]).2 :=
  failed_add_traceless _ _ conflictingAdd
    (Node.conflictingNames (js "param") (js "x") (js "y")) (by rfl)

end Router

end Daloy.Routing
