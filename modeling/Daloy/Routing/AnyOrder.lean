import Daloy.Routing.Captures

/-! # The order of registration

Two routers that were given the same routes, in different orders and among different other calls.

* `walk_any_order`: where the walk of one ends, the walk of the other ends.
* `find_any_order`: they answer alike.
-/

namespace Daloy.Routing
set_option autoImplicit false

open Daloy.Unicode

variable {T : Type}

theorem Tabulates.get?_eq {κ : Type} {tables tables' : κ → Handlers T}
    {belongs : Route T → κ → Prop} {routes routes' : List (Route T)}
    (h : Tabulates tables belongs routes) (h' : Tabulates tables' belongs routes')
    (hsame : ∀ route, route ∈ routes ↔ route ∈ routes') (key : κ) (method : HttpMethod) :
    (tables key).get? method = (tables' key).get? method := by
  apply Option.ext
  intro handler
  simp only [h key method handler, h' key method handler, hsame]

namespace Router

variable {calls calls' : List (Call T)}

/-- Where the walk of the first router ends at a pattern, the walk of the second ends at it too. -/
theorem walk_any_order
    (hsame : ∀ route, route ∈ registrations calls ↔ route ∈ registrations calls')
    {segments : List JsString} {found : Node T} {captures : Node.Captures}
    (hwalk : (after calls).root.walk segments ⟨∅, false⟩ = (some found, captures)) :
    ∃ found' captures', (after calls').root.walk segments ⟨∅, false⟩ = (some found', captures') ∧
      captures'.params.entries = captures.params.entries ∧
      ∀ method, (found'.handlers.getD ∅).get? method = (found.handlers.getD ∅).get? method := by
  have h := holds_after calls
  have h' := holds_after calls'
  have hends (calls : List (Call T)) {found : Node T} {captures : Node.Captures}
      (hwalk : (after calls).root.walk segments ⟨∅, false⟩ = (some found, captures)) :
      ∃ pattern, (after calls).root.Binds segments ∅ pattern found captures := by
    have htries : Node.Tries ((after calls).root.walk segments) ∅ fun found captures =>
        ∃ pattern, (after calls).root.Binds segments ∅ pattern found captures :=
      Node.walk_spec (holds_after calls).complete (fresh_after calls)
    have hfinds := htries.finds false
    rw [hwalk] at hfinds
    exact hfinds found rfl
  obtain ⟨pattern, hbinds⟩ := hends calls hwalk
  -- a route at the pattern is in the other trie as well, so that the walk there ends
  obtain ⟨route, hroute, hkind, rfl⟩ := h.route_of_reaches hbinds.first.reaches
  obtain ⟨node, hreach, -⟩ :=
    h'.reaches ((hsame route).mp hroute) hkind hbinds.first.reaches.routeMatches
  have hstop := Node.isSome_stop_of_reaches hreach
  rw [← Node.walk_fst _ _ ⟨∅, false⟩] at hstop
  obtain ⟨found', hfound'⟩ := Option.isSome_iff_exists.mp hstop
  have hwalk' := Prod.mk.eta.symm.trans (congrArg (·, _) hfound')
  obtain ⟨pattern', hbinds'⟩ := hends calls' hwalk'
  obtain ⟨route', hroute', hkind', rfl⟩ := h'.route_of_reaches hbinds'.first.reaches
  obtain ⟨node', hreach', -⟩ :=
    h.reaches ((hsame route').mpr hroute') hkind' hbinds'.first.reaches.routeMatches
  have hpattern : route'.pattern = route.pattern := by
    rcases Node.reaches_trichotomy hreach' hbinds.first.reaches with heq | hbefore | hafter
    · exact heq
    · exact absurd hbefore (by rw [hbinds.first.first _ _ hreach']; decide)
    · exact absurd hafter (by rw [hbinds'.first.first _ _ hreach]; decide)
  rw [hpattern] at hbinds'
  refine ⟨found', _, hwalk', ?_, ?_⟩
  · exact hbinds'.entries.trans hbinds.entries.symm
  · intro method
    have htables := h'.dynamic.get?_eq h.dynamic (fun route => (hsame route).symm)
      route.pattern method
    simpa only [Node.handlersAt, hbinds.first.reaches.leads, hbinds'.first.reaches.leads,
      Option.bind_some] using htables

/-- **The order of registration does not matter.** Two routers that hold the same routes, whatever
the order they came in and whatever lookups and failed registrations came between, find the same
handler with the same properties for every method and path. -/
theorem find_any_order (calls calls' : List (Call T))
    (hsame : ∀ route, route ∈ registrations calls ↔ route ∈ registrations calls')
    (method : HttpMethod) (path : JsString) (hlead : path.head? = some slash) :
    ((after calls).find method path).map (fun found => (found.handler, found.params.entries)) =
      ((after calls').find method path).map fun found => (found.handler, found.params.entries) := by
  have hstatic : (((after calls).staticEntry path).bind fun entry => entry.get? method) =
      ((after calls').staticEntry path).bind fun entry => entry.get? method := by
    have htable (calls : List (Call T)) :
        (((after calls).staticEntry path).bind fun entry => entry.get? method) =
          (((after calls).staticTable.get? (staticKey (splitPath path))).getD ∅).get? method := by
      rw [(holds_after calls).staticEntry_eq (by rintro rfl; simp at hlead),
        staticKey_splitPath hlead]
      cases (after calls).staticTable.get? (trimTrailingSlashes path) <;> rfl
    rw [htable calls, htable calls']
    exact (holds_after calls).static.get?_eq (holds_after calls').static hsame _ method
  rw [find, find, hstatic]
  split
  · rfl
  cases ((after calls').staticEntry path).bind fun entry => entry.get? method with
  | some handler => rfl
  | none =>
    dsimp only
    rcases hwalk : (after calls).root.walk (splitPath path) ⟨∅, false⟩ with ⟨_ | found, captures⟩
    · rcases hwalk' : (after calls').root.walk (splitPath path) ⟨∅, false⟩ with
        ⟨_ | found', captures'⟩
      · rfl
      · obtain ⟨_, _, hends, -⟩ := walk_any_order (fun route => (hsame route).symm) hwalk'
        rw [hwalk] at hends
        cases hends
    · obtain ⟨found', captures', hwalk', hparams, htables⟩ := walk_any_order hsame hwalk
      rw [hwalk']
      dsimp only
      rw [htables method]
      cases (found.handlers.getD ∅).get? method with
      | none => rfl
      | some handler => rw [Option.map_some, Option.map_some, hparams]

def user : Route ℕ := ⟨.get, js "/users/:id", 1, none⟩
def avatar : Route ℕ := ⟨.get, js "/:any/me", 2, none⟩

theorem find_any_order_users :
    ((after [.add user, .add avatar]).find .get (js "/users/me")).map
        (fun found => (found.handler, found.params.entries)) =
      ((after [.add avatar, .find .get (js "/users/me"), .add avatar, .add user]).find .get
        (js "/users/me")).map fun found => (found.handler, found.params.entries) := by
  refine find_any_order _ _ ?_ .get (js "/users/me") (by decide)
  have hfirst : registrations [.add user, .add avatar] = [user, avatar] := by decide
  have hsecond : registrations [.add avatar, .find .get (js "/users/me"), .add avatar, .add user] =
      [avatar, user] := by decide
  intro route
  rw [hfirst, hsecond, List.mem_pair, List.mem_pair, or_comm]

end Router

end Daloy.Routing
