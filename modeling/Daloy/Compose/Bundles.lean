import Daloy.Foundations.Brackets
import Daloy.Foundations.Effects
import Daloy.Foundations.Unicode

/-! # Hook bundles

Bundles of hooks and the two ways in which they are merged: `every` of `src/combine.ts`, and
`mergeHooks` of `src/app.ts`, with the parts of `src/middleware.ts` that both use.

A hook is what its caller sees when it has awaited it; the context is part of the world. Of the
markers, those of CORS and the callbacks of the registration are left out.
-/

namespace Daloy.Compose
set_option autoImplicit false

open Daloy.Effects Daloy.Unicode

/-- What hooks read, write, throw and return. -/
structure HookTypes where
  World : Type
  Thrown : Type
  Request : Type
  Response : Type
  Value : Type
  /-- `ctx.state[REQUIRE_SCOPES_AGGREGATE_KEY]`, empty where it is no array. -/
  scopes : World → List JsString
  setScopes : List JsString → World → World

abbrev HookTypes.Call (T : HookTypes) (α : Type) := Effects.Call T.World T.Thrown α

abbrev HookTypes.Gate (T : HookTypes) := T.Call (Option T.Response)

/-- `Hooks`, with the markers that middleware stamps. -/
structure Hooks (T : HookTypes) where
  onRequest : Option (T.Request → T.Call Unit) := none
  preBody : Option T.Gate := none
  beforeHandle : Option T.Gate := none
  /-- `none` is `undefined`. -/
  afterHandle : Option (T.Value → T.Call (Option T.Value)) := none
  onError : Option (T.Thrown → T.Gate) := none
  onSend : Option (T.Response → T.Gate) := none
  onResponse : Option (T.Response → T.Call Unit) := none
  earlyRejection : Option (List T.Gate) := none
  deferredPreBody : Option (List T.Gate) := none
  deferredPreBodyOnly : Bool := false
  requireScopes : Option (List JsString) := none
  responseCache : Bool := false
  idempotency : Bool := false
  auth : Bool := false
  tenancy : Bool := false
  session : Bool := false
  csrf : Bool := false
  /-- `COMBINED_BEFORE_HANDLE_LAYERS`, while `beforeHandle` is the function that came with it. -/
  combined : Option (List (Hooks T)) := none

variable {T : HookTypes}

/-! ## `_mergePreBodyWithEarlyRejections` -/

/-- The budgets are charged in order; the last response takes the place of what was there. -/
def charge : List T.Gate → Option T.Response → T.Gate
  | [], response => pure response
  | hook :: pending, response => do
    let replacement ← hook
    charge pending (replacement <|> response)

def reject (pending : List T.Gate) : Except T.Thrown T.Response → T.Gate
  | .ok response => charge pending (some response)
  | .error err => do
    match ← charge pending none with
    | some replaced => pure (some replaced)
    | none => throw err

/-- The `preBody` that is not left to the deferred hooks. -/
def Hooks.normalPreBody (hooks : Hooks T) : Option T.Gate :=
  if hooks.deferredPreBodyOnly then none else hooks.preBody

def runLayers (deferred : List T.Gate) : List (Hooks T) → List T.Gate → T.Gate
  | [], _ => firstSome deferred
  | hooks :: layers, pending => do
    let pending := pending ++ hooks.earlyRejection.getD []
    match hooks.normalPreBody with
    | none => runLayers deferred layers pending
    | some preBody =>
      match ← attempt preBody with
      | .error err => reject pending (.error err)
      | .ok (some response) => reject pending (.ok response)
      | .ok none => runLayers deferred layers pending

def mergePreBodyWithEarlyRejections (layers : List (Hooks T)) (includeDeferred : Bool) :
    Option T.Gate :=
  let hasNormal := layers.any fun hooks => hooks.normalPreBody.isSome
  let deferred := if includeDeferred then layers.flatMap fun hooks => hooks.deferredPreBody.getD []
    else []
  if !hasNormal && deferred.isEmpty then none else some (runLayers deferred layers [])

/-! ## `_orderBeforeHandleForReplay` -/

/-- A `beforeHandle` with what the order depends on. -/
structure GateEntry (T : HookTypes) where
  fn : T.Gate
  replay : Bool
  auth : Bool

mutual
def collect : Hooks T → List (GateEntry T)
  | { beforeHandle := none, .. } => []
  | { beforeHandle := some _, combined := some layers, .. } => collectAll layers
  | { beforeHandle := some fn, combined := none, responseCache, idempotency, auth, .. } =>
    [⟨fn, responseCache || idempotency, auth⟩]

def collectAll : List (Hooks T) → List (GateEntry T)
  | [] => []
  | hooks :: layers => collect hooks ++ collectAll layers
end

/-- `flags.lastIndexOf(true)`. -/
def lastIdx? {α : Type} (p : α → Bool) : List α → Option ℕ
  | [] => none
  | x :: xs =>
    match lastIdx? p xs with
    | some i => some (i + 1)
    | none => if p x then some 0 else none

def slice {α : Type} (xs : List α) (i j : ℕ) : List α := (xs.drop i).take (j - i)

/-- The order of what is a stored response, an authentication hook, both or neither. -/
def orderForReplay {α : Type} (replay auth : α → Bool) (fns : List α) : List α :=
  match fns.findIdx? replay, lastIdx? auth fns with
  | some firstReplay, some lastAuth =>
    if lastAuth ≤ firstReplay then fns
    else
      let span := slice fns firstReplay (lastAuth + 1)
      slice fns 0 firstReplay ++ (span.filter fun e => !replay e) ++
        (span.filter fun e => replay e && auth e) ++ (span.filter fun e => replay e && !auth e) ++
          fns.drop (lastAuth + 1)
  | _, _ => fns

def orderBeforeHandleForReplay (layers : List (Hooks T)) : List T.Gate :=
  (orderForReplay GateEntry.replay GateEntry.auth (collectAll layers)).map GateEntry.fn

/-! ## `every` -/

def addScopes (out scopes : List JsString) : List JsString :=
  scopes.foldl (fun out scope => if scope ∈ out then out else out ++ [scope]) out

/-- A marker that holds a list is the lists of the layers that have it, one after the other. -/
def concatMarkers {α : Type} (lists : List (Option (List α))) : Option (List α) :=
  if lists.any Option.isSome then some (lists.flatMap (·.getD [])) else none

/-- A value that goes through the hooks: what a hook does not return stays as it is. -/
def thread {α : Type} (fns : List (α → T.Call (Option α))) (value : α) : T.Call α :=
  pipe (fns.map fun fn current => (·.getD current) <$> fn current) value

def mergeCombineHooks (layers : List (Hooks T)) : Hooks T :=
  let onRequest := layers.filterMap Hooks.onRequest
  let nonDeferredPreBody := mergePreBodyWithEarlyRejections layers false
  let allPreBody := mergePreBodyWithEarlyRejections layers true
  let deferredPreBodyOnly := nonDeferredPreBody.isNone && allPreBody.isSome
  let preBody := nonDeferredPreBody <|> allPreBody
  let beforeHandle := orderBeforeHandleForReplay layers
  let afterHandle := layers.filterMap Hooks.afterHandle
  let onError := layers.filterMap Hooks.onError
  let onSend := layers.filterMap Hooks.onSend
  let onResponse := layers.filterMap Hooks.onResponse
  { onRequest := if onRequest.isEmpty then none else some fun req => runAll (onRequest.map (· req))
    preBody
    beforeHandle := if beforeHandle.isEmpty then none else some (firstSome beforeHandle)
    afterHandle := if afterHandle.isEmpty then none else
      some fun value => some <$> thread afterHandle value
    onError := if onError.isEmpty then none else some fun err => firstSome (onError.map (· err))
    onSend := if onSend.isEmpty then none else some fun res => some <$> thread onSend res
    onResponse := if onResponse.isEmpty then none else some fun res => runAll (onResponse.map (· res))
    earlyRejection := if preBody.isSome && !deferredPreBodyOnly then none else
      concatMarkers (layers.map Hooks.earlyRejection)
    deferredPreBody := concatMarkers (layers.map Hooks.deferredPreBody)
    deferredPreBodyOnly
    requireScopes := if layers.any fun hooks => hooks.requireScopes.isSome then
      some (addScopes [] (layers.flatMap fun hooks => hooks.requireScopes.getD [])) else none
    responseCache := layers.any Hooks.responseCache
    idempotency := layers.any Hooks.idempotency
    auth := layers.any Hooks.auth
    tenancy := layers.any Hooks.tenancy
    session := layers.any Hooks.session
    csrf := layers.any Hooks.csrf
    combined := if beforeHandle.isEmpty then none else some layers }

def every (layers : List (Hooks T)) : Hooks T := mergeCombineHooks layers

/-! ## `mergeHooks` -/

def chain {α : Type} : List (α → T.Call Unit) → Option (α → T.Call Unit)
  | [] => none
  | [fn] => some fn
  | fns => some fun a => runAll (fns.map (· a))

/-- `firstResponse(fns)`, here and below for hooks with and without an argument. -/
def firstResponse {α : Type} : List (α → T.Gate) → Option (α → T.Gate)
  | [] => none
  | [fn] => some fn
  | fns => some fun a => firstSome (fns.map (· a))

def firstGate : List T.Gate → Option T.Gate
  | [] => none
  | [fn] => some fn
  | fns => some (firstSome fns)

/-- `pipeline(fns)` and `responsePipeline(fns)`. -/
def pipeline {α : Type} : List (α → T.Call (Option α)) → Option (α → T.Call (Option α))
  | [] => none
  | [fn] => some fn
  | fns => some fun value => some <$> thread fns value

def requiredScopesFromHooks (layers : List (Hooks T)) : List JsString :=
  addScopes [] (layers.flatMap fun hooks => hooks.requireScopes.getD [])

def mergeBeforeHandle (beforeHandle : Option T.Gate) (requiredScopes : List JsString) :
    Option T.Gate :=
  if requiredScopes.isEmpty then beforeHandle
  else some do
    modify fun w => T.setScopes (addScopes (T.scopes w) requiredScopes) w
    beforeHandle.getD (pure none)

def mergeHooks (layers : List (Hooks T)) : Hooks T :=
  let requiredScopes := requiredScopesFromHooks layers
  { onRequest := chain (layers.filterMap Hooks.onRequest)
    preBody := mergePreBodyWithEarlyRejections layers true
    beforeHandle := mergeBeforeHandle (firstGate (orderBeforeHandleForReplay layers)) requiredScopes
    afterHandle := pipeline (layers.filterMap Hooks.afterHandle)
    onError := firstResponse (layers.filterMap Hooks.onError)
    onSend := pipeline (layers.filterMap Hooks.onSend)
    onResponse := chain (layers.filterMap Hooks.onResponse)
    requireScopes := if requiredScopes.isEmpty then none else some requiredScopes }

/-! ## Nested bundles -/

/-- A bundle that `every` has not made, or whose `beforeHandle` was replaced since. -/
abbrev Layer (T : HookTypes) := { hooks : Hooks T // hooks.combined = none }

/-- A layer, or `every` of bundles. -/
abbrev Bundle (T : HookTypes) := Bracketed (Layer T)

mutual
def Bundle.hooks : Bundle T → Hooks T
  | .item layer => layer.1
  | .group bundles => every (Bundle.allHooks bundles)

def Bundle.allHooks : List (Bundle T) → List (Hooks T)
  | [] => []
  | bundle :: bundles => Bundle.hooks bundle :: Bundle.allHooks bundles
end

def Bundle.layers (bundles : List (Bundle T)) : List (Hooks T) :=
  (Bracketed.flattenAll bundles).map Subtype.val

theorem Bundle.allHooks_eq (bundles : List (Bundle T)) :
    Bundle.allHooks bundles = bundles.map Bundle.hooks := by
  induction bundles with
  | nil => rfl
  | cons b bs ih => rw [Bundle.allHooks, ih, List.map_cons]

theorem Bundle.hooks_group (bundles : List (Bundle T)) :
    Bundle.hooks (.group bundles) = every (bundles.map Bundle.hooks) := by
  rw [Bundle.hooks, Bundle.allHooks_eq]

theorem collectAll_eq (layers : List (Hooks T)) : collectAll layers = layers.flatMap collect := by
  induction layers with
  | nil => rfl
  | cons hooks layers ih => rw [collectAll, ih, List.flatMap_cons]

/-- What `collect` finds in a layer. -/
def entryOf (hooks : Hooks T) : List (GateEntry T) :=
  match hooks.beforeHandle with
  | none => []
  | some fn => [⟨fn, hooks.responseCache || hooks.idempotency, hooks.auth⟩]

theorem collect_layer (layer : Layer T) : collect layer.1 = entryOf layer.1 := by
  obtain ⟨hooks, hcombined⟩ := layer
  cases hooks with
  | mk _ _ beforeHandle _ _ _ _ _ _ _ _ _ _ _ _ _ _ combined =>
    obtain rfl : combined = none := hcombined
    cases beforeHandle <;> rfl

end Daloy.Compose
