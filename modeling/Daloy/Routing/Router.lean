import Daloy.Foundations.JsMap
import Daloy.Foundations.Runs
import Daloy.Routing.Paths
import Daloy.Security.SafeJson
import Mathlib.Data.Finset.Basic

/-! # The router

The trie router of `src/router.ts`, method by method. A handler table is a `JsMap`: its prototype is
empty and frozen, so reading a method and `Object.hasOwn` say the same.

* A method that changes the router answers with the router it leaves, also when it throws.
* `Node.walk` carries what the source keeps in the `params` object and in the module's flag; its
  three branches have names of their own.
* `Router.answer`: the three methods as one machine.
-/

namespace Daloy.Routing
set_option autoImplicit false

open Daloy.Unicode Daloy.Security

inductive HttpMethod
  | get | post | put | patch | delete | head | options
  deriving DecidableEq, Repr

def HttpMethod.text : HttpMethod → JsString
  | .get => js "GET"
  | .post => js "POST"
  | .put => js "PUT"
  | .patch => js "PATCH"
  | .delete => js "DELETE"
  | .head => js "HEAD"
  | .options => js "OPTIONS"

variable {T : Type}

structure RouteMatch (T : Type) where
  handler : T
  params : JsMap JsString JsString
  encodedSeparator : Bool
  deriving DecidableEq

/-- `Partial<Record<HttpMethod, T>>`. -/
abbrev Handlers (T : Type) := JsMap HttpMethod T

structure Node (T : Type) where
  children : List (JsString × Node T)
  paramChild : Option (JsString × Node T)
  wildcardChild : Option (JsString × Node T)
  handlers : Option (Handlers T)

def createNode : Node T := ⟨[], none, none, none⟩

/-! ## Segments of a route -/

/-- What a segment of a registered path stands for. -/
inductive Segment
  | literal (text : JsString)
  | param (name : JsString)
  | wildcard (name : JsString)
  deriving DecidableEq

def Segment.ofText (segment : JsString) : Segment :=
  if segment.head? = some star then
    .wildcard (if segment.length = 1 then js "wildcard" else segment.drop 1)
  else if segment.head? = some colon then .param (segment.drop 1)
  else .literal segment

def Segment.captureName : Segment → Option JsString
  | .literal _ => none
  | .param name => some name
  | .wildcard name => some name

def Segment.isWildcard : Segment → Bool
  | .wildcard _ => true
  | _ => false

/-- The first loop of `add`: the capture names of the path, `none` when it has no capture. -/
def scanCaptures (path : JsString) :
    List Segment → Option (Finset JsString) → Except JsString (Option (Finset JsString))
  | [], captureNames => .ok captureNames
  | segment :: segments, captureNames =>
    if segment.isWildcard ∧ segments ≠ [] then
      .error (js "Wildcard must be the terminal segment: " ++ path)
    else
      match segment.captureName with
      | none => scanCaptures path segments captureNames
      | some name =>
        if name = [] ∨ isForbiddenObjectKey name ∨ name ∈ captureNames.getD ∅ then
          .error (js "Invalid or duplicate capture name: \"" ++ name ++ js "\" in " ++ path)
        else scanCaptures path segments (some (insert name (captureNames.getD ∅)))

/-! ## The trie -/

namespace Node

def child? (node : Node T) (segment : JsString) : Option (Node T) := node.children.lookup segment

def setChild (segment : JsString) (child : Node T) : List (JsString × Node T) →
    List (JsString × Node T)
  | [] => [(segment, child)]
  | entry :: children =>
    if entry.1 = segment then (segment, child) :: children
    else entry :: setChild segment child children

def duplicateRoute (method : HttpMethod) (path : JsString) : JsString :=
  js "Duplicate route: " ++ method.text ++ js " " ++ path

/-- The end of `add`: the handler is put into the table of the node where the path ends. -/
def register (node : Node T) (method : HttpMethod) (path : JsString) (handler : T) :
    Node T × Except JsString Unit :=
  let handlers := node.handlers.getD ∅
  if (handlers.get? method).isSome then
    ({ node with handlers := some handlers }, .error (duplicateRoute method path))
  else ({ node with handlers := some (handlers.set method handler) }, .ok ())

def conflictingNames (kind name name' : JsString) : JsString :=
  js "Conflicting " ++ kind ++ js " names at same position: \"" ++ name ++ js "\" vs \"" ++ name' ++
    js "\""

/-- The second loop of `add`, from a node down. -/
def insert (method : HttpMethod) (path : JsString) (handler : T) :
    List Segment → Node T → Node T × Except JsString Unit
  | [], node => node.register method path handler
  | .param name :: segments, node =>
    match node.paramChild with
    | none =>
      let (child, result) := insert method path handler segments createNode
      ({ node with paramChild := some (name, child) }, result)
    | some (name', child) =>
      if name' ≠ name then (node, .error (conflictingNames (js "param") name' name))
      else
        let (child, result) := insert method path handler segments child
        ({ node with paramChild := some (name, child) }, result)
  | .wildcard name :: _, node =>
    -- the loop breaks here
    match node.wildcardChild with
    | none =>
      let (child, result) := createNode.register method path handler
      ({ node with wildcardChild := some (name, child) }, result)
    | some (name', child) =>
      if name' ≠ name then (node, .error (conflictingNames (js "wildcard") name' name))
      else
        let (child, result) := child.register method path handler
        ({ node with wildcardChild := some (name, child) }, result)
  | .literal text :: segments, node =>
    let (child, result) :=
      insert method path handler segments ((node.child? text).getD createNode)
    ({ node with children := setChild text child node.children }, result)

/-- What a walk keeps outside the trie: the `params` object and the module's flag. -/
structure Captures where
  params : JsMap JsString JsString
  sawEncodedSeparator : Bool

abbrev Attempt (T : Type) := Captures → Option (Node T) × Captures

def Attempt.orElse (first second : Attempt T) : Attempt T := fun captures =>
  match first captures with
  | (some found, captures) => (some found, captures)
  | (none, captures) => second captures

/-- The branch of `staticNext`. -/
def tryStatic (node : Node T) (segment : JsString) (walkOn : Node T → Attempt T) : Attempt T :=
  fun captures => match node.child? segment with
  | some staticNext => walkOn staticNext captures
  | none => (none, captures)

/-- The branch of `paramChild`; a capture that leads nowhere is deleted again. -/
def tryParam (node : Node T) (segment : JsString) (walkOn : Node T → Attempt T) : Attempt T :=
  fun captures => match node.paramChild with
  | none => (none, captures)
  | some (name, next) =>
    match safeDecodeURIComponent segment captures.sawEncodedSeparator with
    | (none, saw) => (none, { captures with sawEncodedSeparator := saw })
    | (some decoded, saw) =>
      match walkOn next ⟨captures.params.set name decoded, saw⟩ with
      | (some found, captures) => (some found, captures)
      | (none, captures) => (none, { captures with params := captures.params.delete name })

/-- The branch of `wildcardChild`. -/
def tryWildcard (node : Node T) (segments : List JsString) : Attempt T :=
  fun captures => match node.wildcardChild with
  | none => (none, captures)
  | some (name, next) =>
    match decodeSegments segments captures.sawEncodedSeparator with
    | (none, saw) => (none, { captures with sawEncodedSeparator := saw })
    | (some rest, saw) => (some next, ⟨captures.params.set name rest, saw⟩)

/-- `walk(node, segs, i, params)`, given the segments from `i` on. -/
def walk : Node T → List JsString → Attempt T
  | node, [] => fun captures => (if node.handlers.isSome then some node else none, captures)
  | node, segment :: segments =>
    let walkOn := fun next => walk next segments
    ((node.tryStatic segment walkOn).orElse (node.tryParam segment walkOn)).orElse
      (node.tryWildcard (segment :: segments))

end Node

/-! ## The class -/

/-- An entry of `staticMethods`. -/
structure CachedMethods where
  revision : ℕ
  methods : List HttpMethod

structure Router (T : Type) where
  root : Node T := createNode
  operationIds : Finset JsString := ∅
  hasDynamicRoutes : Bool := false
  revision : ℕ := 0
  staticMethods : JsMap JsString CachedMethods := ∅
  staticTable : JsMap JsString (Handlers T) := ∅

namespace Router

def new : Router T := {}

/-- `operationId && this.operationIds.has(operationId)`. -/
def hasOperationId (router : Router T) (operationId : Option JsString) : Bool :=
  match operationId with
  | none => false
  | some operationId => operationId ≠ [] && operationId ∈ router.operationIds

/-- `this.revision++` and `if (operationId) this.operationIds.add(operationId)`. -/
def registered (router : Router T) (operationId : Option JsString) : Router T :=
  { router with
    revision := router.revision + 1
    operationIds := match operationId with
      | none => router.operationIds
      | some operationId =>
        if operationId = [] then router.operationIds else insert operationId router.operationIds }

def add (router : Router T) (method : HttpMethod) (path : JsString) (handler : T)
    (operationId : Option JsString) : Router T × Except JsString Unit :=
  let segments := splitPath path
  if router.hasOperationId operationId then
    (router, .error (js "Duplicate operationId: \"" ++ operationId.getD [] ++ js "\""))
  else
    match scanCaptures path (segments.map Segment.ofText) none with
    | .error message => (router, .error message)
    | .ok none =>
      let normalized := staticKey segments
      let (router, entry) := match router.staticTable.get? normalized with
        | some entry => (router, entry)
        | none => ({ router with staticTable := router.staticTable.set normalized ∅ }, ∅)
      if (entry.get? method).isSome then (router, .error (Node.duplicateRoute method path))
      else
        let staticTable := router.staticTable.set normalized (entry.set method handler)
        (registered { router with staticTable } operationId, .ok ())
    | .ok (some _) =>
      match router.root.insert method path handler (segments.map Segment.ofText) with
      | (root, .error message) => ({ router with root }, .error message)
      | (root, .ok ()) =>
        (registered { router with root, hasDynamicRoutes := true } operationId, .ok ())

/-- The table of the static routes at a path, tried as it is and then without its trailing
slashes; both lookups begin so. -/
def staticEntry (router : Router T) (path : JsString) : Option (Handlers T) :=
  match router.staticTable.get? path with
  | some entry => some entry
  | none =>
    if path.getLast? = some slash then router.staticTable.get? (trimTrailingSlashes path) else none

def find (router : Router T) (method : HttpMethod) (path : JsString) : Option (RouteMatch T) :=
  if isTraversal path then none
  else
    match (router.staticEntry path).bind fun entry => entry.get? method with
    | some handler => some ⟨handler, ∅, false⟩
    | none =>
      match router.root.walk (splitPath path) ⟨∅, false⟩ with
      | (none, _) => none
      | (some found, captures) =>
        match (found.handlers.getD ∅).get? method with
        | none => none
        | some handler => some ⟨handler, captures.params, captures.sawEncodedSeparator⟩

def objectKeys (handlers : Handlers T) : List HttpMethod := handlers.entries.map Prod.fst

/-- `allowedMethods(path)`, with the router whose cache it leaves. -/
def allowedMethods (router : Router T) (path : JsString) : Router T × List HttpMethod :=
  let cached := (router.staticMethods.get? path).filter fun c => c.revision = router.revision
  match cached with
  | some cached => (router, cached.methods)
  | none =>
    if isTraversal path then (router, [])
    else
      let fromStatic := router.staticEntry path
      let found :=
        if router.hasDynamicRoutes then (router.root.walk (splitPath path) ⟨∅, false⟩).1 else none
      match fromStatic with
      | none => (router, (found.map fun node => objectKeys (node.handlers.getD ∅)).getD [])
      | some fromStatic =>
        let dynamic := (found.map fun node => objectKeys (node.handlers.getD ∅)).getD []
        let methods := objectKeys fromStatic ++ dynamic.filter fun m => (fromStatic.get? m).isNone
        ({ router with
          staticMethods := router.staticMethods.set (trimTrailingSlashes path)
            ⟨router.revision, methods⟩ },
          methods)

end Router

/-! ## The methods as one machine -/

/-- The arguments of `add`. -/
structure Route (T : Type) where
  method : HttpMethod
  path : JsString
  handler : T
  operationId : Option JsString := none
  deriving DecidableEq

def Route.pattern (route : Route T) : List Segment := (splitPath route.path).map Segment.ofText

def Route.isDynamic (route : Route T) : Bool :=
  route.pattern.any fun segment => segment.captureName.isSome

inductive Call (T : Type)
  | add (route : Route T)
  | find (method : HttpMethod) (path : JsString)
  | allowedMethods (path : JsString)

inductive Answer (T : Type)
  | added (result : Except JsString Unit)
  | found (result : Option (RouteMatch T))
  | methods (result : List HttpMethod)

namespace Router

def answer (router : Router T) : Call T → Router T × Answer T
  | .add route =>
    let (router, result) := router.add route.method route.path route.handler route.operationId
    (router, .added result)
  | .find method path => (router, .found (router.find method path))
  | .allowedMethods path =>
    let (router, methods) := router.allowedMethods path
    (router, .methods methods)

def after (calls : List (Call T)) : Router T := (Runs.feed answer new calls).1

def success : Call T × Answer T → Option (Route T)
  | (.add route, .added (.ok ())) => some route
  | _ => none

/-- The routes whose `add` returned. -/
def registrations (calls : List (Call T)) : List (Route T) :=
  (calls.zip (Runs.feed answer new calls).2).filterMap success

end Router

end Daloy.Routing
