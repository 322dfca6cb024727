import Daloy.Security.SafeJson
import Mathlib.Order.Lattice

/-! # Input validation

`validateMcpInput` of `src/mcp.ts`, over the schemas that only have the keywords it reads.

* `validateSchemaNode`: the walk of the source, with its caps.
* `valid`: what the keywords mean, by the specification of JSON Schema.
* `Made`: the single checks that a value is put to.
-/

namespace Daloy.Mcp
set_option autoImplicit false

open Daloy.Unicode Daloy.Json Daloy.Security

/-- Finite numbers, with their texts and their order. -/
class JsNumber (ν : Type) extends NumberText ν, LinearOrder ν where
  /-- `Number.isInteger`. -/
  isInteger : ν → Bool

/-! ## Schemas -/

inductive JsonType
  | integer
  | number
  | string
  | boolean
  | null
  | object
  | array
  deriving DecidableEq

def JsonType.name : JsonType → JsString
  | .integer => js "integer"
  | .number => js "number"
  | .string => js "string"
  | .boolean => js "boolean"
  | .null => js "null"
  | .object => js "object"
  | .array => js "array"

/-- The keyword `type`: a name, or an array that has some. -/
inductive TypeKeyword
  | one (type : JsonType)
  | any (type : JsonType) (types : List JsonType)

/-- The keywords that have no schema in them. -/
structure Keywords (ν : Type) where
  type : Option TypeKeyword := none
  enum : Option (List (Json ν)) := none
  const : Option (Json ν) := none
  minLength : Option ℕ := none
  maxLength : Option ℕ := none
  minimum : Option ν := none
  maximum : Option ν := none
  minItems : Option ℕ := none
  maxItems : Option ℕ := none
  required : Option (List JsString) := none

/-- `false`, or a schema. -/
inductive Additional (α : Type)
  | refused
  | sub (schema : α)

inductive Schema (ν : Type)
  | node (keywords : Keywords ν) (items : Option (Schema ν))
      (properties : Option (List (JsString × Schema ν)))
      (additional : Option (Additional (Schema ν)))

variable {ν : Type}

theorem Schema.induct {P : Schema ν → Prop}
    (h : ∀ keywords items properties additional, (∀ s, items = some s → P s) →
      (∀ props, properties = some props → ∀ m ∈ props, P m.2) →
      (∀ s, additional = some (.sub s) → P s) → P (.node keywords items properties additional))
    (schema : Schema ν) : P schema := by
  refine @Schema.rec ν P (fun items => ∀ s, items = some s → P s)
    (fun properties => ∀ props, properties = some props → ∀ m ∈ props, P m.2)
    (fun additional => ∀ s, additional = some (.sub s) → P s) (fun props => ∀ m ∈ props, P m.2)
    (fun additional => ∀ s, additional = .sub s → P s) (fun m => P m.2) h ?_ ?_ ?_ ?_ ?_ ?_ ?_ ?_ ?_
    ?_ ?_ schema
  all_goals grind

mutual
def Schema.levels : Schema ν → ℕ
  | .node _ items properties additional =>
    max (match items with
      | some items => items.levels + 1
      | none => 0)
      (max (match properties with
        | some properties => levelsOf properties
        | none => 0)
        (match additional with
        | some (.sub additional) => additional.levels + 1
        | _ => 0))

def levelsOf : List (JsString × Schema ν) → ℕ
  | [] => 0
  | (_, schema) :: rest => max (schema.levels + 1) (levelsOf rest)
end

/-! ## The source -/

section Code
variable [JsNumber ν]

def maxMcpValidationErrors : ℕ := 20
def maxMcpSchemaDepth : ℕ := 64

def jsonTypeOf : Value ν → JsString
  | .null => js "null"
  | .arr _ => js "array"
  | .bool _ => js "boolean"
  | .num _ => js "number"
  | .str _ => js "string"
  | .obj _ => js "object"

def matchesJsonType : JsonType → Value ν → Bool
  | .integer, .num n => JsNumber.isInteger n
  | .number, .num _ => true
  | .string, .str _ => true
  | .boolean, .bool _ => true
  | .null, .null => true
  | .object, .obj _ => true
  | .array, .arr _ => true
  | _, _ => false

def deepEqualJson (a b : Value ν) : Bool := stringify a = stringify b

def typeErrors (type : Option TypeKeyword) (value : Value ν) (path : JsString) : List JsString :=
  match type with
  | none => []
  | some (.one type) =>
    if matchesJsonType type value then []
    else [path ++ js ": expected " ++ type.name ++ js ", got " ++ jsonTypeOf value]
  | some (.any type types) =>
    if (type :: types).any (matchesJsonType · value) then []
    else [path ++ js ": expected one of [" ++
      (js ", ").intercalate ((type :: types).map JsonType.name) ++ js "], got " ++ jsonTypeOf value]

def refuse {α : Type} (keyword : Option α) (refuses : α → Bool) (message : α → JsString) :
    List JsString :=
  match keyword with
  | some a => if refuses a then [message a] else []
  | none => []

/-- The errors of the keywords behind `type`, less those of the schemas in them. -/
def keywordErrors (keywords : Keywords ν) (value : Value ν) (path : JsString) : List JsString :=
  refuse keywords.enum (fun values => !values.any fun e => deepEqualJson e.1 value)
      (fun _ => path ++ js ": value is not one of the allowed enum values") ++
    refuse keywords.const (fun e => !deepEqualJson e.1 value)
      (fun _ => path ++ js ": value does not equal the required constant") ++
    match value with
    | .str s =>
      refuse keywords.minLength (s.length < ·)
          (path ++ js ": string shorter than minLength " ++ NumberText.write ·) ++
        refuse keywords.maxLength (· < s.length)
          (path ++ js ": string longer than maxLength " ++ NumberText.write ·)
    | .num n =>
      refuse keywords.minimum (n < ·) (path ++ js ": number below minimum " ++ NumberText.write ·) ++
        refuse keywords.maximum (· < n) (path ++ js ": number above maximum " ++ NumberText.write ·)
    | .arr values =>
      refuse keywords.minItems (values.length < ·)
          (path ++ js ": array has fewer than minItems " ++ NumberText.write ·) ++
        refuse keywords.maxItems (· < values.length)
          (path ++ js ": array has more than maxItems " ++ NumberText.write ·)
    | .obj members =>
      (keywords.required.getD []).flatMap fun req =>
        if members.any (·.1 = req) then []
        else [path ++ js "." ++ req ++ js ": required property is missing"]
    | _ => []

def visit (path : JsString) (errors : List JsString) (depth : ℕ) (body : List JsString) :
    List JsString :=
  if maxMcpValidationErrors ≤ errors.length then errors
  else if maxMcpSchemaDepth < depth then
    errors ++ [path ++ js ": exceeds maximum validation depth"]
  else body

def overCap {α : Type} (body : α → List JsString → List JsString) :
    List α → List JsString → List JsString
  | [], errors => errors
  | a :: rest, errors =>
    if maxMcpValidationErrors ≤ (body a errors).length then body a errors
    else overCap body rest (body a errors)

def protoName : JsString := js "__proto__"

mutual
def validateSchemaNode : Schema ν → Value ν → JsString → List JsString → ℕ → List JsString
  | .node keywords items properties additional, value, path, errors, depth =>
    visit path errors depth <|
      if typeErrors keywords.type value path ≠ [] then
        errors ++ typeErrors keywords.type value path
      else
        let errors := errors ++ keywordErrors keywords value path
        match value with
        | .arr values =>
          match items with
          | some items =>
            overCap (fun e errors => validateSchemaNode items e.1
              (path ++ js "[" ++ NumberText.write e.2 ++ js "]") errors (depth + 1))
              values.zipIdx errors
          | none => errors
        | .obj members =>
          overCap (fun m errors =>
            match validateProperty properties m (path ++ js "." ++ m.1) errors (depth + 1) with
            | some errors => errors
            | none =>
              match additional with
              | some .refused => errors ++ [path ++ js "." ++ m.1 ++
                  js ": unexpected property (additionalProperties is false)"]
              | some (.sub additional) =>
                validateSchemaNode additional m.2 (path ++ js "." ++ m.1) errors (depth + 1)
              | none => errors) members errors
        | _ => errors

/-- The visit of `props[key]`, where that is an object. `Object.prototype` is one too, with no
keyword. -/
def validateProperty : Option (List (JsString × Schema ν)) → JsString × Value ν → JsString →
    List JsString → ℕ → Option (List JsString)
  | none, _, _, _, _ => none
  | some props, m, path, errors, depth =>
    match validateOwn props m path errors depth with
    | some errors => some errors
    | none => if m.1 = protoName then some (visit path errors depth errors) else none

def validateOwn : List (JsString × Schema ν) → JsString × Value ν → JsString → List JsString →
    ℕ → Option (List JsString)
  | [], _, _, _, _ => none
  | (name, schema) :: rest, m, path, errors, depth =>
    if m.1 = name then some (validateSchemaNode schema m.2 path errors depth)
    else validateOwn rest m path errors depth
end

def validateMcpInput (schema : Schema ν) (value : Json ν) : List JsString :=
  validateSchemaNode schema value.1 (js "arguments") [] 0

end Code

/-! ## The specification -/

section Specification
variable [JsNumber ν]

def primitive : Value ν → JsonType
  | .null => .null
  | .bool _ => .boolean
  | .num _ => .number
  | .str _ => .string
  | .arr _ => .array
  | .obj _ => .object

def hasType (value : Value ν) (type : JsonType) : Bool :=
  primitive value = type ||
    match value with
    | .num n => type = .integer && JsNumber.isInteger n
    | _ => false

def TypeKeyword.holds (value : Value ν) : TypeKeyword → Bool
  | .one type => hasType value type
  | .any type types => (type :: types).any (hasType value)

def codePoints (s : JsString) : ℕ := (scalars s).length

def keywordsHold (keywords : Keywords ν) (value : Value ν) : Bool :=
  keywords.type.all (TypeKeyword.holds value) &&
    keywords.enum.all (fun values => values.any fun e => deepEq e.1 value) &&
    keywords.const.all (fun e => deepEq e.1 value) &&
    match value with
    | .str s => keywords.minLength.all (· ≤ codePoints s) && keywords.maxLength.all (codePoints s ≤ ·)
    | .num n => keywords.minimum.all (· ≤ n) && keywords.maximum.all (n ≤ ·)
    | .arr values =>
      keywords.minItems.all (· ≤ values.length) && keywords.maxItems.all (values.length ≤ ·)
    | .obj members => keywords.required.all fun names => names.all fun name =>
        members.any (·.1 = name)
    | _ => true

mutual
/-- A value is valid against a schema: the items against `items`, and each member against the schema
of its name, or against `additionalProperties` where no property has its name. -/
def valid : Schema ν → Value ν → Bool
  | .node keywords items properties additional, value =>
    keywordsHold keywords value &&
      match value with
      | .arr values =>
        match items with
        | some items => values.all (valid items)
        | none => true
      | .obj members => members.all fun m =>
        match properties with
        | some properties =>
          match validProperty properties m with
          | some verdict => verdict
          | none =>
            match additional with
            | some .refused => false
            | some (.sub additional) => valid additional m.2
            | none => true
        | none =>
          match additional with
          | some .refused => false
          | some (.sub additional) => valid additional m.2
          | none => true
      | _ => true

def validProperty : List (JsString × Schema ν) → JsString × Value ν → Option Bool
  | [], _ => none
  | (name, schema) :: rest, m =>
    if m.1 = name then some (valid schema m.2) else validProperty rest m
end

end Specification

/-! ## Checks -/

section Checks
variable [JsNumber ν]

/-- A single check that a value is put to. -/
inductive Check (ν : Type)
  /-- A check that walk and specification make alike. -/
  | plain (holds : Bool)
  /-- The least length of a string. -/
  | shortest (n : ℕ) (s : JsString)
  /-- The greatest length of a string. -/
  | longest (n : ℕ) (s : JsString)
  /-- Equality to one of these values. -/
  | oneOf (values : List (Json ν)) (value : Value ν)
  /-- A member that finds the prototype of `properties` at this depth; what `additionalProperties`
  says of its value. -/
  | inherited (depth : ℕ) (holds : Bool)
  /-- A place beyond the greatest depth. -/
  | deep

def Check.Lenient : Check ν → Prop
  | .shortest n s => codePoints s < n ∧ n ≤ s.length
  | .inherited depth holds => depth ≤ maxMcpSchemaDepth ∧ holds = false
  | _ => False

def Check.Strict : Check ν → Prop
  | .longest n s => codePoints s ≤ n ∧ n < s.length
  | .oneOf values value => (∃ e ∈ values, deepEq e.1 value = true) ∧
      ∀ e ∈ values, stringify e.1 ≠ stringify value
  | .inherited depth holds => maxMcpSchemaDepth < depth ∧ holds = true
  | .deep => True
  | _ => False

def Check.Refused : Check ν → Prop
  | .plain holds => holds = false
  | .shortest n s => s.length < n
  | .longest n s => n < codePoints s
  | .oneOf values value => ∀ e ∈ values, deepEq e.1 value = false
  | .inherited depth holds => maxMcpSchemaDepth < depth ∧ holds = false
  | .deep => False

def keywordChecks (keywords : Keywords ν) (value : Value ν) : List (Check ν) :=
  keywords.type.toList.map (fun type => .plain (type.holds value)) ++
    keywords.enum.toList.map (.oneOf · value) ++
    keywords.const.toList.map (fun e => .oneOf [e] value) ++
    match value with
    | .str s => keywords.minLength.toList.map (.shortest · s) ++
        keywords.maxLength.toList.map (.longest · s)
    | .num n => keywords.minimum.toList.map (fun m => .plain (m ≤ n)) ++
        keywords.maximum.toList.map (fun m => .plain (n ≤ m))
    | .arr values => keywords.minItems.toList.map (fun m => .plain (m ≤ values.length)) ++
        keywords.maxItems.toList.map (fun m => .plain (values.length ≤ m))
    | .obj members => (keywords.required.getD []).map fun name => .plain (members.any (·.1 = name))
    | _ => []

def schemaOf (properties : Option (List (JsString × Schema ν)))
    (additional : Option (Additional (Schema ν))) (key : JsString) :
    Option (Additional (Schema ν)) :=
  match properties.bind (List.lookup key) with
  | some schema => some (.sub schema)
  | none => additional

/-- The member finds no property of its name but the prototype of `properties`. -/
def inherits (properties : Option (List (JsString × Schema ν))) (key : JsString) : Bool :=
  properties.any (fun props => (props.lookup key).isNone) && key = protoName

omit [JsNumber ν] in
theorem schemaOf_inherits {properties : Option (List (JsString × Schema ν))} {key : JsString}
    (h : inherits properties key = true) (additional : Option (Additional (Schema ν))) :
    schemaOf properties additional key = additional := by
  cases properties with
  | none => cases h
  | some props =>
    rw [inherits, Bool.and_eq_true, Option.any_some, Option.isNone_iff_eq_none] at h
    rw [schemaOf, Option.bind_some, h.1]

def validAt (schema : Option (Additional (Schema ν))) (value : Value ν) : Bool :=
  match schema with
  | some .refused => false
  | some (.sub schema) => valid schema value
  | none => true

inductive Made : Schema ν → Value ν → ℕ → Check ν → Prop
  | deep {schema value depth} (h : maxMcpSchemaDepth < depth) : Made schema value depth .deep
  | keyword {keywords items properties additional value depth c}
      (h : c ∈ keywordChecks keywords value) :
      Made (.node keywords items properties additional) value depth c
  | item {keywords items properties additional values depth value c} (hvalue : value ∈ values)
      (h : Made items value (depth + 1) c) :
      Made (.node keywords (some items) properties additional) (.arr values) depth c
  | member {keywords items properties additional members depth m schema c} (hm : m ∈ members)
      (hown : inherits properties m.1 = false)
      (hschema : schemaOf properties additional m.1 = some (.sub schema))
      (h : Made schema m.2 (depth + 1) c) :
      Made (.node keywords items properties additional) (.obj members) depth c
  | unexpected {keywords items properties additional members depth m} (hm : m ∈ members)
      (hown : inherits properties m.1 = false) (hschema : schemaOf properties additional m.1 = some .refused) :
      Made (.node keywords items properties additional) (.obj members) depth (.plain false)
  | inherited {keywords items properties additional members depth m} (hm : m ∈ members)
      (hproto : inherits properties m.1 = true) :
      Made (.node keywords items properties additional) (.obj members) depth
        (.inherited (depth + 1) (validAt additional m.2))

/-! ## The specification by its checks -/

theorem codePoints_le (s : JsString) : codePoints s ≤ s.length := by
  rw [codePoints]
  fun_induction scalars s <;> simp_all <;> omega

theorem validProperty_eq (props : List (JsString × Schema ν)) (m : JsString × Value ν) :
    validProperty props m = (props.lookup m.1).map fun schema => valid schema m.2 := by
  induction props with
  | nil => rfl
  | cons prop rest ih =>
    obtain ⟨name, schema⟩ := prop
    rw [validProperty, List.lookup_cons]
    by_cases hname : m.1 = name
    · simp [hname]
    · have hbeq : (m.1 == name) = false := by simpa using hname
      rw [if_neg hname, ih, hbeq]

theorem valid_node (keywords : Keywords ν) (items : Option (Schema ν))
    (properties : Option (List (JsString × Schema ν))) (additional : Option (Additional (Schema ν)))
    (value : Value ν) :
    valid (.node keywords items properties additional) value =
      (keywordsHold keywords value &&
        match value with
        | .arr values => items.all fun items => values.all (valid items)
        | .obj members => members.all fun m => validAt (schemaOf properties additional m.1) m.2
        | _ => true) := by
  cases value with
  | arr values =>
    cases items <;> rw [valid] <;> rfl
  | obj members =>
    rw [valid]
    congr 1
    dsimp only
    congr 1
    funext m
    cases properties with
    | none => rfl
    | some props =>
      dsimp only [schemaOf, Option.bind_some]
      rw [validProperty_eq]
      cases props.lookup m.1 <;> rfl
  | _ => simp [valid]

theorem forall_mem_map_toList {α β : Type} (o : Option α) (f : α → β) (P : β → Prop) :
    (∀ c ∈ o.toList.map f, P c) ↔ ∀ a, o = some a → P (f a) := by
  cases o <;> simp

theorem keywordsHold_iff (keywords : Keywords ν) (value : Value ν) :
    keywordsHold keywords value = true ↔
      ∀ c ∈ keywordChecks keywords value, ¬ c.Lenient ∧ ¬ c.Refused := by
  have hone : ∀ o : Option (Json ν), o.all (fun e => deepEq e.1 value) = true ↔
      ∀ e, o = some e → ¬ (∀ e' ∈ [e], deepEq e'.1 value = false) := by
    intro o
    cases o <;> simp
  have hmany : ∀ o : Option (List (Json ν)),
      o.all (fun values => values.any fun e => deepEq e.1 value) = true ↔
        ∀ values, o = some values → ¬ (∀ e ∈ values, deepEq e.1 value = false) := by
    intro o
    cases o <;> simp
  unfold keywordsHold keywordChecks
  simp only [List.forall_mem_append, forall_mem_map_toList, Bool.and_eq_true, hone, hmany]
  simp only [Check.Lenient, Check.Refused, not_false_eq_true, true_and]
  refine and_congr (and_congr (and_congr ?_ Iff.rfl) Iff.rfl) ?_
  · cases keywords.type <;> simp
  · cases value with
    | str s =>
      have hle := codePoints_le s
      simp only [List.forall_mem_append, forall_mem_map_toList, Bool.and_eq_true, Check.Lenient,
        Check.Refused]
      cases keywords.minLength <;> cases keywords.maxLength <;> simp <;> omega
    | num n =>
      simp only [List.forall_mem_append, forall_mem_map_toList, Bool.and_eq_true]
      cases keywords.minimum <;> cases keywords.maximum <;> simp [Check.Lenient, Check.Refused]
    | arr values =>
      simp only [List.forall_mem_append, forall_mem_map_toList, Bool.and_eq_true]
      cases keywords.minItems <;> cases keywords.maxItems <;> simp [Check.Lenient, Check.Refused]
    | obj members =>
      cases keywords.required <;> simp [Check.Lenient, Check.Refused]
    | _ => simp

omit [JsNumber ν] in
theorem schemaOf_sub {P : Schema ν → Prop} {properties : Option (List (JsString × Schema ν))}
    {additional : Option (Additional (Schema ν))} {key : JsString} {schema : Schema ν}
    (hproperties : ∀ props, properties = some props → ∀ m ∈ props, P m.2)
    (hadditional : ∀ s, additional = some (.sub s) → P s)
    (h : schemaOf properties additional key = some (.sub schema)) : P schema := by
  rw [schemaOf] at h
  split at h
  · rename_i found hfound
    obtain ⟨props, hprops, hlookup⟩ := Option.bind_eq_some_iff.mp hfound
    obtain rfl : found = schema := by simpa using h
    obtain ⟨before, after, rfl, -⟩ := List.lookup_eq_some_iff.mp hlookup
    exact hproperties _ hprops (key, found) (by simp)
  · exact hadditional schema h

/-- **A value is valid where no check refuses it**, none of those that the walk is lenient about
included. -/
theorem valid_iff (schema : Schema ν) (value : Value ν) (depth : ℕ) :
    valid schema value = true ↔ ∀ c, Made schema value depth c → ¬ c.Lenient ∧ ¬ c.Refused := by
  induction schema using Schema.induct generalizing value depth with
  | h keywords items properties additional hitems hproperties hadditional =>
    rw [valid_node, Bool.and_eq_true, keywordsHold_iff]
    constructor
    · rintro ⟨hkeywords, hrest⟩ c hmade
      cases hmade with
      | deep _ => exact ⟨not_false, not_false⟩
      | keyword hc => exact hkeywords c hc
      | item hvalue hmade =>
        exact (hitems _ rfl _ _).mp (List.all_eq_true.mp hrest _ hvalue) c hmade
      | member hm hown hschema hmade =>
        have hmember := List.all_eq_true.mp hrest _ hm
        rw [hschema] at hmember
        exact (schemaOf_sub hproperties hadditional hschema _ _).mp hmember c hmade
      | unexpected hm hown hschema =>
        have hmember := List.all_eq_true.mp hrest _ hm
        rw [hschema] at hmember
        cases hmember
      | inherited hm hproto =>
        have hmember := List.all_eq_true.mp hrest _ hm
        rw [schemaOf_inherits hproto] at hmember
        simp [Check.Lenient, Check.Refused, hmember]
    · intro hall
      refine ⟨fun c hc => hall c (.keyword hc), ?_⟩
      cases value with
      | arr values =>
        cases items with
        | none => rfl
        | some items =>
          refine List.all_eq_true.mpr fun value hvalue => ?_
          exact (hitems _ rfl value (depth + 1)).mpr fun c hmade => hall c (.item hvalue hmade)
      | obj members =>
        refine List.all_eq_true.mpr fun m hm => ?_
        cases hproto : inherits properties m.1 with
        | true =>
          obtain ⟨hlenient, hrefused⟩ := hall _ (.inherited hm hproto)
          rw [schemaOf_inherits hproto]
          by_contra hinvalid
          rw [Bool.not_eq_true] at hinvalid
          obtain hlt | hle := Nat.lt_or_ge maxMcpSchemaDepth (depth + 1)
          · exact hrefused ⟨hlt, hinvalid⟩
          · exact hlenient ⟨hle, hinvalid⟩
        | false =>
          cases hschema : schemaOf properties additional m.1 with
          | none => rfl
          | some found =>
            cases found with
            | refused => exact absurd rfl (hall _ (.unexpected hm hproto hschema)).2
            | sub schema =>
              exact (schemaOf_sub hproperties hadditional hschema m.2 (depth + 1)).mpr
                fun c hmade => hall c (.member hm hproto hschema hmade)
      | _ => rfl

/-! ## The walk by its checks -/

theorem prefix_visit (path : JsString) (errors : List JsString) (depth : ℕ) {body : List JsString}
    (h : errors <+: body) : errors <+: visit path errors depth body := by
  rw [visit]
  split
  · exact List.prefix_rfl
  · split
    · exact List.prefix_append _ _
    · exact h

theorem visit_eq_iff {path : JsString} {errors : List JsString} {depth : ℕ} {body : List JsString}
    (h : errors.length < maxMcpValidationErrors) :
    visit path errors depth body = errors ↔ depth ≤ maxMcpSchemaDepth ∧ body = errors := by
  rw [visit, if_neg (by omega)]
  split
  · rename_i hdeep
    simp [Nat.not_le_of_lt hdeep]
  · rename_i hdeep
    simp [Nat.le_of_not_lt hdeep]

section Loop
variable {α : Type} {body : α → List JsString → List JsString}

theorem prefix_overCap {values : List α} (hbody : ∀ a ∈ values, ∀ errors, errors <+: body a errors)
    (errors : List JsString) : errors <+: overCap body values errors := by
  induction values generalizing errors with
  | nil => exact List.prefix_rfl
  | cons a values ih =>
    have hfirst := hbody a (List.mem_cons_self ..) errors
    rw [overCap]
    split
    · exact hfirst
    · exact hfirst.trans (ih (fun a ha => hbody a (List.mem_cons_of_mem _ ha)) _)

theorem overCap_eq_iff {values : List α} (hbody : ∀ a ∈ values, ∀ errors, errors <+: body a errors)
    {errors : List JsString} (h : errors.length < maxMcpValidationErrors) :
    overCap body values errors = errors ↔ ∀ a ∈ values, body a errors = errors := by
  induction values with
  | nil => simp [overCap]
  | cons a values ih =>
    have ih := ih fun a ha => hbody a (List.mem_cons_of_mem _ ha)
    rw [overCap, List.forall_mem_cons]
    by_cases hfirst : body a errors = errors
    · rw [hfirst, if_neg (by omega), ih]
      simp
    · have hlonger : overCap body (a :: values) errors ≠ errors := by
        intro heq
        have hprefix := hbody a (List.mem_cons_self ..) errors
        have hrest : body a errors <+: overCap body (a :: values) errors := by
          rw [overCap]
          split
          · exact List.prefix_rfl
          · exact prefix_overCap (fun a ha => hbody a (List.mem_cons_of_mem _ ha)) _
        rw [heq] at hrest
        exact hfirst (hrest.eq_of_length_le hprefix.length_le)
      rw [overCap] at hlonger
      simp [hfirst, hlonger]

end Loop

theorem validateOwn_eq (props : List (JsString × Schema ν)) (m : JsString × Value ν)
    (path : JsString) (errors : List JsString) (depth : ℕ) :
    validateOwn props m path errors depth =
      (props.lookup m.1).map fun schema => validateSchemaNode schema m.2 path errors depth := by
  induction props with
  | nil => rfl
  | cons prop rest ih =>
    obtain ⟨name, schema⟩ := prop
    rw [validateOwn, List.lookup_cons]
    by_cases hname : m.1 = name
    · simp [hname]
    · have hbeq : (m.1 == name) = false := by simpa using hname
      rw [if_neg hname, ih, hbeq]

def visitMember (properties : Option (List (JsString × Schema ν)))
    (additional : Option (Additional (Schema ν))) (m : JsString × Value ν) (path : JsString)
    (errors : List JsString) (depth : ℕ) : List JsString :=
  if inherits properties m.1 then visit path errors depth errors
  else
    match schemaOf properties additional m.1 with
    | some .refused => errors ++ [path ++ js ": unexpected property (additionalProperties is false)"]
    | some (.sub schema) => validateSchemaNode schema m.2 path errors depth
    | none => errors

theorem validateSchemaNode_eq (keywords : Keywords ν) (items : Option (Schema ν))
    (properties : Option (List (JsString × Schema ν))) (additional : Option (Additional (Schema ν)))
    (value : Value ν) (path : JsString) (errors : List JsString) (depth : ℕ) :
    validateSchemaNode (.node keywords items properties additional) value path errors depth =
      visit path errors depth
        (if typeErrors keywords.type value path ≠ [] then
          errors ++ typeErrors keywords.type value path
        else
          match value with
          | .arr values => match items with
            | some items => overCap (fun e errors => validateSchemaNode items e.1
                (path ++ js "[" ++ NumberText.write e.2 ++ js "]") errors (depth + 1))
                values.zipIdx (errors ++ keywordErrors keywords value path)
            | none => errors ++ keywordErrors keywords value path
          | .obj members => overCap (fun m errors => visitMember properties additional m
              (path ++ js "." ++ m.1) errors (depth + 1)) members
              (errors ++ keywordErrors keywords value path)
          | _ => errors ++ keywordErrors keywords value path) := by
  cases value with
  | arr values =>
    cases items <;> rw [validateSchemaNode]
  | obj members =>
    rw [validateSchemaNode]
    congr 2
    dsimp only
    congr 1
    funext m errors
    rw [visitMember]
    cases properties with
    | none =>
      rw [validateProperty, inherits, Option.any_none, Bool.false_and, if_neg Bool.false_ne_true,
        schemaOf, Option.bind_none]
    | some props =>
      rw [validateProperty, validateOwn_eq, inherits, schemaOf, Option.any_some, Option.bind_some]
      cases props.lookup m.1 with
      | some schema => rfl
      | none =>
        rw [Option.map_none, Option.isNone_none, Bool.true_and]
        by_cases hproto : m.1 = protoName
        · simp only [if_pos hproto, decide_eq_true hproto, if_true]
        · simp only [if_neg hproto, decide_eq_false hproto, Bool.false_eq_true, if_false]
  | _ => simp [validateSchemaNode]

theorem prefix_validateSchemaNode (schema : Schema ν) (value : Value ν) (path : JsString)
    (errors : List JsString) (depth : ℕ) :
    errors <+: validateSchemaNode schema value path errors depth := by
  induction schema using Schema.induct generalizing value path errors depth with
  | h keywords items properties additional hitems hproperties hadditional =>
    rw [validateSchemaNode_eq]
    refine prefix_visit path errors depth ?_
    have hkeywords := List.prefix_append errors (keywordErrors keywords value path)
    split
    · exact List.prefix_append _ _
    · cases value with
      | arr values =>
        cases items with
        | none => exact hkeywords
        | some items =>
          exact hkeywords.trans (prefix_overCap (fun e _ errors => hitems _ rfl _ _ _ _) _)
      | obj members =>
        refine hkeywords.trans (prefix_overCap (fun m _ errors => ?_) _)
        rw [visitMember]
        split
        · exact prefix_visit _ _ _ List.prefix_rfl
        · split
          · exact List.prefix_append _ _
          · rename_i hschema
            exact schemaOf_sub hproperties hadditional hschema _ _ _ _
          · exact List.prefix_rfl
      | _ => exact hkeywords

theorem prefix_visitMember (properties : Option (List (JsString × Schema ν)))
    (additional : Option (Additional (Schema ν))) (m : JsString × Value ν) (path : JsString)
    (errors : List JsString) (depth : ℕ) :
    errors <+: visitMember properties additional m path errors depth := by
  rw [visitMember]
  split
  · exact prefix_visit _ _ _ List.prefix_rfl
  · split
    · exact List.prefix_append _ _
    · exact prefix_validateSchemaNode _ _ _ _ _
    · exact List.prefix_rfl

def Check.Passes (c : Check ν) : Prop := ¬ c.Strict ∧ ¬ c.Refused

theorem matchesJsonType_eq (type : JsonType) (value : Value ν) :
    matchesJsonType type value = hasType value type := by
  cases type <;> cases value <;> simp [matchesJsonType, hasType, primitive]

theorem typeErrors_eq_nil (type : Option TypeKeyword) (value : Value ν) (path : JsString) :
    typeErrors type value path = [] ↔ ∀ t, type = some t → t.holds value = true := by
  cases type with
  | none => simp [typeErrors]
  | some type =>
    cases type with
    | one type => simp [typeErrors, TypeKeyword.holds, matchesJsonType_eq]
    | any type types =>
      have hany : (type :: types).any (matchesJsonType · value) = (type :: types).any (hasType value) :=
        congrArg _ (funext fun type => matchesJsonType_eq type value)
      rw [typeErrors, hany]
      cases hholds : (type :: types).any (hasType value) with
      | true =>
        rw [if_pos rfl]
        refine iff_of_true rfl fun t ht => ?_
        rw [← Option.some.inj ht]
        exact hholds
      | false =>
        rw [if_neg Bool.false_ne_true]
        refine iff_of_false (List.cons_ne_nil _ _) fun hall => ?_
        have hany := hall _ rfl
        rw [TypeKeyword.holds, hholds] at hany
        cases hany

theorem refuse_eq_nil {α : Type} (keyword : Option α) (refuses : α → Bool) (message : α → JsString) :
    refuse keyword refuses message = [] ↔ ∀ a, keyword = some a → refuses a = false := by
  cases keyword <;> simp [refuse]

theorem passes_oneOf {values : List (Json ν)} {value : Value ν} (h : value.WellFormed) :
    (Check.oneOf values value).Passes ↔ (values.any fun e => deepEqualJson e.1 value) = true := by
  have hdeep : ∀ e : Json ν, stringify e.1 = stringify value → deepEq e.1 value = true := by
    intro e heq
    rw [stringify_injective e.2 h heq]
    exact deepEq_refl value h
  simp only [Check.Passes, Check.Strict, Check.Refused, List.any_eq_true, deepEqualJson,
    decide_eq_true_eq]
  constructor
  · rintro ⟨hstrict, hrefused⟩
    push Not at hstrict hrefused
    obtain ⟨e, he, hdeep⟩ := hrefused
    exact hstrict ⟨e, he, by simpa using hdeep⟩
  · rintro ⟨e, he, heq⟩
    exact ⟨fun hstrict => hstrict.2 e he heq,
      fun hrefused => by simpa [hdeep e heq] using hrefused e he⟩

theorem keywordErrors_eq_nil (keywords : Keywords ν) {value : Value ν} (h : value.WellFormed)
    (path : JsString) :
    typeErrors keywords.type value path = [] ∧ keywordErrors keywords value path = [] ↔
      ∀ c ∈ keywordChecks keywords value, c.Passes := by
  unfold keywordErrors keywordChecks
  simp only [List.forall_mem_append, forall_mem_map_toList, List.append_eq_nil_iff, refuse_eq_nil,
    typeErrors_eq_nil, passes_oneOf h]
  rw [← and_assoc, ← and_assoc, and_assoc, and_assoc, and_assoc, and_assoc]
  refine and_congr ?_ (and_congr ?_ (and_congr ?_ ?_))
  · simp [Check.Passes, Check.Strict, Check.Refused]
  · simp
  · simp
  · cases value with
    | str s =>
      have hle := codePoints_le s
      simp only [List.append_eq_nil_iff, refuse_eq_nil, List.forall_mem_append,
        forall_mem_map_toList, Check.Passes, Check.Strict, Check.Refused]
      cases keywords.minLength <;> cases keywords.maxLength <;> simp <;> omega
    | num n =>
      simp only [List.append_eq_nil_iff, refuse_eq_nil, List.forall_mem_append,
        forall_mem_map_toList]
      cases keywords.minimum <;> cases keywords.maximum <;>
        simp [Check.Passes, Check.Strict, Check.Refused]
    | arr values =>
      simp only [List.append_eq_nil_iff, refuse_eq_nil, List.forall_mem_append,
        forall_mem_map_toList]
      cases keywords.minItems <;> cases keywords.maxItems <;>
        simp [Check.Passes, Check.Strict, Check.Refused]
    | obj members =>
      simp [Check.Passes, Check.Strict, Check.Refused, List.flatMap_eq_nil_iff]
    | _ => simp

omit [JsNumber ν] in
theorem wellFormed_item {values : List (Value ν)} (h : WellFormedItems values) {value : Value ν}
    (hvalue : value ∈ values) : value.WellFormed := by
  induction values with
  | nil => cases hvalue
  | cons v values ih =>
    rw [WellFormedItems] at h
    obtain rfl | hvalue := List.mem_cons.mp hvalue
    · exact h.1
    · exact ih h.2 hvalue

omit [JsNumber ν] in
theorem wellFormed_member {members : List (JsString × Value ν)} (h : WellFormedMembers members)
    {m : JsString × Value ν} (hm : m ∈ members) : m.2.WellFormed := by
  induction members with
  | nil => cases hm
  | cons e members ih =>
    obtain ⟨key, v⟩ := e
    rw [WellFormedMembers] at h
    obtain rfl | hm := List.mem_cons.mp hm
    · exact h.1
    · exact ih h.2 hm

omit [JsNumber ν] in
theorem append_eq_iff {errors added result : List JsString} (h : errors ++ added <+: result) :
    result = errors ↔ added = [] ∧ result = errors ++ added := by
  constructor
  · rintro rfl
    have hlength := h.length_le
    rw [List.length_append] at hlength
    obtain rfl : added = [] := List.length_eq_zero_iff.mp (by omega)
    exact ⟨rfl, (List.append_nil _).symm⟩
  · rintro ⟨rfl, hresult⟩
    rw [hresult, List.append_nil]

theorem validateSchemaNode_eq_iff (keywords : Keywords ν) (items : Option (Schema ν))
    (properties : Option (List (JsString × Schema ν))) (additional : Option (Additional (Schema ν)))
    (value : Value ν) (path : JsString) {errors : List JsString}
    (h : errors.length < maxMcpValidationErrors) (depth : ℕ) :
    validateSchemaNode (.node keywords items properties additional) value path errors depth =
        errors ↔
      depth ≤ maxMcpSchemaDepth ∧
        (typeErrors keywords.type value path = [] ∧ keywordErrors keywords value path = []) ∧
        match value with
        | .arr values => ∀ schema, items = some schema → ∀ e ∈ values.zipIdx,
            validateSchemaNode schema e.1 (path ++ js "[" ++ NumberText.write e.2 ++ js "]") errors
              (depth + 1) = errors
        | .obj members => ∀ m ∈ members,
            visitMember properties additional m (path ++ js "." ++ m.1) errors (depth + 1) = errors
        | _ => True := by
  rw [validateSchemaNode_eq, visit_eq_iff h]
  refine and_congr_right fun _ => ?_
  have hkeywords := List.prefix_rfl (l := errors ++ keywordErrors keywords value path)
  by_cases htype : typeErrors keywords.type value path = []
  · rw [if_neg (by simp [htype])]
    cases value with
    | arr values =>
      cases items with
      | none =>
        simp [htype]
      | some items =>
        dsimp only
        rw [append_eq_iff (prefix_overCap (fun e _ errors => prefix_validateSchemaNode _ _ _ _ _) _)]
        simp only [htype, true_and, Option.some.injEq, forall_eq']
        refine and_congr_right fun hnil => ?_
        rw [hnil, List.append_nil]
        exact overCap_eq_iff (fun e _ errors => prefix_validateSchemaNode _ _ _ _ _) h
    | obj members =>
      dsimp only
      rw [append_eq_iff (prefix_overCap (fun m _ errors => prefix_visitMember _ _ _ _ _ _) _)]
      simp only [htype, true_and]
      refine and_congr_right fun hnil => ?_
      rw [hnil, List.append_nil]
      exact overCap_eq_iff (fun m _ errors => prefix_visitMember _ _ _ _ _ _) h
    | _ => simp [htype]
  · rw [if_pos htype]
    simp [htype]

theorem visitMember_eq_iff {properties : Option (List (JsString × Schema ν))}
    {additional : Option (Additional (Schema ν))} {m : JsString × Value ν} {path : JsString}
    {errors : List JsString} (h : errors.length < maxMcpValidationErrors) {depth : ℕ}
    (ih : ∀ schema, schemaOf properties additional m.1 = some (.sub schema) →
      (validateSchemaNode schema m.2 path errors depth = errors ↔
        ∀ c, Made schema m.2 depth c → c.Passes)) :
    visitMember properties additional m path errors depth = errors ↔
      if inherits properties m.1 then depth ≤ maxMcpSchemaDepth
      else
        match schemaOf properties additional m.1 with
        | some .refused => False
        | some (.sub schema) => ∀ c, Made schema m.2 depth c → c.Passes
        | none => True := by
  rw [visitMember]
  split
  · rw [visit_eq_iff h, and_iff_left rfl]
  · cases hschema : schemaOf properties additional m.1 with
    | none => simp
    | some found =>
      cases found with
      | refused => simp
      | sub schema => exact ih schema hschema

theorem accepts_iff (schema : Schema ν) : ∀ value : Value ν, value.WellFormed →
    ∀ (path : JsString) (errors : List JsString), errors.length < maxMcpValidationErrors →
      ∀ depth, (validateSchemaNode schema value path errors depth = errors ↔
        ∀ c, Made schema value depth c → c.Passes) := by
  induction schema using Schema.induct with
  | h keywords items properties additional hitems hproperties hadditional =>
    intro value hvalue path errors h depth
    rw [validateSchemaNode_eq_iff _ _ _ _ _ _ h, keywordErrors_eq_nil keywords hvalue]
    have hsub : ∀ members, value = .obj members → ∀ m ∈ members, ∀ schema,
        schemaOf properties additional m.1 = some (.sub schema) →
          (validateSchemaNode schema m.2 (path ++ js "." ++ m.1) errors (depth + 1) = errors ↔
            ∀ c, Made schema m.2 (depth + 1) c → c.Passes) := by
      rintro members rfl m hm schema hschema
      rw [Value.WellFormed] at hvalue
      exact schemaOf_sub hproperties hadditional hschema m.2 (wellFormed_member hvalue.2 hm) _ errors
        h (depth + 1)
    constructor
    · rintro ⟨hdepth, hkeywords, hrest⟩ c hmade
      cases hmade with
      | deep hdeep => omega
      | keyword hc => exact hkeywords c hc
      | item hmem hmade =>
        rw [Value.WellFormed] at hvalue
        obtain ⟨i, hi⟩ := List.getElem?_of_mem hmem
        have hindexed := hrest _ rfl _ (List.mk_mem_zipIdx_iff_getElem?.mpr hi)
        exact (hitems _ rfl _ (wellFormed_item hvalue hmem) _ errors h _).mp hindexed c hmade
      | member hm hown hschema hmade =>
        have hvisit := (visitMember_eq_iff h (hsub _ rfl _ hm)).mp (hrest _ hm)
        rw [hown, if_neg Bool.false_ne_true, hschema] at hvisit
        exact hvisit c hmade
      | unexpected hm hown hschema =>
        have hvisit := (visitMember_eq_iff h (hsub _ rfl _ hm)).mp (hrest _ hm)
        rw [hown, if_neg Bool.false_ne_true, hschema] at hvisit
        exact hvisit.elim
      | inherited hm hproto =>
        have hvisit := (visitMember_eq_iff h (hsub _ rfl _ hm)).mp (hrest _ hm)
        rw [if_pos hproto] at hvisit
        exact ⟨fun hstrict => by have := hstrict.1; omega, fun hrefused => by have := hrefused.1; omega⟩
    · intro hall
      refine ⟨?_, fun c hc => hall c (.keyword hc), ?_⟩
      · by_contra hdeep
        exact (hall .deep (.deep (Nat.lt_of_not_le hdeep))).1 trivial
      · cases value with
        | arr values =>
          rw [Value.WellFormed] at hvalue
          rintro schema rfl e he
          have hmem := List.fst_mem_of_mem_zipIdx he
          exact (hitems _ rfl _ (wellFormed_item hvalue hmem) _ errors h _).mpr
            fun c hmade => hall c (.item hmem hmade)
        | obj members =>
          intro m hm
          rw [visitMember_eq_iff h (hsub _ rfl m hm)]
          cases hproto : inherits properties m.1 with
          | true =>
            rw [if_pos rfl]
            obtain ⟨hstrict, hrefused⟩ := hall _ (.inherited hm hproto)
            by_contra hdeep
            cases hholds : validAt additional m.2 with
            | true => exact hstrict ⟨Nat.lt_of_not_le hdeep, hholds⟩
            | false => exact hrefused ⟨Nat.lt_of_not_le hdeep, hholds⟩
          | false =>
            rw [if_neg Bool.false_ne_true]
            cases hschema : schemaOf properties additional m.1 with
            | none => trivial
            | some found =>
              cases found with
              | refused => exact (hall _ (.unexpected hm hproto hschema)).2 rfl
              | sub schema => exact fun c hmade => hall c (.member hm hproto hschema hmade)
        | _ => trivial

/-! ## The two compared -/

def Agree (schema : Schema ν) (value : Value ν) : Prop :=
  (∃ c, Made schema value 0 c ∧ c.Refused) ∨
    ((∃ c, Made schema value 0 c ∧ c.Lenient) ↔ ∃ c, Made schema value 0 c ∧ c.Strict)

omit [JsNumber ν] in
theorem levelsOf_le {props : List (JsString × Schema ν)} {m : JsString × Schema ν} (hm : m ∈ props) :
    m.2.levels + 1 ≤ levelsOf props := by
  induction props with
  | nil => cases hm
  | cons e props ih =>
    obtain ⟨key, schema⟩ := e
    rw [levelsOf]
    obtain rfl | hm := List.mem_cons.mp hm
    · exact Nat.le_max_left _ _
    · exact (ih hm).trans (Nat.le_max_right _ _)

theorem deep_notMem_keywordChecks (keywords : Keywords ν) (value : Value ν) :
    Check.deep ∉ keywordChecks keywords value := by
  cases value <;> simp [keywordChecks]

theorem not_deep {schema : Schema ν} {value : Value ν} {depth : ℕ}
    (h : schema.levels + depth ≤ maxMcpSchemaDepth) : ¬ Made schema value depth .deep := by
  induction schema using Schema.induct generalizing value depth with
  | h keywords items properties additional hitems hproperties hadditional =>
    rw [Schema.levels.eq_def] at h
    dsimp only at h
    intro hmade
    cases hmade with
    | deep hdeep => omega
    | keyword hc => exact deep_notMem_keywordChecks keywords value hc
    | item hvalue hmade =>
      refine hitems _ rfl ?_ hmade
      dsimp only at h
      omega
    | @member _ _ _ _ _ _ m schema _ hm hown hschema hmade =>
      rw [schemaOf] at hschema
      cases hlookup : properties.bind (List.lookup m.1) with
      | some found =>
        rw [hlookup] at hschema
        obtain rfl : found = schema := by simpa using hschema
        obtain ⟨props, rfl, hprops⟩ := Option.bind_eq_some_iff.mp hlookup
        obtain ⟨before, after, rfl, -⟩ := List.lookup_eq_some_iff.mp hprops
        have hmem : (m.1, found) ∈ before ++ (m.1, found) :: after := by simp
        have hle := levelsOf_le hmem
        refine hproperties _ rfl _ hmem ?_ hmade
        dsimp only at h hle ⊢
        omega
      | none =>
        rw [hlookup] at hschema
        dsimp only at hschema
        subst hschema
        refine hadditional _ rfl ?_ hmade
        dsimp only at h
        omega

/-- **The walk is the specification**, for any schema and value, exactly where some check is refused
by both, or where each of them refuses something that the other accepts, or neither does. Schemas of
at most 64 levels are never too deep, and what the walk accepts without being valid has a check of
its own to blame, never a cap. -/
theorem validate_exact (schema : Schema ν) (value : Json ν) :
    ((validateMcpInput schema value = [] ↔ valid schema value.1 = true) ↔ Agree schema value.1) ∧
      (schema.levels ≤ maxMcpSchemaDepth → ¬ Made schema value.1 0 .deep) ∧
      (validateMcpInput schema value = [] →
        valid schema value.1 = true ∨ ∃ c, Made schema value.1 0 c ∧ c.Lenient) := by
  rw [validateMcpInput, accepts_iff schema value.1 value.2 (js "arguments") [] (by decide) 0,
    valid_iff schema value.1 0, Agree]
  have hpasses : (∀ c, Made schema value.1 0 c → c.Passes) ↔
      ¬ (∃ c, Made schema value.1 0 c ∧ c.Strict) ∧ ¬ ∃ c, Made schema value.1 0 c ∧ c.Refused := by
    simp only [Check.Passes, not_exists, not_and, ← forall_and]
  have hvalid : (∀ c, Made schema value.1 0 c → ¬ c.Lenient ∧ ¬ c.Refused) ↔
      ¬ (∃ c, Made schema value.1 0 c ∧ c.Lenient) ∧
        ¬ ∃ c, Made schema value.1 0 c ∧ c.Refused := by
    simp only [not_exists, not_and, ← forall_and]
  rw [hpasses, hvalid]
  refine ⟨?_, fun hlevels => not_deep hlevels, ?_⟩
  · by_cases hrefused : ∃ c, Made schema value.1 0 c ∧ c.Refused
    · exact iff_of_true (iff_of_false (fun h => h.2 hrefused) (fun h => h.2 hrefused)) (.inl hrefused)
    · rw [and_iff_left hrefused, and_iff_left hrefused, or_iff_right hrefused, not_iff_not]
      exact Iff.comm
  · rintro ⟨-, hrefused⟩
    by_cases hlenient : ∃ c, Made schema value.1 0 c ∧ c.Lenient
    · exact .inr hlenient
    · exact .inl ⟨hlenient, hrefused⟩

end Checks

/-! ## Examples -/

instance : JsNumber ℕ where
  isInteger _ := true

/-- `minLength: 2`. -/
def twoOrMore : Schema ℕ := .node { minLength := some 2 } none none none

/-- `const: { a: 1, b: 2 }`. -/
def constantPair : Schema ℕ :=
  .node { const := some ⟨.obj [(js "a", .num 1), (js "b", .num 2)],
    ⟨by decide, by decide⟩, trivial, trivial, trivial⟩ } none none none

/-- `properties: {}, additionalProperties: false`. -/
def noMember : Schema ℕ := .node {} none (some []) (some .refused)

theorem validate_exact_text :
    ((validateMcpInput twoOrMore ⟨.str (js "ab"), trivial⟩ = [] ↔
        valid twoOrMore (.str (js "ab")) = true) ↔ Agree twoOrMore (.str (js "ab"))) ∧
      ¬ Made twoOrMore (.str (js "ab")) 0 .deep ∧
      (valid twoOrMore (.str (js "ab")) = true ∨
        ∃ c, Made twoOrMore (.str (js "ab")) 0 c ∧ c.Lenient) :=
  have h := validate_exact twoOrMore ⟨.str (js "ab"), trivial⟩
  ⟨h.1, h.2.1 (by decide), h.2.2 (by decide +kernel)⟩

/-- Two units that are one code point are long enough for the walk, members in another order are
another value to it, and a member with the name of the prototype escapes it. -/
theorem verdicts_differ :
    (validateMcpInput twoOrMore ⟨.str [0xD83D, 0xDE00], trivial⟩ = [] ∧
        valid twoOrMore (.str [0xD83D, 0xDE00]) = false) ∧
      (validateMcpInput constantPair ⟨.obj [(js "b", .num 2), (js "a", .num 1)],
          ⟨by decide, by decide⟩, trivial, trivial, trivial⟩ ≠ [] ∧
        valid constantPair (.obj [(js "b", .num 2), (js "a", .num 1)]) = true) ∧
      validateMcpInput noMember ⟨.obj [(protoName, .num 1)],
          ⟨by decide, by decide⟩, trivial, trivial⟩ = [] ∧
        valid noMember (.obj [(protoName, .num 1)]) = false := by
  decide +kernel

end Daloy.Mcp
