import Daloy.Foundations.JsonParse
import Daloy.Foundations.Text

/-! # Log records

`toLogRecord`, of `src/otlp.ts`. Numbers of JSON are a parameter; times are in milliseconds.

* `severityOf`: the entry of `SEVERITY`, or `none` where it is read off `Object.prototype` and no
  iterable is found there.
* `lineFields`: what a line is taken apart into, whatever it is.
* `toLogRecord_eq_none`: it throws on the lines whose level is a name of `Object.prototype`, and on
  no others.
-/

namespace Daloy.Otlp
set_option autoImplicit false

open Daloy.Json Daloy.Text Daloy.Unicode

def logMaxFieldLength : ℕ := 8192

/-- `{ key, value: { stringValue } }`. -/
structure OtlpAttr where
  key : JsString
  stringValue : JsString
  deriving DecidableEq

structure OtlpLogRecord where
  timeUnixNano : JsString
  severityNumber : ℕ
  severityText : JsString
  body : JsString
  attributes : List OtlpAttr
  traceId : Option JsString
  spanId : Option JsString
  flags : Option ℕ
  deriving DecidableEq

def truncate (value : JsString) (max : ℕ) : JsString := value.take max

/-! ## Severity -/

def severity : List (JsString × ℕ × JsString) :=
  [(js "trace", 1, js "TRACE"), (js "debug", 5, js "DEBUG"), (js "info", 9, js "INFO"),
    (js "warn", 13, js "WARN"), (js "error", 17, js "ERROR"), (js "fatal", 21, js "FATAL")]

/-- The properties that every object literal inherits: functions, and the prototype itself. -/
def prototypeNames : List JsString :=
  [js "constructor", js "hasOwnProperty", js "isPrototypeOf", js "propertyIsEnumerable",
    js "toLocaleString", js "toString", js "valueOf", js "__proto__", js "__defineGetter__",
    js "__defineSetter__", js "__lookupGetter__", js "__lookupSetter__"]

/-- `const [severityNumber, severityText] = SEVERITY[level] ?? SEVERITY.info!`. -/
def severityOf (level : JsString) : Option (ℕ × JsString) :=
  match severity.lookup level with
  | some entry => some entry
  | none => if level ∈ prototypeNames then none else severity.lookup (js "info")

/-! ## Lines -/

/-- A digit or one of the letters `a` to `f`. -/
def isLowerHex (u : UInt16) : Bool := isDigit u || (0x61 ≤ u.toNat && u.toNat ≤ 0x66)

/-- `/^[0-9a-f]{n}$/.test(s)`. -/
def isHexOf (n : ℕ) (s : JsString) : Bool := s.length = n && s.all isLowerHex

/-- `Number.parseInt(s, 16)`, of such digits. -/
def parseHex (s : JsString) : ℕ := s.foldl (fun n u => n * 16 + (hexValue u).getD 0) 0

/-- What a line is taken apart into. -/
structure LineFields where
  level : JsString := js "info"
  body : JsString
  attributes : List OtlpAttr := []
  trace : Option (JsString × JsString) := none
  flags : Option ℕ := none

section Fields

variable {ν : Type}

/-- `a ?? b`. -/
def orElse (a b : Option (Value ν)) : Option (Value ν) :=
  match a with
  | none | some .null => b
  | some v => some v

def stringOf : Option (Value ν) → Option JsString
  | some (.str s) => some s
  | _ => none

def traceOf (members : List (JsString × Value ν)) : Option (JsString × JsString) :=
  match stringOf (members.lookup (js "trace_id")), stringOf (members.lookup (js "span_id")) with
  | some traceId, some spanId =>
    if isHexOf 32 traceId ∧ isHexOf 16 spanId then some (traceId, spanId) else none
  | _, _ => none

variable [NumberText ν]

def attributesOf (members : List (JsString × Value ν)) (traced : Bool) : List OtlpAttr :=
  members.filterMap fun (key, value) =>
    if key ∈ [js "level", js "msg", js "message"] then none
    else if traced ∧ key ∈ [js "trace_id", js "span_id", js "trace_flags"] then none
    else some ⟨key, truncate ((stringOf (some value)).getD (stringify value)) logMaxFieldLength⟩

def lineFields (ν : Type) [NumberText ν] (line : JsString) : LineFields :=
  match (parse line : Option (Value ν)) with
  | some (.obj members) =>
    let trace := traceOf members
    let msg := orElse (orElse (members.lookup (js "msg")) (members.lookup (js "message")))
      (members.lookup (js "event"))
    { level := (stringOf (members.lookup (js "level"))).getD (js "info")
      body := (stringOf msg).getD line
      attributes := attributesOf members trace.isSome
      trace
      flags := trace.bind fun _ =>
        ((stringOf (members.lookup (js "trace_flags"))).filter (isHexOf 2)).map parseHex }
  | _ => { body := line }

/-- The record of a line, or `none` where a `TypeError` is thrown. -/
def toLogRecord (ν : Type) [NumberText ν] (line : JsString) (nowMs : ℤ) : Option OtlpLogRecord :=
  let fields := lineFields ν line
  (severityOf fields.level).map fun (severityNumber, severityText) =>
    { timeUnixNano := integerText (nowMs * 1000000)
      severityNumber
      severityText
      body := truncate fields.body logMaxFieldLength
      attributes := fields.attributes
      traceId := fields.trace.map Prod.fst
      spanId := fields.trace.map Prod.snd
      flags := fields.flags }

end Fields

/-! ## Where it throws -/

theorem severityOf_eq_none {level : JsString} : severityOf level = none ↔ level ∈ prototypeNames := by
  have htable : ∀ name ∈ prototypeNames, severity.lookup name = none := by decide
  have hinfo : severity.lookup (js "info") ≠ none := by decide
  rw [severityOf]
  constructor
  · intro h
    split at h
    · simp at h
    · by_contra hnot
      rw [if_neg hnot] at h
      exact hinfo h
  · intro h
    rw [htable level h]
    exact if_pos h

theorem toLogRecord_eq_none {ν : Type} [NumberText ν] {line : JsString} {nowMs : ℤ} :
    toLogRecord ν line nowMs = none ↔ (lineFields ν line).level ∈ prototypeNames := by
  rw [toLogRecord, Option.map_eq_none_iff, severityOf_eq_none]

end Daloy.Otlp
