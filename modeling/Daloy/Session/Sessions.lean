import Daloy.Foundations.JsMap
import Daloy.Foundations.Runs
import Daloy.Foundations.Unicode
import Mathlib.Algebra.Ring.Int.Defs
import Mathlib.Logic.Function.Basic

/-! # Sessions

The hooks of `session` of `src/session.ts`, with the context that handlers are given, for one mount.
The data of a session is of any type; its cookie is given by the id that one of the signers has
verified, and no cookie is written.

A call of the store is a promise in flight: the store executes it in one step, and what is behind
its `await` runs in another. It may be rejected before or after it is executed. The store may lose a
record at any time, as it does when one expires.

The fields `born`, `owner` and `destroyed` record what happened; no hook reads them.
-/

namespace Daloy.Session
set_option autoImplicit false

open Daloy.Unicode

variable {δ : Type}

/-! ## The store -/

structure SessionRecord (δ : Type) where
  data : δ
  expiresAt : ℤ
  deriving DecidableEq

/-- Which of its optional methods a `SessionStore` implements. -/
structure SessionStore where
  hasUpdate : Bool
  hasTouch : Bool

inductive StoreOp (δ : Type)
  | get (sid : JsString)
  | set (sid : JsString) (record : SessionRecord δ)
  | update (sid : JsString) (record : SessionRecord δ)
  | touch (sid : JsString) (expiresAt : ℤ)
  | destroy (sid : JsString)

inductive Answer (δ : Type)
  | record (found : Option (SessionRecord δ))
  | written (existed : Bool)
  | done

abbrev Records (δ : Type) := JsString → Option (SessionRecord δ)

/-- What a store does when it executes a call: `update` and `touch` create no record. -/
def StoreOp.execute (op : StoreOp δ) (records : Records δ) : Records δ × Answer δ :=
  match op with
  | .get sid => (records, .record (records sid))
  | .set sid record => (Function.update records sid (some record), .done)
  | .update sid record =>
    match records sid with
    | some _ => (Function.update records sid (some record), .written true)
    | none => (records, .written false)
  | .touch sid expiresAt =>
    match records sid with
    | some found => (Function.update records sid (some { found with expiresAt }), .done)
    | none => (records, .done)
  | .destroy sid => (Function.update records sid none, .done)

/-! ## Requests and calls -/

structure SessionOptions where
  ttlMs : ℕ := 86400000
  rolling : Bool := true
  saveUninitialized : Bool := false

structure SessionInternal (δ : Type) where
  originalId : Option JsString
  activeId : JsString
  dirty : Bool := false
  destroyed : Bool := false
  regenerated : Bool := false
  created : Bool := false
  rawData : δ

/-- What waits for a call of the store: `beforeHandle`, `regenerate`, or a place in `onSend`. -/
inductive Job (δ : Type)
  | load (sid : JsString)
  | regenerate (sid : JsString) (keepData : Bool)
  | logout (sid : JsString)
  | update (sid : JsString) (record : SessionRecord δ)
  | reread (sid : JsString) (record : SessionRecord δ)
  | writeBack (sid : JsString) (record : SessionRecord δ)
  | create (sid : JsString) (record : SessionRecord δ)
  | touch (sid : JsString) (expiresAt : ℤ)
  | destroyOriginal (sid : JsString)

def Job.op : Job δ → StoreOp δ
  | .load sid => .get sid
  | .regenerate sid _ => .destroy sid
  | .logout sid => .destroy sid
  | .update sid record => .update sid record
  | .reread sid _ => .get sid
  | .writeBack sid record => .set sid record
  | .create sid record => .set sid record
  | .touch sid expiresAt => .touch sid expiresAt
  | .destroyOriginal sid => .destroy sid

/-- A call in flight, with its answer once the store has executed it. -/
structure PendingCall (δ : Type) where
  request : ℕ
  job : Job δ
  answer : Option (Answer δ) := none

structure Request (δ : Type) where
  began : Bool := false
  internal : Option (SessionInternal δ) := none
  sent : Bool := false

structure Server (δ : Type) where
  records : Records δ
  tombstones : JsMap JsString ℤ := ∅
  request : ℕ → Request δ := fun _ => {}
  calls : JsMap ℕ (PendingCall δ) := ∅
  born : JsString → Bool
  owner : JsString → Option ℕ := fun _ => none
  destroyed : List JsString := []

def Server.start (records : Records δ) : Server δ where
  records
  born sid := (records sid).isSome

/-! ## Tombstones -/

def maxSessionTombstones : ℕ := 10000

def addTombstone (opts : SessionOptions) (tombstones : JsMap JsString ℤ) (sid : JsString)
    (now : ℤ) : JsMap JsString ℤ :=
  let tombstones := tombstones.delete sid
  let tombstones := if maxSessionTombstones ≤ tombstones.size then
      match tombstones.entries with
      | [] => tombstones
      | oldest :: _ => tombstones.delete oldest.1
    else tombstones
  let tombstones := tombstones.set sid (now + opts.ttlMs)
  (tombstones.entries.takeWhile fun e => e.2 ≤ now).foldl (fun map e => map.delete e.1) tombstones

/-- `isTombstoned(sid)`: an expired tombstone is dropped. -/
def isTombstoned (tombstones : JsMap JsString ℤ) (sid : JsString) (now : ℤ) :
    JsMap JsString ℤ × Bool :=
  match tombstones.get? sid with
  | none => (tombstones, false)
  | some exp => if exp ≤ now then (tombstones.delete sid, false) else (tombstones, true)

namespace Server

def callStore (s : Server δ) (j r : ℕ) (job : Job δ) : Server δ :=
  { s with calls := s.calls.set j { request := r, job } }

def setInternal (s : Server δ) (r : ℕ) (internal : SessionInternal δ) : Server δ :=
  { s with request := Function.update s.request r { s.request r with internal := some internal } }

/-- The generator has returned `next` to request `r`. -/
def generated (s : Server δ) (next : JsString) (r : ℕ) : Server δ :=
  { s with owner := Function.update s.owner next (some r) }

variable [EmptyCollection δ]

/-! ## `beforeHandle` and the session context -/

/-- `beforeHandle` with no session in the store; it throws when the generator returns nothing. -/
def create (s : Server δ) (r : ℕ) (next : JsString) : Server δ :=
  if next = [] then s
  else (s.generated next r).setInternal r
    { originalId := none, activeId := next, created := true, rawData := ∅ }

/-- `beforeHandle(ctx)`, given the id of the session cookie. -/
def beforeHandle (s : Server δ) (r : ℕ) (candidate : Option JsString) (j : ℕ) (next : JsString) :
    Server δ :=
  let s := { s with request := Function.update s.request r { s.request r with began := true } }
  match candidate with
  | some sid => s.callStore j r (.load sid)
  | none => s.create r next

/-- `regenerate(keepData)` behind its call of `destroy`. -/
def rotate (s : Server δ) (r : ℕ) (internal : SessionInternal δ) (keepData : Bool)
    (next : JsString) : Server δ :=
  if next = [] then s
  else (s.generated next r).setInternal r
    { originalId := none
      activeId := next
      dirty := true
      destroyed := false
      regenerated := true
      created := false
      rawData := if keepData then internal.rawData else ∅ }

def regenerate (s : Server δ) (opts : SessionOptions) (r : ℕ) (internal : SessionInternal δ)
    (keepData : Bool) (j : ℕ) (next : JsString) (now : ℤ) : Server δ :=
  if internal.activeId ≠ [] ∧ internal.originalId = some internal.activeId then
    { s.callStore j r (.regenerate internal.activeId keepData) with
      tombstones := addTombstone opts s.tombstones internal.activeId now }
  else s.rotate r internal keepData next

def setData (s : Server δ) (r : ℕ) (internal : SessionInternal δ) (data : δ) : Server δ :=
  s.setInternal r { internal with rawData := data, dirty := true }

def destroy (s : Server δ) (r : ℕ) (internal : SessionInternal δ) : Server δ :=
  s.setInternal r { internal with rawData := ∅, destroyed := true, dirty := true }

/-! ## `onSend` -/

/-- The first call of `writeExisting(sid, record)`. -/
def writeExisting (store : SessionStore) (sid : JsString) (record : SessionRecord δ) : Job δ :=
  if store.hasUpdate then .update sid record else .reread sid record

/-- `onSend(res, ctx)` up to its first call of the store. -/
def onSend (s : Server δ) (store : SessionStore) (opts : SessionOptions) (r : ℕ) (j : ℕ) (now : ℤ) :
    Server δ :=
  let s := { s with request := Function.update s.request r { s.request r with sent := true } }
  match (s.request r).internal with
  | none => s
  | some internal =>
    if internal.destroyed then
      match internal.originalId with
      | some sid =>
        { s.callStore j r (.logout sid) with
          tombstones := addTombstone opts s.tombstones sid now }
      | none => s
    else
      let sid := internal.activeId
      let expiresAt := now + opts.ttlMs
      let initialized := internal.dirty || internal.regenerated || internal.originalId.isSome
      if !initialized && !opts.saveUninitialized then s
      else
        let mustPersist := internal.dirty || internal.created || internal.regenerated
        let loaded : Bool := internal.originalId = some sid
        let checked := if loaded then isTombstoned s.tombstones sid now else (s.tombstones, false)
        let s := { s with tombstones := checked.1 }
        if checked.2 then s
        else if mustPersist then
          if loaded then s.callStore j r (writeExisting store sid ⟨internal.rawData, expiresAt⟩)
          else s.callStore j r (.create sid ⟨internal.rawData, expiresAt⟩)
        else if opts.rolling then
          if store.hasTouch then s.callStore j r (.touch sid expiresAt)
          else s.callStore j r (writeExisting store sid ⟨internal.rawData, expiresAt⟩)
        else s

/-- `onSend` behind the write of `sid`. -/
def afterWrite (s : Server δ) (r : ℕ) (sid : JsString) (j : ℕ) : Server δ :=
  match (s.request r).internal with
  | none => s
  | some internal =>
    match internal.originalId with
    | some original =>
      if internal.regenerated ∧ original ≠ sid then s.callStore j r (.destroyOriginal original)
      else s
    | none => s

/-! ## Calls of the store -/

def execute (s : Server δ) (j : ℕ) (call : PendingCall δ) : Server δ :=
  let result := call.job.op.execute s.records
  { s with
    records := result.1
    calls := s.calls.set j { call with answer := some result.2 }
    born := match call.job.op with
      | .set sid _ => Function.update s.born sid true
      | _ => s.born
    destroyed := match call.job.op with
      | .destroy sid => sid :: s.destroyed
      | _ => s.destroyed }

/-- What is behind the `await` of a call that fulfilled. -/
def fulfilled (s : Server δ) (j r : ℕ) (next : JsString) (now : ℤ) : Job δ → Answer δ → Server δ
  | .load sid, .record (some found) =>
    if now < found.expiresAt then
      s.setInternal r { originalId := some sid, activeId := sid, rawData := found.data }
    else s.create r next
  | .load _, _ => s.create r next
  | .regenerate _ keepData, _ =>
    match (s.request r).internal with
    | some internal => s.rotate r internal keepData next
    | none => s
  | .logout _, _ => s
  | .update sid _, .written true => s.afterWrite r sid j
  | .update _ _, _ => s
  | .reread sid record, .record (some current) =>
    if now < current.expiresAt then s.callStore j r (.writeBack sid record) else s
  | .reread _ _, _ => s
  | .writeBack sid _, _ => s.afterWrite r sid j
  | .create sid _, _ => s.afterWrite r sid j
  | .touch sid _, _ => s.afterWrite r sid j
  | .destroyOriginal _, _ => s

end Server

/-! ## Steps -/

/-- What happens: `j` numbers the call that is made or answered, `next` is what the generator
returns if it is called. -/
inductive SessionEvent (δ : Type)
  | beforeHandle (r : ℕ) (candidate : Option JsString) (j : ℕ) (next : JsString)
  | setData (r : ℕ) (data : δ)
  | destroy (r : ℕ)
  | regenerate (r : ℕ) (keepData : Bool) (j : ℕ) (next : JsString) (now : ℤ)
  | onSend (r : ℕ) (j : ℕ) (now : ℤ)
  | execute (j : ℕ)
  | fulfil (j : ℕ) (next : JsString) (now : ℤ)
  | reject (j : ℕ)
  | lose (sid : JsString)

variable [EmptyCollection δ]

def Server.step (store : SessionStore) (opts : SessionOptions) (s : Server δ) :
    SessionEvent δ → Option (Server δ)
  | .beforeHandle r candidate j next =>
    if (s.request r).began = false ∧ s.calls.get? j = none then
      some (s.beforeHandle r candidate j next)
    else none
  | .setData r data => (s.request r).internal.map fun internal => s.setData r internal data
  | .destroy r => (s.request r).internal.map fun internal => s.destroy r internal
  | .regenerate r keepData j next now =>
    if s.calls.get? j = none then
      (s.request r).internal.map fun internal => s.regenerate opts r internal keepData j next now
    else none
  | .onSend r j now =>
    if (s.request r).sent = false ∧ s.calls.get? j = none then some (s.onSend store opts r j now)
    else none
  | .execute j =>
    match s.calls.get? j with
    | some call => if call.answer.isNone then some (s.execute j call) else none
    | none => none
  | .fulfil j next now =>
    match s.calls.get? j with
    | some call => call.answer.map fun answer =>
        { s with calls := s.calls.delete j }.fulfilled j call.request next now call.job answer
    | none => none
  | .reject j =>
    match s.calls.get? j with
    | some _ => some { s with calls := s.calls.delete j }
    | none => none
  | .lose sid => some { s with records := Function.update s.records sid none }

end Daloy.Session
