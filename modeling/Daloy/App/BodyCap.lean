import Daloy.App.CountedStreams
import Mathlib.Data.Rat.Init

/-! # The body cap of a request

`capRequestBody` of `src/app.ts`: the limits that are put on a request, and every way its body and
the bodies of its clones are read.

* `State`, `step`: limits, clones, readers and reads to the end in any order; `prefetch` is what a
  teed stream reads ahead.
* `run`: the states of a request that is capped before anything reads it.
-/

namespace Daloy.App.BodyCap
set_option autoImplicit false

open Daloy.App.CountedStreams

/-! ## Requests -/

/-- A request as it comes in. `declared` is `Number(content-length)` where that is finite, `cached`
the bytes that an adapter has buffered, `original` the chunks of its own body stream. -/
structure Incoming where
  isGetOrHead : Bool
  declared : Option ℚ
  cached : Option Chunk
  original : Option (List Chunk)
  cached_original : ∀ bytes, cached = some bytes → (original.getD []).flatten = bytes
  no_body : isGetOrHead = true → original = none

def Incoming.body (r : Incoming) : Chunk := (r.original.getD []).flatten

/-- `BodyCapState`, with what its readers close over. -/
structure Wrap where
  limit : ℕ
  cachedOverLimit : Bool
  opened : Bool

/-- A clone reads a branch of the stream at its height over the body. -/
structure Clone where
  height : ℕ
  branch : Branch

/-- `limit` is the limit in force. `touched` says that something has read the request itself,
`readerOpened` that a reader was opened on it. -/
structure State where
  request : Incoming
  limit : ℕ
  wrap : Option Wrap
  levels : List Level
  clones : List Clone
  touched : Bool
  readerOpened : Bool

def newBranch (early : Bool) (limit : ℕ) : Branch := ⟨0, .free, false, [], early, limit⟩

def sourceLevel (limit : ℕ) (chunks : List Chunk) : Level :=
  ⟨chunks.flatten.length, true, chunks, some .done, newBranch true limit⟩

def fresh (r : Incoming) (limit : ℕ) : State :=
  ⟨r, limit, none, r.original.elim [] fun chunks => [sourceLevel limit chunks], [], false,
    false⟩

def raise (limit : ℕ) (b : Branch) : Branch := { b with since := max b.since limit }

namespace State

/-- `byteCappedStream(source, state)` where there is a source. -/
def cover (s : State) (limit : ℕ) : List Level → List Level
  | [] => []
  | l :: below => ⟨0, false, [], none, newBranch (!s.touched) limit⟩ :: l :: below

/-! ## Limits -/

/-- A limit is in force from now on, for everything that is read later as well. -/
def enforce (s : State) (limit : ℕ) : State :=
  { s with
    limit := limit
    levels := s.levels.map fun l => { l with kept := raise limit l.kept }
    clones := s.clones.map fun c => { c with branch := raise limit c.branch } }

def capRequestBody (s : State) (limit : ℕ) : State :=
  let s := s.enforce limit
  if s.request.isGetOrHead then s
  else if s.request.cached.any (·.length ≤ limit) then s
  else match s.wrap, s.request.cached with
    | some w, none =>
      { s with
        wrap := some { w with limit := limit }
        levels := if limit < w.limit ∧ w.opened then s.cover limit s.levels else s.levels }
    | _, cached =>
      if s.request.declared = some 0 ∧ cached = none ∧ s.request.original = none then s
      else { s with wrap := some ⟨limit, cached.any (limit < ·.length), false⟩ }

def live (s : State) : ℕ := s.wrap.elim s.limit Wrap.limit

/-- `stream()`: the stream that the request is read from, which is made at the first call. -/
def stream (s : State) : Except ReadError State :=
  match s.wrap with
  | none => .ok s
  | some w =>
    if w.cachedOverLimit then .error (.payloadTooLarge w.limit)
    else if s.request.declared.any fun n => (w.limit : ℚ) < n then .error (.payloadTooLarge w.limit)
    else if w.opened then .ok s
    else .ok { s with wrap := some { w with opened := true }, levels := s.cover w.limit s.levels }

/-! ## Reads -/

def fuel (s : State) : ℕ := (s.request.original.getD []).length + 1

def upTo (s : State) (height : ℕ) : List Level := s.levels.drop (s.levels.length - height)

def withUpTo (s : State) (height : ℕ) (levels : List Level) : State :=
  { s with levels := s.levels.take (s.levels.length - height) ++ levels }

/-- A branch that is not to be read to the end or cloned: the platform's own body is spent by any
read, the request's wrapped one only while it is locked. -/
def isUnusable (s : State) (b : Branch) : Bool := b.lock ≠ .free || (s.wrap.isNone && b.used)

def spend (b : Branch) (result : Except ReadError (List Chunk)) : Branch :=
  match result with
  | .ok cs => { b with
    cursor := b.cursor + cs.length
    lock := .consumed
    used := true
    handed := b.handed ++ cs }
  | .error _ => { b with lock := .consumed, used := true }

/-- `bytes()`, which every method that reads the whole body rests on. -/
def readRequest (s : State) : Except ReadError Chunk × State :=
  match s.stream with
  | .error e => (.error e, s)
  | .ok s => match s.levels with
    | [] => (.ok [], s)
    | l :: _ =>
      if s.isUnusable l.kept then (.error .unusable, s)
      else match drain s.live s.fuel l.kept.cursor s.levels with
        | (result, []) => (result.map List.flatten, s)
        | (result, l :: below) =>
          (result.map List.flatten,
            { s with levels := { l with kept := spend l.kept result } :: below, touched := true })

def setClone (s : State) (i : ℕ) (branch : Branch) : State :=
  { s with clones := s.clones.modify i fun c => { c with branch := branch } }

def readClone (s : State) (i : ℕ) : Except ReadError Chunk × State :=
  match s.clones[i]? with
  | none => (.error .unusable, s)
  | some c =>
    if c.height = 0 then (.ok [], s)
    else if c.branch.lock ≠ .free || c.branch.used then (.error .unusable, s)
    else
      let (result, levels) := drain s.live s.fuel c.branch.cursor (s.upTo c.height)
      (result.map List.flatten,
        (s.withUpTo c.height levels).setClone i (spend c.branch result))

/-! ## Clones and readers -/

def cloneRequest (s : State) : Except ReadError Unit × State :=
  match s.stream with
  | .error e => (.error e, s)
  | .ok s => match s.levels with
    | [] => (.ok (), { s with clones := s.clones ++ [⟨0, newBranch (!s.touched) s.limit⟩] })
    | l :: _ =>
      if s.isUnusable l.kept then (.error .unusable, s)
      else
        let branch := { newBranch (!s.touched) s.limit with cursor := l.kept.cursor }
        (.ok (), { s with clones := s.clones ++ [⟨s.levels.length, branch⟩] })

def cloneClone (s : State) (i : ℕ) : Except ReadError Unit × State :=
  match s.clones[i]? with
  | none => (.error .unusable, s)
  | some c =>
    if c.height ≠ 0 ∧ (c.branch.lock ≠ .free ∨ c.branch.used) then (.error .unusable, s)
    else (.ok (), { s with clones := s.clones ++ [c] })

def setTopLock (s : State) (lock : Lock) : State :=
  match s.levels with
  | [] => s
  | l :: below => { s with levels := { l with kept := { l.kept with lock := lock } } :: below }

/-- `request.body.getReader()`. -/
def openRequest (s : State) : Except ReadError Unit × State :=
  match s.stream with
  | .error e => (.error e, s)
  | .ok s => match s.levels with
    | [] => (.error .unusable, s)
    | l :: _ =>
      if l.kept.lock ≠ .free then (.error .unusable, s)
      else (.ok (), { s.setTopLock .reader with touched := true, readerOpened := true })

/-- One `read()` of a reader of the request's stream at a height. -/
def takeRequest (s : State) (height : ℕ) : Got × State :=
  match s.upTo height with
  | [] => (.failed .unusable, s)
  | l :: below =>
    if l.kept.lock ≠ .reader then (.failed .unusable, s)
    else match next s.live (l :: below) with
      | (got, []) => (got, s)
      | (got, l :: below) =>
        (got, s.withUpTo height ({ l with kept := { l.kept with used := true } } :: below))

/-- `releaseLock()` of that reader. -/
def releaseRequest (s : State) (height : ℕ) : State :=
  match s.upTo height with
  | [] => s
  | l :: below =>
    if l.kept.lock ≠ .reader then s
    else s.withUpTo height ({ l with kept := { l.kept with lock := .free } } :: below)

def openClone (s : State) (i : ℕ) : Except ReadError Unit × State :=
  match s.clones[i]? with
  | none => (.error .unusable, s)
  | some c =>
    if c.height = 0 ∨ c.branch.lock ≠ .free then (.error .unusable, s)
    else (.ok (), s.setClone i { c.branch with lock := .reader })

def takeClone (s : State) (i : ℕ) : Got × State :=
  match s.clones[i]? with
  | none => (.failed .unusable, s)
  | some c =>
    if c.height = 0 ∨ c.branch.lock ≠ .reader then (.failed .unusable, s)
    else
      let levels := fill s.live c.branch.cursor (s.upTo c.height)
      let got := readAt c.branch.cursor levels
      (got, (s.withUpTo c.height levels).setClone i { c.branch.hand got with used := true })

def releaseClone (s : State) (i : ℕ) : State :=
  match s.clones[i]? with
  | none => s
  | some c => if c.branch.lock ≠ .reader then s else s.setClone i { c.branch with lock := .free }

def prefetch (s : State) (height : ℕ) : State :=
  if s.clones.any (·.height = height) then s.withUpTo height (fetch s.live (s.upTo height)) else s

end State

/-! ## Runs -/

inductive Op
  | cap (limit : ℕ)
  | readRequest | readClone (i : ℕ)
  | cloneRequest | cloneClone (i : ℕ)
  | openRequest | takeRequest (height : ℕ) | releaseRequest (height : ℕ)
  | openClone (i : ℕ) | takeClone (i : ℕ) | releaseClone (i : ℕ)
  | prefetch (height : ℕ)

def step (s : State) : Op → State
  | .cap limit => s.capRequestBody limit
  | .readRequest => s.readRequest.2
  | .readClone i => (s.readClone i).2
  | .cloneRequest => s.cloneRequest.2
  | .cloneClone i => (s.cloneClone i).2
  | .openRequest => s.openRequest.2
  | .takeRequest height => (s.takeRequest height).2
  | .releaseRequest height => s.releaseRequest height
  | .openClone i => (s.openClone i).2
  | .takeClone i => (s.takeClone i).2
  | .releaseClone i => s.releaseClone i
  | .prefetch height => s.prefetch height

def run (r : Incoming) (limit : ℕ) (ops : List Op) : State :=
  ops.foldl step ((fresh r limit).capRequestBody limit)

end Daloy.App.BodyCap
