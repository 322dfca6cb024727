import Daloy.Foundations.Fallible
import Daloy.Foundations.Unicode

/-! # Responses and their bodies

`readResponseBodyUpTo` of `src/internal-body.ts`. The names of header fields are in lower case, as
`Headers` gives them.

* `readResponseBodyUpTo_eq`: the bytes that are read are the body.
* `readResponseBodyUpTo_eq_error_iff`: the bodies that cannot be read.
-/

namespace Daloy.Http
set_option autoImplicit false

open Daloy.Fallible Daloy.Unicode

/-! ## Responses -/

inductive StreamEnd
  | closed
  | errored
  deriving DecidableEq

/-- A body as its reader sees it; `used` when it was read or locked before. -/
structure Body where
  chunks : List (List UInt8) := []
  ending : StreamEnd := .closed
  used : Bool := false
  deriving DecidableEq

def setCookie : JsString := js "set-cookie"

/-- Header fields in the order of `forEach`: one entry for each name, apart from `set-cookie`. -/
structure ResponseHeaders where
  entries : List (JsString × JsString) := []
  distinct : ((entries.filter fun e => e.1 ≠ setCookie).map Prod.fst).Nodup := by decide

def ResponseHeaders.empty : ResponseHeaders := {}

/-- `headers.get(name)`, for a name other than `set-cookie`. -/
def ResponseHeaders.get? (headers : ResponseHeaders) (name : JsString) : Option JsString :=
  (headers.entries.find? fun e => e.1 = name).map Prod.snd

/-- A response that `onSend` is given; `disconnect` when it was built for a client that left. -/
structure Response where
  status : ℕ
  headers : ResponseHeaders := .empty
  body : Option Body := none
  disconnect : Bool := false

def Response.bytes (res : Response) : List UInt8 :=
  match res.body with
  | some body => body.chunks.flatten
  | none => []

/-! ## Reading -/

inductive CaptureError
  | bodyUsed
  | streamError
  deriving DecidableEq

/-- The loop of `readResponseBodyUpTo`, with the bytes counted so far. -/
def readChunks (maxBytes : ℕ) (ending : StreamEnd) :
    ℕ → List (List UInt8) → Except CaptureError (Option (List UInt8))
  | _, [] =>
    match ending with
    | .closed => .ok (some [])
    | .errored => .error .streamError
  | total, chunk :: chunks =>
    if chunk.length = 0 then readChunks maxBytes ending total chunks
    else if maxBytes < total + chunk.length then .ok none
    else (readChunks maxBytes ending (total + chunk.length) chunks).map (Option.map (chunk ++ ·))

def readResponseBodyUpTo (body : Option Body) (maxBytes : ℕ) :
    Except CaptureError (Option (List UInt8)) :=
  match body with
  | none => .ok (some [])
  | some body =>
    if body.used then .error .bodyUsed else readChunks maxBytes body.ending 0 body.chunks

/-! ## What is read -/

theorem readChunks_eq {maxBytes : ℕ} {ending : StreamEnd} {total : ℕ} {chunks : List (List UInt8)}
    {buf : List UInt8} (h : readChunks maxBytes ending total chunks = .ok (some buf)) :
    buf = chunks.flatten := by
  induction chunks generalizing total buf with
  | nil =>
    cases ending with
    | closed => exact (Option.some.inj (Except.ok.inj h)).symm
    | errored => simp [readChunks] at h
  | cons chunk chunks ih =>
    rw [readChunks.eq_def] at h
    dsimp only at h
    split at h
    · next hempty =>
      rw [List.flatten_cons, List.eq_nil_of_length_eq_zero hempty, List.nil_append]
      exact ih h
    · split at h
      · simp at h
      · obtain ⟨rest, hrest, hbuf⟩ := map_eq_ok.mp h
        obtain ⟨tail, rfl, rfl⟩ := Option.map_eq_some_iff.mp hbuf
        rw [List.flatten_cons, ih hrest]

theorem readResponseBodyUpTo_eq {res : Response} {maxBytes : ℕ} {buf : List UInt8}
    (h : readResponseBodyUpTo res.body maxBytes = .ok (some buf)) : buf = res.bytes := by
  rw [readResponseBodyUpTo.eq_def] at h
  rw [Response.bytes]
  split at h
  · next hbody =>
    rw [hbody]
    exact (Option.some.inj (Except.ok.inj h)).symm
  · next body hbody =>
    rw [hbody]
    split at h
    · simp at h
    · exact readChunks_eq h

/-! ## What cannot be read -/

/-- Reading the body up to `maxBytes` meets no error. -/
def Response.Readable (res : Response) (maxBytes : ℕ) : Prop :=
  ∀ body ∈ res.body, body.used = false ∧
    (body.ending = .errored → maxBytes < body.chunks.flatten.length)

instance (res : Response) (maxBytes : ℕ) : Decidable (res.Readable maxBytes) :=
  inferInstanceAs (Decidable (∀ body ∈ res.body, _))

theorem readChunks_eq_error_iff {maxBytes : ℕ} {ending : StreamEnd} {total : ℕ}
    {chunks : List (List UInt8)} (htotal : total ≤ maxBytes) :
    (∃ err, readChunks maxBytes ending total chunks = .error err) ↔
      ending = .errored ∧ total + chunks.flatten.length ≤ maxBytes := by
  induction chunks generalizing total with
  | nil =>
    cases ending with
    | closed => simp [readChunks]
    | errored => simpa [readChunks] using htotal
  | cons chunk chunks ih =>
    rw [readChunks.eq_def]
    dsimp only
    split
    · next hempty =>
      rw [ih htotal, List.flatten_cons, List.length_append, hempty, Nat.zero_add]
    · rw [List.flatten_cons, List.length_append, ← Nat.add_assoc]
      split
      · next hover =>
        constructor
        · rintro ⟨err, h⟩
          simp at h
        · rintro ⟨-, hle⟩
          omega
      · next hle =>
        rw [← ih (Nat.le_of_not_lt hle)]
        cases readChunks maxBytes ending (total + chunk.length) chunks with
        | error err => simp [Except.map]
        | ok buf => simp [Except.map]

theorem readResponseBodyUpTo_eq_error_iff (res : Response) (maxBytes : ℕ) :
    (∃ err, readResponseBodyUpTo res.body maxBytes = .error err) ↔ ¬ res.Readable maxBytes := by
  rw [Response.Readable, readResponseBodyUpTo.eq_def]
  cases res.body with
  | none => simp
  | some body =>
    dsimp only
    split
    · next hused => simp [hused]
    · next hused =>
      rw [readChunks_eq_error_iff (Nat.zero_le _), Nat.zero_add]
      simp [hused]

theorem readChunks_eq_none {maxBytes : ℕ} {ending : StreamEnd} {total : ℕ}
    {chunks : List (List UInt8)} (h : readChunks maxBytes ending total chunks = .ok none) :
    maxBytes < total + chunks.flatten.length := by
  induction chunks generalizing total with
  | nil => cases ending <;> simp [readChunks] at h
  | cons chunk chunks ih =>
    rw [readChunks.eq_def] at h
    dsimp only at h
    rw [List.flatten_cons, List.length_append, ← Nat.add_assoc]
    split at h
    · next hempty =>
      rw [hempty, Nat.add_zero]
      exact ih h
    · split at h
      · next hlt => exact Nat.lt_of_lt_of_le hlt (Nat.le_add_right _ _)
      · obtain ⟨rest, hrest, hnone⟩ := map_eq_ok.mp h
        rw [Option.map_eq_none_iff] at hnone
        exact ih (hnone ▸ hrest)

theorem readResponseBodyUpTo_eq_none {res : Response} {maxBytes : ℕ}
    (h : readResponseBodyUpTo res.body maxBytes = .ok none) : maxBytes < res.bytes.length := by
  rw [readResponseBodyUpTo.eq_def] at h
  rw [Response.bytes]
  split at h
  · simp at h
  · next body hbody =>
    rw [hbody]
    split at h
    · simp at h
    · simpa using readChunks_eq_none h

end Daloy.Http
