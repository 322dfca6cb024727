import Daloy.Foundations.Runs
import Daloy.Idempotency.Stores
import Mathlib.Logic.Function.Basic

/-! # The idempotency middleware

The hooks of `idempotency` of `src/idempotency.ts` from the reservation on, for requests that carry
a store key and a fingerprint, with the finalizer that the dispatcher runs.

The capture of a response is awaited: it ends in a step of its own, `captured`. The answer of an
asynchronous store is read in a step of its own, `resume`.

The fields `key`, `fingerprint`, `reserved`, `finalized` and `completed` record what happened; no
hook reads them.
-/

namespace Daloy.Idempotency
set_option autoImplicit false

open Daloy.Http Daloy.Unicode

/-- What the hooks read of `IdempotencyOptions`. -/
structure IdempotencyOptions where
  headerName : JsString := js "idempotency-key"
  replayHeaderName : JsString := js "idempotency-replayed"
  ttlMs : ℕ := 86400000
  maxResponseBytes : ℕ := 1048576
  cacheableStatus : ℕ → Bool := fun status => status < 500

structure PendingReservation where
  storeKey : JsString
  fingerprint : JsString
  token : ℕ
  deriving DecidableEq

inductive HookError
  | unprocessable (detail : JsString)
  | conflict (detail : JsString)
  | store (err : StoreError)
  deriving DecidableEq

/-- Where `beforeHandle` stands: not called, waiting for the store, done, or thrown. A request that
`passed` goes on to the handler. -/
inductive Phase
  | idle
  | reserving (fingerprint : JsString) (result : Except StoreError (Option IdempotencyRecord))
  | threw (err : HookError)
  | replayed (response : Option ReplayResponse)
  | passed

/-- A request, with its slot on `ctx.state` and its finalizer. -/
structure Request where
  phase : Phase := .idle
  abandoned : Bool := false
  pending : Option PendingReservation := none
  registered : Bool := false
  sending : Option (PendingReservation × Response) := none
  key : JsString := []
  fingerprint : JsString := []
  reserved : Bool := false
  finalized : Bool := false

/-- The store, the requests, and the responses completed for each key, with who completed them. -/
structure Server (σ : Type) where
  store : σ
  request : ℕ → Request := fun _ => {}
  completed : JsString → List (ℕ × Response) := fun _ => []

/-! ## The hooks -/

def keyReused (opts : IdempotencyOptions) : HookError :=
  .unprocessable (js "The " ++ opts.headerName ++
    js " header was already used with a different request payload.")

def stillProcessing (opts : IdempotencyOptions) : HookError :=
  .conflict (js "A request with this " ++ opts.headerName ++
    js " is still being processed. Retry after it completes.")

def inFlightRecord (opts : IdempotencyOptions) (r : ℕ) (fingerprint : JsString) (now : ℤ) :
    IdempotencyRecord where
  fingerprint
  status := .inFlight
  createdAt := now
  expiresAt := now + opts.ttlMs
  token := some r

/-- What `beforeHandle` does with an existing record. -/
def answerExisting (opts : IdempotencyOptions) (fingerprint : JsString)
    (existing : IdempotencyRecord) : Phase :=
  if existing.fingerprint ≠ fingerprint then .threw (keyReused opts)
  else if existing.status = .inFlight then .threw (stillProcessing opts)
  else .replayed (existing.response.bind (buildReplayResponse · opts.replayHeaderName))

/-- `beforeHandle` behind the call of `reserve`. -/
def Request.afterReserve (q : Request) (opts : IdempotencyOptions) (r : ℕ) (fingerprint : JsString)
    (result : Except StoreError (Option IdempotencyRecord)) : Request :=
  match result with
  | .error err => { q with phase := .threw (.store err) }
  | .ok (some existing) => { q with phase := answerExisting opts fingerprint existing }
  | .ok none =>
    { q with
      phase := .passed
      pending := some ⟨q.key, fingerprint, r⟩
      registered := true
      reserved := true }

/-- `isDisconnectResponse(res) || !cacheableStatus(res.status)`. -/
def mustRelease (opts : IdempotencyOptions) (res : Response) : Bool :=
  res.disconnect || !opts.cacheableStatus res.status

def completedRecord (opts : IdempotencyOptions) (pending : PendingReservation)
    (response : StoredIdempotentResponse) (now : ℤ) : IdempotencyRecord where
  fingerprint := pending.fingerprint
  status := .completed
  response
  createdAt := now
  expiresAt := now + opts.ttlMs
  token := some pending.token

namespace Server
variable {σ : Type}

def setRequest (s : Server σ) (r : ℕ) (q : Request) : Server σ :=
  { s with request := Function.update s.request r q }

/-- `beforeHandle(ctx)`, from the call of `reserve`. -/
def beforeHandle (s : Server σ) (store : IdempotencyStore σ) (opts : IdempotencyOptions) (r : ℕ)
    (key fingerprint : JsString) (now : ℤ) : Server σ :=
  let result := store.reserve s.store key (inFlightRecord opts r fingerprint now) now
  let q := { s.request r with key, fingerprint }
  let q := if store.isAsync then { q with phase := .reserving fingerprint result.2 }
    else q.afterReserve opts r fingerprint result.2
  { s.setRequest r q with store := result.1 }

/-- `onSend(res, ctx)` up to the capture of the response. -/
def onSend (s : Server σ) (store : IdempotencyStore σ) (opts : IdempotencyOptions) (r : ℕ)
    (res : Response) : Server σ :=
  match (s.request r).pending with
  | none => s
  | some pending =>
    if mustRelease opts res ∧ (s.request r).abandoned then s
    else if mustRelease opts res then
      { s.setRequest r { s.request r with pending := none } with
        store := (store.release s.store pending.storeKey pending.token).1 }
    else s.setRequest r { s.request r with pending := none, sending := some (pending, res) }

/-- `onSend` behind the capture of the response. -/
def captured (s : Server σ) (store : IdempotencyStore σ) (opts : IdempotencyOptions) (r : ℕ)
    (pending : PendingReservation) (res : Response) (now : ℤ) : Server σ :=
  let s := s.setRequest r { s.request r with sending := none }
  match captureResponse res opts.maxResponseBytes with
  | .error _ => s
  | .ok none => { s with store := (store.release s.store pending.storeKey pending.token).1 }
  | .ok (some response) =>
    { s with
      store := (store.complete s.store pending.storeKey
        (completedRecord opts pending response now) now).1
      completed := Function.update s.completed pending.storeKey
        (s.completed pending.storeKey ++ [(r, res)]) }

def runRequestFinalizers (s : Server σ) (store : IdempotencyStore σ) (r : ℕ) : Server σ :=
  if (s.request r).registered then
    let s' := s.setRequest r { s.request r with
      registered := false
      pending := none
      finalized := true }
    match (s.request r).pending with
    | none => s'
    | some pending =>
      { s' with store := (store.release s.store pending.storeKey pending.token).1 }
  else s

end Server

/-! ## Steps -/

/-- What happens around the middleware, at the times at which it reads the clock. -/
inductive IdempotencyEvent
  | beforeHandle (r : ℕ) (key fingerprint : JsString) (now : ℤ)
  | resume (r : ℕ)
  | markAbandoned (r : ℕ)
  | onSend (r : ℕ) (res : Response)
  | captured (r : ℕ) (now : ℤ)
  | runFinalizers (r : ℕ)

/-- One step. `beforeHandle` is called once for a request. -/
def Server.step {σ : Type} (store : IdempotencyStore σ) (opts : IdempotencyOptions) (s : Server σ) :
    IdempotencyEvent → Option (Server σ)
  | .beforeHandle r key fingerprint now =>
    match (s.request r).phase with
    | .idle => some (s.beforeHandle store opts r key fingerprint now)
    | _ => none
  | .resume r =>
    match (s.request r).phase with
    | .reserving fingerprint result =>
      some (s.setRequest r ((s.request r).afterReserve opts r fingerprint result))
    | _ => none
  | .markAbandoned r => some (s.setRequest r { s.request r with abandoned := true })
  | .onSend r res => some (s.onSend store opts r res)
  | .captured r now =>
    match (s.request r).sending with
    | some (pending, res) => some (s.captured store opts r pending res now)
    | none => none
  | .runFinalizers r => some (s.runRequestFinalizers store r)

section
variable {σ : Type} {store : IdempotencyStore σ} {opts : IdempotencyOptions} {s : Server σ}

@[elab_as_elim]
theorem Server.step_cases {motive : IdempotencyEvent → Server σ → Prop}
    (beforeHandle : ∀ r key fingerprint now, (s.request r).phase = .idle →
      motive (.beforeHandle r key fingerprint now) (s.beforeHandle store opts r key fingerprint now))
    (resume : ∀ r fingerprint result, (s.request r).phase = .reserving fingerprint result →
      motive (.resume r)
        (s.setRequest r ((s.request r).afterReserve opts r fingerprint result)))
    (markAbandoned : ∀ r,
      motive (.markAbandoned r) (s.setRequest r { s.request r with abandoned := true }))
    (onSend : ∀ r res, motive (.onSend r res) (s.onSend store opts r res))
    (captured : ∀ r now pending res, (s.request r).sending = some (pending, res) →
      motive (.captured r now) (s.captured store opts r pending res now))
    (runFinalizers : ∀ r, motive (.runFinalizers r) (s.runRequestFinalizers store r))
    {event : IdempotencyEvent} {s' : Server σ} (hstep : s.step store opts event = some s') :
    motive event s' := by
  rw [Server.step.eq_def] at hstep
  cases event with
  | beforeHandle r key fingerprint now =>
    dsimp only at hstep
    split at hstep
    · next hidle => exact Option.some.inj hstep ▸ beforeHandle r key fingerprint now hidle
    · simp at hstep
  | resume r =>
    dsimp only at hstep
    split at hstep
    · next fingerprint result hphase =>
      exact Option.some.inj hstep ▸ resume r fingerprint result hphase
    · simp at hstep
  | markAbandoned r => exact Option.some.inj hstep ▸ markAbandoned r
  | onSend r res => exact Option.some.inj hstep ▸ onSend r res
  | captured r now =>
    dsimp only at hstep
    split at hstep
    · next pending res hsent => exact Option.some.inj hstep ▸ captured r now pending res hsent
    · simp at hstep
  | runFinalizers r => exact Option.some.inj hstep ▸ runFinalizers r

end

theorem Request.afterReserve_key (q : Request) (opts : IdempotencyOptions) (r : ℕ)
    (fingerprint : JsString) (result : Except StoreError (Option IdempotencyRecord)) :
    (q.afterReserve opts r fingerprint result).key = q.key := by
  rw [Request.afterReserve.eq_def]
  split <;> rfl

theorem beforeHandle_key {σ : Type} (s : Server σ) (store : IdempotencyStore σ)
    (opts : IdempotencyOptions) (r : ℕ) (key fingerprint : JsString) (now : ℤ) :
    ((s.beforeHandle store opts r key fingerprint now).request r).key = key := by
  rw [Server.beforeHandle]
  dsimp only [Server.setRequest]
  rw [Function.update_self]
  split
  · rfl
  · exact Request.afterReserve_key ..

/-! ## Requests -/

/-- The reservation of `key` is still the request's to settle. -/
def Request.Owes (q : Request) (key : JsString) : Prop :=
  (∃ fingerprint, q.phase = .reserving fingerprint (.ok none) ∧ q.key = key) ∨
    (∃ pending ∈ q.pending, pending.storeKey = key) ∨ ∃ sent ∈ q.sending, sent.1.storeKey = key

/-- The marker, the capture and the finalizer of request `r` fit together. -/
structure Request.Tidy (q : Request) (r : ℕ) : Prop where
  pending : ∀ pending ∈ q.pending,
    pending = ⟨q.key, q.fingerprint, r⟩ ∧ q.registered = true ∧ q.sending = none
  sending : ∀ sent ∈ q.sending, sent.1 = ⟨q.key, q.fingerprint, r⟩ ∧ q.phase = .passed
  registered : q.registered = true → q.phase = .passed
  finalized : q.finalized = true → q.phase = .passed ∧ q.pending = none
  reserving : ∀ {fingerprint result}, q.phase = .reserving fingerprint result →
    fingerprint = q.fingerprint

/-- No hook has left anything at the request. -/
structure Request.Bare (q : Request) : Prop where
  pending : q.pending = none
  sending : q.sending = none
  registered : q.registered = false
  finalized : q.finalized = false

namespace Request.Tidy
variable {q : Request} {r : ℕ}

theorem of_pending (h : q.Tidy r) {pending : PendingReservation}
    (hpending : q.pending = some pending) : q.phase = .passed :=
  h.registered (h.pending pending hpending).2.1

theorem bare (h : q.Tidy r) (hphase : q.phase ≠ .passed) : q.Bare where
  pending := by
    rw [Option.eq_none_iff_forall_not_mem]
    exact fun pending hmem => hphase (h.of_pending hmem)
  sending := by
    rw [Option.eq_none_iff_forall_not_mem]
    exact fun sent hmem => hphase (h.sending sent hmem).2
  registered := by
    rw [Bool.eq_false_iff]
    exact fun hr => hphase (h.registered hr)
  finalized := by
    rw [Bool.eq_false_iff]
    exact fun hf => hphase (h.finalized hf).1

theorem not_owes (h : q.Tidy r) (hfinalized : q.finalized = true) (hsending : q.sending = none)
    (key : JsString) : ¬ q.Owes key := by
  obtain ⟨hphase, hpending⟩ := h.finalized hfinalized
  rintro (⟨fingerprint, hreserving, -⟩ | ⟨pending, hmem, -⟩ | ⟨sent, hmem, -⟩)
  · rw [hphase] at hreserving
    simp at hreserving
  · simp [hpending] at hmem
  · simp [hsending] at hmem

theorem owes_pending (h : q.Tidy r) {pending : PendingReservation}
    (hpending : q.pending = some pending) {key : JsString} (howes : q.Owes key) :
    pending.storeKey = key := by
  rcases howes with ⟨fingerprint, hreserving, -⟩ | ⟨pending', hmem, hkey⟩ | ⟨sent, hmem, -⟩
  · rw [h.of_pending hpending] at hreserving
    simp at hreserving
  · rw [hpending] at hmem
    obtain rfl := Option.some.inj hmem
    exact hkey
  · rw [(h.pending pending hpending).2.2] at hmem
    simp at hmem

theorem owes_sending (h : q.Tidy r) {sent : PendingReservation × Response}
    (hsending : q.sending = some sent) {key : JsString} (howes : q.Owes key) :
    sent.1.storeKey = key := by
  rcases howes with ⟨fingerprint, hreserving, -⟩ | ⟨pending, hmem, -⟩ | ⟨sent', hmem, hkey⟩
  · rw [(h.sending sent hsending).2] at hreserving
    simp at hreserving
  · have hnone := (h.pending pending hmem).2.2
    rw [hsending] at hnone
    simp at hnone
  · rw [hsending] at hmem
    obtain rfl := Option.some.inj hmem
    exact hkey

/-! The steps of a request behind `beforeHandle` -/

theorem abandon (h : q.Tidy r) : { q with abandoned := true }.Tidy r :=
  ⟨h.pending, h.sending, h.registered, h.finalized, h.reserving⟩

theorem drop (h : q.Tidy r) : { q with pending := none }.Tidy r :=
  ⟨by simp, h.sending, h.registered, fun hf => ⟨(h.finalized hf).1, rfl⟩, h.reserving⟩

theorem send (h : q.Tidy r) {pending : PendingReservation} (hpending : q.pending = some pending)
    (res : Response) : { q with pending := none, sending := some (pending, res) }.Tidy r := by
  refine ⟨by simp, ?_, h.registered, fun hf => ⟨(h.finalized hf).1, rfl⟩, h.reserving⟩
  rintro sent ⟨⟩
  exact ⟨(h.pending pending hpending).1, h.of_pending hpending⟩

theorem sent (h : q.Tidy r) : { q with sending := none }.Tidy r :=
  ⟨fun p hp => ⟨(h.pending p hp).1, (h.pending p hp).2.1, rfl⟩, by simp, h.registered, h.finalized,
    h.reserving⟩

theorem finalize (h : q.Tidy r) (hregistered : q.registered = true) :
    { q with registered := false, pending := none, finalized := true }.Tidy r :=
  ⟨by simp, h.sending, by simp, fun _ => ⟨h.registered hregistered, rfl⟩, h.reserving⟩

end Request.Tidy

namespace Request.Bare
variable {q : Request}

theorem not_owes (h : q.Bare) (hphase : ∀ fingerprint result, q.phase ≠ .reserving fingerprint result)
    (key : JsString) : ¬ q.Owes key := by
  rintro (⟨fingerprint, hreserving, -⟩ | ⟨pending, hmem, -⟩ | ⟨sent, hmem, -⟩)
  · exact hphase _ _ hreserving
  · simp [h.pending] at hmem
  · simp [h.sending] at hmem

theorem tidy (h : q.Bare) (r : ℕ)
    (hreserving : ∀ {fingerprint result}, q.phase = .reserving fingerprint result →
      fingerprint = q.fingerprint) : q.Tidy r :=
  ⟨by simp [h.pending], by simp [h.sending], by simp [h.registered], by simp [h.finalized],
    hreserving⟩

theorem setPhase (h : q.Bare) (phase : Phase) : { q with phase }.Bare :=
  ⟨h.pending, h.sending, h.registered, h.finalized⟩

theorem afterReserve (h : q.Bare) (opts : IdempotencyOptions) (r : ℕ)
    (result : Except StoreError (Option IdempotencyRecord)) :
    (q.afterReserve opts r q.fingerprint result).Tidy r := by
  rw [Request.afterReserve.eq_def]
  split
  · exact (h.setPhase _).tidy r (by simp)
  · next existing =>
    refine (h.setPhase _).tidy r ?_
    intro fingerprint result hphase
    dsimp only at hphase
    rw [answerExisting] at hphase
    split at hphase
    · simp at hphase
    · split at hphase <;> simp at hphase
  · refine ⟨?_, by simp [h.sending], fun _ => rfl, by simp [h.finalized], by simp⟩
    rintro pending ⟨⟩
    exact ⟨rfl, rfl, h.sending⟩

theorem call (h : q.Bare) (key fingerprint : JsString) : { q with key, fingerprint }.Bare :=
  ⟨h.pending, h.sending, h.registered, h.finalized⟩

end Request.Bare

section
variable {σ : Type} {store : IdempotencyStore σ} {opts : IdempotencyOptions} {s : Server σ}

theorem tidy_update (h : ∀ r, (s.request r).Tidy r) {s' : Server σ} {r : ℕ} {q : Request}
    (hrequest : s'.request = Function.update s.request r q) (htidy : q.Tidy r) (t : ℕ) :
    (s'.request t).Tidy t := by
  rw [hrequest, Function.update_apply]
  split
  · next ht => exact ht ▸ htidy
  · exact h t

theorem tidy_step {s' : Server σ} {event : IdempotencyEvent} (h : ∀ r, (s.request r).Tidy r)
    (hstep : s.step store opts event = some s') : ∀ r, (s'.request r).Tidy r := by
  refine Server.step_cases (motive := fun _ s' => ∀ r, (s'.request r).Tidy r) ?_ ?_ ?_ ?_ ?_ ?_ hstep
  · intro r key fingerprint now hidle
    have hcalled := ((h r).bare (by simp [hidle])).call key fingerprint
    rw [Server.beforeHandle]
    dsimp only
    split
    · refine tidy_update h rfl ((hcalled.setPhase _).tidy r ?_)
      intro fingerprint' result hphase
      exact (Phase.reserving.inj hphase).1.symm
    · exact tidy_update h rfl (hcalled.afterReserve opts r _)
  · intro r fingerprint result hphase
    obtain rfl := (h r).reserving hphase
    exact tidy_update h rfl (((h r).bare (by simp [hphase])).afterReserve opts r result)
  · intro r
    exact tidy_update h rfl (h r).abandon
  · intro r res
    rw [Server.onSend.eq_def]
    split
    · exact h
    · next pending hmem =>
      split
      · exact h
      · split
        · exact tidy_update h rfl (h r).drop
        · exact tidy_update h rfl ((h r).send hmem res)
  · intro r now pending res hsent
    rw [Server.captured]
    dsimp only
    split <;> exact tidy_update h rfl (h r).sent
  · intro r
    rw [Server.runRequestFinalizers]
    split
    · next hr =>
      dsimp only
      split <;> exact tidy_update h rfl ((h r).finalize hr)
    · exact h

end

end Daloy.Idempotency
