import Daloy.Idempotency.Middleware

/-! # Orphaned reservations

`onSend` takes the marker of the reservation away before it reads the body and calls the store; the
finalizer of the request releases only what still has its marker.

* `captureResponse_eq_error_iff`: the bodies that cannot be captured.
-/

namespace Daloy.Idempotency
set_option autoImplicit false

open Daloy.Fallible Daloy.Http Daloy.Runs Daloy.Unicode

/-! ## Bodies that cannot be captured -/

theorem captureResponse_eq_error_iff (res : Response) (maxBytes : ℕ) :
    (∃ err, captureResponse res maxBytes = .error err) ↔ ¬ res.Readable maxBytes := by
  rw [← readResponseBodyUpTo_eq_error_iff, captureResponse]
  cases readResponseBodyUpTo res.body maxBytes with
  | error err => simp [bind, Except.bind]
  | ok buf => cases buf <;> simp [bind, Except.bind, pure, Except.pure]

theorem bytes_of_capture_none {res : Response} {maxBytes : ℕ}
    (h : captureResponse res maxBytes = .ok none) : maxBytes < res.bytes.length := by
  obtain ⟨buf, hread, h⟩ := bind_eq_ok.mp h
  cases buf with
  | none => exact readResponseBodyUpTo_eq_none hread
  | some buf => simp [pure, Except.pure] at h

/-! ## Settled runs -/

section
variable {σ : Type} {store : IdempotencyStore σ} {holds : σ → JsString → ℕ → Prop}
  {opts : IdempotencyOptions} {s : Server σ}

/-- The step meets no error: what `onSend` captures can be read, and the call it makes fulfils. -/
def Server.Settles (store : IdempotencyStore σ) (opts : IdempotencyOptions) (s : Server σ) :
    IdempotencyEvent → Prop
  | .onSend r res => ∀ pending ∈ (s.request r).pending,
      mustRelease opts res = true → (s.request r).abandoned = false →
        (store.release s.store pending.storeKey pending.token).2 = .ok ()
  | .captured r now => ∀ sent ∈ (s.request r).sending,
      sent.2.Readable opts.maxResponseBytes ∧
        (opts.maxResponseBytes < sent.2.bytes.length →
          (store.release s.store sent.1.storeKey sent.1.token).2 = .ok ()) ∧
        ∀ response, captureResponse sent.2 opts.maxResponseBytes = .ok (some response) →
          (store.complete s.store sent.1.storeKey (completedRecord opts sent.1 response now) now).2 =
            .ok ()
  | .runFinalizers r => ∀ pending ∈ (s.request r).pending,
      (store.release s.store pending.storeKey pending.token).2 = .ok ()
  | _ => True

def Server.Held (holds : σ → JsString → ℕ → Prop) (s : Server σ) : Prop :=
  ∀ key r, holds s.store key r → (s.request r).Owes key

structure Server.Tracked (holds : σ → JsString → ℕ → Prop) (s : Server σ) : Prop where
  held : s.Held holds
  tidy : ∀ r, (s.request r).Tidy r

namespace Server.Tracked

theorem update (h : s.Tracked holds) {s' : Server σ} {r : ℕ} {q : Request}
    (hrequest : s'.request = Function.update s.request r q)
    (hother : ∀ {key t}, t ≠ r → holds s'.store key t → holds s.store key t)
    (hself : ∀ {key}, holds s'.store key r → q.Owes key) : s'.Held holds := by
  intro key t hheld
  rw [hrequest, Function.update_apply]
  split
  · next ht => exact hself (ht ▸ hheld)
  · next ht => exact h.held key t (hother ht hheld)

theorem beforeHandle (hlawful : Lawful store holds) (h : s.Tracked holds) {r : ℕ}
    (hidle : (s.request r).phase = .idle) (key fingerprint : JsString) (now : ℤ) :
    (s.beforeHandle store opts r key fingerprint now).Held holds := by
  have hother {k : JsString} {t : ℕ} (ht : t ≠ r)
      (hheld : holds (store.reserve s.store key (inFlightRecord opts r fingerprint now) now).1 k t) :
      holds s.store k t := by
    rcases hlawful.reserve hheld with hheld | ⟨-, htoken, -⟩
    · exact hheld
    · exact absurd (Option.some.inj htoken).symm ht
  have hself {k : JsString}
      (hheld : holds (store.reserve s.store key (inFlightRecord opts r fingerprint now) now).1 k r) :
      k = key ∧
        (store.reserve s.store key (inFlightRecord opts r fingerprint now) now).2 = .ok none := by
    rcases hlawful.reserve hheld with hheld | ⟨hk, -, hresult⟩
    · have hbare := (h.tidy r).bare (by simp [hidle])
      exact absurd (h.held k r hheld) (hbare.not_owes (by simp [hidle]) k)
    · exact ⟨hk, hresult⟩
  refine h.update rfl hother ?_
  intro k hheld
  obtain ⟨rfl, hresult⟩ := hself hheld
  split
  · exact .inl ⟨fingerprint, congrArg _ hresult, rfl⟩
  · rw [hresult]
    exact .inr (.inl ⟨_, rfl, rfl⟩)

theorem resume (h : s.Tracked holds) {r : ℕ} {fingerprint : JsString}
    {result : Except StoreError (Option IdempotencyRecord)}
    (hphase : (s.request r).phase = .reserving fingerprint result) :
    (s.setRequest r ((s.request r).afterReserve opts r fingerprint result)).Held holds := by
  have hbare := (h.tidy r).bare (by simp [hphase])
  refine h.update rfl (fun _ hheld => hheld) ?_
  intro key hheld
  rcases h.held key r hheld with ⟨fingerprint', hreserving, hkey⟩ | ⟨pending, hmem, -⟩ | ⟨sent, hmem, -⟩
  · rw [hphase] at hreserving
    obtain ⟨-, rfl⟩ := Phase.reserving.inj hreserving
    exact .inr (.inl ⟨_, rfl, hkey⟩)
  · simp [hbare.pending] at hmem
  · simp [hbare.sending] at hmem

theorem released (hlawful : Lawful store holds) (h : s.Tracked holds) {r : ℕ}
    {pending : PendingReservation} (hmem : (s.request r).pending = some pending)
    (hok : (store.release s.store pending.storeKey pending.token).2 = .ok ()) (key : JsString) :
    ¬ holds (store.release s.store pending.storeKey pending.token).1 key r := by
  intro hheld
  have hkey := (h.tidy r).owes_pending hmem (h.held key r (hlawful.release hheld))
  have htoken : pending.token = r := by rw [((h.tidy r).pending pending hmem).1]
  rw [← hkey, ← htoken] at hheld
  exact hlawful.release_ok hok hheld

theorem onSend (hlawful : Lawful store holds) (h : s.Tracked holds) {r : ℕ} {res : Response}
    (hsettles : s.Settles store opts (.onSend r res)) : (s.onSend store opts r res).Held holds := by
  rw [Server.onSend.eq_def]
  split
  · exact h.held
  · next pending hmem =>
    split
    · exact h.held
    · next habandoned =>
      split
      · next hrelease =>
        have hlive : (s.request r).abandoned = false := by simpa [hrelease] using habandoned
        refine h.update rfl (fun _ hheld => hlawful.release hheld) ?_
        intro key hheld
        exact absurd hheld (h.released hlawful hmem (hsettles pending hmem hrelease hlive) key)
      · refine h.update rfl (fun _ hheld => hheld) ?_
        intro key hheld
        exact .inr (.inr ⟨_, rfl, (h.tidy r).owes_pending hmem (h.held key r hheld)⟩)

theorem captured (hlawful : Lawful store holds) (h : s.Tracked holds) {r : ℕ}
    {pending : PendingReservation} {res : Response} {now : ℤ}
    (hsent : (s.request r).sending = some (pending, res))
    (hsettles : s.Settles store opts (.captured r now)) :
    (s.captured store opts r pending res now).Held holds := by
  obtain ⟨hreadable, hrelease, hcomplete⟩ := hsettles _ hsent
  have htidy := h.tidy r
  have htoken : pending.token = r := congrArg PendingReservation.token (htidy.sending _ hsent).1
  rw [Server.captured]
  dsimp only
  split
  · next err herr => exact absurd hreadable ((captureResponse_eq_error_iff _ _).mp ⟨err, herr⟩)
  · next hnone =>
    refine h.update rfl (fun _ hheld => hlawful.release hheld) ?_
    intro key hheld
    have hkey := htidy.owes_sending hsent (h.held key r (hlawful.release hheld))
    rw [← hkey, ← htoken] at hheld
    exact absurd hheld (hlawful.release_ok (hrelease (bytes_of_capture_none hnone)))
  · next response hsome =>
    refine h.update rfl (fun _ hheld => hlawful.complete rfl hheld) ?_
    intro key hheld
    have hkey := htidy.owes_sending hsent (h.held key r (hlawful.complete rfl hheld))
    rw [← hkey] at hheld
    exact absurd hheld (hlawful.complete_ok (hcomplete response hsome) rfl (congrArg some htoken))

theorem runRequestFinalizers (hlawful : Lawful store holds) (h : s.Tracked holds) {r : ℕ}
    (hsettles : s.Settles store opts (.runFinalizers r)) :
    (s.runRequestFinalizers store r).Held holds := by
  rw [Server.runRequestFinalizers]
  split
  · dsimp only
    split
    · next hnone =>
      refine h.update rfl (fun _ hheld => hheld) ?_
      intro key hheld
      rcases h.held key r hheld with ⟨fingerprint, hreserving, hkey⟩ | ⟨pending, hmem, -⟩ | hsent
      · exact .inl ⟨fingerprint, hreserving, hkey⟩
      · rw [hnone] at hmem
        simp at hmem
      · exact .inr (.inr hsent)
    · next pending hmem =>
      refine h.update rfl (fun _ hheld => hlawful.release hheld) ?_
      intro key hheld
      exact absurd hheld (h.released hlawful hmem (hsettles pending hmem) key)
  · exact h.held

theorem step (hlawful : Lawful store holds) {s s' : Server σ} {event : IdempotencyEvent}
    (hsettles : s.Settles store opts event) (h : s.Tracked holds)
    (hstep : s.step store opts event = some s') : s'.Tracked holds := by
  refine ⟨?_, tidy_step h.tidy hstep⟩
  refine Server.step_cases (motive := fun event s' => s.Settles store opts event → s'.Held holds)
    ?_ ?_ ?_ ?_ ?_ ?_ hstep hsettles
  · exact fun r key fingerprint now hidle _ => h.beforeHandle hlawful hidle key fingerprint now
  · exact fun r fingerprint result hphase _ => h.resume hphase
  · exact fun r _ => h.update rfl (fun _ hheld => hheld) fun hheld => h.held _ r hheld
  · exact fun r res hsettles => h.onSend hlawful hsettles
  · exact fun r now pending res hsent hsettles => h.captured hlawful hsent hsettles
  · exact fun r hsettles => h.runRequestFinalizers hlawful hsettles

end Server.Tracked

/-- **Reservations are settled**: where the bodies can be read and the store's calls fulfil, the
store holds no reservation of a request whose finalizers have run and whose `onSend` is over. -/
theorem reservations_settled {σ : Type} {store : IdempotencyStore σ}
    {holds : σ → JsString → ℕ → Prop} (hlawful : Lawful store holds) (opts : IdempotencyOptions)
    {init : σ} (hempty : ∀ key r, ¬ holds init key r) {events : List IdempotencyEvent}
    {s : Server σ} (hrun : run (Server.step store opts) { store := init } events = some s)
    (hsettles : AllSteps (Server.step store opts) (Server.Settles store opts) { store := init } events)
    {r : ℕ} (hfinalized : (s.request r).finalized = true) (hsent : (s.request r).sending = none)
    (key : JsString) : ¬ holds s.store key r := by
  have hinit : Server.Tracked holds { store := init } := by
    refine ⟨fun key r hheld => absurd hheld (hempty key r), ?_⟩
    exact fun r => Request.Bare.tidy ⟨rfl, rfl, rfl, rfl⟩ r (by simp)
  have h := run_invariant (fun _ _ _ hsettles h hstep => h.step hlawful hsettles hstep)
    hinit hsettles hrun
  intro hheld
  exact (h.tidy r).not_owes hfinalized hsent key (h.held key r hheld)

end

/-! ## The store in memory -/

/-- What `onSend` captures can be read. -/
def Server.Captures {σ : Type} (opts : IdempotencyOptions) (s : Server σ) :
    IdempotencyEvent → Prop
  | .captured r _ => ∀ sent ∈ (s.request r).sending, sent.2.Readable opts.maxResponseBytes
  | _ => True

instance {σ : Type} (opts : IdempotencyOptions) (s : Server σ) (event : IdempotencyEvent) :
    Decidable (s.Captures opts event) :=
  match event with
  | .captured r _ => inferInstanceAs (Decidable (∀ sent ∈ (s.request r).sending, _))
  | .beforeHandle .. | .resume _ | .markAbandoned _ | .onSend .. | .runFinalizers _ => .isTrue trivial

theorem settles_of_captures {opts : IdempotencyOptions} {s : Server MemoryIdempotencyStore}
    {event : IdempotencyEvent} (h : s.Captures opts event) :
    s.Settles MemoryIdempotencyStore.store opts event := by
  cases event with
  | captured r now => exact fun sent hsent => ⟨h sent hsent, fun _ => rfl, fun _ _ => rfl⟩
  | onSend r res => exact fun _ _ _ _ => rfl
  | runFinalizers r => exact fun _ _ => rfl
  | beforeHandle r key fingerprint now => trivial
  | resume r => trivial
  | markAbandoned r => trivial

def orderAttempt (r : ℕ) (now : ℤ) : IdempotencyEvent :=
  .beforeHandle r (js "t=|s=|k=order-1") (js "order of ten") now

def handled (body : Body) : List IdempotencyEvent :=
  [orderAttempt 0 0, .onSend 0 { status := 200, body }, .captured 0 1, .runFinalizers 0]

theorem reservations_settled_example :
    ∃ s, run (Server.step MemoryIdempotencyStore.store {}) { store := {} }
        (handled { chunks := [[111, 107]] }) = some s ∧
      (s.request 0).reserved = true ∧
      ¬ s.store.Holds (js "t=|s=|k=order-1") 0 := by
  refine ⟨_, rfl, rfl, ?_⟩
  refine @reservations_settled _ _ _ MemoryIdempotencyStore.lawful {} {} ?_
    (handled { chunks := [[111, 107]] }) _ rfl ?_ _ rfl rfl _
  · rintro key r ⟨rec, hget, -⟩
    simp at hget
  · refine @allSteps_of_invariant _ _ _ _ _ (fun _ => True) (fun _ _ _ _ _ _ => trivial)
      (fun _ _ h _ => settles_of_captures h) _ _ trivial ?_
    decide

/-- A stream that errors while it is captured leaves its reservation behind: the retry is answered
with a conflict. -/
theorem errored_stream_orphans :
    ∃ s, run (Server.step MemoryIdempotencyStore.store {}) { store := {} }
        (handled { ending := .errored } ++ [orderAttempt 1 2]) = some s ∧
      (s.request 0).reserved = true ∧ (s.request 0).finalized = true ∧
      (s.request 0).sending = none ∧ s.store.Holds (js "t=|s=|k=order-1") 0 ∧
      (s.request 1).phase = .threw (stillProcessing {}) := by
  refine ⟨_, rfl, rfl, rfl, rfl, ⟨_, rfl, rfl, rfl⟩, rfl⟩

end Daloy.Idempotency
