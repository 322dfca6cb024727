import Daloy.Idempotency.Orphans

/-! # Idempotent requests run once

Runs of the middleware over the store in memory.

* `RunsOnce`: what holds of a key while nothing of it expires or is evicted.
-/

namespace Daloy.Idempotency
set_option autoImplicit false

open Daloy.Http Daloy.Runs Daloy.Unicode

/-- The reservation of `key` by request `r` is open: the request still owes it, or the store holds
it. -/
def Server.Unsettled (s : Server MemoryIdempotencyStore) (key : JsString) (r : ℕ) : Prop :=
  (s.request r).Owes key ∨ s.store.Holds key r

/-- The step finds the record of its key unexpired, or has room for a new one. -/
def Server.Keeps (s : Server MemoryIdempotencyStore) : IdempotencyEvent → Prop
  | .beforeHandle _ key _ now => (∀ rec ∈ s.store.map.get? key, now < rec.expiresAt) ∧
      (s.store.map.get? key = none → s.store.map.size < s.store.maxEntries)
  | _ => True

instance (s : Server MemoryIdempotencyStore) (event : IdempotencyEvent) :
    Decidable (s.Keeps event) :=
  match event with
  | .beforeHandle _ key _ now => inferInstanceAs (Decidable
      ((∀ rec ∈ s.store.map.get? key, now < rec.expiresAt) ∧
        (s.store.map.get? key = none → s.store.map.size < s.store.maxEntries)))
  | .resume _ | .markAbandoned _ | .onSend .. | .captured .. | .runFinalizers _ => .isTrue trivial

structure Replays (opts : IdempotencyOptions) (replay : ReplayResponse) (res : Response) : Prop where
  status : replay.status = res.status
  body : replay.body = res.bytes
  headers : ∀ name, name ∉ neverReplayedHeaders → name ≠ opts.replayHeaderName →
    replay.headers.get? name = res.headers.get? name

structure Server.RunsOnce (opts : IdempotencyOptions) (s : Server MemoryIdempotencyStore)
    (key : JsString) : Prop where
  one : ∀ {r r'}, s.Unsettled key r → s.Unsettled key r' → r = r'
  /-- A request that arrives during flight. -/
  inFlight : ∀ {r t fingerprint now}, s.Unsettled key t → (s.request r).phase = .idle →
    s.Keeps (.beforeHandle r key fingerprint now) →
      ((s.beforeHandle MemoryIdempotencyStore.store opts r key fingerprint now).request r).phase =
        .threw (if fingerprint ≠ (s.request t).fingerprint then keyReused opts
          else stillProcessing opts)
  /-- A request that arrives behind the first completed response. -/
  completed : ∀ {r t fingerprint now res rest}, s.completed key = (t, res) :: rest →
    (s.request r).phase = .idle → s.Keeps (.beforeHandle r key fingerprint now) →
      if fingerprint ≠ (s.request t).fingerprint then
        ((s.beforeHandle MemoryIdempotencyStore.store opts r key fingerprint now).request r).phase =
          .threw (keyReused opts)
      else ∃ replay, Replays opts replay res ∧
        ((s.beforeHandle MemoryIdempotencyStore.store opts r key fingerprint now).request r).phase =
          .replayed (some replay)
  /-- Every replay, early or late. -/
  replays : ∀ {r answer}, (s.request r).phase = .replayed answer → (s.request r).key = key →
    ∃ t res rest replay, s.completed key = (t, res) :: rest ∧ answer = some replay ∧
      Replays opts replay res
  /-- No request reaches the handler behind the first completed response. -/
  settled : s.completed key ≠ [] → ∀ {events s'},
    run (Server.step MemoryIdempotencyStore.store opts) s events = some s' →
    AllSteps (Server.step MemoryIdempotencyStore.store opts) Server.Keeps s events →
      ∀ {r}, (s.request r).phase = .idle → (s'.request r).key = key →
        (s'.request r).phase ≠ .passed

def IdempotencyEvent.settler : IdempotencyEvent → Option ℕ
  | .onSend r _ | .captured r _ | .runFinalizers r => some r
  | _ => none

/-- What a request still does leaves the record of another reservation of its key alone. -/
def Server.LeavesOthers (opts : IdempotencyOptions) (s : Server MemoryIdempotencyStore) : Prop :=
  ∀ event s' r rec, event.settler = some r →
    s.step MemoryIdempotencyStore.store opts event = some s' →
      s.store.map.get? (s.request r).key = some rec → rec.token ≠ some r →
        s'.store.map.get? (s.request r).key = some rec

variable {opts : IdempotencyOptions} {s s' : Server MemoryIdempotencyStore}

/-! ## Records of other reservations -/

/-- Every record says who reserved it. -/
structure Server.Stamped (s : Server MemoryIdempotencyStore) : Prop where
  tidy : ∀ r, (s.request r).Tidy r
  tokens : ∀ key, ∀ rec ∈ s.store.map.get? key, rec.token ≠ none

namespace Server.Stamped

theorem shrink {st : MemoryIdempotencyStore} (h : s.Stamped)
    (hget : ∀ k, st.map.get? k = s.store.map.get? k ∨ st.map.get? k = none) :
    ∀ key, ∀ rec ∈ st.map.get? key, rec.token ≠ none := by
  intro key rec hrec
  rcases hget key with hsame | hnone
  · exact h.tokens key rec (hsame ▸ hrec)
  · rw [hnone] at hrec
    simp at hrec

theorem put {st : MemoryIdempotencyStore} (h : s.Stamped) {key : JsString}
    {record : IdempotencyRecord} (hrecord : record.token ≠ none)
    (hself : st.map.get? key = some record)
    (hget : ∀ k, k ≠ key → st.map.get? k = s.store.map.get? k ∨ st.map.get? k = none) :
    ∀ key, ∀ rec ∈ st.map.get? key, rec.token ≠ none := by
  intro k rec hrec
  by_cases hk : k = key
  · rw [hk, hself] at hrec
    exact Option.some.inj hrec ▸ hrecord
  · rcases hget k hk with hsame | hnone
    · exact h.tokens k rec (hsame ▸ hrec)
    · rw [hnone] at hrec
      simp at hrec

theorem release (h : s.Stamped) (key : JsString) (token : ℕ) :
    ∀ k, ∀ rec ∈ (s.store.releaseIfToken key token).map.get? k, rec.token ≠ none := by
  rcases s.store.releaseIfToken_spec key token with ⟨_, -, -, -, hsame⟩ | hspec
  · rw [hsame]
    exact h.tokens
  · apply h.shrink
    intro k
    rw [hspec]
    split
    · exact .inr rfl
    · exact .inl rfl

theorem step (h : s.Stamped) {event : IdempotencyEvent}
    (hstep : s.step MemoryIdempotencyStore.store opts event = some s') : s'.Stamped := by
  refine ⟨tidy_step h.tidy hstep, ?_⟩
  refine Server.step_cases
    (motive := fun _ s' => ∀ key, ∀ rec ∈ s'.store.map.get? key, rec.token ≠ none)
    ?_ ?_ ?_ ?_ ?_ ?_ hstep
  · intro r key fingerprint now _
    show ∀ k, ∀ rec ∈ (s.store.reserve key (inFlightRecord opts r fingerprint now) now).1.map.get? k,
      rec.token ≠ none
    rcases s.store.reserve_spec key (inFlightRecord opts r fingerprint now) now with
      ⟨rec, -, hsame⟩ | ⟨-, hself, hother⟩
    · rw [hsame]
      exact h.tokens
    · exact h.put (by simp [inFlightRecord]) hself hother
  · exact fun _ _ _ _ => h.tokens
  · exact fun _ => h.tokens
  · intro r res
    rw [Server.onSend.eq_def]
    split
    · exact h.tokens
    · split
      · exact h.tokens
      · split
        · exact h.release _ _
        · exact h.tokens
  · intro r now pending res _
    rw [Server.captured]
    dsimp only
    split
    · exact h.tokens
    · exact h.release _ _
    · next response _ =>
      show ∀ k, ∀ rec ∈ (s.store.complete pending.storeKey
        (completedRecord opts pending response now) now).map.get? k, rec.token ≠ none
      rcases s.store.complete_spec pending.storeKey (completedRecord opts pending response now) now
        with ⟨_, -, -, -, -, hsame⟩ | ⟨hself, hother⟩
      · rw [hsame]
        exact h.tokens
      · exact h.put (by simp [completedRecord]) hself hother
  · intro r
    rw [Server.runRequestFinalizers]
    split
    · dsimp only
      split
      · exact h.tokens
      · exact h.release _ _
    · exact h.tokens

theorem leavesOthers (h : s.Stamped) : s.LeavesOthers opts := by
  intro event s' r rec hsettler hstep hget hne
  have htoken := h.tokens _ rec hget
  have hrelease {pending : PendingReservation}
      (hpending : pending = ⟨(s.request r).key, (s.request r).fingerprint, r⟩) :
      s.store.releaseIfToken pending.storeKey pending.token = s.store := by
    rw [hpending]
    exact MemoryIdempotencyStore.releaseIfToken_other hget htoken hne
  refine Server.step_cases (motive := fun event s' => event.settler = some r →
    s'.store.map.get? (s.request r).key = some rec) ?_ ?_ ?_ ?_ ?_ ?_ hstep hsettler
  · exact fun _ _ _ _ _ hsettler => absurd hsettler (by simp [IdempotencyEvent.settler])
  · exact fun _ _ _ _ _ => hget
  · exact fun _ _ => hget
  · rintro _ res ⟨⟩
    rw [Server.onSend.eq_def]
    split
    · exact hget
    · next pending hmem =>
      split
      · exact hget
      · split
        · show (s.store.releaseIfToken pending.storeKey pending.token).map.get? _ = _
          rw [hrelease ((h.tidy r).pending pending hmem).1]
          exact hget
        · exact hget
  · rintro _ now pending res hsent ⟨⟩
    have hpending := ((h.tidy r).sending _ hsent).1
    rw [Server.captured]
    dsimp only
    split
    · exact hget
    · show (s.store.releaseIfToken pending.storeKey pending.token).map.get? _ = _
      rw [hrelease hpending]
      exact hget
    · next response _ =>
      show (s.store.complete pending.storeKey (completedRecord opts pending response now) now).map.get?
        _ = _
      obtain rfl : pending = _ := hpending
      rw [MemoryIdempotencyStore.complete_other hget (by simp [completedRecord]) htoken hne.symm]
      exact hget
  · rintro _ ⟨⟩
    rw [Server.runRequestFinalizers]
    split
    · dsimp only
      split
      · exact hget
      · next pending hmem =>
        show (s.store.releaseIfToken pending.storeKey pending.token).map.get? _ = _
        rw [hrelease ((h.tidy r).pending pending hmem).1]
        exact hget
    · exact hget

end Server.Stamped

/-! ## Runs that keep their records -/

def Server.Accounts (opts : IdempotencyOptions) (s : Server MemoryIdempotencyStore)
    (key : JsString) : Option IdempotencyRecord → Prop
  | none => s.completed key = []
  | some rec => ∃ t, rec.token = some t ∧ (s.request t).phase ≠ .idle ∧
      rec.fingerprint = (s.request t).fingerprint ∧
        match rec.status with
        | .inFlight => s.completed key = []
        | .completed => ∃ res response, s.completed key = [(t, res)] ∧
            captureResponse res opts.maxResponseBytes = .ok (some response) ∧
              rec.response = some response

/-- The invariant: a request that owes a key is the one whose reservation the store holds, and what
the records say is true. -/
structure Server.Exact (opts : IdempotencyOptions) (s : Server MemoryIdempotencyStore) : Prop where
  tidy : ∀ r, (s.request r).Tidy r
  sync : ∀ r fingerprint result, (s.request r).phase ≠ .reserving fingerprint result
  owed : ∀ {key r}, (s.request r).Owes key → s.store.Holds key r
  records : ∀ key, s.Accounts opts key (s.store.map.get? key)
  replays : ∀ {r answer}, (s.request r).phase = .replayed answer → ∃ t res response,
    s.completed (s.request r).key = [(t, res)] ∧
      captureResponse res opts.maxResponseBytes = .ok (some response) ∧
        answer = buildReplayResponse response opts.replayHeaderName

theorem Server.Accounts.congr {key : JsString} {rec : Option IdempotencyRecord}
    (h : s.Accounts opts key rec) (hcompleted : s'.completed key = s.completed key)
    (hrequest : ∀ t, (s.request t).phase ≠ .idle → (s'.request t).phase ≠ .idle ∧
      (s'.request t).fingerprint = (s.request t).fingerprint) : s'.Accounts opts key rec := by
  cases rec with
  | none => exact hcompleted.trans h
  | some rec =>
    obtain ⟨t, htoken, hphase, hfingerprint, hstatus⟩ := h
    obtain ⟨hphase', hfingerprint'⟩ := hrequest t hphase
    refine ⟨t, htoken, hphase', hfingerprint.trans hfingerprint'.symm, ?_⟩
    rw [hcompleted]
    exact hstatus

theorem holds_unique {st : MemoryIdempotencyStore} {key : JsString} {r t : ℕ} (h : st.Holds key r)
    (h' : st.Holds key t) : r = t := by
  obtain ⟨rec, hget, -, htoken⟩ := h
  obtain ⟨rec', hget', -, htoken'⟩ := h'
  rw [hget] at hget'
  obtain rfl := Option.some.inj hget'
  rw [htoken] at htoken'
  exact Option.some.inj htoken'

namespace Server.Exact

theorem completed_of_holds (h : s.Exact opts) {key : JsString} {t : ℕ} (hholds : s.store.Holds key t) :
    s.completed key = [] := by
  obtain ⟨rec, hget, hstatus, -⟩ := hholds
  have hrecord := h.records key
  rw [hget] at hrecord
  obtain ⟨_, -, -, -, hcompleted⟩ := hrecord
  rw [hstatus] at hcompleted
  exact hcompleted

theorem record_of_completed (h : s.Exact opts) {key : JsString} (hne : s.completed key ≠ []) :
    ∃ rec t res response, s.store.map.get? key = some rec ∧ rec.status = .completed ∧
      rec.fingerprint = (s.request t).fingerprint ∧ s.completed key = [(t, res)] ∧
        captureResponse res opts.maxResponseBytes = .ok (some response) ∧
          rec.response = some response := by
  have hrecord := h.records key
  cases hget : s.store.map.get? key with
  | none =>
    rw [hget] at hrecord
    exact absurd hrecord hne
  | some rec =>
    rw [hget] at hrecord
    obtain ⟨t, -, -, hfingerprint, hstatus⟩ := hrecord
    cases hrec : rec.status with
    | inFlight =>
      rw [hrec] at hstatus
      exact absurd hstatus hne
    | completed =>
      rw [hrec] at hstatus
      obtain ⟨res, response, hcompleted, hcapture, hresponse⟩ := hstatus
      exact ⟨rec, t, res, response, rfl, hrec, hfingerprint, hcompleted, hcapture, hresponse⟩

/-! What one request does behind `beforeHandle` -/

theorem update (h : s.Exact opts) {r : ℕ} {q : Request}
    (hrequest : s'.request = Function.update s.request r q) (htidy : q.Tidy r)
    (hphase : q.phase = (s.request r).phase) (hkey : q.key = (s.request r).key)
    (hfingerprint : q.fingerprint = (s.request r).fingerprint)
    (howes : ∀ {key}, q.Owes key → s'.store.Holds key r)
    (hothers : ∀ {key t}, t ≠ r → s.store.Holds key t → s'.store.Holds key t)
    (hcompleted : ∀ key, s.completed key ≠ [] → s'.completed key = s.completed key)
    (hrecords : ∀ key, s'.store.map.get? key = s.store.map.get? key ∧
      s'.completed key = s.completed key ∨ s'.Accounts opts key (s'.store.map.get? key)) :
    s'.Exact opts := by
  have hsame (t : ℕ) : (s'.request t).phase = (s.request t).phase ∧
      (s'.request t).key = (s.request t).key ∧
        (s'.request t).fingerprint = (s.request t).fingerprint := by
    rw [hrequest, Function.update_apply]
    split
    · next ht => exact ht ▸ ⟨hphase, hkey, hfingerprint⟩
    · exact ⟨rfl, rfl, rfl⟩
  constructor
  · exact tidy_update h.tidy hrequest htidy
  · intro t fingerprint result
    rw [(hsame t).1]
    exact h.sync t fingerprint result
  · intro key t howed
    rw [hrequest, Function.update_apply] at howed
    split at howed
    · next ht => exact ht ▸ howes howed
    · next ht => exact hothers ht (h.owed howed)
  · intro key
    rcases hrecords key with ⟨hget, hsame'⟩ | hrecord
    · rw [hget]
      apply (h.records key).congr hsame'
      intro t ht
      exact ⟨(hsame t).1 ▸ ht, (hsame t).2.2⟩
    · exact hrecord
  · intro t answer hreplayed
    rw [(hsame t).1] at hreplayed
    obtain ⟨t', res, response, hdone, hrest⟩ := h.replays hreplayed
    rw [(hsame t).2.1]
    exact ⟨t', res, response, (hcompleted _ (by simp [hdone])).trans hdone, hrest⟩

theorem quiet (h : s.Exact opts) {r : ℕ} {q : Request} (htidy : q.Tidy r)
    (hphase : q.phase = (s.request r).phase) (hkey : q.key = (s.request r).key)
    (hfingerprint : q.fingerprint = (s.request r).fingerprint)
    (howes : ∀ {key}, q.Owes key → (s.request r).Owes key) : (s.setRequest r q).Exact opts :=
  h.update rfl htidy hphase hkey hfingerprint (fun howed => h.owed (howes howed))
    (fun _ hholds => hholds) (fun _ _ => rfl) fun _ => .inl ⟨rfl, rfl⟩

theorem release (h : s.Exact opts) {r : ℕ} {q : Request} (htidy : q.Tidy r)
    (hphase : q.phase = (s.request r).phase) (hkey : q.key = (s.request r).key)
    (hfingerprint : q.fingerprint = (s.request r).fingerprint) (howes : ∀ key, ¬ q.Owes key)
    {pending : PendingReservation} (htoken : pending.token = r)
    (hholds : s.store.Holds pending.storeKey r) :
    Server.Exact opts { s.setRequest r q with
      store := s.store.releaseIfToken pending.storeKey pending.token } := by
  obtain ⟨rec, hget, hstatus, hrec⟩ := hholds
  have hrelease : s.store.releaseIfToken pending.storeKey pending.token =
      { s.store with map := s.store.map.delete pending.storeKey } :=
    MemoryIdempotencyStore.releaseIfToken_some hget (htoken ▸ hrec)
  rw [hrelease]
  refine h.update rfl htidy hphase hkey hfingerprint (fun howed => absurd howed (howes _)) ?_
    (fun _ _ => rfl) ?_
  · rintro key t ht ⟨rec', hget', hstatus', hrec'⟩
    refine ⟨rec', ?_, hstatus', hrec'⟩
    dsimp only
    rw [JsMap.get?_delete, if_neg, hget']
    rintro rfl
    rw [hget] at hget'
    obtain rfl := Option.some.inj hget'
    rw [hrec] at hrec'
    exact ht (Option.some.inj hrec').symm
  · intro key
    dsimp only
    rw [JsMap.get?_delete]
    split
    · next hk =>
      right
      rw [hk]
      exact h.completed_of_holds ⟨rec, hget, hstatus, hrec⟩
    · exact .inl ⟨rfl, rfl⟩

theorem onSend (h : s.Exact opts) (r : ℕ) (res : Response) :
    (s.onSend MemoryIdempotencyStore.store opts r res).Exact opts := by
  have htidy := h.tidy r
  rw [Server.onSend.eq_def]
  split
  · exact h
  · next pending hmem =>
    obtain ⟨hpending, -, hsending⟩ := htidy.pending pending hmem
    split
    · exact h
    · split
      · refine h.release htidy.drop rfl rfl rfl ?_ (by rw [hpending])
          (h.owed (.inr (.inl ⟨pending, hmem, rfl⟩)))
        rintro key (⟨fingerprint, hphase, -⟩ | ⟨pending', hmem', -⟩ | ⟨sent, hmem', -⟩)
        · exact h.sync r _ _ hphase
        · simp at hmem'
        · simp [hsending] at hmem'
      · refine h.quiet (htidy.send hmem res) rfl rfl rfl ?_
        rintro key (howed | ⟨pending', hmem', -⟩ | ⟨sent, hmem', hkey⟩)
        · exact .inl howed
        · simp at hmem'
        · obtain rfl := Option.some.inj hmem'
          exact .inr (.inl ⟨pending, hmem, hkey⟩)

theorem complete (h : s.Exact opts) {r : ℕ} {q : Request} (htidy : q.Tidy r)
    (hphase : q.phase = (s.request r).phase) (hkey : q.key = (s.request r).key)
    (hfingerprint : q.fingerprint = (s.request r).fingerprint) (howes : ∀ key, ¬ q.Owes key)
    {pending : PendingReservation} (hpending : pending.fingerprint = (s.request r).fingerprint)
    (htoken : pending.token = r) (hpassed : (s.request r).phase ≠ .idle)
    (hholds : s.store.Holds pending.storeKey r) {res : Response}
    {response : StoredIdempotentResponse}
    (hcapture : captureResponse res opts.maxResponseBytes = .ok (some response)) (now : ℤ) :
    Server.Exact opts { s.setRequest r q with
      store := s.store.complete pending.storeKey (completedRecord opts pending response now) now
      completed := Function.update s.completed pending.storeKey
        (s.completed pending.storeKey ++ [(r, res)]) } := by
  have hnone := h.completed_of_holds hholds
  obtain ⟨rec, hget, hstatus, hrec⟩ := hholds
  have htoken' : rec.token = (completedRecord opts pending response now).token :=
    hrec.trans (congrArg some htoken).symm
  rw [MemoryIdempotencyStore.complete_some hget htoken']
  refine h.update rfl htidy hphase hkey hfingerprint (fun howed => absurd howed (howes _)) ?_ ?_ ?_
  · rintro key t ht ⟨rec', hget', hstatus', hrec'⟩
    refine ⟨rec', ?_, hstatus', hrec'⟩
    dsimp only
    rw [JsMap.get?_set, if_neg, hget']
    rintro rfl
    rw [hget] at hget'
    obtain rfl := Option.some.inj hget'
    rw [hrec] at hrec'
    exact ht (Option.some.inj hrec').symm
  · intro key hne
    dsimp only
    rw [Function.update_of_ne]
    rintro rfl
    exact hne hnone
  · intro key
    dsimp only
    by_cases hk : key = pending.storeKey
    · right
      rw [JsMap.get?_set, if_pos hk, hk]
      refine ⟨r, congrArg some htoken, ?_, ?_, res, response, ?_, hcapture, rfl⟩
      · dsimp only [Server.setRequest]
        rw [Function.update_self, hphase]
        exact hpassed
      · dsimp only [Server.setRequest, completedRecord]
        rw [Function.update_self, hfingerprint, hpending]
      · dsimp only
        rw [Function.update_self, hnone, List.nil_append]
    · left
      rw [JsMap.get?_set, if_neg hk, Function.update_of_ne hk]
      exact ⟨rfl, rfl⟩

theorem captured (h : s.Exact opts) {r : ℕ} {pending : PendingReservation} {res : Response}
    (hsent : (s.request r).sending = some (pending, res)) (now : ℤ) :
    (s.captured MemoryIdempotencyStore.store opts r pending res now).Exact opts := by
  have htidy := h.tidy r
  obtain ⟨hpending, hpassed⟩ := htidy.sending _ hsent
  have hholds : s.store.Holds pending.storeKey r := h.owed (.inr (.inr ⟨_, hsent, rfl⟩))
  have htoken : pending.token = r := congrArg PendingReservation.token hpending
  have howes (key : JsString) : ¬ { s.request r with sending := none }.Owes key := by
    rintro (⟨fingerprint, hphase, -⟩ | ⟨pending', hmem, -⟩ | ⟨sent, hmem, -⟩)
    · exact h.sync r _ _ hphase
    · have hnone := (htidy.pending _ hmem).2.2
      simp [hsent] at hnone
    · simp at hmem
  rw [Server.captured]
  dsimp only
  split
  · refine h.quiet htidy.sent rfl rfl rfl ?_
    exact fun howed => absurd howed (howes _)
  · exact h.release htidy.sent rfl rfl rfl howes htoken hholds
  · next response hcapture =>
    exact h.complete htidy.sent rfl rfl rfl howes (congrArg PendingReservation.fingerprint hpending)
      htoken (by simp [hpassed]) hholds hcapture now

theorem runRequestFinalizers (h : s.Exact opts) (r : ℕ) :
    (s.runRequestFinalizers MemoryIdempotencyStore.store r).Exact opts := by
  have htidy := h.tidy r
  rw [Server.runRequestFinalizers]
  split
  · next hregistered =>
    dsimp only
    split
    · next hnone =>
      refine h.quiet (htidy.finalize hregistered) rfl rfl rfl ?_
      rintro key (⟨fingerprint, hphase, -⟩ | ⟨pending, hmem, -⟩ | hsent)
      · exact absurd hphase (h.sync r _ _)
      · simp at hmem
      · exact .inr (.inr hsent)
    · next pending hmem =>
      obtain ⟨hpending, -, hsending⟩ := htidy.pending pending hmem
      refine h.release (htidy.finalize hregistered) rfl rfl rfl ?_ (by rw [hpending])
        (h.owed (.inr (.inl ⟨pending, hmem, rfl⟩)))
      rintro key (⟨fingerprint, hphase, -⟩ | ⟨pending', hmem', -⟩ | ⟨sent, hmem', -⟩)
      · exact h.sync r _ _ hphase
      · simp at hmem'
      · simp [hsending] at hmem'
  · exact h

end Server.Exact

/-! ## Requests that arrive -/

theorem beforeHandle_some {key : JsString} {rec : IdempotencyRecord}
    (hget : s.store.map.get? key = some rec) {now : ℤ} (hlive : now < rec.expiresAt) (r : ℕ)
    (fingerprint : JsString) :
    s.beforeHandle MemoryIdempotencyStore.store opts r key fingerprint now =
      s.setRequest r { s.request r with
        key, fingerprint, phase := answerExisting opts fingerprint rec } := by
  have hreserve := MemoryIdempotencyStore.reserve_some hget hlive
    (inFlightRecord opts r fingerprint now)
  rw [Server.beforeHandle]
  dsimp only [MemoryIdempotencyStore.store]
  rw [hreserve]
  rfl

theorem beforeHandle_none {key : JsString} (hget : s.store.map.get? key = none)
    (hroom : s.store.map.size < s.store.maxEntries) (r : ℕ) (fingerprint : JsString) (now : ℤ) :
    s.beforeHandle MemoryIdempotencyStore.store opts r key fingerprint now =
      { s.setRequest r { s.request r with
          key, fingerprint, phase := .passed, pending := some ⟨key, fingerprint, r⟩,
          registered := true, reserved := true } with
        store := { s.store with
          map := s.store.map.set key (inFlightRecord opts r fingerprint now) } } := by
  have hreserve := MemoryIdempotencyStore.reserve_none hget hroom
    (inFlightRecord opts r fingerprint now) now
  rw [Server.beforeHandle]
  dsimp only [MemoryIdempotencyStore.store]
  rw [hreserve]
  rfl

namespace Server.Exact

theorem beforeHandle (h : s.Exact opts) {r : ℕ} (hidle : (s.request r).phase = .idle)
    {key fingerprint : JsString} {now : ℤ}
    (hkeeps : s.Keeps (.beforeHandle r key fingerprint now)) :
    (s.beforeHandle MemoryIdempotencyStore.store opts r key fingerprint now).Exact opts := by
  have hbare := (h.tidy r).bare (by simp [hidle])
  have hcalled := hbare.call key fingerprint
  -- whoever is known to the records was called before
  have hknown (q : Request) (t : ℕ) (ht : (s.request t).phase ≠ .idle) :
      ((s.setRequest r q).request t).phase ≠ .idle ∧
        ((s.setRequest r q).request t).fingerprint = (s.request t).fingerprint := by
    have hne : t ≠ r := by
      rintro rfl
      exact ht hidle
    dsimp only [Server.setRequest]
    rw [Function.update_of_ne hne]
    exact ⟨ht, rfl⟩
  cases hget : s.store.map.get? key with
  | some rec =>
    have hanswer : (∃ err, answerExisting opts fingerprint rec = .threw err) ∨
        rec.status = .completed ∧ answerExisting opts fingerprint rec =
          .replayed (rec.response.bind (buildReplayResponse · opts.replayHeaderName)) := by
      rw [answerExisting]
      split
      · exact .inl ⟨_, rfl⟩
      · split
        · exact .inl ⟨_, rfl⟩
        · next hstatus =>
          cases hrec : rec.status with
          | inFlight => exact absurd hrec hstatus
          | completed => exact .inr ⟨rfl, rfl⟩
    have hanswered := hcalled.setPhase (answerExisting opts fingerprint rec)
    have hsync (fingerprint' : JsString) (result : Except StoreError (Option IdempotencyRecord)) :
        answerExisting opts fingerprint rec ≠ .reserving fingerprint' result := by
      rcases hanswer with ⟨err, heq⟩ | ⟨-, heq⟩ <;> simp [heq]
    rw [beforeHandle_some hget (hkeeps.1 rec hget)]
    constructor
    · exact tidy_update h.tidy rfl (hanswered.tidy r fun hphase => absurd hphase (hsync _ _))
    · intro t fingerprint' result
      dsimp only [Server.setRequest]
      rw [Function.update_apply]
      split
      · exact hsync fingerprint' result
      · exact h.sync t fingerprint' result
    · intro k t howed
      dsimp only [Server.setRequest] at howed
      rw [Function.update_apply] at howed
      split at howed
      · exact absurd howed (hanswered.not_owes hsync k)
      · exact h.owed howed
    · exact fun k => (h.records k).congr rfl (hknown _)
    · intro t answer hreplayed
      dsimp only [Server.setRequest] at hreplayed ⊢
      rw [Function.update_apply] at hreplayed ⊢
      split at hreplayed
      · next ht =>
        rw [if_pos ht]
        dsimp only at hreplayed ⊢
        rcases hanswer with ⟨err, heq⟩ | ⟨hstatus, heq⟩
        · rw [heq] at hreplayed
          simp at hreplayed
        · have hrecord := h.records key
          rw [hget] at hrecord
          obtain ⟨t', -, -, -, hdone⟩ := hrecord
          rw [hstatus] at hdone
          obtain ⟨res, response, hcompleted, hcapture, hresponse⟩ := hdone
          rw [heq, hresponse] at hreplayed
          exact ⟨t', res, response, hcompleted, hcapture, (Phase.replayed.inj hreplayed).symm⟩
      · next ht =>
        rw [if_neg ht]
        exact h.replays hreplayed
  | none =>
    have hnone : s.completed key = [] := by
      have hrecord := h.records key
      rw [hget] at hrecord
      exact hrecord
    rw [beforeHandle_none hget (hkeeps.2 hget)]
    constructor
    · exact tidy_update h.tidy rfl (hcalled.afterReserve opts r (.ok none))
    · intro t fingerprint' result
      dsimp only [Server.setRequest]
      rw [Function.update_apply]
      split
      · simp
      · exact h.sync t fingerprint' result
    · intro k t howed
      dsimp only [Server.setRequest] at howed
      rw [Function.update_apply] at howed
      split at howed
      · next ht =>
        rcases howed with ⟨fingerprint', hphase, -⟩ | ⟨pending, hmem, hk⟩ | ⟨sent, hmem, -⟩
        · simp at hphase
        · obtain rfl := Option.some.inj hmem
          refine ⟨inFlightRecord opts r fingerprint now, ?_, rfl, by rw [ht]; rfl⟩
          dsimp only
          rw [JsMap.get?_set, if_pos hk.symm]
        · simp [hbare.sending] at hmem
      · obtain ⟨rec, hrec, hstatus, htoken⟩ := h.owed howed
        refine ⟨rec, ?_, hstatus, htoken⟩
        dsimp only
        rw [JsMap.get?_set, if_neg, hrec]
        rintro rfl
        simp [hget] at hrec
    · intro k
      dsimp only
      rw [JsMap.get?_set]
      split
      · next hk =>
        refine ⟨r, rfl, ?_, ?_, ?_⟩
        · dsimp only [Server.setRequest]
          rw [Function.update_self]
          simp
        · dsimp only [Server.setRequest]
          rw [Function.update_self]
          rfl
        · exact hk ▸ hnone
      · exact (h.records k).congr rfl (hknown _)
    · intro t answer hreplayed
      dsimp only [Server.setRequest] at hreplayed ⊢
      rw [Function.update_apply] at hreplayed ⊢
      split at hreplayed
      · simp at hreplayed
      · next ht =>
        rw [if_neg ht]
        exact h.replays hreplayed

theorem step (h : s.Exact opts) {event : IdempotencyEvent} (hkeeps : s.Keeps event)
    (hstep : s.step MemoryIdempotencyStore.store opts event = some s') : s'.Exact opts := by
  refine Server.step_cases (motive := fun event s' => s.Keeps event → s'.Exact opts)
    ?_ ?_ ?_ ?_ ?_ ?_ hstep hkeeps
  · exact fun r key fingerprint now hidle hkeeps => h.beforeHandle hidle hkeeps
  · exact fun r fingerprint result hphase _ => absurd hphase (h.sync r fingerprint result)
  · exact fun r _ => h.quiet (h.tidy r).abandon rfl rfl rfl id
  · exact fun r res _ => h.onSend r res
  · exact fun r now pending res hsent _ => h.captured hsent now
  · exact fun r _ => h.runRequestFinalizers r

end Server.Exact

/-- Behind the first completed response of `key`, request `r` has not reached the handler. -/
structure Server.Over (opts : IdempotencyOptions) (key : JsString) (r : ℕ)
    (s : Server MemoryIdempotencyStore) : Prop where
  records : s.Exact opts
  completed : s.completed key ≠ []
  stopped : (s.request r).key = key → (s.request r).phase ≠ .passed

theorem Server.Over.step {key : JsString} {r : ℕ} (h : s.Over opts key r) {event : IdempotencyEvent}
    (hkeeps : s.Keeps event) (hstep : s.step MemoryIdempotencyStore.store opts event = some s') :
    s'.Over opts key r := by
  obtain ⟨h, hne, hr⟩ := h
  have hset {t : ℕ} {q : Request} (hphase : q.phase = (s.request t).phase)
      (hkey : q.key = (s.request t).key) : ((s.setRequest t q).request r).key = key →
        ((s.setRequest t q).request r).phase ≠ .passed := by
    dsimp only [Server.setRequest]
    rw [Function.update_apply]
    split
    · next hrt =>
      rw [hkey, hphase, ← hrt]
      exact hr
    · exact hr
  suffices hover : s'.completed key ≠ [] ∧
      ((s'.request r).key = key → (s'.request r).phase ≠ .passed) from
    ⟨h.step hkeeps hstep, hover.1, hover.2⟩
  refine Server.step_cases (motive := fun event s' => s.Keeps event → s'.completed key ≠ [] ∧
    ((s'.request r).key = key → (s'.request r).phase ≠ .passed)) ?_ ?_ ?_ ?_ ?_ ?_ hstep hkeeps
  · intro t key' fingerprint now hidle hkeeps
    refine ⟨hne, ?_⟩
    by_cases hrt : r = t
    · intro hkey
      have hkey' : key' = key := by
        rw [hrt, beforeHandle_key] at hkey
        exact hkey
      obtain ⟨rec, t', res, response, hget, hstatus, -⟩ := h.record_of_completed (hkey'.symm ▸ hne)
      rw [beforeHandle_some hget (hkeeps.1 rec hget)]
      dsimp only [Server.setRequest]
      rw [hrt, Function.update_self, answerExisting, hstatus]
      dsimp only
      split
      · simp
      · simp
    · have hsame : (s.beforeHandle MemoryIdempotencyStore.store opts t key' fingerprint now).request r =
          s.request r := Function.update_of_ne hrt _ _
      rw [hsame]
      exact hr
  · exact fun t fingerprint result hphase _ => absurd hphase (h.sync t fingerprint result)
  · exact fun t _ => ⟨hne, hset rfl rfl⟩
  · intro t res _
    rw [Server.onSend.eq_def]
    split
    · exact ⟨hne, hr⟩
    · split
      · exact ⟨hne, hr⟩
      · split
        · exact ⟨hne, hset rfl rfl⟩
        · exact ⟨hne, hset rfl rfl⟩
  · intro t now pending res _ _
    rw [Server.captured]
    dsimp only
    split
    · exact ⟨hne, hset rfl rfl⟩
    · exact ⟨hne, hset rfl rfl⟩
    · refine ⟨?_, hset rfl rfl⟩
      dsimp only
      rw [Function.update_apply]
      split
      · simp
      · exact hne
  · intro t _
    rw [Server.runRequestFinalizers]
    split
    · dsimp only
      split
      · exact ⟨hne, hset rfl rfl⟩
      · exact ⟨hne, hset rfl rfl⟩
    · exact ⟨hne, hr⟩

namespace Server.Exact

theorem runsOnce (h : s.Exact opts) (key : JsString) : s.RunsOnce opts key where
  one := by
    intro r r' hr hr'
    have hholds {t : ℕ} (ht : s.Unsettled key t) : s.store.Holds key t := ht.elim h.owed id
    exact holds_unique (hholds hr) (hholds hr')
  inFlight := by
    intro r t fingerprint now ht _ hkeeps
    obtain ⟨rec, hget, hstatus, htoken⟩ : s.store.Holds key t := ht.elim h.owed id
    have hfingerprint : rec.fingerprint = (s.request t).fingerprint := by
      have hrecord := h.records key
      rw [hget] at hrecord
      obtain ⟨t', htoken', -, hfingerprint, -⟩ := hrecord
      rw [htoken] at htoken'
      obtain rfl := Option.some.inj htoken'
      exact hfingerprint
    rw [beforeHandle_some hget (hkeeps.1 rec hget)]
    dsimp only [Server.setRequest]
    rw [Function.update_self, answerExisting, hfingerprint, hstatus]
    dsimp only
    by_cases hsame : fingerprint = (s.request t).fingerprint
    · rw [if_neg (not_not.mpr hsame), if_neg (not_not.mpr hsame.symm), if_pos rfl]
    · rw [if_pos hsame, if_pos (Ne.symm hsame)]
  completed := by
    intro r t fingerprint now res rest hdone _ hkeeps
    have hne : s.completed key ≠ [] := by simp [hdone]
    obtain ⟨rec, t', res', response, hget, hstatus, hfingerprint, hcompleted, hcapture, hresponse⟩ :=
      h.record_of_completed hne
    rw [hdone] at hcompleted
    obtain ⟨⟨rfl, rfl⟩, rfl⟩ : (t = t' ∧ res = res') ∧ rest = [] := by simpa using hcompleted
    obtain ⟨replay, hbuild, hreplay⟩ := buildReplayResponse_capture opts.replayHeaderName hcapture
    rw [beforeHandle_some hget (hkeeps.1 rec hget)]
    dsimp only [Server.setRequest]
    rw [Function.update_self, answerExisting, hfingerprint, hstatus, hresponse]
    dsimp only [Option.bind]
    by_cases hsame : fingerprint = (s.request t).fingerprint
    · rw [if_neg (not_not.mpr hsame), if_neg (not_not.mpr hsame.symm), if_neg (by simp), hbuild]
      exact ⟨replay, ⟨hreplay.1, hreplay.2.1, hreplay.2.2⟩, rfl⟩
    · rw [if_pos hsame, if_pos (Ne.symm hsame)]
  replays := by
    rintro r answer hreplayed rfl
    obtain ⟨t, res, response, hcompleted, hcapture, rfl⟩ := h.replays hreplayed
    obtain ⟨replay, hbuild, hreplay⟩ := buildReplayResponse_capture opts.replayHeaderName hcapture
    exact ⟨t, res, [], replay, hcompleted, hbuild, ⟨hreplay.1, hreplay.2.1, hreplay.2.2⟩⟩
  settled := by
    intro hne events s' hrun hkeeps r hidle
    have hstart : s.Over opts key r := ⟨h, hne, by simp [hidle]⟩
    have hover : s'.Over opts key r :=
      run_invariant (fun _ _ _ hkeeps h hstep => h.step hkeeps hstep) hstart hkeeps hrun
    exact hover.stopped

end Server.Exact

/-! ## Exactly once -/

/-- **Idempotent requests run once**: over a store in memory of any size, as long as no record of a
run expires or is evicted, every key has at most one open reservation, and its first completed
response is what every later request gets. In every run, an older reservation leaves the record of
another one alone. -/
theorem exactly_once (opts : IdempotencyOptions) (maxEntries : ℕ) {events : List IdempotencyEvent}
    {s : Server MemoryIdempotencyStore}
    (hrun : run (Server.step MemoryIdempotencyStore.store opts) { store := { maxEntries } } events =
      some s) :
    (AllSteps (Server.step MemoryIdempotencyStore.store opts) Server.Keeps
        { store := { maxEntries } } events → ∀ key, s.RunsOnce opts key) ∧
      s.LeavesOthers opts := by
  have htidy (r : ℕ) : (({ store := { maxEntries } } : Server MemoryIdempotencyStore).request r).Tidy r :=
    Request.Bare.tidy ⟨rfl, rfl, rfl, rfl⟩ r (by simp)
  constructor
  · intro hkeeps key
    have hinit : Server.Exact opts { store := { maxEntries } } := by
      refine ⟨htidy, by simp, ?_, ?_, by simp⟩
      · rintro key r (⟨_, hphase, -⟩ | ⟨_, hmem, -⟩ | ⟨_, hmem, -⟩)
        · simp at hphase
        · simp at hmem
        · simp at hmem
      · intro key
        rw [JsMap.get?_empty]
        exact rfl
    have h := run_invariant (fun _ _ _ hkeeps h hstep => Server.Exact.step h hkeeps hstep) hinit
      hkeeps hrun
    exact h.runsOnce key
  · have hinit : Server.Stamped { store := { maxEntries } } := by
      refine ⟨htidy, ?_⟩
      intro key rec hrec
      simp at hrec
    exact (run_invariant_all (fun _ _ _ h hstep => Server.Stamped.step h hstep) hinit hrun).leavesOthers

def threeAttempts : List IdempotencyEvent :=
  [orderAttempt 0 0, orderAttempt 1 1,
    .onSend 0 { status := 201, body := some { chunks := [[111, 107]] } }, .captured 0 2,
    .runFinalizers 0, orderAttempt 2 3]

theorem exactly_once_example :
    ∃ s, run (Server.step MemoryIdempotencyStore.store {}) { store := { maxEntries := 2 } }
        threeAttempts = some s ∧
      (s.request 1).phase = .threw (stillProcessing {}) ∧
      (∀ key, s.RunsOnce {} key) ∧ s.LeavesOthers {} := by
  refine ⟨_, rfl, rfl, ?_⟩
  have h := @exactly_once {} 2 threeAttempts _ rfl
  exact ⟨h.1 (by decide), h.2⟩

end Daloy.Idempotency
