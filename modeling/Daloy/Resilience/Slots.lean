import Daloy.Resilience.ConcurrencyLimit
import Mathlib.Data.Finset.Card
import Mathlib.Data.List.Sublists

/-! # Slots are never leaked nor oversubscribed

What holds of a limiter in every reachable state, whatever the order of the steps.

* `Limiter.view`: the bucket of a key, an empty one where the map has none.
* `Limiter.Inv`: the invariant. The counter of a bucket is the number of the requests that hold a
  slot, with one more for a slot that its request has just given back (`pending`).
-/

namespace Daloy.Resilience
set_option autoImplicit false

open Daloy.Unicode Daloy.Runs

/-! ## Requests -/

namespace Request

/-- The request has a slot of the bucket: handed over, or acquired and not yet released. -/
def HoldsSlot (q : Request) (key : JsString) : Prop :=
  q.phase = .handed key ∨ q.acquired = true ∧ q.bucketKey = some key

def slots (q : Request) : ℕ :=
  match q.phase with
  | .handed _ => 1
  | _ => if q.acquired then 1 else 0

def Excuse (c : ConcurrencyLimitOptions) (q : Request) : WaitError → Prop
  | .aborted => q.aborted = true
  | .abandoned => q.abandoned = true ∨ q.finalized = true
  | .overloaded rejection => rejection.reason = .queueTimeout ∧ 0 < c.queueTimeoutMs

theorem excuse_abortReason {c : ConcurrencyLimitOptions} {q : Request}
    (h : q.isAbandoned = true) : q.Excuse c q.abortReason := by
  rw [isAbandoned, Bool.or_eq_true] at h
  rw [abortReason]
  split
  · next haborted => exact haborted
  · next haborted => exact .inl (h.resolve_left haborted)

structure Ok (q : Request) : Prop where
  acquired : q.acquired = true → q.phase = .passed ∧ ∃ key, q.bucketKey = some key
  taken : q.taken = q.released + q.slots
  taken_le : q.taken ≤ 1
  untaken : q.phase ≠ .passed → (∀ key, q.phase ≠ .handed key) → q.taken = 0
  finished : q.finished = true → q.phase.isSettled = true ∧ q.acquired = false

namespace Ok

theorem not_acquired {q : Request} (h : q.Ok) (hphase : q.phase ≠ .passed) :
    q.acquired = false := by
  rw [Bool.eq_false_iff]
  intro hacquired
  exact hphase (h.acquired hacquired).1

theorem setPhase {q : Request} (h : q.Ok) (hpassed : q.phase ≠ .passed)
    (hhanded : ∀ key, q.phase ≠ .handed key) {phase : Phase} (hphase : ∀ key, phase ≠ .handed key)
    (hsettled : q.phase.isSettled = true → phase.isSettled = true)
    (finalizers : List RequestFinalizer) : Ok { q with phase, finalizers } where
  acquired hacquired := absurd hacquired (by simp [h.not_acquired hpassed])
  taken := by
    have hslots : Request.slots { q with phase, finalizers } = 0 := by
      cases phase with
      | handed key => exact absurd rfl (hphase key)
      | _ => simp [slots, h.not_acquired hpassed]
    have := h.untaken hpassed hhanded
    have := h.taken
    rw [hslots]
    show q.taken = q.released + 0
    omega
  taken_le := h.taken_le
  untaken _ _ := h.untaken hpassed hhanded
  finished hfinished := ⟨hsettled (h.finished hfinished).1, h.not_acquired hpassed⟩

theorem hand {q : Request} (h : q.Ok) {key : JsString} {b : ℕ} (hphase : q.phase = .waiting key b) :
    Ok { q with phase := .handed key, taken := q.taken + 1 } where
  acquired hacquired := absurd hacquired (by simp [h.not_acquired (by simp [hphase])])
  taken := by
    have := h.untaken (by simp [hphase]) (by simp [hphase])
    have := h.taken
    show q.taken + 1 = q.released + 1
    omega
  taken_le := by
    have := h.untaken (by simp [hphase]) (by simp [hphase])
    show q.taken + 1 ≤ 1
    omega
  untaken _ hhanded := absurd rfl (hhanded key)
  finished hfinished := by
    have := (h.finished hfinished).1
    rw [hphase] at this
    simp [Phase.isSettled] at this

theorem acquire {q : Request} (h : q.Ok) {key : JsString} (hphase : q.phase = .handed key) :
    (q.acquire key).Ok where
  acquired _ := ⟨rfl, key, rfl⟩
  taken := by
    have := h.taken
    rw [slots, hphase] at this
    exact this
  taken_le := h.taken_le
  untaken hpassed _ := absurd rfl hpassed
  finished hfinished := by
    have := (h.finished hfinished).1
    rw [hphase] at this
    simp [Phase.isSettled] at this

theorem take {q : Request} (h : q.Ok) (key : JsString) (hphase : q.phase = .idle) :
    Ok { q.acquire key with taken := q.taken + 1 } where
  acquired _ := ⟨rfl, key, rfl⟩
  taken := by
    have := h.untaken (by simp [hphase]) (by simp [hphase])
    have := h.taken
    show q.taken + 1 = q.released + 1
    omega
  taken_le := by
    have := h.untaken (by simp [hphase]) (by simp [hphase])
    show q.taken + 1 ≤ 1
    omega
  untaken hpassed _ := absurd rfl hpassed
  finished hfinished := by
    have := (h.finished hfinished).1
    rw [hphase] at this
    simp [Phase.isSettled] at this

theorem giveBack {q : Request} (h : q.Ok) (hacquired : q.acquired = true) :
    Ok { q with acquired := false, released := q.released + 1 } where
  acquired := by simp
  taken := by
    have := h.taken
    simp only [slots, (h.acquired hacquired).1, hacquired, if_true] at this ⊢
    simp [this]
  taken_le := h.taken_le
  untaken := h.untaken
  finished hfinished := ⟨(h.finished hfinished).1, rfl⟩

end Ok

end Request

/-! ## Buckets -/

structure Bucket.Ok (c : ConcurrencyLimitOptions) (bucket : Bucket) : Prop where
  bounded : bucket.active ≤ c.maxConcurrent
  queued : bucket.queue.length ≤ c.maxQueue
  saturated : bucket.queue ≠ [] → bucket.active = c.maxConcurrent
  nodup : bucket.queue.Nodup

namespace Limiter

def view (s : Limiter) (key : JsString) : Bucket :=
  match s.buckets.get? key with
  | some b => s.bucket b
  | none => {}

theorem view_eq {s : Limiter} {key : JsString} {b : ℕ} (h : s.buckets.get? key = some b) :
    s.view key = s.bucket b := by
  rw [view, h]

@[simp] theorem setBucket_request (s : Limiter) (b : ℕ) (bucket : Bucket) :
    (s.setBucket b bucket).request = s.request := rfl

@[simp] theorem setRequest_request_self (s : Limiter) (r : ℕ) (q : Request) :
    (s.setRequest r q).request r = q := Function.update_self ..

theorem setRequest_request_of_ne (s : Limiter) {r r' : ℕ} (h : r' ≠ r) (q : Request) :
    (s.setRequest r q).request r' = s.request r' := Function.update_of_ne h ..

/-- No two keys share a bucket object, and none has one that is yet to be made. -/
structure Objects (s : Limiter) : Prop where
  allocated : ∀ key b, s.buckets.get? key = some b → b < s.created
  distinct : ∀ key key' b, s.buckets.get? key = some b → s.buckets.get? key' = some b → key = key'

theorem Objects.delete {s : Limiter} (h : s.Objects) {b : ℕ} {bucket : Bucket} (key : JsString) :
    Objects { s.setBucket b bucket with buckets := s.buckets.delete key } where
  allocated k b hk := by
    rw [JsMap.get?_delete] at hk
    split at hk
    · simp at hk
    · exact h.allocated k b hk
  distinct k k' b hk hk' := by
    rw [JsMap.get?_delete] at hk hk'
    split at hk
    · simp at hk
    · split at hk'
      · simp at hk'
      · exact h.distinct k k' b hk hk'

theorem Objects.view_setBucket {s : Limiter} (h : s.Objects) {key : JsString} {b : ℕ}
    (hb : s.buckets.get? key = some b) (bucket : Bucket) :
    (s.setBucket b bucket).view = Function.update s.view key bucket := by
  funext k
  by_cases hk : k = key
  · rw [hk, Function.update_self, view, setBucket]
    dsimp only
    rw [hb]
    exact Function.update_self ..
  · rw [Function.update_of_ne hk, view, view, setBucket]
    dsimp only
    cases hget : s.buckets.get? k with
    | none => rfl
    | some b' =>
      have hne : b' ≠ b := by
        rintro rfl
        exact hk (h.distinct k key b' hget hb)
      exact Function.update_of_ne hne ..

theorem Objects.view_delete {s : Limiter} (h : s.Objects) {key : JsString} {b : ℕ}
    (hb : s.buckets.get? key = some b) (bucket : Bucket) :
    view { s.setBucket b bucket with buckets := s.buckets.delete key } =
      Function.update s.view key {} := by
  have hview := h.view_setBucket hb bucket
  funext k
  have hk := congrFun hview k
  rw [view, setBucket] at hk
  rw [view, JsMap.get?_delete]
  by_cases heq : k = key
  · rw [if_pos heq, heq, Function.update_self]
  · rw [Function.update_of_ne heq] at hk
    rw [if_neg heq, Function.update_of_ne heq]
    exact hk

end Limiter

/-! ## One key -/

/-- The invariant of one key: its bucket object and bucket, the waiters enqueued and admitted so
far, and `debt` slots that were given back and are still counted. -/
structure KeyInv (c : ConcurrencyLimitOptions) (key : JsString) (debt : ℕ) (request : ℕ → Request)
    (object : Option ℕ) (bucket : Bucket) (enqueued admitted : List ℕ) : Prop where
  ok : bucket.Ok c
  present : ∀ b, object = some b → 0 < bucket.active
  waiting : ∀ r b, (request r).phase = .waiting key b → object = some b ∧ r ∈ bucket.queue
  queued : ∀ r, r ∈ bucket.queue → ∃ b, (request r).phase = .waiting key b
  counted : ∃ holders : Finset ℕ, (∀ r, r ∈ holders ↔ (request r).HoldsSlot key) ∧
    bucket.active = holders.card + debt
  ordered : (admitted ++ bucket.queue).Sublist enqueued
  started : ∀ r, r ∈ enqueued → (request r).phase ≠ .idle
  nodup : enqueued.Nodup
  excused : ∀ r, r ∈ enqueued → r ∈ admitted ∨ r ∈ bucket.queue ∨
    ∃ err, ((request r).phase = .refused err ∨ (request r).phase = .threw err) ∧
      (request r).Excuse c err

namespace KeyInv
variable {c : ConcurrencyLimitOptions} {key : JsString} {debt : ℕ} {request : ℕ → Request}
  {object : Option ℕ} {bucket : Bucket} {enqueued admitted : List ℕ}

theorem update (h : KeyInv c key debt request object bucket enqueued admitted) {r : ℕ} {q : Request}
    (hwaiting : ∀ b, q.phase = .waiting key b ↔ (request r).phase = .waiting key b)
    (hholds : q.HoldsSlot key ↔ (request r).HoldsSlot key)
    (hidle : q.phase = .idle → (request r).phase = .idle)
    (hexcuse : ∀ err, (request r).phase = .refused err ∨ (request r).phase = .threw err →
      (request r).Excuse c err →
      ∃ err, (q.phase = .refused err ∨ q.phase = .threw err) ∧ q.Excuse c err) :
    KeyInv c key debt (Function.update request r q) object bucket enqueued admitted where
  ok := h.ok
  present := h.present
  waiting r' b := by
    have := h.waiting r' b
    have := hwaiting b
    grind [Function.update_apply]
  queued r' := by
    have := h.queued r'
    grind [Function.update_apply]
  counted := by
    obtain ⟨holders, hmem, hcard⟩ := h.counted
    exact ⟨holders, by grind [Function.update_apply], hcard⟩
  ordered := h.ordered
  started r' := by
    have := h.started r'
    grind [Function.update_apply]
  nodup := h.nodup
  excused r' := by
    have := h.excused r'
    grind [Function.update_apply]

theorem refuse (h : KeyInv c key debt request object bucket enqueued admitted) {r b : ℕ}
    {err : WaitError} (hphase : (request r).phase = .waiting key b)
    (hexcuse : (request r).Excuse c err) :
    KeyInv c key debt (Function.update request r { request r with phase := .refused err }) object
      { bucket with queue := bucket.queue.erase r } enqueued admitted := by
  have hmem (r' : ℕ) : r' ∈ bucket.queue.erase r ↔ r' ≠ r ∧ r' ∈ bucket.queue :=
    h.ok.nodup.mem_erase_iff
  have hexcuse' : Request.Excuse c { request r with phase := .refused err } err := by
    cases err <;> exact hexcuse
  exact {
    ok :=
      { bounded := h.ok.bounded
        queued := (List.length_erase_le ..).trans h.ok.queued
        saturated := by
          intro hne
          apply h.ok.saturated
          rintro hnil
          rw [hnil] at hne
          exact hne rfl
        nodup := h.ok.nodup.erase r }
    present := h.present
    waiting r' b := by
      have := h.waiting r' b
      grind [Function.update_apply]
    queued r' := by
      have := h.queued r'
      grind [Function.update_apply]
    counted := by
      obtain ⟨holders, hholders, hcard⟩ := h.counted
      refine ⟨holders, ?_, hcard⟩
      intro r'
      rw [hholders r', Function.update_apply]
      split
      · next hr =>
        rw [hr]
        simp [Request.HoldsSlot, hphase]
      · rfl
    ordered := ((List.erase_sublist ..).append_left _).trans h.ordered
    started r' := by
      have := h.started r'
      grind [Function.update_apply]
    nodup := h.nodup
    excused r' := by
      have := h.excused r'
      grind [Function.update_apply] }

theorem hand {r b : ℕ} {queue : List ℕ}
    (h : KeyInv c key 1 request object bucket enqueued admitted)
    (hqueue : bucket.queue = r :: queue) (hphase : (request r).phase = .waiting key b)
    (hacquired : (request r).acquired = false) {q : Request} (hq : q.phase = .handed key) :
    KeyInv c key 0 (Function.update request r q) object { bucket with queue } enqueued
      (admitted ++ [r]) := by
  have hnodup := h.ok.nodup
  rw [hqueue, List.nodup_cons] at hnodup
  exact {
    ok :=
      { bounded := h.ok.bounded
        queued := by
          have := h.ok.queued
          rw [hqueue, List.length_cons] at this
          exact Nat.le_of_succ_le this
        saturated := fun _ => h.ok.saturated (by rw [hqueue]; simp)
        nodup := hnodup.2 }
    present := h.present
    waiting r' b := by
      have := h.waiting r' b
      grind [Function.update_apply]
    queued r' := by
      have := h.queued r'
      grind [Function.update_apply]
    counted := by
      obtain ⟨holders, hholders, hcard⟩ := h.counted
      have hnew : r ∉ holders := by
        rw [hholders r]
        simp [Request.HoldsSlot, hphase, hacquired]
      refine ⟨insert r holders, ?_, ?_⟩
      · intro r'
        rw [Finset.mem_insert, hholders r', Function.update_apply]
        split
        · next hr => simp [hr, Request.HoldsSlot, hq]
        · next hr => simp [hr]
      · rw [Finset.card_insert_of_notMem hnew, hcard]
        omega
    ordered := by
      have := h.ordered
      rwa [hqueue, List.append_cons] at this
    started r' := by
      have := h.started r'
      grind [Function.update_apply]
    nodup := h.nodup
    excused r' := by
      have := h.excused r'
      grind [Function.update_apply] }

theorem free (h : KeyInv c key 1 request object bucket enqueued admitted)
    (hqueue : bucket.queue = []) :
    KeyInv c key 0 request (if bucket.active - 1 ≤ 0 then none else object)
      (if bucket.active - 1 ≤ 0 then {} else { bucket with active := bucket.active - 1 }) enqueued
      admitted := by
  have hempty (r : ℕ) (b : ℕ) : (request r).phase ≠ .waiting key b := by
    intro hphase
    have := (h.waiting r b hphase).2
    rw [hqueue] at this
    exact absurd this (by simp)
  obtain ⟨holders, hholders, hcard⟩ := h.counted
  have hcounted : (if bucket.active - 1 ≤ 0 then ({} : Bucket)
      else { bucket with active := bucket.active - 1 }).active = holders.card := by
    split
    · have : (0 : ℤ) ≤ holders.card := Int.natCast_nonneg _
      show (0 : ℤ) = holders.card
      omega
    · show bucket.active - 1 = holders.card
      omega
  have hnone : (if bucket.active - 1 ≤ 0 then ({} : Bucket)
      else { bucket with active := bucket.active - 1 }).queue = [] := by
    split
    · rfl
    · exact hqueue
  have hbounded := h.ok.bounded
  have hordered := h.ordered
  rw [hqueue] at hordered
  exact {
    ok :=
      { bounded := by
          rw [hcounted]
          omega
        queued := by
          rw [hnone]
          simp
        saturated := fun hne => absurd hnone hne
        nodup := by
          rw [hnone]
          simp }
    present := by
      intro b hb
      split
      · next hle => simp [hle] at hb
      · next hpos => exact not_le.mp hpos
    waiting := fun r b hphase => absurd hphase (hempty r b)
    queued := by
      intro r hr
      rw [hnone] at hr
      simp at hr
    counted := ⟨holders, hholders, by simpa using hcounted⟩
    ordered := by rwa [hnone]
    started := h.started
    nodup := h.nodup
    excused r hr := by
      rw [hnone]
      have := h.excused r hr
      rwa [hqueue] at this }

theorem giveBack (h : KeyInv c key 0 request object bucket enqueued admitted) {r : ℕ}
    {q : Request} (hholds : (request r).HoldsSlot key) (hphase : (request r).phase = .passed)
    (hq : q.phase = .passed) (hq' : q.acquired = false) :
    KeyInv c key 1 (Function.update request r q) object bucket enqueued admitted where
  ok := h.ok
  present := h.present
  waiting r' b := by
    have := h.waiting r' b
    grind [Function.update_apply]
  queued r' := by
    have := h.queued r'
    grind [Function.update_apply]
  counted := by
    obtain ⟨holders, hholders, hcard⟩ := h.counted
    have hmem : r ∈ holders := (hholders r).mpr hholds
    refine ⟨holders.erase r, ?_, ?_⟩
    · intro r'
      rw [Finset.mem_erase, hholders r', Function.update_apply]
      split
      · next hr => simp [hr, Request.HoldsSlot, hq, hq']
      · next hr => simp [hr]
    · rw [hcard, Finset.card_erase_of_mem hmem]
      have := Finset.card_pos.mpr ⟨r, hmem⟩
      omega
  ordered := h.ordered
  started r' := by
    have := h.started r'
    grind [Function.update_apply]
  nodup := h.nodup
  excused r' := by
    have := h.excused r'
    grind [Function.update_apply]

theorem take (h : KeyInv c key 0 request object bucket enqueued admitted) {r : ℕ} {q : Request}
    (hfree : bucket.active < c.maxConcurrent) (hphase : (request r).phase = .idle)
    (hacquired : (request r).acquired = false) (hq : q.phase = .passed)
    (hq' : q.HoldsSlot key) (object' : Option ℕ) :
    KeyInv c key 0 (Function.update request r q) object'
      { bucket with active := bucket.active + 1 } enqueued admitted := by
  have hqueue : bucket.queue = [] := by
    by_contra hne
    have := h.ok.saturated hne
    omega
  have hempty (r : ℕ) (b : ℕ) : (request r).phase ≠ .waiting key b := by
    intro hphase
    have := (h.waiting r b hphase).2
    rw [hqueue] at this
    exact absurd this (by simp)
  obtain ⟨holders, hholders, hcard⟩ := h.counted
  exact {
    ok :=
      { bounded := hfree
        queued := h.ok.queued
        saturated := fun hne => absurd hqueue hne
        nodup := h.ok.nodup }
    present := by
      intro b hb
      show 0 < bucket.active + 1
      omega
    waiting r' b := by
      have := hempty r' b
      grind [Function.update_apply]
    queued r' := by
      have := h.queued r'
      grind [Function.update_apply]
    counted := by
      have hnew : r ∉ holders := by
        rw [hholders r]
        simp [Request.HoldsSlot, hphase, hacquired]
      refine ⟨insert r holders, ?_, ?_⟩
      · intro r'
        rw [Finset.mem_insert, hholders r', Function.update_apply]
        split
        · next hr => simp [hr, hq']
        · next hr => simp [hr]
      · show bucket.active + 1 = _
        rw [Finset.card_insert_of_notMem hnew, hcard]
        omega
    ordered := h.ordered
    started r' := by
      have := h.started r'
      grind [Function.update_apply]
    nodup := h.nodup
    excused r' := by
      have := h.excused r'
      have := h.started r'
      grind [Function.update_apply] }

theorem enqueue {b : ℕ} (h : KeyInv c key 0 request (some b) bucket enqueued admitted) {r : ℕ}
    {q : Request} (hfull : ¬ bucket.active < c.maxConcurrent)
    (hroom : bucket.queue.length < c.maxQueue) (hphase : (request r).phase = .idle)
    (hq : q.phase = .waiting key b) (hholds : ¬ q.HoldsSlot key)
    (hholds' : ¬ (request r).HoldsSlot key) :
    KeyInv c key 0 (Function.update request r q) (some b)
      { bucket with queue := bucket.queue ++ [r] } (enqueued ++ [r]) admitted := by
  have hnew : r ∉ enqueued := fun hr => h.started r hr hphase
  have hbounded := h.ok.bounded
  exact {
    ok :=
      { bounded := hbounded
        queued := by
          rw [List.length_append]
          exact hroom
        saturated := by
          intro _
          show bucket.active = c.maxConcurrent
          omega
        nodup := by
          apply List.Nodup.append h.ok.nodup (List.nodup_singleton r)
          rw [List.disjoint_singleton]
          intro hr
          obtain ⟨b, hwaiting⟩ := h.queued r hr
          rw [hphase] at hwaiting
          simp at hwaiting }
    present := h.present
    waiting r' b := by
      have := h.waiting r' b
      grind [Function.update_apply]
    queued r' := by
      have := h.queued r'
      grind [Function.update_apply]
    counted := by
      obtain ⟨holders, hholders, hcard⟩ := h.counted
      exact ⟨holders, by grind [Function.update_apply], hcard⟩
    ordered := by
      rw [← List.append_assoc]
      exact h.ordered.append (List.Sublist.refl _)
    started r' := by
      have := h.started r'
      grind [Function.update_apply]
    nodup := by
      apply List.Nodup.append h.nodup (List.nodup_singleton r)
      rw [List.disjoint_singleton]
      exact hnew
    excused r' := by
      have := h.excused r'
      grind [Function.update_apply] }

end KeyInv

/-! ## The limiter -/

namespace Limiter
variable {c : ConcurrencyLimitOptions} {s : Limiter}

def debt (pending : Option JsString) (key : JsString) : ℕ := if pending = some key then 1 else 0

/-- The invariant, where the slot of `pending` was just given back. -/
structure Inv (c : ConcurrencyLimitOptions) (pending : Option JsString) (s : Limiter) : Prop where
  objects : s.Objects
  request : ∀ r, (s.request r).Ok
  key : ∀ key, KeyInv c key (debt pending key) s.request (s.buckets.get? key) (s.view key)
    (s.enqueued key) (s.admitted key)

theorem rejectWaiter_eq {s : Limiter} {r b : ℕ} {key : JsString}
    (h : (s.request r).phase = .waiting key b) (err : WaitError) :
    s.rejectWaiter r err =
      (s.setBucket b { s.bucket b with queue := (s.bucket b).queue.erase r }).setRequest r
        { s.request r with phase := .refused err } := by
  rw [rejectWaiter, h]
  rfl

theorem resolveWaiter_eq {s : Limiter} {r b : ℕ} {key : JsString}
    (h : (s.request r).phase = .waiting key b) :
    s.resolveWaiter r =
      { s.setRequest r { s.request r with
          phase := .handed key
          taken := (s.request r).taken + 1 } with
        admitted := Function.update s.admitted key (s.admitted key ++ [r]) } := by
  rw [resolveWaiter, h]

theorem Inv.setRequest {pending : Option JsString} (h : s.Inv c pending) {r : ℕ} {q : Request}
    (hok : q.Ok)
    (hwaiting : ∀ key b, q.phase = .waiting key b ↔ (s.request r).phase = .waiting key b)
    (hholds : ∀ key, q.HoldsSlot key ↔ (s.request r).HoldsSlot key)
    (hidle : q.phase = .idle → (s.request r).phase = .idle)
    (hexcuse : ∀ err, (s.request r).phase = .refused err ∨ (s.request r).phase = .threw err →
      (s.request r).Excuse c err →
      ∃ err, (q.phase = .refused err ∨ q.phase = .threw err) ∧ q.Excuse c err) :
    (s.setRequest r q).Inv c pending where
  objects := ⟨h.objects.allocated, h.objects.distinct⟩
  request r' := by
    have := h.request r'
    simp only [Limiter.setRequest, Function.update_apply]
    split
    · exact hok
    · exact this
  key key := (h.key key).update (hwaiting key) (hholds key) hidle hexcuse

theorem Inv.move {pending pending' : Option JsString} (h : s.Inv c pending) {s' : Limiter}
    {key : JsString} {r : ℕ} {q : Request} {bucket : Bucket} (hobjects : s'.Objects)
    (hbuckets : ∀ k, k ≠ key → s'.buckets.get? k = s.buckets.get? k)
    (hrequest : s'.request = Function.update s.request r q)
    (hview : s'.view = Function.update s.view key bucket)
    (henqueued : ∀ k, k ≠ key → s'.enqueued k = s.enqueued k)
    (hadmitted : ∀ k, k ≠ key → s'.admitted k = s.admitted k)
    (hpending : ∀ k, k ≠ key → debt pending' k = debt pending k) (hok : q.Ok)
    (hkey : KeyInv c key (debt pending' key) s'.request (s'.buckets.get? key) bucket
      (s'.enqueued key) (s'.admitted key))
    (hother : ∀ k, k ≠ key → KeyInv c k (debt pending k) (Function.update s.request r q)
      (s.buckets.get? k) (s.view k) (s.enqueued k) (s.admitted k)) :
    s'.Inv c pending' where
  objects := hobjects
  request r' := by
    have := h.request r'
    rw [hrequest, Function.update_apply]
    split
    · exact hok
    · exact this
  key k := by
    by_cases hk : k = key
    · rw [hk, hview, Function.update_self]
      exact hkey
    · rw [hpending k hk, hbuckets k hk, hview, Function.update_of_ne hk, henqueued k hk,
        hadmitted k hk, hrequest]
      exact hother k hk

theorem Inv.refuse {pending : Option JsString} (h : s.Inv c pending) {r b : ℕ} {key : JsString}
    (hphase : (s.request r).phase = .waiting key b) {err : WaitError}
    (hexcuse : (s.request r).Excuse c err) : (s.rejectWaiter r err).Inv c pending := by
  obtain ⟨hb, -⟩ := (h.key key).waiting r b hphase
  have hview := h.objects.view_setBucket hb
    { s.view key with queue := (s.view key).queue.erase r }
  rw [rejectWaiter_eq hphase, ← view_eq hb]
  refine h.move ⟨h.objects.allocated, h.objects.distinct⟩ (fun _ _ => rfl) rfl hview
    (fun _ _ => rfl) (fun _ _ => rfl) (fun _ _ => rfl) ?_ ((h.key key).refuse hphase hexcuse) ?_
  · apply (h.request r).setPhase
    all_goals simp [hphase, Phase.isSettled]
  · intro k hk
    apply (h.key k).update
    all_goals simp [hphase, hk.symm, Request.HoldsSlot]

theorem Inv.hand {key : JsString} (h : s.Inv c (some key)) {b next : ℕ} {queue : List ℕ}
    (hb : s.buckets.get? key = some b) (hqueue : (s.bucket b).queue = next :: queue) :
    ((s.setBucket b { s.bucket b with queue }).resolveWaiter next).Inv c none := by
  have hqueue' : (s.view key).queue = next :: queue := by rw [view_eq hb, hqueue]
  obtain ⟨b', hphase⟩ := (h.key key).queued next (by rw [hqueue']; exact List.mem_cons_self ..)
  have hview := h.objects.view_setBucket hb { s.view key with queue }
  have hacquired := (h.request next).not_acquired (by simp [hphase])
  have hself : Function.update s.admitted key (s.admitted key ++ [next]) key =
      s.admitted key ++ [next] := Function.update_self ..
  rw [← view_eq hb, resolveWaiter_eq (s := s.setBucket b _) hphase]
  refine h.move ⟨h.objects.allocated, h.objects.distinct⟩ (fun _ _ => rfl) rfl hview
    (fun _ _ => rfl) (fun k hk => Function.update_of_ne hk ..) ?_ ((h.request next).hand hphase)
    ?_ ?_
  · intro k hk
    simp [debt, hk.symm]
  · have hkey := h.key key
    simp only [debt, if_true] at hkey
    have hadmit := hkey.hand hqueue' hphase hacquired
      (q := { s.request next with phase := .handed key, taken := (s.request next).taken + 1 }) rfl
    rw [← hself] at hadmit
    exact hadmit
  · intro k hk
    apply (h.key k).update
    all_goals simp [hphase, hk.symm, Request.HoldsSlot]

theorem Inv.free {key : JsString} (h : s.Inv c (some key)) {b : ℕ}
    (hb : s.buckets.get? key = some b) (hqueue : (s.bucket b).queue = []) :
    (s.freeSlot key b).Inv c none := by
  have hqueue' : (s.view key).queue = [] := by rw [view_eq hb, hqueue]
  have hkey := h.key key
  simp only [debt, if_true] at hkey
  have hfree := hkey.free hqueue'
  have hrequest : s.request = Function.update s.request 0 (s.request 0) :=
    (Function.update_eq_self ..).symm
  have hpending (k : JsString) (hk : k ≠ key) : debt none k = debt (some key) k := by
    simp [debt, hk.symm]
  rw [freeSlot, ← view_eq hb]
  dsimp only
  by_cases hle : (s.view key).active - 1 ≤ 0
  · rw [if_pos ⟨hle, hqueue'⟩]
    rw [if_pos hle, if_pos hle] at hfree
    have hnone : (s.buckets.delete key).get? key = none := by
      rw [JsMap.get?_delete, if_pos rfl]
    have hget (k : JsString) (hk : k ≠ key) :
        (s.buckets.delete key).get? k = s.buckets.get? k := by
      rw [JsMap.get?_delete, if_neg hk]
    refine h.move (q := s.request 0) (h.objects.delete key) hget hrequest
      (h.objects.view_delete hb _) (fun _ _ => rfl) (fun _ _ => rfl) hpending (h.request 0) ?_ ?_
    · rw [hnone]
      exact hfree
    · intro k hk
      rw [← hrequest]
      exact h.key k
  · rw [if_neg (fun h => hle h.1)]
    rw [if_neg hle, if_neg hle] at hfree
    have hview := h.objects.view_setBucket hb
      { s.view key with active := (s.view key).active - 1 }
    refine h.move (q := s.request 0) ⟨h.objects.allocated, h.objects.distinct⟩ (fun _ _ => rfl)
      hrequest hview (fun _ _ => rfl) (fun _ _ => rfl) hpending (h.request 0) hfree ?_
    intro k hk
    rw [← hrequest]
    exact h.key k

theorem Inv.handOver {key : JsString} {b fuel : ℕ} (h : s.Inv c (some key))
    (hb : s.buckets.get? key = some b) (hfuel : (s.bucket b).queue.length ≤ fuel) :
    (handOver key b fuel s).Inv c none := by
  induction fuel generalizing s with
  | zero =>
    exact h.free hb (List.eq_nil_of_length_eq_zero (Nat.le_zero.mp hfuel))
  | succ fuel ih =>
    rw [Limiter.handOver]
    split
    · next hqueue => exact h.free hb hqueue
    · next next queue hqueue =>
      dsimp only
      have hqueue' : (s.view key).queue = next :: queue := by rw [view_eq hb, hqueue]
      obtain ⟨b', hphase⟩ := (h.key key).queued next
        (by rw [hqueue']; exact List.mem_cons_self ..)
      obtain rfl : b' = b := by
        have := ((h.key key).waiting next b' hphase).1
        rw [hb] at this
        exact (Option.some.inj this).symm
      split
      · next habandoned =>
        -- shifting the waiter is what its rejection does
        have hshift : (s.setBucket b' ⟨(s.bucket b').active, queue⟩).rejectWaiter next
            (s.request next).abortReason = s.rejectWaiter next (s.request next).abortReason := by
          rw [rejectWaiter_eq hphase, rejectWaiter_eq (s := s.setBucket b' _) hphase]
          have hnodup := (h.key key).ok.nodup
          rw [hqueue', List.nodup_cons] at hnodup
          simp [setBucket, hqueue, List.erase_of_not_mem hnodup.1]
        rw [setBucket_request, hshift]
        apply ih (h.refuse hphase (Request.excuse_abortReason habandoned))
        · rw [rejectWaiter_eq hphase]
          exact hb
        · rw [rejectWaiter_eq hphase]
          simp only [Limiter.setRequest, setBucket, Function.update_self, hqueue,
            List.erase_cons_head]
          rw [hqueue, List.length_cons] at hfuel
          exact Nat.le_of_succ_le_succ hfuel
      · exact h.hand hb hqueue

theorem Inv.release {key : JsString} (h : s.Inv c (some key)) : (s.release key).Inv c none := by
  rw [Limiter.release]
  split
  · next hnone =>
    -- a slot that was given back is counted, so its bucket is there
    obtain ⟨holders, -, hcard⟩ := (h.key key).counted
    rw [view, hnone, debt, if_pos rfl] at hcard
    simp only at hcard
    omega
  · next b hb => exact h.handOver hb (Nat.le_refl _)

theorem Inv.giveBack (h : s.Inv c none) {r : ℕ} {key : JsString}
    (hacquired : (s.request r).acquired = true) (hkey : (s.request r).bucketKey = some key) :
    (s.setRequest r { s.request r with
      acquired := false
      released := (s.request r).released + 1 }).Inv c (some key) := by
  have hphase := ((h.request r).acquired hacquired).1
  have hview : s.view = Function.update s.view key (s.view key) :=
    (Function.update_eq_self ..).symm
  refine h.move ⟨h.objects.allocated, h.objects.distinct⟩ (fun _ _ => rfl) rfl hview
    (fun _ _ => rfl) (fun _ _ => rfl) ?_ ((h.request r).giveBack hacquired) ?_ ?_
  · intro k hk
    simp [debt, hk.symm]
  · have hgiven := (h.key key).giveBack (q := { s.request r with
        acquired := false
        released := (s.request r).released + 1 }) (.inr ⟨hacquired, hkey⟩) hphase hphase rfl
    simp only [debt, if_true]
    exact hgiven
  · intro k hk
    apply (h.key k).update
    all_goals simp [hphase, hk.symm, Request.HoldsSlot, hkey]

theorem Inv.releaseFor (h : s.Inv c none) (r : ℕ) : (s.releaseFor r).Inv c none := by
  rw [Limiter.releaseFor]
  split
  · next hacquired =>
    obtain ⟨-, key, hkey⟩ := (h.request r).acquired hacquired
    have hself : ((s.setRequest r { s.request r with
        acquired := false
        released := (s.request r).released + 1 }).request r).bucketKey = some key := by
      rw [setRequest_request_self]
      exact hkey
    dsimp only
    rw [hself]
    exact (h.giveBack hacquired hkey).release
  · exact h

theorem Inv.rejectWaiter {pending : Option JsString} (h : s.Inv c pending) {r : ℕ}
    {err : WaitError} (hexcuse : (s.request r).Excuse c err) :
    (s.rejectWaiter r err).Inv c pending := by
  cases hphase : (s.request r).phase with
  | waiting key b => exact h.refuse hphase hexcuse
  | _ =>
    rw [Limiter.rejectWaiter, hphase]
    exact h

/-! ## Hooks -/

theorem Inv.setFlags {pending : Option JsString} (h : s.Inv c pending) {r : ℕ} {q : Request}
    (hphase : q.phase = (s.request r).phase) (hacquired : q.acquired = (s.request r).acquired)
    (hbucket : q.bucketKey = (s.request r).bucketKey) (htaken : q.taken = (s.request r).taken)
    (hreleased : q.released = (s.request r).released)
    (haborted : (s.request r).aborted = true → q.aborted = true)
    (habandoned : (s.request r).abandoned = true → q.abandoned = true)
    (hfinalized : (s.request r).finalized = true → q.finalized = true)
    (hfinished : q.finished = true → (s.request r).finished = true ∨
      q.phase.isSettled = true ∧ q.acquired = false) : (s.setRequest r q).Inv c pending := by
  have hok := h.request r
  apply h.setRequest
  · exact {
      acquired := by
        rw [hacquired, hphase, hbucket]
        exact hok.acquired
      taken := by
        rw [Request.slots, hacquired, hphase, htaken, hreleased]
        exact hok.taken
      taken_le := htaken ▸ hok.taken_le
      untaken := by
        rw [hphase, htaken]
        exact hok.untaken
      finished := by
        intro hfin
        rcases hfinished hfin with hold | hnew
        · rw [hphase, hacquired]
          exact hok.finished hold
        · exact hnew }
  · intro key b
    rw [hphase]
  · intro key
    rw [Request.HoldsSlot, Request.HoldsSlot, hphase, hacquired, hbucket]
  · rw [hphase]
    exact id
  · intro err herr hexcuse
    refine ⟨err, hphase ▸ herr, ?_⟩
    cases err with
    | aborted => exact haborted hexcuse
    | abandoned => exact hexcuse.imp habandoned hfinalized
    | overloaded rejection => exact hexcuse

theorem Inv.onSend (h : s.Inv c none) (r : ℕ) : (s.onSend r).Inv c none := by
  rw [Limiter.onSend]
  split
  · exact h
  · exact h.releaseFor r

theorem Inv.onTimeout (h : s.Inv c none) {r b : ℕ} {key : JsString}
    (hphase : (s.request r).phase = .waiting key b) (hpos : 0 < c.queueTimeoutMs) :
    (s.onTimeout r key b).Inv c none := by
  have hnodup := (h.key key).ok.nodup
  have hb := ((h.key key).waiting r b hphase).1
  rw [view_eq hb] at hnodup
  have hreject (err : WaitError) : (s.setBucket b { s.bucket b with
      queue := (s.bucket b).queue.erase r }).rejectWaiter r err = s.rejectWaiter r err := by
    rw [rejectWaiter_eq hphase, rejectWaiter_eq (s := s.setBucket b _) hphase]
    have : r ∉ (s.bucket b).queue.erase r := by simp [hnodup.mem_erase_iff]
    simp [setBucket, List.erase_of_not_mem this]
  rw [Limiter.onTimeout]
  dsimp only
  rw [hreject]
  exact h.refuse hphase ⟨rfl, hpos⟩

theorem Inv.resume (h : s.Inv c none) {r : ℕ} {s' : Limiter} (hs' : s.resume r = some s') :
    s'.Inv c none := by
  have hok := h.request r
  rw [Limiter.resume] at hs'
  split at hs'
  · next key hphase =>
    obtain rfl := Option.some.inj hs'
    apply h.setRequest (hok.acquire hphase)
    all_goals simp [hphase, Request.acquire, Request.HoldsSlot,
      hok.not_acquired (show (s.request r).phase ≠ .passed by simp [hphase])]
  · next err hphase =>
    obtain rfl := Option.some.inj hs'
    apply h.setRequest
    · apply hok.setPhase
      all_goals simp [hphase, Phase.isSettled]
    · simp [hphase]
    · simp [hphase, Request.HoldsSlot]
    · simp
    · intro err' herr' hexcuse
      obtain rfl : err = err' := by simpa [hphase] using herr'
      exact ⟨err, .inr rfl, by cases err <;> exact hexcuse⟩
  · simp at hs'

theorem getBucket_spec (h : s.Objects) (key : JsString) :
    (s.getBucket key).2.Objects ∧ (s.getBucket key).2.buckets.get? key = some (s.getBucket key).1 ∧
      (∀ k, k ≠ key → (s.getBucket key).2.buckets.get? k = s.buckets.get? k) ∧
      (s.getBucket key).2.view = s.view ∧ (s.getBucket key).2.request = s.request ∧
      (s.getBucket key).2.enqueued = s.enqueued ∧ (s.getBucket key).2.admitted = s.admitted := by
  rw [getBucket]
  split
  · next b hb => exact ⟨h, hb, fun _ _ => rfl, rfl, rfl, rfl, rfl⟩
  · next hnone =>
    have hget (k : JsString) : (s.buckets.set key s.created).get? k =
        if k = key then some s.created else s.buckets.get? k := JsMap.get?_set ..
    refine ⟨⟨?_, ?_⟩, ?_, ?_, ?_, rfl, rfl, rfl⟩
    · intro k b hk
      dsimp only at hk ⊢
      rw [hget] at hk
      split at hk
      · have := Option.some.inj hk
        omega
      · exact (h.allocated k b hk).trans (Nat.lt_succ_self _)
    · intro k k' b hk hk'
      dsimp only at hk hk'
      rw [hget] at hk hk'
      split at hk
      · next heq =>
        split at hk'
        · next heq' => rw [heq, heq']
        · have := h.allocated k' b hk'
          have := Option.some.inj hk
          omega
      · split at hk'
        · have := h.allocated k b hk
          have := Option.some.inj hk'
          omega
        · exact h.distinct k k' b hk hk'
    · dsimp only
      rw [hget, if_pos rfl]
    · intro k hk
      dsimp only
      rw [hget, if_neg hk]
    · funext k
      rw [view, view]
      dsimp only
      rw [hget]
      by_cases hk : k = key
      · rw [if_pos hk, hk, hnone]
        exact Function.update_self ..
      · rw [if_neg hk]
        cases hb : s.buckets.get? k with
        | none => rfl
        | some b =>
          have := h.allocated k b hb
          exact Function.update_of_ne (by omega) ..

theorem Inv.enqueue (h : s.Inv c none) {r b : ℕ} {key : JsString}
    (hidle : (s.request r).phase = .idle) (hb : s.buckets.get? key = some b)
    (hfull : ¬ (s.bucket b).active < c.maxConcurrent)
    (hroom : (s.bucket b).queue.length < c.maxQueue) : (s.enqueue r key b).Inv c none := by
  have hacquired := (h.request r).not_acquired (by simp [hidle])
  rw [← view_eq hb] at hfull hroom
  rw [Limiter.enqueue]
  dsimp only
  split
  · apply h.setRequest
    · apply (h.request r).setPhase
      all_goals simp [hidle, Phase.isSettled]
    all_goals simp [hidle, Request.HoldsSlot]
  · have hself : Function.update s.enqueued key (s.enqueued key ++ [r]) key =
        s.enqueued key ++ [r] := Function.update_self ..
    have hview := h.objects.view_setBucket hb
      { s.view key with queue := (s.view key).queue ++ [r] }
    rw [← view_eq hb]
    refine h.move ⟨h.objects.allocated, h.objects.distinct⟩ (fun _ _ => rfl) rfl hview
      (fun k hk => Function.update_of_ne hk ..) (fun _ _ => rfl) (fun _ _ => rfl) ?_ ?_ ?_
    · apply (h.request r).setPhase
      all_goals simp [hidle, Phase.isSettled]
    · have hkey := h.key key
      rw [hb] at hkey
      have henqueue := hkey.enqueue hfull hroom hidle (q := { s.request r with
          finalizers := (s.request r).finalizers ++ [.rejectWaiter]
          phase := .waiting key b }) rfl (by simp [Request.HoldsSlot, hacquired])
        (by simp [Request.HoldsSlot, hacquired, hidle])
      rw [← hself, ← hb] at henqueue
      exact henqueue
    · intro k hk
      apply (h.key k).update
      all_goals simp [hidle, hk.symm, Request.HoldsSlot]

theorem Inv.take (h : s.Inv c none) {r : ℕ} (hidle : (s.request r).phase = .idle) (key : JsString)
    (hfree : (s.view key).active < c.maxConcurrent) :
    (((s.getBucket key).2.setBucket (s.getBucket key).1
        { s.view key with active := (s.view key).active + 1 }).setRequest r
      { (s.request r).acquire key with taken := (s.request r).taken + 1 }).Inv c none := by
  have hacquired := (h.request r).not_acquired (by simp [hidle])
  obtain ⟨hobjects, hb, hbuckets, hview, hrequest, henqueued, hadmitted⟩ :=
    getBucket_spec h.objects key
  have hview' := hobjects.view_setBucket hb
    { s.view key with active := (s.view key).active + 1 }
  rw [hview] at hview'
  refine h.move (r := r) ⟨hobjects.allocated, hobjects.distinct⟩ hbuckets ?_ hview'
    (fun k _ => congrFun henqueued k) (fun k _ => congrFun hadmitted k) (fun _ _ => rfl)
    ((h.request r).take key hidle) ?_ ?_
  · rw [← hrequest]
    rfl
  · have htake := (h.key key).take (q := { (s.request r).acquire key with
        taken := (s.request r).taken + 1 }) hfree hidle hacquired rfl (.inr ⟨rfl, rfl⟩)
        ((s.getBucket key).2.buckets.get? key)
    show KeyInv c key 0 (Function.update (s.getBucket key).2.request r _)
      ((s.getBucket key).2.buckets.get? key) _ ((s.getBucket key).2.enqueued key)
      ((s.getBucket key).2.admitted key)
    rw [hrequest, henqueued, hadmitted]
    exact htake
  · intro k hk
    apply (h.key k).update
    all_goals simp [hidle, hk.symm, hacquired, Request.HoldsSlot, Request.acquire]

theorem Inv.beforeHandle (h : s.Inv c none) {r : ℕ} (hidle : (s.request r).phase = .idle)
    (key : Option JsString) : (s.beforeHandle c r key).Inv c none := by
  have hpass (phase : Phase) (hphase : ∀ k, phase ≠ .handed k)
      (hwaiting : ∀ k b, phase ≠ .waiting k b) :
      (s.setRequest r { s.request r with phase }).Inv c none := by
    apply h.setRequest
    · apply (h.request r).setPhase
      all_goals simp [hidle, hphase, Phase.isSettled]
    all_goals simp [hidle, hphase, hwaiting, Request.HoldsSlot]
  cases key with
  | none => exact hpass .passed (by simp) (by simp)
  | some key =>
    obtain ⟨-, hb, -, hview, hrequest, -, -⟩ := getBucket_spec h.objects key
    have hbucket : (s.getBucket key).2.bucket (s.getBucket key).1 = s.view key := by
      rw [← hview, view_eq hb]
    rw [Limiter.beforeHandle]
    dsimp only
    rw [hbucket, setBucket_request, hrequest]
    split
    · next hfree => exact h.take hidle key hfree
    · next hfull =>
      -- a bucket without a free slot is not new
      obtain ⟨b, hold⟩ : ∃ b, s.buckets.get? key = some b := by
        cases hget : s.buckets.get? key with
        | some b => exact ⟨b, rfl⟩
        | none =>
          rw [view, hget] at hfull
          exact absurd (Int.natCast_pos.mpr c.maxConcurrent_pos) hfull
      have heq : s.getBucket key = (b, s) := by rw [getBucket, hold]
      rw [heq]
      dsimp only
      rw [view_eq hold] at hfull ⊢
      split
      · next hroom => exact h.enqueue hidle hold hfull hroom.2
      · exact hpass (.threw _) (by simp) (by simp)

/-! ## Finalizers -/

def Frame (s s' : Limiter) : Prop :=
  ∀ r, ((s'.request r).acquired = true → (s.request r).acquired = true) ∧
    (s'.request r).finalizers = (s.request r).finalizers ∧
      (s'.request r).finalized = (s.request r).finalized

theorem Frame.refl (s : Limiter) : Frame s s := fun _ => ⟨id, rfl, rfl⟩

theorem Frame.trans {s s' s'' : Limiter} (h : Frame s s') (h' : Frame s' s'') : Frame s s'' := by
  intro r
  obtain ⟨hacquired, hfinalizers, hfinalized⟩ := h r
  obtain ⟨hacquired', hfinalizers', hfinalized'⟩ := h' r
  exact ⟨hacquired ∘ hacquired', hfinalizers'.trans hfinalizers, hfinalized'.trans hfinalized⟩

theorem frame_update {s s' : Limiter} {r : ℕ} {q : Request}
    (hrequest : s'.request = Function.update s.request r q)
    (hacquired : q.acquired = true → (s.request r).acquired = true)
    (hfinalizers : q.finalizers = (s.request r).finalizers)
    (hfinalized : q.finalized = (s.request r).finalized) : Frame s s' := by
  intro r'
  rw [hrequest]
  by_cases hr : r' = r
  · rw [hr, Function.update_self]
    exact ⟨hacquired, hfinalizers, hfinalized⟩
  · rw [Function.update_of_ne hr]
    exact ⟨id, rfl, rfl⟩

theorem frame_rejectWaiter (s : Limiter) (r : ℕ) (err : WaitError) :
    Frame s (s.rejectWaiter r err) := by
  rw [rejectWaiter]
  split
  · exact frame_update (s := s) rfl id rfl rfl
  · exact Frame.refl s

theorem frame_resolveWaiter (s : Limiter) (r : ℕ) : Frame s (s.resolveWaiter r) := by
  rw [resolveWaiter]
  split
  · exact frame_update (s := s) rfl id rfl rfl
  · exact Frame.refl s

theorem frame_freeSlot (s : Limiter) (key : JsString) (b : ℕ) : Frame s (s.freeSlot key b) := by
  rw [freeSlot]
  dsimp only
  split
  · exact Frame.refl s
  · exact Frame.refl s

theorem frame_handOver (key : JsString) (b fuel : ℕ) (s : Limiter) :
    Frame s (handOver key b fuel s) := by
  induction fuel generalizing s with
  | zero => exact frame_freeSlot s key b
  | succ fuel ih =>
    rw [handOver]
    split
    · exact frame_freeSlot s key b
    · next next queue _ =>
      have hshift : Frame s (s.setBucket b { s.bucket b with queue }) := Frame.refl s
      dsimp only
      split
      · exact (hshift.trans (frame_rejectWaiter _ _ _)).trans (ih _)
      · exact hshift.trans (frame_resolveWaiter _ _)

theorem frame_release (s : Limiter) (key : JsString) : Frame s (s.release key) := by
  rw [release]
  split
  · exact Frame.refl s
  · exact frame_handOver _ _ _ _

theorem frame_releaseFor (s : Limiter) (r : ℕ) :
    Frame s (s.releaseFor r) ∧ ((s.releaseFor r).request r).acquired = false := by
  rw [releaseFor]
  split
  · next hacquired =>
    dsimp only
    have hfirst : Frame s (s.setRequest r { s.request r with
        acquired := false
        released := (s.request r).released + 1 }) :=
      frame_update rfl (fun _ => hacquired) rfl rfl
    have hfalse {s' : Limiter} (h : Frame (s.setRequest r { s.request r with
        acquired := false
        released := (s.request r).released + 1 }) s') : (s'.request r).acquired = false := by
      rw [Bool.eq_false_iff]
      intro htrue
      have := (h r).1 htrue
      rw [setRequest_request_self] at this
      exact absurd this (by simp)
    split
    · next key _ =>
      have hrelease := frame_release (s.setRequest r { s.request r with
        acquired := false
        released := (s.request r).released + 1 }) key
      exact ⟨hfirst.trans hrelease, hfalse hrelease⟩
    · exact ⟨hfirst, hfalse (Frame.refl _)⟩
  · next hacquired => exact ⟨Frame.refl s, by simpa using hacquired⟩

/-- A request with a slot on its state has `releaseFor` among its finalizers. -/
def Armed (s : Limiter) : Prop :=
  ∀ r, (s.request r).acquired = true → .releaseFor ∈ (s.request r).finalizers

theorem Armed.frame {s' : Limiter} (h : s.Armed) (hframe : Frame s s') : s'.Armed := by
  intro r hacquired
  rw [(hframe r).2.1]
  exact h r ((hframe r).1 hacquired)

theorem frame_runFinalizer (s : Limiter) (r : ℕ) (fn : RequestFinalizer) :
    Frame s (s.runFinalizer r fn) := by
  cases fn with
  | rejectWaiter => exact frame_rejectWaiter _ _ _
  | releaseFor => exact (frame_releaseFor s r).1

theorem Inv.runFinalizer (h : s.Inv c none) {r : ℕ} (hfinalized : (s.request r).finalized = true)
    (fn : RequestFinalizer) : (s.runFinalizer r fn).Inv c none := by
  cases fn with
  | rejectWaiter =>
    apply h.rejectWaiter
    rw [Request.abortReason]
    split
    · next haborted => exact haborted
    · exact .inr hfinalized
  | releaseFor => exact h.releaseFor r

theorem foldl_runFinalizer (h : s.Inv c none) {r : ℕ} (hfinalized : (s.request r).finalized = true)
    (fns : List RequestFinalizer)
    (hfns : (s.request r).acquired = true → .releaseFor ∈ fns) :
    (fns.foldl (fun s fn => s.runFinalizer r fn) s).Inv c none ∧
      Frame s (fns.foldl (fun s fn => s.runFinalizer r fn) s) ∧
      ((fns.foldl (fun s fn => s.runFinalizer r fn) s).request r).acquired = false := by
  induction fns generalizing s with
  | nil =>
    refine ⟨h, Frame.refl s, ?_⟩
    rw [Bool.eq_false_iff]
    intro hacquired
    exact absurd (hfns hacquired) (by simp)
  | cons fn fns ih =>
    have hframe := frame_runFinalizer s r fn
    have hrest : ((s.runFinalizer r fn).request r).acquired = true → .releaseFor ∈ fns := by
      intro hacquired
      cases fn with
      | releaseFor => exact absurd hacquired (by simp [Limiter.runFinalizer, (frame_releaseFor s r).2])
      | rejectWaiter =>
        have := hfns ((hframe r).1 hacquired)
        simpa using this
    obtain ⟨hinv, hframe', hacquired⟩ := ih (h.runFinalizer hfinalized fn)
      ((hframe r).2.2.trans hfinalized) hrest
    exact ⟨hinv, hframe.trans hframe', hacquired⟩

theorem Inv.runRequestFinalizers (h : s.Inv c none) (harmed : s.Armed) (r : ℕ) :
    (s.runRequestFinalizers r).Inv c none ∧ (s.runRequestFinalizers r).Armed := by
  have hfirst : (s.setRequest r { s.request r with finalizers := [], finalized := true }).Inv c none :=
    h.setFlags rfl rfl rfl rfl rfl id id (fun _ => rfl) .inl
  obtain ⟨hinv, hframe, hacquired⟩ := foldl_runFinalizer hfirst (r := r) (by simp)
    (s.request r).finalizers (by
      rw [setRequest_request_self]
      exact harmed r)
  rw [Limiter.runRequestFinalizers]
  dsimp only
  generalize (s.request r).finalizers.foldl (fun s fn => s.runFinalizer r fn) (s.setRequest r
    { s.request r with finalizers := [], finalized := true }) = s' at hinv hframe hacquired ⊢
  refine ⟨?_, ?_⟩
  · apply hinv.setFlags
    case hfinished =>
      intro hfinished
      rw [Bool.or_eq_true] at hfinished
      exact hfinished.imp_right fun hsettled => ⟨hsettled, hacquired⟩
    all_goals simp
  · intro r'
    by_cases hr : r' = r
    · rw [hr, setRequest_request_self]
      intro htrue
      exact absurd htrue (by simp [hacquired])
    · intro htrue
      rw [setRequest_request_of_ne _ hr] at htrue ⊢
      have hother : (s.setRequest r { s.request r with finalizers := [], finalized := true }).request
          r' = s.request r' := setRequest_request_of_ne _ hr _
      obtain ⟨hacquired', hfinalizers, -⟩ := hframe r'
      rw [hother] at hacquired' hfinalizers
      rw [hfinalizers]
      exact harmed r' (hacquired' htrue)

/-! ## Runs -/

theorem Armed.setRequest (h : s.Armed) {r : ℕ} {q : Request}
    (hq : q.acquired = true → .releaseFor ∈ q.finalizers) : (s.setRequest r q).Armed := by
  intro r'
  by_cases hr : r' = r
  · rw [hr, setRequest_request_self]
    exact hq
  · rw [setRequest_request_of_ne _ hr]
    exact h r'

theorem Armed.beforeHandle (h : s.Armed) (hinv : s.Inv c none) {r : ℕ}
    (hidle : (s.request r).phase = .idle) (key : Option JsString) :
    (s.beforeHandle c r key).Armed := by
  have hacquired := (hinv.request r).not_acquired (by simp [hidle])
  cases key with
  | none => exact h.setRequest (h r)
  | some key =>
    obtain ⟨-, -, -, -, hrequest, -, -⟩ := getBucket_spec hinv.objects key
    have harmed : ((s.getBucket key).2).Armed := by
      intro r'
      rw [hrequest]
      exact h r'
    rw [Limiter.beforeHandle]
    dsimp only
    split
    · apply Armed.setRequest
      · exact harmed
      · intro _
        simp [Request.acquire]
    · split
      · rw [Limiter.enqueue, hrequest]
        dsimp only
        split
        · exact harmed.setRequest (by simp [hacquired])
        · exact Armed.setRequest harmed (by simp [hacquired])
      · rw [hrequest]
        exact harmed.setRequest (by simp [hacquired])

theorem inv_step {s' : Limiter} {l : LimiterEvent} (h : s.Inv c none ∧ s.Armed)
    (hs' : s.step c l = some s') : s'.Inv c none ∧ s'.Armed := by
  obtain ⟨hinv, harmed⟩ := h
  cases l with
  | beforeHandle r key =>
    rw [step] at hs'
    split at hs'
    · next hidle =>
      obtain rfl := Option.some.inj hs'
      exact ⟨hinv.beforeHandle hidle key, harmed.beforeHandle hinv hidle key⟩
    · simp at hs'
  | resume r =>
    refine ⟨hinv.resume hs', ?_⟩
    rw [step, resume] at hs'
    split at hs'
    · obtain rfl := Option.some.inj hs'
      exact harmed.setRequest fun _ => by simp [Request.acquire]
    · obtain rfl := Option.some.inj hs'
      exact harmed.setRequest (harmed r)
    · simp at hs'
  | abort r =>
    obtain rfl := Option.some.inj hs'
    have hflag : (s.setRequest r { s.request r with aborted := true }).Inv c none := by
      apply hinv.setFlags
      all_goals simp +contextual
    refine ⟨hflag.rejectWaiter ?_, ?_⟩
    · rw [setRequest_request_self]
      rfl
    · have harmed' : (s.setRequest r { s.request r with aborted := true }).Armed :=
        harmed.setRequest (harmed r)
      exact harmed'.frame (frame_rejectWaiter _ _ _)
  | markAbandoned r =>
    obtain rfl := Option.some.inj hs'
    refine ⟨?_, harmed.setRequest (harmed r)⟩
    apply hinv.setFlags
    all_goals simp +contextual
  | timeout r =>
    rw [step] at hs'
    split at hs'
    · next key b hphase =>
      split at hs'
      · next hpos =>
        obtain rfl := Option.some.inj hs'
        refine ⟨hinv.onTimeout hphase hpos, ?_⟩
        exact harmed.frame (frame_rejectWaiter (s.setBucket b _) _ _)
      · simp at hs'
    · simp at hs'
  | onSend r =>
    obtain rfl := Option.some.inj hs'
    refine ⟨hinv.onSend r, ?_⟩
    rw [Limiter.onSend]
    split
    · exact harmed
    · exact harmed.frame (frame_releaseFor s r).1
  | runFinalizers r =>
    obtain rfl := Option.some.inj hs'
    exact hinv.runRequestFinalizers harmed r

theorem inv_init : ({} : Limiter).Inv c none ∧ ({} : Limiter).Armed := by
  refine ⟨⟨⟨?_, ?_⟩, ?_, ?_⟩, ?_⟩
  · intro key b hb
    simp at hb
  · intro key key' b hb
    simp at hb
  · intro r
    exact ⟨by simp, rfl, by simp, by simp, by simp⟩
  · intro key
    exact {
      ok := ⟨by simp [view], by simp [view], by simp [view], by simp [view]⟩
      present := by simp
      waiting := by simp
      queued := by simp [view]
      counted := ⟨∅, by simp [Request.HoldsSlot], by simp [view, debt]⟩
      ordered := by simp [view]
      started := by simp
      nodup := by simp
      excused := by simp }
  · intro r hacquired
    simp at hacquired

theorem inv_run {ls : List LimiterEvent} (h : run (step c) {} ls = some s) : s.Inv c none := by
  have hstep : ∀ (s : Limiter) (l : LimiterEvent) (s' : Limiter), s.Inv c none ∧ s.Armed →
      step c s l = some s' → s'.Inv c none ∧ s'.Armed :=
    fun _ _ _ hinv hs' => inv_step hinv hs'
  exact (run_invariant_all hstep inv_init h).1

/-! ## What it means -/

structure Safe (c : ConcurrencyLimitOptions) (s : Limiter) : Prop where
  /-- The counter of a key is the number of the requests that have one of its slots. -/
  active_eq : ∀ key, ∃ holders : Finset ℕ,
    (∀ r, r ∈ holders ↔ (s.request r).HoldsSlot key) ∧ (s.view key).active = holders.card
  active_le : ∀ key, (s.view key).active ≤ c.maxConcurrent
  queue_le : ∀ key, (s.view key).queue.length ≤ c.maxQueue
  saturated : ∀ key, (s.view key).queue ≠ [] → (s.view key).active = c.maxConcurrent
  /-- Those admitted, then those that still wait, stand in the order in which they came. -/
  ordered : ∀ key, (s.enqueued key).Nodup ∧
    (s.admitted key ++ (s.view key).queue).Sublist (s.enqueued key)
  /-- Whoever is left out was aborted, abandoned or timed out. -/
  excused : ∀ key, ∀ r ∈ s.enqueued key, r ∈ s.admitted key ∨ r ∈ (s.view key).queue ∨
    ∃ err, ((s.request r).phase = .refused err ∨ (s.request r).phase = .threw err) ∧
      (s.request r).Excuse c err
  /-- A slot that was taken is held, or was given back once. -/
  released : ∀ r, (s.request r).taken ≤ 1 ∧
    (s.request r).taken = (s.request r).released + (s.request r).slots
  finished : ∀ r, (s.request r).finished = true →
    (s.request r).released = (s.request r).taken ∧ ∀ key, ¬ (s.request r).HoldsSlot key
  /-- Nothing is left once every request is through. -/
  empty : (∀ r, (s.request r).phase ≠ .idle → (s.request r).finished = true) → s.buckets = ∅

theorem Inv.not_holds (h : s.Inv c none) {r : ℕ} (hfinished : (s.request r).finished = true) :
    (s.request r).slots = 0 ∧ ∀ key, ¬ (s.request r).HoldsSlot key := by
  obtain ⟨hsettled, hacquired⟩ := (h.request r).finished hfinished
  constructor
  · rw [Request.slots]
    split
    · next key hphase =>
      rw [hphase] at hsettled
      simp [Phase.isSettled] at hsettled
    · rw [hacquired]
      rfl
  · rintro key (hphase | ⟨htrue, -⟩)
    · rw [hphase] at hsettled
      simp [Phase.isSettled] at hsettled
    · rw [hacquired] at htrue
      simp at htrue

theorem Inv.empty (h : s.Inv c none)
    (hall : ∀ r, (s.request r).phase ≠ .idle → (s.request r).finished = true) :
    s.buckets = ∅ := by
  apply JsMap.eq_empty
  intro key
  rw [Option.eq_none_iff_forall_ne_some]
  intro b hb
  have hpos := (h.key key).present b hb
  obtain ⟨holders, hmem, hcard⟩ := (h.key key).counted
  simp only [debt, reduceCtorEq, if_false] at hcard
  obtain ⟨r, hr⟩ := Finset.card_pos.mp (show 0 < holders.card by omega)
  have hholds := (hmem r).mp hr
  -- a request that has a slot has called `beforeHandle`
  have hstarted : (s.request r).phase ≠ .idle := by
    intro hidle
    rcases hholds with hphase | ⟨hacquired, -⟩
    · rw [hidle] at hphase
      simp at hphase
    · rw [(h.request r).not_acquired (by simp [hidle])] at hacquired
      simp at hacquired
  exact (h.not_holds (hall r hstarted)).2 key hholds

/-- **No slot is leaked and none is given twice**, whatever the order of the steps. -/
theorem slots_safe (c : ConcurrencyLimitOptions) {ls : List LimiterEvent} {s : Limiter}
    (h : run (step c) {} ls = some s) : s.Safe c := by
  have hinv := inv_run h
  exact {
    active_eq := by
      intro key
      obtain ⟨holders, hmem, hcard⟩ := (hinv.key key).counted
      exact ⟨holders, hmem, by simpa [debt] using hcard⟩
    active_le := fun key => (hinv.key key).ok.bounded
    queue_le := fun key => (hinv.key key).ok.queued
    saturated := fun key => (hinv.key key).ok.saturated
    ordered := fun key => ⟨(hinv.key key).nodup, (hinv.key key).ordered⟩
    excused := fun key => (hinv.key key).excused
    released := fun r => ⟨(hinv.request r).taken_le, (hinv.request r).taken⟩
    finished := by
      intro r hfinished
      obtain ⟨hslots, hholds⟩ := hinv.not_holds hfinished
      have := (hinv.request r).taken
      exact ⟨by omega, hholds⟩
    empty := hinv.empty }

def exampleEvents : List LimiterEvent :=
  [.beforeHandle 0 (some (js "a")), .beforeHandle 1 (some (js "a")), .onSend 0, .abort 1, .resume 1,
    .runFinalizers 0, .onSend 1, .runFinalizers 1]

theorem slots_safe_example :
    ((run (step ⟨1, 1, 0, by decide⟩) {} exampleEvents).get (by decide)).Safe
      ⟨1, 1, 0, by decide⟩ :=
  slots_safe _ (Option.some_get _).symm

end Limiter

end Daloy.Resilience
