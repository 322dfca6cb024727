import Daloy.Foundations.Runs
import Daloy.Jobs.StoreEffects

/-! # The memory store fences its workers

Calls of any number of workers reach one store in any order; the history keeps which ids were put,
which attempts the claims handed out and which of them were settled by `complete` or `fail`.

* `fences`: after any run, a lease and the running status go together, attempts stay within their
  budget, terminal records stay as they are until they are purged, no attempt is handed out twice,
  and no attempt is settled twice.
-/

namespace Daloy.Jobs
set_option autoImplicit false

open Daloy.Unicode Daloy.Security Daloy.Json Daloy.Runs

variable {ν τ : Type} [NumberText ν]

/-- A store and what its callers did so far. -/
structure StoreHistory (ν τ : Type) [NumberText ν] where
  store : MemoryJobStore ν τ := {}
  putIds : List JsString := []
  handed : List (JsString × ℕ) := []
  settled : List (JsString × ℕ) := []

inductive StoreCall (ν τ : Type)
  | put (job : Job ν τ) (now : τ)
  | claim (queue workerId : JsString) (now : τ)
  | heartbeat (id workerId : JsString) (leaseUntil now : τ) (attempt : ℕ)
  | complete (id workerId : JsString) (now : τ) (result : Json ν) (attempt : ℕ)
  | fail (id workerId error : JsString) (nextStatus : FailStatus) (nextRunAt now : τ) (attempt : ℕ)
  | cancel (id : JsString) (now : τ)
  | get (id : JsString) (now : τ)
  | list (filter : JobFilter) (now : τ)
  | takeReaped (queue : JsString) (now : τ)

/-- The records are filed under their ids, coherent, and in step with what was handed out and
settled. -/
structure StoreHistory.Inv (h : StoreHistory ν τ) : Prop where
  keyed : ∀ k job, h.store.jobs.get? k = some job → job.id = k
  known : ∀ k job, h.store.jobs.get? k = some job → k ∈ h.putIds
  coherent : ∀ k job, h.store.jobs.get? k = some job → Coherent job
  handedUpTo : ∀ k job, h.store.jobs.get? k = some job → ∀ a, (k, a) ∈ h.handed → a ≤ job.attempts
  handedKnown : ∀ p ∈ h.handed, p.1 ∈ h.putIds
  current : ∀ k job, h.store.jobs.get? k = some job → job.status = .running →
    (k, job.attempts) ∈ h.handed
  settledOver : ∀ k job, h.store.jobs.get? k = some job → (k, job.attempts) ∈ h.settled →
    job.status ≠ .running
  settledHanded : ∀ p ∈ h.settled, p ∈ h.handed
  handedNodup : h.handed.Nodup
  settledNodup : h.settled.Nodup

theorem StoreHistory.Inv.relaxed {h : StoreHistory ν τ} {s : MemoryJobStore ν τ} (hinv : h.Inv)
    (hrelaxed : Relaxed h.store s) : StoreHistory.Inv { h with store := s } where
  keyed := by
    intro k job' hjob'
    obtain ⟨job, hjob, hrelaxes⟩ := hrelaxed k job' hjob'
    exact hrelaxes.id.trans (hinv.keyed k job hjob)
  known := by
    intro k job' hjob'
    obtain ⟨job, hjob, -⟩ := hrelaxed k job' hjob'
    exact hinv.known k job hjob
  coherent := by
    intro k job' hjob'
    obtain ⟨job, hjob, hrelaxes⟩ := hrelaxed k job' hjob'
    exact hrelaxes.coherent (hinv.coherent k job hjob)
  handedUpTo := by
    intro k job' hjob' a ha
    obtain ⟨job, hjob, hrelaxes⟩ := hrelaxed k job' hjob'
    rw [hrelaxes.attempts]
    exact hinv.handedUpTo k job hjob a ha
  handedKnown := hinv.handedKnown
  current := by
    intro k job' hjob' hrunning
    obtain ⟨job, hjob, hrelaxes⟩ := hrelaxed k job' hjob'
    rw [hrelaxes.attempts]
    exact hinv.current k job hjob (hrelaxes.running hrunning)
  settledOver := by
    intro k job' hjob' hsettled hrunning
    obtain ⟨job, hjob, hrelaxes⟩ := hrelaxed k job' hjob'
    rw [hrelaxes.attempts] at hsettled
    exact hinv.settledOver k job hjob hsettled (hrelaxes.running hrunning)
  settledHanded := hinv.settledHanded
  handedNodup := hinv.handedNodup
  settledNodup := hinv.settledNodup

namespace StoreHistory

theorem inv_empty : Inv ({} : StoreHistory ν τ) where
  keyed := by simp
  known := by simp
  coherent := by simp
  handedUpTo := by simp
  handedKnown := by simp
  current := by simp
  settledOver := by simp
  settledHanded := by simp
  handedNodup := List.nodup_nil
  settledNodup := List.nodup_nil

theorem inv_settled {h : StoreHistory ν τ} {s : MemoryJobStore ν τ} {job : StoredJob ν τ}
    (hinv : h.Inv) (hget : h.store.jobs.get? job.id = some job) (hrunning : job.status = .running)
    (hrelaxed : Relaxed h.store s)
    (hstopped : ∀ job', s.jobs.get? job.id = some job' → job'.status ≠ .running) :
    Inv { h with store := s, settled := (job.id, job.attempts) :: h.settled } := by
  have hrest := hinv.relaxed hrelaxed
  have hnew : (job.id, job.attempts) ∉ h.settled := fun hmem =>
    hinv.settledOver _ job hget hmem hrunning
  refine ⟨hrest.keyed, hrest.known, hrest.coherent, hrest.handedUpTo, hrest.handedKnown,
    hrest.current, ?_, ?_, hrest.handedNodup, List.nodup_cons.mpr ⟨hnew, hrest.settledNodup⟩⟩
  · intro k job' hjob' hsettled
    rcases List.mem_cons.mp hsettled with heq | hmem
    · obtain ⟨rfl, -⟩ := Prod.mk.inj heq
      exact hstopped job' hjob'
    · exact hrest.settledOver k job' hjob' hmem
  · intro p hp
    rcases List.mem_cons.mp hp with rfl | hmem
    · exact hinv.current _ job hget hrunning
    · exact hinv.settledHanded p hmem

theorem Inv.ownedRunning_settled {h : StoreHistory ν τ} (hinv : h.Inv) {id workerId : JsString}
    {attempt : ℕ} (hsettled : (id, attempt) ∈ h.settled) :
    h.store.ownedRunning id workerId (some attempt) = none := by
  rw [Option.eq_none_iff_forall_ne_some]
  intro job howned
  obtain ⟨hget, hrunning, -, hattempt⟩ := ownedRunning_eq_some howned
  obtain rfl := hattempt attempt rfl
  exact hinv.settledOver id job hget hsettled hrunning

theorem inv_complete {h : StoreHistory ν τ} (hinv : h.Inv) (id workerId : JsString) (now : τ)
    (result : Json ν) (attempt : ℕ) :
    Inv { h with
      store := (h.store.complete id workerId now result (some attempt)).1
      settled := (if (h.store.complete id workerId now result (some attempt)).2 then
        [(id, attempt)] else []) ++ h.settled } := by
  have hrelaxed := relaxed_complete h.store id workerId now result (some attempt)
  unfold MemoryJobStore.complete at hrelaxed ⊢
  split at hrelaxed
  · exact hinv.relaxed hrelaxed
  · next job howned =>
    obtain ⟨hget, hrunning, -, hattempt⟩ := ownedRunning_eq_some howned
    obtain rfl := hinv.keyed id job hget
    obtain rfl := hattempt attempt rfl
    refine inv_settled hinv hget hrunning hrelaxed ?_
    intro job' hjob'
    rw [JsMap.get?_modify, if_pos rfl, hget] at hjob'
    obtain rfl := Option.some.inj hjob'
    simp [StoredJob.completed]

theorem inv_fail {h : StoreHistory ν τ} (hinv : h.Inv) (id workerId error : JsString)
    (nextStatus : FailStatus) (nextRunAt now : τ) (attempt : ℕ) :
    Inv { h with
      store := (h.store.fail id workerId error nextStatus nextRunAt now (some attempt)).1
      settled := (if (h.store.fail id workerId error nextStatus nextRunAt now (some attempt)).2 then
        [(id, attempt)] else []) ++ h.settled } := by
  have hrelaxed := relaxed_fail h.store id workerId error nextStatus nextRunAt now (some attempt)
  unfold MemoryJobStore.fail at hrelaxed ⊢
  split at hrelaxed
  · exact hinv.relaxed hrelaxed
  · next job howned =>
    obtain ⟨hget, hrunning, -, hattempt⟩ := ownedRunning_eq_some howned
    obtain rfl := hinv.keyed id job hget
    obtain rfl := hattempt attempt rfl
    refine inv_settled hinv hget hrunning hrelaxed ?_
    intro job' hjob'
    rw [JsMap.get?_modify, if_pos rfl, hget] at hjob'
    obtain rfl := Option.some.inj hjob'
    unfold StoredJob.failed
    dsimp only
    split
    · simp
    · cases nextStatus <;> simp [FailStatus.status]

/-! ## Steps -/

variable [Clock τ]

/-- A `put` of a fresh job: an id never put before, no attempt spent, at least one allowed. -/
def Fresh (h : StoreHistory ν τ) (job : Job ν τ) : Prop :=
  job.id ∉ h.putIds ∧ job.attempts = 0 ∧ 1 ≤ job.maxAttempts

instance (h : StoreHistory ν τ) (job : Job ν τ) : Decidable (h.Fresh job) :=
  inferInstanceAs (Decidable (_ ∧ _))

/-- A call and its entry in the history; only a `put` that is not fresh cannot be taken. -/
def step (opts : MemoryJobStoreOptions) (h : StoreHistory ν τ) :
    StoreCall ν τ → Option (StoreHistory ν τ)
  | .put job now =>
    if h.Fresh job then
      some { h with store := (h.store.put opts job now).1, putIds := job.id :: h.putIds }
    else none
  | .claim queue workerId now =>
    let r := h.store.claim queue workerId now
    some { h with
      store := r.1
      handed := (r.2.map fun job => (job.id, job.attempts)).toList ++ h.handed }
  | .heartbeat id workerId leaseUntil now attempt =>
    some { h with store := (h.store.heartbeat id workerId leaseUntil now (some attempt)).1 }
  | .complete id workerId now result attempt =>
    let r := h.store.complete id workerId now result (some attempt)
    some { h with
      store := r.1, settled := (if r.2 then [(id, attempt)] else []) ++ h.settled }
  | .fail id workerId error nextStatus nextRunAt now attempt =>
    let r := h.store.fail id workerId error nextStatus nextRunAt now (some attempt)
    some { h with
      store := r.1, settled := (if r.2 then [(id, attempt)] else []) ++ h.settled }
  | .cancel id now => some { h with store := (h.store.cancel id now).1 }
  | .get id now => some { h with store := (h.store.get id now).1 }
  | .list filter now => some { h with store := (h.store.list filter now).1 }
  | .takeReaped queue now => some { h with store := (h.store.takeReaped queue now).1 }

/-! ### `put` -/

theorem put_get? {opts : MemoryJobStoreOptions} {s : MemoryJobStore ν τ} {job : Job ν τ} {now : τ}
    {k : JsString} {job' : StoredJob ν τ} (h : (s.put opts job now).1.jobs.get? k = some job') :
    (∃ old, s.jobs.get? k = some old ∧ Relaxes old job') ∨
      k = job.id ∧ job' = StoredJob.inserted job job.payload.text now := by
  have hnew (h : (s.insertNew opts job now).1.jobs.get? k = some job') :
      (∃ old, s.jobs.get? k = some old ∧ Relaxes old job') ∨
        k = job.id ∧ job' = StoredJob.inserted job job.payload.text now := by
    have hroom := relaxed_makeRoom opts s now
    unfold MemoryJobStore.insertNew at h
    split at h
    · next swept _ hswept =>
      rw [hswept] at hroom
      exact Or.inl (hroom k job' h)
    · next swept hswept =>
      rw [hswept] at hroom
      rw [JsMap.get?_set] at h
      split at h
      · next hk => exact Or.inr ⟨hk, (Option.some.inj h).symm⟩
      · exact Or.inl (hroom k job' h)
  unfold MemoryJobStore.put at h
  split at h
  · exact hnew h
  split at h
  · exact hnew h
  split at h
  · exact hnew h
  split at h
  · exact Or.inl ⟨job', h, Relaxes.refl job'⟩
  · exact Or.inl ⟨job', h, Relaxes.refl job'⟩

theorem coherent_inserted {job : Job ν τ} {payloadJson : JsonText ν} {now : τ}
    (hattempts : job.attempts = 0) (hmax : 1 ≤ job.maxAttempts) :
    Coherent (StoredJob.inserted job payloadJson now) := by
  have hstatus : (StoredJob.inserted job payloadJson now).status ≠ .running := by
    unfold StoredJob.inserted
    dsimp only
    split <;> simp
  refine ⟨fun h => absurd h hstatus, fun _ => ⟨rfl, rfl⟩, ?_, fun _ => ?_⟩
  · change job.attempts ≤ job.maxAttempts
    omega
  · change job.attempts < job.maxAttempts
    omega

theorem inv_put {opts : MemoryJobStoreOptions} {h : StoreHistory ν τ} {job : Job ν τ} {now : τ}
    (hinv : h.Inv) (hfresh : h.Fresh job) :
    Inv { h with store := (h.store.put opts job now).1, putIds := job.id :: h.putIds } := by
  obtain ⟨hnew, hattempts, hmax⟩ := hfresh
  have hstatus : (StoredJob.inserted job job.payload.text now).status ≠ .running := by
    unfold StoredJob.inserted
    dsimp only
    split <;> simp
  -- an id that was never put was never handed out
  have hnever (a : ℕ) : (job.id, a) ∉ h.handed := fun ha => hnew (hinv.handedKnown _ ha)
  refine ⟨?_, ?_, ?_, ?_, fun p hp => List.mem_cons_of_mem _ (hinv.handedKnown p hp), ?_, ?_,
    hinv.settledHanded, hinv.handedNodup, hinv.settledNodup⟩
  · intro k job' hjob'
    rcases put_get? hjob' with ⟨old, hold, hrelaxes⟩ | ⟨rfl, rfl⟩
    · exact hrelaxes.id.trans (hinv.keyed k old hold)
    · rfl
  · intro k job' hjob'
    rcases put_get? hjob' with ⟨old, hold, -⟩ | ⟨rfl, rfl⟩
    · exact List.mem_cons_of_mem _ (hinv.known k old hold)
    · exact List.mem_cons_self ..
  · intro k job' hjob'
    rcases put_get? hjob' with ⟨old, hold, hrelaxes⟩ | ⟨rfl, rfl⟩
    · exact hrelaxes.coherent (hinv.coherent k old hold)
    · exact coherent_inserted hattempts hmax
  · intro k job' hjob' a ha
    rcases put_get? hjob' with ⟨old, hold, hrelaxes⟩ | ⟨rfl, rfl⟩
    · rw [hrelaxes.attempts]
      exact hinv.handedUpTo k old hold a ha
    · exact absurd ha (hnever a)
  · intro k job' hjob' hrunning
    rcases put_get? hjob' with ⟨old, hold, hrelaxes⟩ | ⟨rfl, rfl⟩
    · rw [hrelaxes.attempts]
      exact hinv.current k old hold (hrelaxes.running hrunning)
    · exact absurd hrunning hstatus
  · intro k job' hjob' hsettled
    rcases put_get? hjob' with ⟨old, hold, hrelaxes⟩ | ⟨rfl, rfl⟩
    · rw [hrelaxes.attempts] at hsettled
      exact fun hrunning => hinv.settledOver k old hold hsettled (hrelaxes.running hrunning)
    · exact hstatus

/-! ### `claim` -/

theorem claim_cases (s : MemoryJobStore ν τ) (queue workerId : JsString) (now : τ) :
    s.claim queue workerId now = (s.reapLeases now, none) ∨
      ∃ best, best ∈ (s.reapLeases now).jobs.values ∧
        (best.status = .queued ∨ best.status = .delayed) ∧
        s.claim queue workerId now =
          ({ s.reapLeases now with
              jobs := (s.reapLeases now).jobs.modify best.id (StoredJob.claimed workerId now) },
            some (best.claimed workerId now).clone) := by
  unfold MemoryJobStore.claim
  dsimp only
  split
  · exact Or.inl rfl
  · next best hbest =>
    obtain ⟨hmem, hrunnable⟩ := pickRunnable_eq_some hbest
    refine Or.inr ⟨best, hmem, ?_, rfl⟩
    simp only [StoredJob.runnable, Bool.and_eq_true, Bool.or_eq_true, decide_eq_true_eq] at hrunnable
    rcases hrunnable.2 with hqueued | hdelayed
    · exact Or.inl hqueued
    · exact Or.inr hdelayed.1

theorem inv_claimed {h : StoreHistory ν τ} {best : StoredJob ν τ} {workerId : JsString} {now : τ}
    (hinv : h.Inv) (hbest : best ∈ h.store.jobs.values)
    (hlive : best.status = .queued ∨ best.status = .delayed) :
    Inv { h with
      store := { h.store with
        jobs := h.store.jobs.modify best.id (StoredJob.claimed workerId now) }
      handed := (best.id, best.attempts + 1) :: h.handed } := by
  obtain ⟨key, hget⟩ := JsMap.mem_values.mp hbest
  obtain rfl := hinv.keyed key best hget
  have hleft := (hinv.coherent _ best hget).left hlive
  have hclaimed {k : JsString} {job' : StoredJob ν τ}
      (hjob' : (h.store.jobs.modify best.id (StoredJob.claimed workerId now)).get? k = some job') :
      k = best.id ∧ job' = best.claimed workerId now ∨ k ≠ best.id ∧ h.store.jobs.get? k = some job' := by
    rw [JsMap.get?_modify] at hjob'
    split at hjob'
    · next hk =>
      rw [hk, hget] at hjob'
      exact Or.inl ⟨hk, (Option.some.inj hjob').symm⟩
    · next hk => exact Or.inr ⟨hk, hjob'⟩
  have hnew : (best.id, best.attempts + 1) ∉ h.handed := by
    intro hmem
    have := hinv.handedUpTo _ best hget _ hmem
    omega
  refine ⟨?_, ?_, ?_, ?_, ?_, ?_, ?_, ?_, List.nodup_cons.mpr ⟨hnew, hinv.handedNodup⟩,
    hinv.settledNodup⟩
  · intro k job' hjob'
    rcases hclaimed hjob' with ⟨rfl, rfl⟩ | ⟨-, hold⟩
    · rfl
    · exact hinv.keyed k job' hold
  · intro k job' hjob'
    rcases hclaimed hjob' with ⟨rfl, rfl⟩ | ⟨-, hold⟩
    · exact hinv.known _ best hget
    · exact hinv.known k job' hold
  · intro k job' hjob'
    rcases hclaimed hjob' with ⟨rfl, rfl⟩ | ⟨-, hold⟩
    · exact ⟨fun _ => ⟨rfl, rfl⟩, fun hrun => absurd rfl hrun, hleft,
        by simp [StoredJob.claimed]⟩
    · exact hinv.coherent k job' hold
  · intro k job' hjob' a ha
    rcases hclaimed hjob' with ⟨rfl, rfl⟩ | ⟨hk, hold⟩
    · change a ≤ best.attempts + 1
      rcases List.mem_cons.mp ha with heq | hmem
      · exact Nat.le_of_eq (Prod.mk.inj heq).2
      · exact Nat.le_succ_of_le (hinv.handedUpTo _ best hget a hmem)
    · rcases List.mem_cons.mp ha with heq | hmem
      · exact absurd (Prod.mk.inj heq).1 hk
      · exact hinv.handedUpTo k job' hold a hmem
  · intro p hp
    rcases List.mem_cons.mp hp with rfl | hmem
    · exact hinv.known _ best hget
    · exact hinv.handedKnown p hmem
  · intro k job' hjob' hrunning
    rcases hclaimed hjob' with ⟨rfl, rfl⟩ | ⟨-, hold⟩
    · exact List.mem_cons_self ..
    · exact List.mem_cons_of_mem _ (hinv.current k job' hold hrunning)
  · intro k job' hjob' hsettled
    rcases hclaimed hjob' with ⟨rfl, rfl⟩ | ⟨-, hold⟩
    · exact absurd (hinv.settledHanded _ hsettled) hnew
    · exact hinv.settledOver k job' hold hsettled
  · intro p hp
    exact List.mem_cons_of_mem _ (hinv.settledHanded p hp)

theorem inv_claim {h : StoreHistory ν τ} (hinv : h.Inv) (queue workerId : JsString) (now : τ) :
    Inv { h with
      store := (h.store.claim queue workerId now).1
      handed := ((h.store.claim queue workerId now).2.map fun job =>
        (job.id, job.attempts)).toList ++ h.handed } := by
  have hreaped := hinv.relaxed (relaxed_reapLeases h.store now)
  rcases claim_cases h.store queue workerId now with hnone | ⟨best, hbest, hlive, hsome⟩
  · rw [hnone]
    exact hreaped
  · rw [hsome]
    exact inv_claimed hreaped hbest hlive

theorem inv_step {opts : MemoryJobStoreOptions} (h : StoreHistory ν τ) (c : StoreCall ν τ)
    (h' : StoreHistory ν τ) (hinv : h.Inv) (hs : h.step opts c = some h') : h'.Inv := by
  cases c with
  | put job now =>
    simp only [step, Option.ite_none_right_eq_some, Option.some.injEq] at hs
    obtain ⟨hfresh, rfl⟩ := hs
    exact inv_put hinv hfresh
  | claim queue workerId now =>
    obtain rfl := Option.some.inj hs
    exact inv_claim hinv queue workerId now
  | heartbeat id workerId leaseUntil now attempt =>
    obtain rfl := Option.some.inj hs
    exact hinv.relaxed (relaxed_heartbeat h.store id workerId leaseUntil now (some attempt))
  | complete id workerId now result attempt =>
    obtain rfl := Option.some.inj hs
    exact inv_complete hinv id workerId now result attempt
  | fail id workerId error nextStatus nextRunAt now attempt =>
    obtain rfl := Option.some.inj hs
    exact inv_fail hinv id workerId error nextStatus nextRunAt now attempt
  | cancel id now =>
    obtain rfl := Option.some.inj hs
    exact hinv.relaxed (relaxed_cancel h.store id now)
  | get id now =>
    obtain rfl := Option.some.inj hs
    exact hinv.relaxed (relaxed_reapLeases h.store now)
  | list filter now =>
    obtain rfl := Option.some.inj hs
    exact hinv.relaxed (relaxed_reapLeases h.store now)
  | takeReaped queue now =>
    obtain rfl := Option.some.inj hs
    exact hinv.relaxed (relaxed_reapLeases h.store now)

/-! ## Runs -/

theorem putIds_step {opts : MemoryJobStoreOptions} {h h' : StoreHistory ν τ} {c : StoreCall ν τ}
    (hs : h.step opts c = some h') {k : JsString} (hk : k ∈ h.putIds) : k ∈ h'.putIds := by
  cases c with
  | put job now =>
    simp only [step, Option.ite_none_right_eq_some, Option.some.injEq] at hs
    obtain ⟨-, rfl⟩ := hs
    exact List.mem_cons_of_mem _ hk
  | _ =>
    obtain rfl := Option.some.inj hs
    exact hk

theorem step_get? {opts : MemoryJobStoreOptions} {h h' : StoreHistory ν τ} {c : StoreCall ν τ}
    (hinv : h.Inv) (hs : h.step opts c = some h') {k : JsString} {job' : StoredJob ν τ}
    (hk : k ∈ h.putIds) (hget : h'.store.jobs.get? k = some job') :
    ∃ job, h.store.jobs.get? k = some job ∧ (job.status.terminal = true → job' = job) := by
  have hrelaxed {s : MemoryJobStore ν τ} (hr : Relaxed h.store s)
      (hget : s.jobs.get? k = some job') :
      ∃ job, h.store.jobs.get? k = some job ∧ (job.status.terminal = true → job' = job) := by
    obtain ⟨job, hjob, hrelaxes⟩ := hr k job' hget
    exact ⟨job, hjob, hrelaxes.terminal⟩
  cases c with
  | put job now =>
    simp only [step, Option.ite_none_right_eq_some, Option.some.injEq] at hs
    obtain ⟨hfresh, rfl⟩ := hs
    rcases put_get? hget with ⟨old, hold, hrelaxes⟩ | ⟨rfl, -⟩
    · exact ⟨old, hold, hrelaxes.terminal⟩
    · exact absurd hk hfresh.1
  | claim queue workerId now =>
    obtain rfl := Option.some.inj hs
    dsimp only at hget
    have hreap := relaxed_reapLeases h.store now
    rcases claim_cases h.store queue workerId now with hnone | ⟨best, hbest, hlive, hsome⟩
    · rw [hnone] at hget
      exact hrelaxed hreap hget
    · rw [hsome] at hget
      dsimp only at hget
      rw [JsMap.get?_modify] at hget
      split at hget
      · next hkey =>
        obtain ⟨claimed, hclaimed, rfl⟩ := Option.map_eq_some_iff.mp hget
        -- the record picked is the one under its own id, and it is not terminal
        obtain ⟨key, hgetBest⟩ := JsMap.mem_values.mp hbest
        obtain rfl := (hinv.relaxed hreap).keyed key best hgetBest
        rw [hkey, hgetBest] at hclaimed
        obtain rfl := Option.some.inj hclaimed
        obtain ⟨old, hold, hrelaxes⟩ := hreap _ best (hkey ▸ hgetBest)
        refine ⟨old, hold, ?_⟩
        intro hterminal
        have hsame := hrelaxes.terminal hterminal
        rw [← hsame] at hterminal
        rcases hlive with hlive | hlive <;> simp [hlive, JobStatus.terminal] at hterminal
      · exact hrelaxed hreap hget
  | heartbeat id workerId leaseUntil now attempt =>
    obtain rfl := Option.some.inj hs
    exact hrelaxed (relaxed_heartbeat h.store id workerId leaseUntil now (some attempt)) hget
  | complete id workerId now result attempt =>
    obtain rfl := Option.some.inj hs
    exact hrelaxed (relaxed_complete h.store id workerId now result (some attempt)) hget
  | fail id workerId error nextStatus nextRunAt now attempt =>
    obtain rfl := Option.some.inj hs
    exact hrelaxed
      (relaxed_fail h.store id workerId error nextStatus nextRunAt now (some attempt)) hget
  | cancel id now =>
    obtain rfl := Option.some.inj hs
    exact hrelaxed (relaxed_cancel h.store id now) hget
  | get id now =>
    obtain rfl := Option.some.inj hs
    exact hrelaxed (relaxed_reapLeases h.store now) hget
  | list filter now =>
    obtain rfl := Option.some.inj hs
    exact hrelaxed (relaxed_reapLeases h.store now) hget
  | takeReaped queue now =>
    obtain rfl := Option.some.inj hs
    exact hrelaxed (relaxed_reapLeases h.store now) hget

/-- The terminal record `job` is kept under `k` as it is, or purged. -/
def Kept (k : JsString) (job : StoredJob ν τ) (h : StoreHistory ν τ) : Prop :=
  h.Inv ∧ k ∈ h.putIds ∧ ∀ job', h.store.jobs.get? k = some job' → job' = job

theorem kept_step {opts : MemoryJobStoreOptions} {k : JsString} {job : StoredJob ν τ}
    (hterminal : job.status.terminal = true) (h : StoreHistory ν τ) (c : StoreCall ν τ)
    (h' : StoreHistory ν τ) (hkept : Kept k job h) (hs : h.step opts c = some h') :
    Kept k job h' := by
  obtain ⟨hinv, hk, honly⟩ := hkept
  refine ⟨inv_step h c h' hinv hs, putIds_step hs hk, ?_⟩
  intro job' hget
  obtain ⟨old, hold, hsame⟩ := step_get? hinv hs hk hget
  obtain rfl := honly old hold
  exact hsame hterminal

/-! ## What a run guarantees -/

/-- What callers rely on after a run that led to `h`. -/
structure Fenced (opts : MemoryJobStoreOptions) (h : StoreHistory ν τ) : Prop where
  leased : ∀ job ∈ h.store.jobs.values,
    job.status = .running ↔ job.lockedBy.isSome = true ∧ job.leaseUntil.isSome = true
  budget : ∀ job ∈ h.store.jobs.values, job.attempts ≤ job.maxAttempts
  left : ∀ job ∈ h.store.jobs.values,
    job.status = .queued ∨ job.status = .delayed → job.attempts < job.maxAttempts
  terminal : ∀ k job, h.store.jobs.get? k = some job → job.status.terminal = true →
    ∀ calls h', run (step opts) h calls = some h' →
      h'.store.jobs.get? k = some job ∨ h'.store.jobs.get? k = none
  handedOnce : h.handed.Nodup
  settledOnce : h.settled.Nodup
  settledHanded : ∀ p ∈ h.settled, p ∈ h.handed
  completeRefused : ∀ id workerId now result attempt,
    ((id, attempt) ∈ h.settled → (h.store.complete id workerId now result (some attempt)).2 = false) ∧
    ((h.store.complete id workerId now result (some attempt)).2 = false →
      (h.store.complete id workerId now result (some attempt)).1 = h.store)
  failRefused : ∀ id workerId error nextStatus nextRunAt now attempt,
    ((id, attempt) ∈ h.settled →
      (h.store.fail id workerId error nextStatus nextRunAt now (some attempt)).2 = false) ∧
    ((h.store.fail id workerId error nextStatus nextRunAt now (some attempt)).2 = false →
      (h.store.fail id workerId error nextStatus nextRunAt now (some attempt)).1 = h.store)

theorem Inv.fenced {opts : MemoryJobStoreOptions} {h : StoreHistory ν τ} (hinv : h.Inv) :
    Fenced opts h := by
  have hcoherent : ∀ job ∈ h.store.jobs.values, Coherent job := by
    intro job hjob
    obtain ⟨k, hget⟩ := JsMap.mem_values.mp hjob
    exact hinv.coherent k job hget
  refine ⟨fun job hjob => (hcoherent job hjob).running_iff, fun job hjob => (hcoherent job hjob).budget,
    fun job hjob => (hcoherent job hjob).left, ?_, hinv.handedNodup, hinv.settledNodup,
    hinv.settledHanded, ?_, ?_⟩
  · intro k job hget hterminal calls h' hrun
    have hkept : Kept k job h := by
      refine ⟨hinv, hinv.known k job hget, ?_⟩
      intro job' hget'
      exact Option.some.inj (hget'.symm.trans hget)
    have hlast := run_invariant_all (kept_step hterminal) hkept hrun
    cases hlater : h'.store.jobs.get? k with
    | none => exact Or.inr rfl
    | some job' => exact Or.inl (congrArg some (hlast.2.2 job' hlater))
  · intro id workerId now result attempt
    unfold MemoryJobStore.complete
    constructor
    · intro hsettled
      rw [hinv.ownedRunning_settled hsettled]
    · split <;> simp
  · intro id workerId error nextStatus nextRunAt now attempt
    unfold MemoryJobStore.fail
    constructor
    · intro hsettled
      rw [hinv.ownedRunning_settled hsettled]
    · split <;> simp

/-- **The store fences its workers**, whatever the calls, their order and their clocks. -/
theorem fences (opts : MemoryJobStoreOptions) (calls : List (StoreCall ν τ)) (h : StoreHistory ν τ)
    (hrun : run (step opts) {} calls = some h) : Fenced opts h :=
  Inv.fenced (run_invariant_all inv_step inv_empty hrun)

theorem fences_two_workers :
    ∃ h : StoreHistory ℕ ℤ, run (step {}) {}
        [.put sampleJob 0, .claim (js "default") (js "w1") 0, .claim (js "default") (js "w2") 31,
          .complete (js "job-1") (js "w1") 32 ⟨.null, trivial⟩ 1,
          .complete (js "job-1") (js "w2") 33 ⟨.null, trivial⟩ 2] = some h ∧
      h.handed = [(js "job-1", 2), (js "job-1", 1)] ∧ h.settled = [(js "job-1", 2)] ∧
      Fenced {} h := by
  have hrun : (run (step {}) ({} : StoreHistory ℕ ℤ)
      [.put sampleJob 0, .claim (js "default") (js "w1") 0, .claim (js "default") (js "w2") 31,
        .complete (js "job-1") (js "w1") 32 ⟨.null, trivial⟩ 1,
        .complete (js "job-1") (js "w2") 33 ⟨.null, trivial⟩ 2]).map
          (fun h => (h.handed, h.settled)) =
      some ([(js "job-1", 2), (js "job-1", 1)], [(js "job-1", 2)]) := by decide
  obtain ⟨h, hh, hlog⟩ := Option.map_eq_some_iff.mp hrun
  obtain ⟨hhanded, hsettled⟩ := Prod.mk.inj hlog
  exact ⟨h, hh, hhanded, hsettled, fences {} _ h hh⟩

end StoreHistory

end Daloy.Jobs
