import Daloy.Jobs.MemoryStore

/-! # What the store's operations do to its records

* `Coherent`: what holds of every record of a store whose jobs were put fresh.
* `Relaxed`: what every operation but `put` and `claim` does, reaping and purging included: each
  record that is left is the same job on the same attempt, none starts to run, and a terminal one is
  as it was.
-/

namespace Daloy.Jobs
set_option autoImplicit false

open Daloy.Unicode Daloy.Security Daloy.Json

variable {ν τ : Type} [NumberText ν]

/-! ## What holds of every record -/

structure Coherent (job : StoredJob ν τ) : Prop where
  locked : job.status = .running → job.lockedBy.isSome = true ∧ job.leaseUntil.isSome = true
  unlocked : job.status ≠ .running → job.lockedBy = none ∧ job.leaseUntil = none
  budget : job.attempts ≤ job.maxAttempts
  left : job.status = .queued ∨ job.status = .delayed → job.attempts < job.maxAttempts

theorem Coherent.running_iff {job : StoredJob ν τ} (h : Coherent job) :
    job.status = .running ↔ job.lockedBy.isSome = true ∧ job.leaseUntil.isSome = true := by
  constructor
  · exact h.locked
  · intro hlock
    by_contra hstatus
    rw [(h.unlocked hstatus).1] at hlock
    simp at hlock

/-- The record stays the same job on the same attempt, and does not start to run. -/
structure Relaxes (job job' : StoredJob ν τ) : Prop where
  id : job'.id = job.id
  attempts : job'.attempts = job.attempts
  coherent : Coherent job → Coherent job'
  running : job'.status = .running → job.status = .running
  terminal : job.status.terminal = true → job' = job

theorem Relaxes.refl (job : StoredJob ν τ) : Relaxes job job := ⟨rfl, rfl, fun h => h, fun h => h, fun _ => rfl⟩

def Relaxed (s s' : MemoryJobStore ν τ) : Prop :=
  ∀ k job', s'.jobs.get? k = some job' → ∃ job, s.jobs.get? k = some job ∧ Relaxes job job'

theorem Relaxed.refl (s : MemoryJobStore ν τ) : Relaxed s s :=
  fun _ job' h => ⟨job', h, Relaxes.refl job'⟩

/-! ## What the operations do to one record -/

theorem not_terminal_of_running {job : StoredJob ν τ} (h : job.status = .running) :
    job.status.terminal = false := by
  rw [h]
  rfl

theorem relaxes_completed (now : τ) (result : Json ν) {job : StoredJob ν τ}
    (h : job.status = .running) : Relaxes job (job.completed now result) :=
  ⟨rfl, rfl, fun hc => ⟨by simp [StoredJob.completed], fun _ => ⟨rfl, rfl⟩, hc.budget,
    by simp [StoredJob.completed]⟩, by simp [StoredJob.completed],
    by simp [not_terminal_of_running h]⟩

theorem relaxes_failed (error : JsString) (nextStatus : FailStatus) (nextRunAt now : τ)
    {job : StoredJob ν τ} (h : job.status = .running) :
    Relaxes job (job.failed error nextStatus nextRunAt now) := by
  have hlive := not_terminal_of_running h
  unfold StoredJob.failed
  dsimp only
  split
  · exact ⟨rfl, rfl, fun hc => ⟨by simp, fun _ => ⟨rfl, rfl⟩, hc.budget, by simp⟩, by simp,
      by simp [hlive]⟩
  · next hleft =>
    have hnext : nextStatus.status ≠ .running := by cases nextStatus <;> simp [FailStatus.status]
    exact ⟨rfl, rfl, fun hc => ⟨fun hr => absurd hr hnext, fun _ => ⟨rfl, rfl⟩, hc.budget,
      fun _ => Nat.lt_of_not_le hleft⟩, fun hr => absurd hr hnext, by simp [hlive]⟩

theorem relaxes_cancelled (now : τ) {job : StoredJob ν τ} (h : job.status.terminal = false) :
    Relaxes job (job.cancelled now) :=
  ⟨rfl, rfl, fun hc => ⟨by simp [StoredJob.cancelled], fun _ => ⟨rfl, rfl⟩, hc.budget,
    by simp [StoredJob.cancelled]⟩, by simp [StoredJob.cancelled], by simp [h]⟩

theorem relaxes_extended (leaseUntil now : τ) {job : StoredJob ν τ} (h : job.status = .running) :
    Relaxes job { job with leaseUntil := some leaseUntil, updatedAt := now } :=
  ⟨rfl, rfl, fun hc => ⟨fun hr => ⟨(hc.locked hr).1, rfl⟩, fun hr => absurd h hr, hc.budget,
    hc.left⟩, fun hr => hr, by simp [not_terminal_of_running h]⟩

theorem relaxed_modify {s : MemoryJobStore ν τ} {id : JsString} {f : StoredJob ν τ → StoredJob ν τ}
    (h : ∀ job, s.jobs.get? id = some job → Relaxes job (f job)) :
    Relaxed s { s with jobs := s.jobs.modify id f } := by
  intro k job' hjob'
  rw [JsMap.get?_modify] at hjob'
  split at hjob'
  · next hk =>
    subst hk
    obtain ⟨job, hjob, rfl⟩ := Option.map_eq_some_iff.mp hjob'
    exact ⟨job, hjob, h job hjob⟩
  · exact ⟨job', hjob', Relaxes.refl job'⟩

theorem ownedRunning_eq_some {s : MemoryJobStore ν τ} {id workerId : JsString} {attempt : Option ℕ}
    {job : StoredJob ν τ} (h : s.ownedRunning id workerId attempt = some job) :
    s.jobs.get? id = some job ∧ job.status = .running ∧ job.lockedBy = some workerId ∧
      ∀ a, attempt = some a → job.attempts = a := by
  rw [MemoryJobStore.ownedRunning, Option.filter_eq_some_iff] at h
  obtain ⟨hget, hcond⟩ := h
  simp only [Bool.and_eq_true, decide_eq_true_eq] at hcond
  refine ⟨hget, hcond.1.1, hcond.1.2, ?_⟩
  rintro a rfl
  simpa using hcond.2

theorem relaxed_complete (s : MemoryJobStore ν τ) (id workerId : JsString) (now : τ)
    (result : Json ν) (attempt : Option ℕ) :
    Relaxed s (s.complete id workerId now result attempt).1 := by
  unfold MemoryJobStore.complete
  split
  · exact Relaxed.refl s
  · next job howned =>
    obtain ⟨hget, hrunning, -⟩ := ownedRunning_eq_some howned
    apply relaxed_modify
    intro job' hget'
    obtain rfl : job = job' := Option.some.inj (hget.symm.trans hget')
    exact relaxes_completed now result hrunning

theorem relaxed_fail (s : MemoryJobStore ν τ) (id workerId error : JsString)
    (nextStatus : FailStatus) (nextRunAt now : τ) (attempt : Option ℕ) :
    Relaxed s (s.fail id workerId error nextStatus nextRunAt now attempt).1 := by
  unfold MemoryJobStore.fail
  split
  · exact Relaxed.refl s
  · next job howned =>
    obtain ⟨hget, hrunning, -⟩ := ownedRunning_eq_some howned
    apply relaxed_modify
    intro job' hget'
    obtain rfl : job = job' := Option.some.inj (hget.symm.trans hget')
    exact relaxes_failed error nextStatus nextRunAt now hrunning

theorem relaxed_cancel (s : MemoryJobStore ν τ) (id : JsString) (now : τ) :
    Relaxed s (s.cancel id now).1 := by
  unfold MemoryJobStore.cancel
  split
  · exact Relaxed.refl s
  · next job hget =>
    split
    · exact Relaxed.refl s
    · next hlive =>
      apply relaxed_modify
      intro job' hget'
      obtain rfl : job = job' := Option.some.inj (hget.symm.trans hget')
      exact relaxes_cancelled now (by simpa using hlive)

variable [Clock τ]

theorem relaxes_reaped (now : τ) (job : StoredJob ν τ) : Relaxes job (job.reaped now) := by
  unfold StoredJob.reaped
  split
  · next hexpired =>
    rw [StoredJob.expired, Bool.and_eq_true, decide_eq_true_eq] at hexpired
    have hlive := not_terminal_of_running hexpired.1
    split
    · exact ⟨rfl, rfl, fun h => ⟨by simp, fun _ => ⟨rfl, rfl⟩, h.budget, by simp⟩, by simp,
        by simp [hlive]⟩
    · next hleft =>
      exact ⟨rfl, rfl, fun h => ⟨by simp, fun _ => ⟨rfl, rfl⟩, h.budget,
        fun _ => Nat.lt_of_not_le hleft⟩, by simp, by simp [hlive]⟩
  · exact Relaxes.refl job

/-! ## What the operations do to the store -/

theorem relaxed_reapLeases (s : MemoryJobStore ν τ) (now : τ) : Relaxed s (s.reapLeases now) := by
  intro k job' hjob'
  rw [MemoryJobStore.reapLeases, JsMap.get?_mapValues] at hjob'
  obtain ⟨job, hjob, rfl⟩ := Option.map_eq_some_iff.mp hjob'
  exact ⟨job, hjob, relaxes_reaped now job⟩

theorem relaxed_makeRoom (opts : MemoryJobStoreOptions) (s : MemoryJobStore ν τ) (now : τ) :
    Relaxed s (s.makeRoom opts now).1 := by
  have hpurge : Relaxed s (s.purgeExpiredTerminal opts now) := by
    intro k job' hjob'
    rw [MemoryJobStore.purgeExpiredTerminal, JsMap.get?_deleteAll] at hjob'
    split at hjob'
    · simp at hjob'
    · exact ⟨job', hjob', Relaxes.refl job'⟩
  unfold MemoryJobStore.makeRoom
  dsimp only
  split
  · split <;> exact hpurge
  · exact Relaxed.refl s

theorem relaxed_heartbeat (s : MemoryJobStore ν τ) (id workerId : JsString) (leaseUntil now : τ)
    (attempt : Option ℕ) : Relaxed s (s.heartbeat id workerId leaseUntil now attempt).1 := by
  unfold MemoryJobStore.heartbeat
  split
  · exact Relaxed.refl s
  · next job howned =>
    obtain ⟨hget, hrunning, -⟩ := ownedRunning_eq_some howned
    split
    · exact Relaxed.refl s
    · apply relaxed_modify
      intro job' hget'
      obtain rfl : job = job' := Option.some.inj (hget.symm.trans hget')
      exact relaxes_extended leaseUntil now hrunning

theorem pickRunnable_eq_some {s : MemoryJobStore ν τ} {queue : JsString} {now : τ}
    {best : StoredJob ν τ} (h : s.pickRunnable queue now = some best) :
    best ∈ s.jobs.values ∧ best.runnable queue now = true := by
  have hloop (jobs : List (StoredJob ν τ)) (found : Option (StoredJob ν τ))
      (hfound : ∀ job, found = some job → job ∈ s.jobs.values ∧ job.runnable queue now = true)
      (hsub : ∀ job ∈ jobs, job ∈ s.jobs.values) :
      ∀ job, jobs.foldl (MemoryJobStore.betterOf queue now) found = some job →
        job ∈ s.jobs.values ∧ job.runnable queue now = true := by
    induction jobs generalizing found with
    | nil => exact hfound
    | cons next jobs ih =>
      refine ih _ ?_ fun job hjob => hsub job (List.mem_cons_of_mem _ hjob)
      intro job hjob
      unfold MemoryJobStore.betterOf at hjob
      split at hjob
      · next hcond =>
        obtain rfl := Option.some.inj hjob
        rw [Bool.and_eq_true] at hcond
        exact ⟨hsub _ (List.mem_cons_self ..), hcond.1⟩
      · exact hfound job hjob
  exact hloop s.jobs.values none (by simp) (fun _ hjob => hjob) best h

end Daloy.Jobs
