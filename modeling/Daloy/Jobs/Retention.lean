import Daloy.Jobs.Idempotency

/-! # The memory store loses no work

* `Swept`: what making room for a job leaves behind.
* `work_kept`: after any run the store is within its capacity, what a `put` has accepted is filed, and
  a record leaves the store only after it was completed, cancelled or dead.
-/

namespace Daloy.Jobs
set_option autoImplicit false

open Daloy.Unicode Daloy.Security Daloy.Json Daloy.Runs

variable {ν τ : Type} [NumberText ν]

/-- The store has the job of the record, with its queue, its key and its payload. -/
def Retains (s : MemoryJobStore ν τ) (k : JsString) (job : StoredJob ν τ) : Prop :=
  ∃ job', s.jobs.get? k = some job' ∧ job'.binding = job.binding

theorem Keeps.size_le {s s' : MemoryJobStore ν τ} (h : Keeps s s') :
    s'.jobs.size ≤ s.jobs.size := by
  apply JsMap.size_le
  intro k job' hjob'
  obtain ⟨job, hjob, -⟩ := h.get? hjob'
  exact ⟨job, hjob⟩

variable [Clock τ]

theorem keeps_step {opts : MemoryJobStoreOptions} {h h' : StoreHistory ν τ} {c : StoreCall ν τ}
    (hput : ∀ job now, c ≠ .put job now) (hs : h.step opts c = some h') :
    Keeps h.store h'.store := by
  cases c with
  | put job now => exact absurd rfl (hput job now)
  | claim queue workerId now =>
    obtain rfl := Option.some.inj hs
    exact keeps_claim h.store queue workerId now
  | heartbeat id workerId leaseUntil now attempt =>
    obtain rfl := Option.some.inj hs
    exact keeps_heartbeat h.store id workerId leaseUntil now (some attempt)
  | complete id workerId now result attempt =>
    obtain rfl := Option.some.inj hs
    exact keeps_complete h.store id workerId now result (some attempt)
  | fail id workerId error nextStatus nextRunAt now attempt =>
    obtain rfl := Option.some.inj hs
    exact keeps_fail h.store id workerId error nextStatus nextRunAt now (some attempt)
  | cancel id now =>
    obtain rfl := Option.some.inj hs
    exact keeps_cancel h.store id now
  | get id now | list filter now =>
    obtain rfl := Option.some.inj hs
    exact keeps_reapLeases h.store now
  | takeReaped queue now =>
    obtain rfl := Option.some.inj hs
    have hreap := keeps_reapLeases h.store now
    exact ⟨hreap.idem, hreap.jobs⟩

/-! ## `put` -/

/-- The terminal records may be gone, and a job that is let in finds a place. -/
structure Swept (opts : MemoryJobStoreOptions) (s s' : MemoryJobStore ν τ) (admitted : Bool) :
    Prop where
  kept : ∀ k job, s.jobs.get? k = some job → Retains s' k job ∨ job.status.terminal = true
  size : s'.jobs.size ≤ s.jobs.size
  room : admitted = true → s'.jobs.size < opts.capacity

theorem terminal_of_purgeable {opts : MemoryJobStoreOptions} {now : τ} {job : StoredJob ν τ}
    (h : job.purgeable opts now = true) : job.status.terminal = true := by
  unfold StoredJob.purgeable at h
  cases hstatus : job.status <;> simp_all [JobStatus.terminal]

theorem swept_makeRoom (opts : MemoryJobStoreOptions) {s : MemoryJobStore ν τ} (now : τ)
    (hkeyed : ∀ k job, s.jobs.get? k = some job → job.id = k) :
    Swept opts s (s.makeRoom opts now).1 (s.makeRoom opts now).2.isOk := by
  have hkept : ∀ k job, s.jobs.get? k = some job →
      Retains (s.purgeExpiredTerminal opts now) k job ∨ job.status.terminal = true := by
    intro k job hjob
    rw [Retains, MemoryJobStore.purgeExpiredTerminal, JsMap.get?_deleteAll]
    split
    · next hgone =>
      obtain ⟨gone, hmem, hid⟩ := List.mem_map.mp hgone
      obtain ⟨hmem, hpurgeable⟩ := List.mem_filter.mp hmem
      -- the record that is purged is the one under the key, which is its id
      obtain ⟨l, hl⟩ := JsMap.mem_values.mp hmem
      obtain rfl : l = k := (hkeyed l gone hl).symm.trans hid
      obtain rfl := Option.some.inj (hl.symm.trans hjob)
      exact .inr (terminal_of_purgeable hpurgeable)
    · exact .inl ⟨job, hjob, rfl⟩
  have hsize : (s.makeRoom opts now).1.jobs.size ≤ s.jobs.size := by
    apply JsMap.size_le
    intro k job' hjob'
    obtain ⟨job, hjob, -⟩ := relaxed_makeRoom opts s now k job' hjob'
    exact ⟨job, hjob⟩
  refine ⟨?_, hsize, ?_⟩
  · unfold MemoryJobStore.makeRoom
    dsimp only
    split
    · split <;> exact hkept
    · exact fun _ job hjob => .inl ⟨job, hjob, rfl⟩
  · unfold MemoryJobStore.makeRoom
    dsimp only
    split
    · split
      · simp [Except.isOk, Except.toBool]
      · next hroom => exact fun _ => Nat.lt_of_not_le hroom
    · next hroom => exact fun _ => Nat.lt_of_not_le hroom

/-- A job that is not new to the caller leaves the records as they are; one that is refused leaves
them swept; one that is accepted is filed behind them. -/
inductive Filed (opts : MemoryJobStoreOptions) (s : MemoryJobStore ν τ) (job : Job ν τ) (now : τ)
    (jobs : JsMap JsString (StoredJob ν τ)) : Bool → Prop
  | same (h : jobs = s.jobs) : Filed opts s job now jobs false
  | swept (h : jobs = (s.makeRoom opts now).1.jobs) : Filed opts s job now jobs false
  | filed (hok : (s.makeRoom opts now).2.isOk = true)
    (h : jobs = (s.makeRoom opts now).1.jobs.set job.id (.inserted job job.payload.text now)) :
    Filed opts s job now jobs true

def accepted (r : Except JobError (EnqueueResult ν τ)) : Bool :=
  match r with
  | .ok r => !r.duplicate
  | .error _ => false

theorem filed_put (opts : MemoryJobStoreOptions) (s : MemoryJobStore ν τ) (job : Job ν τ)
    (now : τ) : Filed opts s job now (s.put opts job now).1.jobs (accepted (s.put opts job now).2) := by
  have hnew : Filed opts s job now (s.insertNew opts job now).1.jobs
      (accepted (s.insertNew opts job now).2) := by
    unfold MemoryJobStore.insertNew
    split
    · next hroom => exact .swept (by rw [hroom])
    · next hroom => exact .filed (by rw [hroom]; rfl) (by rw [hroom])
  unfold MemoryJobStore.put
  split
  · exact hnew
  split
  · exact hnew
  split
  · exact hnew
  split
  · exact .same rfl
  · exact .same rfl

/-! ## Runs -/

theorem retains_step {opts : MemoryJobStoreOptions} {h h' : StoreHistory ν τ} {c : StoreCall ν τ}
    (hinv : h.Inv) (hs : h.step opts c = some h') :
    (∀ k job, h.store.jobs.get? k = some job →
      Retains h'.store k job ∨ job.status.terminal = true) ∧
      (h.store.jobs.size ≤ opts.capacity → h'.store.jobs.size ≤ opts.capacity) := by
  by_cases hput : ∀ new now, c ≠ .put new now
  · have hkeeps := keeps_step hput hs
    exact ⟨fun k job hjob => .inl (hkeeps.symm.get? hjob), hkeeps.size_le.trans⟩
  push Not at hput
  obtain ⟨new, now, rfl⟩ := hput
  simp only [StoreHistory.step, Option.ite_none_right_eq_some, Option.some.injEq] at hs
  obtain ⟨hfresh, rfl⟩ := hs
  have hswept := swept_makeRoom opts now hinv.keyed
  have hfiled := filed_put opts h.store new now
  generalize accepted _ = new? at hfiled
  dsimp only [Retains]
  cases hfiled with
  | same heq =>
    rw [heq]
    exact ⟨fun k job hjob => .inl ⟨job, hjob, rfl⟩, id⟩
  | swept heq =>
    rw [heq]
    exact ⟨hswept.kept, hswept.size.trans⟩
  | filed hok heq =>
    rw [heq]
    refine ⟨?_, fun _ => (JsMap.size_set_le ..).trans (hswept.room hok)⟩
    intro k job hjob
    -- the id of the new job is not the key of an old one
    have hk : k ≠ new.id := by
      rintro rfl
      exact hfresh.1 (hinv.known _ job hjob)
    rw [JsMap.get?_set, if_neg hk]
    exact hswept.kept k job hjob

structure WorkKept (opts : MemoryJobStoreOptions) (h : StoreHistory ν τ) : Prop where
  within : h.store.jobs.size ≤ opts.capacity
  filed : ∀ job now, accepted (h.store.put opts job now).2 = true →
    (h.store.put opts job now).1.jobs.get? job.id = some (.inserted job job.payload.text now)
  finished : ∀ calls h' k job, run (StoreHistory.step opts) h calls = some h' →
    h.store.jobs.get? k = some job → Retains h'.store k job ∨
      ∃ before mid last, before <+: calls ∧ run (StoreHistory.step opts) h before = some mid ∧
        mid.store.jobs.get? k = some last ∧ last.status.terminal = true ∧ last.binding = job.binding

/-- **No work is lost**, whatever the calls, their order and their clocks: what was accepted is in
the store until it was completed, cancelled or dead, and its number stays within the capacity. -/
theorem work_kept (opts : MemoryJobStoreOptions) (calls : List (StoreCall ν τ))
    (h : StoreHistory ν τ) (hrun : run (StoreHistory.step opts) {} calls = some h) :
    WorkKept opts h := by
  have hstep (h : StoreHistory ν τ) (c : StoreCall ν τ) (h' : StoreHistory ν τ)
      (hall : h.Inv ∧ h.store.jobs.size ≤ opts.capacity) (hs : h.step opts c = some h') :
      h'.Inv ∧ h'.store.jobs.size ≤ opts.capacity :=
    ⟨StoreHistory.inv_step h c h' hall.1 hs, (retains_step hall.1 hs).2 hall.2⟩
  obtain ⟨hinv, hwithin⟩ := run_invariant_all hstep ⟨StoreHistory.inv_empty, Nat.zero_le _⟩ hrun
  refine ⟨hwithin, ?_, ?_⟩
  · intro job now haccepted
    have hfiled := filed_put opts h.store job now
    rw [haccepted] at hfiled
    obtain - | - | ⟨-, heq⟩ := hfiled
    rw [heq, JsMap.get?_set, if_pos rfl]
  clear hrun hwithin calls
  intro calls h' k job hrun hjob
  induction calls generalizing h job with
  | nil =>
    obtain rfl := Option.some.inj hrun
    exact .inl ⟨job, hjob, rfl⟩
  | cons c calls ih =>
    obtain ⟨next, hs, hrest⟩ := run_cons_eq_some.mp hrun
    obtain ⟨job', hjob', hsame⟩ | hterminal := (retains_step hinv hs).1 k job hjob
    · obtain ⟨kept, hkept, hsame'⟩ | ⟨before, mid, last, hbefore, hmid, hlast, hterminal, hsame'⟩ :=
        ih next (StoreHistory.inv_step h c next hinv hs) job' hrest hjob'
      · exact .inl ⟨kept, hkept, hsame'.trans hsame⟩
      · exact .inr ⟨c :: before, mid, last, List.cons_prefix_cons.mpr ⟨rfl, hbefore⟩,
          run_cons_eq_some.mpr ⟨next, hs, hmid⟩, hlast, hterminal, hsame'.trans hsame⟩
    · exact .inr ⟨[], h, job, List.nil_prefix, rfl, hjob, hterminal, rfl⟩

theorem work_kept_sample :
    ∃ h : StoreHistory ℕ ℤ, run (StoreHistory.step {}) {} [.put sampleJob 0] = some h ∧
      WorkKept {} h := by
  obtain ⟨h, hrun⟩ := Option.isSome_iff_exists.mp
    (by decide : (run (StoreHistory.step {}) ({} : StoreHistory ℕ ℤ) [.put sampleJob 0]).isSome)
  exact ⟨h, hrun, work_kept {} _ h hrun⟩

end Daloy.Jobs
