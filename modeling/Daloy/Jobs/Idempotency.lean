import Daloy.Foundations.Fallible
import Daloy.Jobs.Fencing
import Daloy.Jobs.Queue

/-! # Enqueueing under an idempotency key

* `Indexed`: the index of the store and its records are in step; purging, reaping and every other
  operation keep them so.
-/

namespace Daloy.Jobs
set_option autoImplicit false

open Daloy.Unicode Daloy.Security Daloy.Json Daloy.Runs Daloy.Fallible

/-! ## Index keys -/

variable {ν τ : Type} [NumberText ν]

/-! ## The index and the records -/

def StoredJob.binding (job : StoredJob ν τ) :
    JsString × JsString × Option JsString × JsonText ν :=
  (job.id, job.queue, job.idempotencyKey, job.payloadJson)

theorem idemKey?_eq_of_binding {job job' : StoredJob ν τ} (h : job'.binding = job.binding) :
    job'.idemKey? = job.idemKey? := by
  simp only [StoredJob.binding, Prod.mk.injEq] at h
  rw [StoredJob.idemKey?, StoredJob.idemKey?, h.2.1, h.2.2.1]

/-- Records stay under their ids with what the index depends on, and the index stays. -/
structure Keeps (s s' : MemoryJobStore ν τ) : Prop where
  idem : s'.idem = s.idem
  jobs : ∀ k, (s'.jobs.get? k).map StoredJob.binding = (s.jobs.get? k).map StoredJob.binding

theorem Keeps.refl (s : MemoryJobStore ν τ) : Keeps s s := ⟨rfl, fun _ => rfl⟩

theorem Keeps.trans {s s' s'' : MemoryJobStore ν τ} (h : Keeps s s') (h' : Keeps s' s'') :
    Keeps s s'' :=
  ⟨h'.idem.trans h.idem, fun k => (h'.jobs k).trans (h.jobs k)⟩

theorem Keeps.get? {s s' : MemoryJobStore ν τ} (h : Keeps s s') {k : JsString}
    {job' : StoredJob ν τ} (hget : s'.jobs.get? k = some job') :
    ∃ job, s.jobs.get? k = some job ∧ job.binding = job'.binding := by
  have hk := h.jobs k
  rw [hget] at hk
  exact Option.map_eq_some_iff.mp hk.symm

theorem Keeps.symm {s s' : MemoryJobStore ν τ} (h : Keeps s s') : Keeps s' s :=
  ⟨h.idem.symm, fun k => (h.jobs k).symm⟩

theorem keeps_modify {s : MemoryJobStore ν τ} {id : JsString} {f : StoredJob ν τ → StoredJob ν τ}
    (hf : ∀ job, (f job).binding = job.binding) :
    Keeps s { s with jobs := s.jobs.modify id f } := by
  refine ⟨rfl, ?_⟩
  intro k
  rw [JsMap.get?_modify]
  split
  · rw [Option.map_map]
    congr 1
    funext job
    exact hf job
  · rfl

/-- The index points at the records that carry its keys, and at nothing else; the texts were made
of payloads without forbidden keys. -/
structure Indexed (s : MemoryJobStore ν τ) : Prop where
  keyed : ∀ k job, s.jobs.get? k = some job → job.id = k
  named : ∀ k job, s.jobs.get? k = some job → isQueueName job.queue = true
  indexed : ∀ k job ik, s.jobs.get? k = some job → job.idemKey? = some ik → s.idem.get? ik = some k
  held : ∀ ik id, s.idem.get? ik = some id → ∃ job, s.jobs.get? id = some job ∧ job.idemKey? = some ik
  plain : ∀ k job, s.jobs.get? k = some job →
    ∃ v : Json ν, firstForbidden v.1 = none ∧ job.payloadJson = v.text

theorem Indexed.keeps {s s' : MemoryJobStore ν τ} (h : Indexed s) (hk : Keeps s s') : Indexed s' where
  keyed := by
    intro k job' hget'
    obtain ⟨job, hget, hbinding⟩ := hk.get? hget'
    have hid : job.id = job'.id := congrArg Prod.fst hbinding
    rw [← hid]
    exact h.keyed k job hget
  named := by
    intro k job' hget'
    obtain ⟨job, hget, hbinding⟩ := hk.get? hget'
    have hqueue : job.queue = job'.queue := congrArg (·.2.1) hbinding
    rw [← hqueue]
    exact h.named k job hget
  indexed := by
    intro k job' ik hget' hik
    obtain ⟨job, hget, hbinding⟩ := hk.get? hget'
    rw [hk.idem]
    exact h.indexed k job ik hget ((idemKey?_eq_of_binding hbinding).trans hik)
  held := by
    intro ik id hidem
    rw [hk.idem] at hidem
    obtain ⟨job, hget, hik⟩ := h.held ik id hidem
    obtain ⟨job', hget', hbinding⟩ := hk.symm.get? hget
    exact ⟨job', hget', (idemKey?_eq_of_binding hbinding).trans hik⟩
  plain := by
    intro k job' hget'
    obtain ⟨job, hget, hbinding⟩ := hk.get? hget'
    have htext : job.payloadJson = job'.payloadJson := congrArg (·.2.2.2) hbinding
    rw [← htext]
    exact h.plain k job hget

theorem Indexed.inserted {s : MemoryJobStore ν τ} (h : Indexed s) (stored : StoredJob ν τ)
    (hname : isQueueName stored.queue = true) (hnew : s.jobs.get? stored.id = none)
    (hfree : ∀ ik, stored.idemKey? = some ik → s.idem.get? ik = none)
    (hplain : ∃ v : Json ν, firstForbidden v.1 = none ∧ stored.payloadJson = v.text) :
    Indexed { s with
      jobs := s.jobs.set stored.id stored
      idem := match stored.idempotencyKey with
        | some key => s.idem.set (idemKey stored.queue key) stored.id
        | none => s.idem } := by
  have hidem (ik id : JsString) :
      (match stored.idempotencyKey with
        | some key => s.idem.set (idemKey stored.queue key) stored.id
        | none => s.idem).get? ik = some id ↔
      stored.idemKey? = some ik ∧ id = stored.id ∨
        stored.idemKey? ≠ some ik ∧ s.idem.get? ik = some id := by
    cases hkey : stored.idempotencyKey with
    | none => simp [StoredJob.idemKey?, hkey]
    | some key =>
      simp only [JsMap.get?_set, StoredJob.idemKey?, hkey, Option.map_some, Option.some.injEq]
      by_cases hik : ik = idemKey stored.queue key
      · simp [hik, eq_comm]
      · simp [hik, Ne.symm hik]
  have hget {k : JsString} {job : StoredJob ν τ}
      (hjob : (s.jobs.set stored.id stored).get? k = some job) :
      k = stored.id ∧ job = stored ∨ k ≠ stored.id ∧ s.jobs.get? k = some job := by
    rw [JsMap.get?_set] at hjob
    split at hjob
    · next hk => exact Or.inl ⟨hk, (Option.some.inj hjob).symm⟩
    · next hk => exact Or.inr ⟨hk, hjob⟩
  refine ⟨?_, ?_, ?_, ?_, ?_⟩
  · intro k job hjob
    rcases hget hjob with ⟨rfl, rfl⟩ | ⟨-, hold⟩
    · rfl
    · exact h.keyed k job hold
  · intro k job hjob
    rcases hget hjob with ⟨rfl, rfl⟩ | ⟨-, hold⟩
    · exact hname
    · exact h.named k job hold
  · intro k job ik hjob hik
    rw [hidem]
    rcases hget hjob with ⟨rfl, rfl⟩ | ⟨-, hold⟩
    · exact Or.inl ⟨hik, rfl⟩
    · have hpoints := h.indexed k job ik hold hik
      refine Or.inr ⟨?_, hpoints⟩
      intro htaken
      rw [hfree ik htaken] at hpoints
      simp at hpoints
  · intro ik id hid
    rcases (hidem ik id).mp hid with ⟨hik, rfl⟩ | ⟨-, hold⟩
    · exact ⟨stored, by rw [JsMap.get?_set, if_pos rfl], hik⟩
    · obtain ⟨job, hjob, hik⟩ := h.held ik id hold
      refine ⟨job, ?_, hik⟩
      rw [JsMap.get?_set, if_neg]
      · exact hjob
      · rintro rfl
        rw [hnew] at hjob
        simp at hjob
  · intro k job hjob
    rcases hget hjob with ⟨rfl, rfl⟩ | ⟨-, hold⟩
    · exact hplain
    · exact h.plain k job hold

theorem Indexed.unique {s : MemoryJobStore ν τ} (h : Indexed s) {a b : StoredJob ν τ}
    (ha : a ∈ s.jobs.values) (hb : b ∈ s.jobs.values) (hkey : a.idempotencyKey.isSome = true)
    (hqueue : a.queue = b.queue) (hsame : a.idempotencyKey = b.idempotencyKey) : a = b := by
  obtain ⟨ka, hgeta⟩ := JsMap.mem_values.mp ha
  obtain ⟨kb, hgetb⟩ := JsMap.mem_values.mp hb
  obtain ⟨key, hkey⟩ := Option.isSome_iff_exists.mp hkey
  have hika : a.idemKey? = some (idemKey a.queue key) := by rw [StoredJob.idemKey?, hkey]; rfl
  have hikb : b.idemKey? = some (idemKey a.queue key) := by
    rw [StoredJob.idemKey?, ← hsame, hkey, hqueue]
    rfl
  have hpoint := h.indexed ka a _ hgeta hika
  rw [h.indexed kb b _ hgetb hikb] at hpoint
  obtain rfl := Option.some.inj hpoint
  exact Option.some.inj (hgeta.symm.trans hgetb)

/-- The history is in step with the records, and the index with both. -/
structure QueueInv (h : StoreHistory ν τ) : Prop where
  history : h.Inv
  indexed : Indexed h.store

theorem queueInv_empty : QueueInv ({} : StoreHistory ν τ) :=
  ⟨StoreHistory.inv_empty, ⟨by simp, by simp, by simp, by simp, by simp⟩⟩

theorem keeps_complete (s : MemoryJobStore ν τ) (id workerId : JsString) (now : τ)
    (result : Json ν) (attempt : Option ℕ) : Keeps s (s.complete id workerId now result attempt).1 := by
  unfold MemoryJobStore.complete
  split
  · exact Keeps.refl s
  · exact keeps_modify fun job => rfl

theorem keeps_fail (s : MemoryJobStore ν τ) (id workerId error : JsString)
    (nextStatus : FailStatus) (nextRunAt now : τ) (attempt : Option ℕ) :
    Keeps s (s.fail id workerId error nextStatus nextRunAt now attempt).1 := by
  unfold MemoryJobStore.fail
  split
  · exact Keeps.refl s
  · apply keeps_modify
    intro job
    unfold StoredJob.failed
    dsimp only
    split <;> rfl

theorem keeps_cancel (s : MemoryJobStore ν τ) (id : JsString) (now : τ) :
    Keeps s (s.cancel id now).1 := by
  unfold MemoryJobStore.cancel
  split
  · exact Keeps.refl s
  split
  · exact Keeps.refl s
  · exact keeps_modify fun job => rfl

variable [Clock τ]

theorem keeps_heartbeat (s : MemoryJobStore ν τ) (id workerId : JsString) (leaseUntil now : τ)
    (attempt : Option ℕ) : Keeps s (s.heartbeat id workerId leaseUntil now attempt).1 := by
  unfold MemoryJobStore.heartbeat
  split
  · exact Keeps.refl s
  split
  · exact Keeps.refl s
  · exact keeps_modify fun job => rfl

theorem keeps_reapLeases (s : MemoryJobStore ν τ) (now : τ) : Keeps s (s.reapLeases now) := by
  refine ⟨rfl, ?_⟩
  intro k
  rw [MemoryJobStore.reapLeases, JsMap.get?_mapValues, Option.map_map]
  congr 1
  funext job
  simp only [Function.comp, StoredJob.reaped]
  split
  · split <;> rfl
  · rfl

theorem keeps_claim (s : MemoryJobStore ν τ) (queue workerId : JsString) (now : τ) :
    Keeps s (s.claim queue workerId now).1 := by
  unfold MemoryJobStore.claim
  dsimp only
  split
  · exact keeps_reapLeases s now
  · exact (keeps_reapLeases s now).trans (keeps_modify fun job => rfl)

theorem Indexed.purged {opts : MemoryJobStoreOptions} {s : MemoryJobStore ν τ} (h : Indexed s)
    (now : τ) : Indexed (s.purgeExpiredTerminal opts now) := by
  unfold MemoryJobStore.purgeExpiredTerminal
  generalize hgone : s.jobs.values.filter (StoredJob.purgeable opts now) = gone
  have hpresent : ∀ job ∈ gone, s.jobs.get? job.id = some job := by
    intro job hjob
    rw [← hgone, List.mem_filter] at hjob
    obtain ⟨k, hget⟩ := JsMap.mem_values.mp hjob.1
    exact (h.keyed k job hget).symm ▸ hget
  dsimp only
  have hleft {k : JsString} {job : StoredJob ν τ}
      (hjob : ((gone.map (·.id)).foldl JsMap.delete s.jobs).get? k = some job) :
      k ∉ gone.map (·.id) ∧ s.jobs.get? k = some job := by
    rw [JsMap.get?_deleteAll] at hjob
    split at hjob
    · simp at hjob
    · next hk => exact ⟨hk, hjob⟩
  refine ⟨?_, ?_, ?_, ?_, ?_⟩
  · intro k job hjob
    exact h.keyed k job (hleft hjob).2
  · intro k job hjob
    exact h.named k job (hleft hjob).2
  · intro k job ik hjob hik
    obtain ⟨hk, hget⟩ := hleft hjob
    rw [JsMap.get?_deleteAll, if_neg]
    · exact h.indexed k job ik hget hik
    · intro hmem
      obtain ⟨dead, hdead, hdeadKey⟩ := List.mem_filterMap.mp hmem
      have hsame := h.indexed dead.id dead ik (hpresent dead hdead) hdeadKey
      rw [h.indexed k job ik hget hik] at hsame
      exact hk (List.mem_map.mpr ⟨dead, hdead, (Option.some.inj hsame).symm⟩)
  · intro ik id hidem
    rw [JsMap.get?_deleteAll] at hidem
    split at hidem
    · simp at hidem
    · next hik =>
      obtain ⟨job, hget, hkey⟩ := h.held ik id hidem
      refine ⟨job, ?_, hkey⟩
      rw [JsMap.get?_deleteAll, if_neg]
      · exact hget
      · intro hmem
        obtain ⟨dead, hdead, rfl⟩ := List.mem_map.mp hmem
        obtain rfl := Option.some.inj ((hpresent dead hdead).symm.trans hget)
        exact hik (List.mem_filterMap.mpr ⟨dead, hdead, hkey⟩)
  · intro k job hjob
    exact h.plain k job (hleft hjob).2

theorem Indexed.makeRoom {s : MemoryJobStore ν τ} (h : Indexed s) (opts : MemoryJobStoreOptions)
    (now : τ) : Indexed (s.makeRoom opts now).1 ∧
      (∀ k, s.jobs.get? k = none → (s.makeRoom opts now).1.jobs.get? k = none) ∧
      ∀ ik, s.idem.get? ik = none → (s.makeRoom opts now).1.idem.get? ik = none := by
  have hpurged : Indexed (s.purgeExpiredTerminal opts now) ∧
      (∀ k, s.jobs.get? k = none → (s.purgeExpiredTerminal opts now).jobs.get? k = none) ∧
      ∀ ik, s.idem.get? ik = none → (s.purgeExpiredTerminal opts now).idem.get? ik = none := by
    refine ⟨h.purged now, ?_, ?_⟩
    · intro k hk
      rw [MemoryJobStore.purgeExpiredTerminal, JsMap.get?_deleteAll, hk, ite_self]
    · intro ik hik
      rw [MemoryJobStore.purgeExpiredTerminal, JsMap.get?_deleteAll, hik, ite_self]
  unfold MemoryJobStore.makeRoom
  dsimp only
  split
  · split <;> exact hpurged
  · exact ⟨h, fun k hk => hk, fun ik hik => hik⟩

theorem Indexed.put {opts : MemoryJobStoreOptions} {s : MemoryJobStore ν τ} {job : Job ν τ} {now : τ}
    (h : Indexed s) (hname : isQueueName job.queue = true) (hnew : s.jobs.get? job.id = none)
    (hplain : firstForbidden job.payload.1 = none) : Indexed (s.put opts job now).1 := by
  have hinsert (hfree : ∀ key, job.idempotencyKey = some key →
      s.idem.get? (idemKey job.queue key) = none) : Indexed (s.insertNew opts job now).1 := by
    obtain ⟨hroom, hnone, hidem⟩ := h.makeRoom opts now
    unfold MemoryJobStore.insertNew
    split
    · next swept _ hswept =>
      rw [hswept] at hroom
      exact hroom
    · next swept hswept =>
      rw [hswept] at hroom hnone hidem
      refine hroom.inserted (StoredJob.inserted job job.payload.text now) hname
        (hnone _ hnew) ?_ ⟨job.payload, hplain, rfl⟩
      intro ik hik
      obtain ⟨key, hkey, rfl⟩ := Option.map_eq_some_iff.mp hik
      exact hidem _ (hfree key hkey)
  unfold MemoryJobStore.put
  split
  · next hkey => exact hinsert (by simp [hkey])
  · next key hkey =>
    split
    · next hidem =>
      apply hinsert
      intro key' hkey'
      obtain rfl := Option.some.inj (hkey.symm.trans hkey')
      exact hidem
    · next existingId hidem =>
      -- the index entry is never stale
      obtain ⟨existing, hget, -⟩ := h.held _ _ hidem
      rw [hget]
      dsimp only
      split <;> exact h

/-! ## What `enqueue` builds -/

structure Built (id : JsString) (opts : EnqueueOptions ν τ) (job : Job ν τ) : Prop where
  id : job.id = id
  attempts : job.attempts = 0
  maxAttempts : 1 ≤ job.maxAttempts
  queue : isQueueName job.queue = true
  payload : opts.payload = .json job.payload
  plain : firstForbidden job.payload.1 = none

theorem integerOption_le {given : Option NumberArg} {fallback bound n : ℤ} {message : String}
    (hfallback : bound ≤ fallback) (h : integerOption given fallback bound message = .ok n) :
    bound ≤ n := by
  unfold integerOption at h
  split at h
  · obtain rfl := Except.ok.inj h
    exact hfallback
  · simp at h
  · split at h
    · simp at h
    · obtain rfl := Except.ok.inj h
      omega

theorem serializePayload_eq_ok {payload : Payload ν} {maxBytes : ℕ} {what : String}
    {text : JsonText ν} (h : serializePayload payload maxBytes what = .ok text) :
    ∃ v, payload = .json v ∧ firstForbidden v.1 = none ∧ text = v.text := by
  unfold serializePayload at h
  split at h
  · simp at h
  · simp at h
  · simp at h
  · next v =>
    split at h
    · simp at h
    · next hplain =>
      dsimp only at h
      split at h
      · simp at h
      · exact ⟨v, rfl, hplain, (Except.ok.inj h).symm⟩

theorem built_of_buildJob {queueOpts : JobQueueOptions} {id : JsString} {enqueueNow : τ}
    {opts : EnqueueOptions ν τ} {job : Job ν τ}
    (h : buildJob queueOpts id enqueueNow opts = .ok job) : Built id opts job := by
  unfold buildJob at h
  obtain ⟨name, -, h⟩ := bind_eq_ok.mp h
  obtain ⟨queueName, hqueue, h⟩ := bind_eq_ok.mp h
  obtain ⟨idempotencyKey, -, h⟩ := bind_eq_ok.mp h
  obtain ⟨tenant, -, h⟩ := bind_eq_ok.mp h
  obtain ⟨runAt, -, h⟩ := bind_eq_ok.mp h
  obtain ⟨priority, -, h⟩ := bind_eq_ok.mp h
  obtain ⟨maxAttempts, hmax, h⟩ := bind_eq_ok.mp h
  obtain ⟨timeoutMs, -, h⟩ := bind_eq_ok.mp h
  obtain ⟨leaseMs, -, h⟩ := bind_eq_ok.mp h
  obtain ⟨json, hjson, h⟩ := bind_eq_ok.mp h
  obtain rfl := Except.ok.inj h
  obtain ⟨v, hv, hplain, rfl⟩ := serializePayload_eq_ok hjson
  have hread := v.read_text hplain
  have hpos := integerOption_le queueOpts.defaultMaxAttempts_pos hmax
  have hname : isQueueName queueName = true := by
    unfold optional at hqueue
    split at hqueue
    · obtain rfl := Except.ok.inj hqueue
      exact queueOpts.defaultQueue_named
    · unfold assertQueueName at hqueue
      split at hqueue
      · next hqueueName =>
        obtain rfl := Except.ok.inj hqueue
        exact hqueueName
      · simp at hqueue
  refine ⟨rfl, rfl, ?_, hname, ?_, ?_⟩
  · dsimp only
    omega
  · dsimp only
    rw [hread]
    exact hv
  · dsimp only
    rw [hread]
    exact hplain

/-! ## Runs of a queue -/

/-- `enqueue` under an id that was not given before, or a call of a method other than `put`. -/
inductive QueueCall (ν τ : Type)
  | enqueue (id : JsString) (enqueueNow storeNow : τ) (opts : EnqueueOptions ν τ)
  | store (c : StoreCall ν τ)

def queueStep (storeOpts : MemoryJobStoreOptions) (queueOpts : JobQueueOptions)
    (h : StoreHistory ν τ) : QueueCall ν τ → Option (StoreHistory ν τ)
  | .enqueue id enqueueNow storeNow opts =>
    match buildJob queueOpts id enqueueNow opts with
    | .error _ => some h
    | .ok job => h.step storeOpts (.put job storeNow)
  | .store (.put ..) => none
  | .store c => h.step storeOpts c

theorem queueInv_step {storeOpts : MemoryJobStoreOptions} {queueOpts : JobQueueOptions}
    (h : StoreHistory ν τ) (c : QueueCall ν τ) (h' : StoreHistory ν τ) (hinv : QueueInv h)
    (hs : queueStep storeOpts queueOpts h c = some h') : QueueInv h' := by
  obtain ⟨hhistory, hindexed⟩ := hinv
  cases c with
  | enqueue id enqueueNow storeNow opts =>
    unfold queueStep at hs
    dsimp only at hs
    split at hs
    · obtain rfl := Option.some.inj hs
      exact ⟨hhistory, hindexed⟩
    · next job hjob =>
      have hbuilt := built_of_buildJob hjob
      refine ⟨StoreHistory.inv_step h _ h' hhistory hs, ?_⟩
      simp only [StoreHistory.step, Option.ite_none_right_eq_some, Option.some.injEq] at hs
      obtain ⟨hfresh, rfl⟩ := hs
      have hnew : h.store.jobs.get? job.id = none := by
        rw [Option.eq_none_iff_forall_ne_some]
        intro old hold
        exact hfresh.1 (hhistory.known _ old hold)
      exact hindexed.put hbuilt.queue hnew hbuilt.plain
  | store c =>
    have hkeeps : h.step storeOpts c = some h' ∧ Keeps h.store h'.store := by
      cases c with
      | put job now => simp [queueStep] at hs
      | claim queue workerId now =>
        refine ⟨hs, ?_⟩
        obtain rfl := Option.some.inj hs
        exact keeps_claim h.store queue workerId now
      | heartbeat id workerId leaseUntil now attempt =>
        refine ⟨hs, ?_⟩
        obtain rfl := Option.some.inj hs
        exact keeps_heartbeat h.store id workerId leaseUntil now (some attempt)
      | complete id workerId now result attempt =>
        refine ⟨hs, ?_⟩
        obtain rfl := Option.some.inj hs
        exact keeps_complete h.store id workerId now result (some attempt)
      | fail id workerId error nextStatus nextRunAt now attempt =>
        refine ⟨hs, ?_⟩
        obtain rfl := Option.some.inj hs
        exact keeps_fail h.store id workerId error nextStatus nextRunAt now (some attempt)
      | cancel id now =>
        refine ⟨hs, ?_⟩
        obtain rfl := Option.some.inj hs
        exact keeps_cancel h.store id now
      | get id now =>
        refine ⟨hs, ?_⟩
        obtain rfl := Option.some.inj hs
        exact keeps_reapLeases h.store now
      | list filter now =>
        refine ⟨hs, ?_⟩
        obtain rfl := Option.some.inj hs
        exact keeps_reapLeases h.store now
      | takeReaped queue now =>
        refine ⟨hs, ?_⟩
        obtain rfl := Option.some.inj hs
        have hreap := keeps_reapLeases h.store now
        exact ⟨hreap.idem, hreap.jobs⟩
    exact ⟨StoreHistory.inv_step h c h' hhistory hkeeps.1, hindexed.keeps hkeeps.2⟩

/-! ## The promise -/

/-- What is promised for an enqueue of `q` under the key of the retained job `held`: the job itself
when the payloads are deep-equal, a conflict when they are not, and the store as it was. -/
def AsPromised [DecidableEq ν] (s : MemoryJobStore ν τ) (held : StoredJob ν τ) (key : JsString)
    (q : Json ν) (r : MemoryJobStore ν τ × Except JobError (EnqueueResult ν τ)) : Prop :=
  (deepEq held.clone.payload.1 q.1 = true → r = (s, .ok ⟨held.clone, true⟩)) ∧
    (deepEq held.clone.payload.1 q.1 = false → r = (s, .error (.idempotencyConflict key held.id)))

theorem Indexed.enqueue_held {s : MemoryJobStore ν τ} (h : Indexed s)
    (storeOpts : MemoryJobStoreOptions) {queueOpts : JobQueueOptions} {id : JsString}
    {enqueueNow : τ} (storeNow : τ) {held : StoredJob ν τ} (hheld : held ∈ s.jobs.values)
    {opts : EnqueueOptions ν τ} {job : Job ν τ}
    (hjob : buildJob queueOpts id enqueueNow opts = .ok job) {key : JsString}
    (hqueue : job.queue = held.queue) (hkey : job.idempotencyKey = some key)
    (hheldKey : held.idempotencyKey = some key) :
    (held.clone.payload = job.payload ∧
      enqueue storeOpts queueOpts s id enqueueNow storeNow opts = (s, .ok ⟨held.clone, true⟩)) ∨
    (held.clone.payload ≠ job.payload ∧
      enqueue storeOpts queueOpts s id enqueueNow storeNow opts =
        (s, .error (.idempotencyConflict key held.id))) := by
  obtain ⟨k, hget⟩ := JsMap.mem_values.mp hheld
  obtain rfl := h.keyed k held hget
  obtain ⟨p, hplain, htext⟩ := h.plain _ held hget
  have hpayload : held.clone.payload = p := by
    rw [StoredJob.clone, htext]
    exact p.read_text hplain
  have hidem : s.idem.get? (idemKey job.queue key) = some held.id := by
    apply h.indexed _ held _ hget
    rw [StoredJob.idemKey?, hheldKey, hqueue]
    rfl
  rw [enqueue, hjob, hpayload]
  simp only [MemoryJobStore.put, hkey, hidem, hget, htext, Json.text]
  by_cases hsame : stringify p.1 = stringify job.payload.1
  · rw [if_neg (by simpa using hsame)]
    exact Or.inl ⟨Subtype.ext (stringify_injective p.2 job.payload.2 hsame), rfl⟩
  · rw [if_pos hsame]
    refine Or.inr ⟨?_, rfl⟩
    rintro rfl
    exact hsame rfl

/-- **Enqueueing is idempotent up to JSON equality exactly where equal payloads are the same, the
order of members included**; a queue and a key never have two records. -/
theorem enqueue_idempotent_iff [DecidableEq ν] (storeOpts : MemoryJobStoreOptions)
    (queueOpts : JobQueueOptions) (calls : List (QueueCall ν τ)) (h : StoreHistory ν τ)
    (hrun : run (queueStep storeOpts queueOpts) {} calls = some h) :
    (∀ a ∈ h.store.jobs.values, ∀ b ∈ h.store.jobs.values, a.idempotencyKey.isSome = true →
      a.queue = b.queue → a.idempotencyKey = b.idempotencyKey → a = b) ∧
    ∀ held ∈ h.store.jobs.values, ∀ (id key : JsString) (enqueueNow storeNow : τ)
      (opts : EnqueueOptions ν τ) (job : Job ν τ) (q : Json ν),
      buildJob queueOpts id enqueueNow opts = .ok job → opts.payload = .json q →
      job.queue = held.queue → job.idempotencyKey = some key → held.idempotencyKey = some key →
      (AsPromised h.store held key q
          (enqueue storeOpts queueOpts h.store id enqueueNow storeNow opts) ↔
        (deepEq held.clone.payload.1 q.1 = true → held.clone.payload = q)) := by
  have hindexed := (run_invariant_all queueInv_step queueInv_empty hrun).indexed
  refine ⟨fun a ha b hb => hindexed.unique ha hb, ?_⟩
  intro held hheld id key enqueueNow storeNow opts job q hjob hq hqueue hkey hheldKey
  obtain rfl : job.payload = q := by
    have hpayload := (built_of_buildJob hjob).payload
    rw [hq] at hpayload
    exact (Payload.json.inj hpayload).symm
  have hrefl : deepEq job.payload.1 job.payload.1 = true := deepEq_refl job.payload.1 job.payload.2
  rcases hindexed.enqueue_held storeOpts storeNow hheld hjob hqueue hkey hheldKey with ⟨hsame, hr⟩ | ⟨hdiffer, hr⟩
  · rw [AsPromised, hr, hsame, hrefl]
    simp
  · rw [AsPromised, hr]
    simp only [hdiffer, imp_false, Bool.not_eq_true]
    simp

def mailOptions (payload : Json ℕ) : EnqueueOptions ℕ ℤ :=
  { name := js "mail", payload := .json payload, idempotencyKey := some (js "k") }

/-- `{ "a": true, "b": false }`. -/
def payloadAB : Json ℕ :=
  ⟨.obj [(js "a", .bool true), (js "b", .bool false)], by
    simp only [Value.WellFormed, WellFormedMembers, and_true]
    exact ⟨by decide, by decide⟩⟩

/-- `{ "b": false, "a": true }`. -/
def payloadBA : Json ℕ :=
  ⟨.obj [(js "b", .bool false), (js "a", .bool true)], by
    simp only [Value.WellFormed, WellFormedMembers, and_true]
    exact ⟨by decide, by decide⟩⟩

theorem enqueue_idempotent_iff_once :
    ∃ h : StoreHistory ℕ ℤ, run (queueStep {} {}) {}
        [.enqueue (js "job-1") 0 0 (mailOptions payloadAB),
          .enqueue (js "job-2") 5 5 (mailOptions payloadAB)] = some h ∧
      h.store.jobs.values.map (·.id) = [js "job-1"] ∧
      ∀ a ∈ h.store.jobs.values, ∀ b ∈ h.store.jobs.values, a.idempotencyKey.isSome = true →
        a.queue = b.queue → a.idempotencyKey = b.idempotencyKey → a = b := by
  have hrun : (run (queueStep {} {}) ({} : StoreHistory ℕ ℤ)
      [.enqueue (js "job-1") 0 0 (mailOptions payloadAB),
        .enqueue (js "job-2") 5 5 (mailOptions payloadAB)]).map
          (fun h => h.store.jobs.values.map (·.id)) = some [js "job-1"] := by decide
  obtain ⟨h, hh, hids⟩ := Option.map_eq_some_iff.mp hrun
  exact ⟨h, hh, hids, (enqueue_idempotent_iff {} {} _ h hh).1⟩

/-- The payload `{ "a": true, "b": false }` is enqueued under the key "k", and then
`{ "b": false, "a": true }` under the same key: a conflict, though the two are deep-equal. -/
theorem enqueue_memberOrder :
    ∃ (h : StoreHistory ℕ ℤ) (held : StoredJob ℕ ℤ) (job : Job ℕ ℤ),
      run (queueStep {} {}) {} [.enqueue (js "job-1") 0 0 (mailOptions payloadAB)] = some h ∧
      held ∈ h.store.jobs.values ∧ held.clone.payload = payloadAB ∧
      buildJob {} (js "job-2") 5 (mailOptions payloadBA) = .ok job ∧ job.queue = held.queue ∧
      job.idempotencyKey = some (js "k") ∧ held.idempotencyKey = some (js "k") ∧
      deepEq payloadAB.1 payloadBA.1 = true ∧
      ¬ AsPromised h.store held (js "k") payloadBA
        (enqueue {} {} h.store (js "job-2") 5 5 (mailOptions payloadBA)) := by
  have hrun : (run (queueStep {} {}) ({} : StoreHistory ℕ ℤ)
      [.enqueue (js "job-1") 0 0 (mailOptions payloadAB)]).map
        (fun h => h.store.jobs.values.map fun job =>
          (job.queue, job.idempotencyKey, job.payloadJson.1)) =
      some [(js "default", some (js "k"), payloadAB.text.1)] := by decide
  have hbuild : (buildJob {} (js "job-2") (5 : ℤ) (mailOptions payloadBA)).toOption.map
      (fun job => (job.queue, job.idempotencyKey)) = some (js "default", some (js "k")) := by
    decide
  have hplain : firstForbidden payloadAB.1 = none := by decide
  have hdeep : deepEq payloadAB.1 payloadBA.1 = true := by decide
  obtain ⟨h, hh, hvalues⟩ := Option.map_eq_some_iff.mp hrun
  obtain ⟨held, hheld, hfields⟩ := List.mem_map.mp (hvalues ▸ List.mem_singleton_self _)
  simp only [Prod.mk.injEq] at hfields
  obtain ⟨hqueue, hkey, htext⟩ := hfields
  obtain ⟨job, hjob, hjobFields⟩ := Option.map_eq_some_iff.mp hbuild
  obtain ⟨hjobQueue, hjobKey⟩ := Prod.mk.inj hjobFields
  have hok : buildJob {} (js "job-2") (5 : ℤ) (mailOptions payloadBA) = .ok job := by
    cases hcase : buildJob {} (js "job-2") (5 : ℤ) (mailOptions payloadBA) with
    | error e => simp [hcase, Except.toOption] at hjob
    | ok job' =>
      rw [hcase] at hjob
      exact congrArg Except.ok (Option.some.inj hjob)
  have hpayload : held.clone.payload = payloadAB := by
    have htextEq : held.payloadJson = payloadAB.text := Subtype.ext htext
    rw [StoredJob.clone, htextEq]
    exact payloadAB.read_text hplain
  have hjobPayload : job.payload = payloadBA :=
    (Payload.json.inj (built_of_buildJob hok).payload).symm
  refine ⟨h, held, job, hh, hheld, hpayload, hok, hjobQueue.trans hqueue.symm, hjobKey, hkey, hdeep,
    ?_⟩
  intro hpromise
  have hr := hpromise.1 (hpayload.symm ▸ hdeep)
  have hindexed := (run_invariant_all queueInv_step queueInv_empty hh).indexed
  rcases hindexed.enqueue_held {} 5 hheld hok (hjobQueue.trans hqueue.symm) hjobKey hkey with
    ⟨hsame, -⟩ | ⟨-, hconflict⟩
  · rw [hpayload, hjobPayload] at hsame
    have hkeys := congrArg (fun v : Json ℕ => stringify v.1) hsame
    revert hkeys
    decide
  · rw [hconflict] at hr
    simp at hr

end Daloy.Jobs
