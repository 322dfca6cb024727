import Daloy.A2a.Server

/-! # No turn of a task is lost

* `Server.Inv`: the store holds what the running job of a task goes by, and the log of the store's
  writes is in the order in which the locks were taken.
* `inv_step`: every step keeps it.
-/

namespace Daloy.A2a
set_option autoImplicit false

open Daloy.Runs Daloy.Unicode

variable {π μ : Type}

def writesAt (writes : List (Write π μ)) (owner id : JsString) : List (Write π μ) :=
  writes.filter fun w => w.owner = owner ∧ w.task.id = id

def turnsAt (writes : List (Write π μ)) (owner id : JsString) : List (Turn π μ) :=
  (writesAt writes owner id).filterMap Write.turn

def Recorded (maxHistory : ℕ) (initial record : Option (A2aTask π μ)) (turns : List (Turn π μ)) :
    Prop :=
  match initial with
  | none => record = none ∧ turns = []
  | some first => ∃ task, record = some task ∧
      task.history.getD [] = historyAfter maxHistory (first.history.getD []) turns ∧
      task.artifacts.getD [] = first.artifacts.getD [] ++ turns.flatMap Turn.artifacts

def TaskStore.Keyed (store : TaskStore π μ) : Prop :=
  ∀ owner id task, store owner id = some task → task.id = id

section Invariant

variable (options : HandlerOptions π) (initial : TaskStore π μ)

structure Server.Inv (s : Server π μ) : Prop where
  ordered : s.locks.Ordered lockKey
  keyed : s.store.Keyed
  sound : ∀ (r : ℕ) (link : Link (Job π μ) (Work π μ) (Outcome π μ)), s.locks.links[r]? = some link →
    ∀ work, link.stage = .running work →
      work.Sound options link.job (s.store link.job.owner link.job.taskId)
  written : ∀ w ∈ s.writes, ∃ link : Link (Job π μ) (Work π μ) (Outcome π μ),
    s.locks.links[w.request]? = some link ∧ succeeded link.stage = true ∧
      link.job.owner = w.owner ∧ link.job.taskId = w.task.id ∧
      w.turn.isSome = link.job.operation.isContinue
  logged : ∀ (r : ℕ) (link : Link (Job π μ) (Work π μ) (Outcome π μ)),
    s.locks.links[r]? = some link → succeeded link.stage = true → ∃ w ∈ s.writes, w.request = r
  sorted : s.writes.Pairwise fun w w' =>
    w.owner = w'.owner → w.task.id = w'.task.id → w.request < w'.request
  record : ∀ owner id,
    Recorded options.maxHistory (initial owner id) (s.store owner id) (turnsAt s.writes owner id)
  last : ∀ owner id, s.store owner id =
    ((writesAt s.writes owner id).getLast?.map Write.task).or (initial owner id)

variable {options initial}

theorem inv_initial (h : initial.Keyed) : Server.Inv options initial { store := initial } where
  ordered := Chain.ordered_empty
  keyed := h
  sound := by simp
  written := by simp
  logged := by simp
  sorted := List.Pairwise.nil
  record := by
    intro owner id
    cases hfirst : initial owner id with
    | none => exact ⟨hfirst, rfl⟩
    | some first => exact ⟨first, hfirst, rfl, by simp [turnsAt, writesAt]⟩
  last := by simp [writesAt]

theorem Server.Inv.setStage {s : Server π μ} (h : s.Inv options initial) {r : ℕ}
    {link : Link (Job π μ) (Work π μ) (Outcome π μ)} (hlink : s.locks.links[r]? = some link)
    {stage : Stage (Work π μ) (Outcome π μ)} {locks : TaskLocks π μ}
    (hlinks : locks.links = (s.locks.setStage r stage).links) (hordered : locks.Ordered lockKey)
    (hsound : ∀ work, stage = .running work →
      work.Sound options link.job (s.store link.job.owner link.job.taskId))
    (hsame : succeeded stage = succeeded link.stage) :
    Server.Inv options initial { s with locks } := by
  have hget : ∀ q, locks.links[q]? = if q = r then some { link with stage } else s.locks.links[q]? := by
    intro q
    rw [hlinks, Chain.links_setStage]
    split
    · rename_i hq
      rw [hq, hlink]
      rfl
    · rfl
  refine ⟨hordered, h.keyed, ?_, ?_, ?_, h.sorted, h.record, h.last⟩
  · intro q other hother work hwork
    dsimp only at hother ⊢
    rw [hget] at hother
    split at hother
    · obtain rfl := Option.some.inj hother
      exact hsound work hwork
    · exact h.sound q other hother work hwork
  · intro w hw
    obtain ⟨other, hother, hsucceeded, howner, hid, hturn⟩ := h.written w hw
    by_cases hr : w.request = r
    · rw [hr, hlink] at hother
      obtain rfl := Option.some.inj hother
      exact ⟨{ link with stage }, by rw [hget, if_pos hr], by rw [hsame]; exact hsucceeded, howner,
        hid, hturn⟩
    · exact ⟨other, by rw [hget, if_neg hr]; exact hother, hsucceeded, howner, hid, hturn⟩
  · intro q other hother hsucceeded
    dsimp only at hother
    rw [hget] at hother
    split at hother
    · rename_i hq
      obtain rfl := Option.some.inj hother
      rw [hq]
      exact h.logged r link hlink (by rw [← hsame]; exact hsucceeded)
    · exact h.logged q other hother hsucceeded

theorem Server.Inv.enter {s : Server π μ} (h : s.Inv options initial) (job : Job π μ) :
    Server.Inv options initial { s with locks := s.locks.enter lockKey job } := by
  have hback : ∀ (q : ℕ) (other : Link (Job π μ) (Work π μ) (Outcome π μ)),
      (s.locks.enter lockKey job).links[q]? = some other →
        s.locks.links[q]? = some other ∨ other.stage = .waiting := by
    intro q other hother
    rw [Chain.links_enter] at hother
    split at hother
    · obtain rfl := Option.some.inj hother
      exact .inr rfl
    · exact .inl hother
  refine ⟨h.ordered.enter job, h.keyed, ?_, ?_, ?_, h.sorted, h.record, h.last⟩
  · intro q other hother work hwork
    obtain hold | hwaiting := hback q other hother
    · exact h.sound q other hold work hwork
    · rw [hwaiting] at hwork
      simp at hwork
  · intro w hw
    obtain ⟨other, hother, hrest⟩ := h.written w hw
    have hlt := (List.getElem?_eq_some_iff.mp hother).1
    refine ⟨other, ?_, hrest⟩
    dsimp only
    rw [Chain.links_enter, if_neg (by omega), hother]
  · intro q other hother hsucceeded
    obtain hold | hwaiting := hback q other hother
    · exact h.logged q other hold hsucceeded
    · rw [hwaiting] at hsucceeded
      simp [succeeded] at hsucceeded

theorem writesAt_snoc (writes : List (Write π μ)) (w : Write π μ) (owner id : JsString) :
    writesAt (writes ++ [w]) owner id =
      writesAt writes owner id ++ if w.owner = owner ∧ w.task.id = id then [w] else [] := by
  rw [writesAt, List.filter_append, ← writesAt]
  by_cases hat : w.owner = owner ∧ w.task.id = id
  · rw [if_pos hat, List.filter_cons_of_pos (by simpa using hat), List.filter_nil]
  · rw [if_neg hat, List.filter_cons_of_neg (by simpa using hat), List.filter_nil]

theorem Server.Inv.write {s : Server π μ} (h : s.Inv options initial) {r : ℕ} {job : Job π μ}
    {previous : Option ℕ} {task : A2aTask π μ} {turn : Option (Turn π μ)}
    (hlink : s.locks.links[r]? = some ⟨job, previous, .running (.storing task turn)⟩) :
    Server.Inv options initial { s.put r (.running (.stored task)) with
      store := s.store.set job.owner task
      writes := s.writes ++ [⟨r, job.owner, task, turn⟩] } := by
  obtain ⟨existing, hrecord, -, hid, hturn, hhistory, hartifacts⟩ := h.sound r _ hlink _ rfl
  have hkey : task.id = job.taskId := hid.trans (h.keyed _ _ _ hrecord)
  have hget : ∀ q, (s.locks.setStage r (.running (.stored task))).links[q]? =
      if q = r then some ⟨job, previous, .running (.stored task)⟩ else s.locks.links[q]? := by
    intro q
    rw [Chain.links_setStage]
    split
    · rename_i hq
      rw [hq, hlink]
      rfl
    · rfl
  -- the log has no write of this job yet, and those of its record are by jobs before it
  have hbefore : ∀ w ∈ s.writes, w.owner = job.owner → w.task.id = task.id → w.request < r := by
    intro w hw howner htask
    obtain ⟨other, hother, hsucceeded, howner', htask', -⟩ := h.written w hw
    have hkeys : lockKey other.job = lockKey job := by
      rw [lockKey, lockKey, howner', htask', howner, htask, hkey]
    by_contra hnot
    by_cases hr : w.request = r
    · rw [hr, hlink] at hother
      rw [← Option.some.inj hother] at hsucceeded
      simp [succeeded] at hsucceeded
    · have hwaits := h.ordered.waits hlink rfl hother (by omega) hkeys
      rw [hwaits] at hsucceeded
      simp [succeeded] at hsucceeded
  refine ⟨h.ordered.advance hlink rfl rfl, ?_, ?_, ?_, ?_, ?_, ?_, ?_⟩
  · intro owner id other hother
    dsimp only [TaskStore.set] at hother
    split at hother
    · rename_i hat
      rw [← Option.some.inj hother, hat.2]
    · exact h.keyed owner id other hother
  · intro q other hother work hwork
    dsimp only [Server.put] at hother ⊢
    rw [hget] at hother
    split at hother
    · obtain rfl := Option.some.inj hother
      obtain rfl := Stage.running.inj hwork
      trivial
    · rename_i hq
      have hold := h.sound q other hother work hwork
      have hstore : s.store.set job.owner task other.job.owner other.job.taskId =
          s.store other.job.owner other.job.taskId := by
        rw [TaskStore.set, if_neg]
        rintro ⟨howner, htask⟩
        refine hq (h.ordered.exclusive hlink rfl hother hwork ?_)
        rw [lockKey, lockKey, howner, htask, hkey]
      rw [hstore]
      exact hold
  · intro w hw
    obtain hw | hw := List.mem_append.mp hw
    · obtain ⟨other, hother, hsucceeded, hrest⟩ := h.written w hw
      have hr : w.request ≠ r := by
        intro hr
        rw [hr, hlink] at hother
        rw [← Option.some.inj hother] at hsucceeded
        simp [succeeded] at hsucceeded
      refine ⟨other, ?_, hsucceeded, hrest⟩
      dsimp only [Server.put]
      rw [hget, if_neg hr]
      exact hother
    · rw [List.mem_singleton.mp hw]
      refine ⟨⟨job, previous, .running (.stored task)⟩, ?_, rfl, rfl, hkey.symm, hturn⟩
      dsimp only [Server.put]
      rw [hget, if_pos rfl]
  · intro q other hother hsucceeded
    dsimp only [Server.put] at hother
    rw [hget] at hother
    split at hother
    · rename_i hq
      exact ⟨⟨r, job.owner, task, turn⟩, by simp, hq.symm⟩
    · obtain ⟨w, hw, hrequest⟩ := h.logged q other hother hsucceeded
      exact ⟨w, List.mem_append_left _ hw, hrequest⟩
  · refine List.pairwise_append.mpr ⟨h.sorted, List.pairwise_singleton _ _, ?_⟩
    intro w hw w' hw' howner htask
    rw [List.mem_singleton.mp hw'] at howner htask ⊢
    exact hbefore w hw howner htask
  · intro owner id
    have hold := h.record owner id
    have hturns : turnsAt (s.writes ++ [⟨r, job.owner, task, turn⟩]) owner id =
        turnsAt s.writes owner id ++
          if job.owner = owner ∧ task.id = id then turn.toList else [] := by
      rw [turnsAt, writesAt_snoc, List.filterMap_append, ← turnsAt]
      split
      · cases turn <;> rfl
      · rfl
    dsimp only
    rw [hturns, TaskStore.set]
    by_cases hat : owner = job.owner ∧ id = task.id
    · obtain ⟨rfl, rfl⟩ := hat
      rw [if_pos ⟨rfl, rfl⟩, if_pos ⟨rfl, rfl⟩]
      rw [hkey, hrecord] at hold
      rw [hkey]
      cases hfirst : initial job.owner job.taskId with
      | none =>
        rw [hfirst] at hold
        exact absurd hold.1 (by simp)
      | some first =>
        rw [hfirst] at hold
        obtain ⟨found, hfound, hhistory', hartifacts'⟩ := hold
        obtain rfl := Option.some.inj hfound
        refine ⟨task, rfl, ?_, ?_⟩
        · rw [hhistory]
          cases turn with
          | none => simpa using hhistory'
          | some turn => rw [Option.toList_some, historyAfter_snoc, hhistory']
        · rw [hartifacts, hartifacts', List.flatMap_append, List.append_assoc]
          cases turn <;> simp
    · rw [if_neg hat, if_neg fun h => hat ⟨h.1.symm, h.2.symm⟩, List.append_nil]
      exact hold
  · intro owner id
    dsimp only
    rw [writesAt_snoc, TaskStore.set]
    by_cases hat : owner = job.owner ∧ id = task.id
    · obtain ⟨rfl, rfl⟩ := hat
      rw [if_pos ⟨rfl, rfl⟩, if_pos ⟨rfl, rfl⟩]
      simp
    · rw [if_neg hat, if_neg fun h => hat ⟨h.1.symm, h.2.symm⟩, List.append_nil]
      exact h.last owner id

variable {listing : (JsString → Option (A2aTask π μ)) → List (A2aTask π μ)}

theorem inv_step {s s' : Server π μ} {event : Event π μ} (h : s.Inv options initial)
    (hstep : step options listing s event = some s') : s'.Inv options initial := by
  obtain ⟨job, rfl⟩ | ⟨r, locks, hstart, rfl⟩ | ⟨r, job, previous, work, stage, hlink, hmoves, rfl⟩ |
    ⟨r, job, previous, task, turn, hlink, rfl⟩ | ⟨r, locks, hrelease, rfl⟩ | ⟨readers, rfl⟩ :=
    step_cases hstep
  · exact h.enter job
  · have hordered := h.ordered.start hstart
    rw [Chain.start] at hstart
    split at hstart
    · rename_i job previous hlink
      split at hstart
      · obtain rfl := Option.some.inj hstart
        refine h.setStage hlink rfl hordered (fun work hwork => ?_) rfl
        obtain rfl := Stage.running.inj hwork
        trivial
      · simp at hstart
    · simp at hstart
  · exact h.setStage hlink rfl (h.ordered.advance hlink rfl hmoves.open_end)
      (hmoves.sound (h.sound r _ hlink work rfl)) hmoves.same
  · exact h.write hlink
  · have hordered := h.ordered.release hrelease
    rw [Chain.release] at hrelease
    split at hrelease
    · rename_i job previous result hlink
      have hlinks : locks.links = (s.locks.setStage r (.released result)).links := by
        rw [← Option.some.inj hrelease]
        split <;> rfl
      refine h.setStage hlink hlinks hordered (by simp) ?_
      cases result <;> rfl
    · simp at hrelease
  · exact ⟨h.ordered, h.keyed, h.sound, h.written, h.logged, h.sorted, h.record, h.last⟩

theorem terminal_step {s s' : Server π μ} {event : Event π μ} (h : s.Inv options initial)
    (hstep : step options listing s event = some s') {owner id : JsString} {task : A2aTask π μ}
    (htask : s.store owner id = some task) (hterminal : task.isTerminal = true) :
    s'.store owner id = some task := by
  obtain ⟨job, rfl⟩ | ⟨r, locks, hstart, rfl⟩ | ⟨r, job, previous, work, stage, hlink, hmoves, rfl⟩ |
    ⟨r, job, previous, stored, turn, hlink, rfl⟩ | ⟨r, locks, hrelease, rfl⟩ | ⟨readers, rfl⟩ :=
    step_cases hstep
  · exact htask
  · exact htask
  · exact htask
  · obtain ⟨existing, hrecord, hopen, hid, -⟩ := h.sound r _ hlink _ rfl
    dsimp only [TaskStore.set]
    rw [if_neg]
    · exact htask
    · rintro ⟨rfl, rfl⟩
      rw [hid, h.keyed _ _ _ hrecord] at htask
      rw [← Option.some.inj (htask.symm.trans hrecord)] at hopen
      rw [hterminal] at hopen
      exact absurd hopen (by decide)
  · exact htask
  · exact htask

end Invariant

/-! ## Owners -/

section Owners

variable {options : HandlerOptions π}
  {listing : (JsString → Option (A2aTask π μ)) → List (A2aTask π μ)}

theorem writes_own {s s' : Server π μ} {event : Event π μ} {owner : JsString}
    (hactor : s.actor? event = some owner) (hstep : step options listing s event = some s')
    {other : JsString} (hother : other ≠ owner) (id : JsString) :
    s'.store other id = s.store other id := by
  cases event with
  | write r =>
    rw [step] at hstep
    split at hstep
    · rename_i job task turn hrunning
      obtain ⟨previous, hlink⟩ := running?_eq_some.mp hrunning
      obtain rfl := Option.some.inj hstep
      rw [Server.actor?, hlink] at hactor
      have howner : job.owner = owner := Option.some.inj hactor
      dsimp only [TaskStore.set]
      rw [if_neg fun h => hother (h.1.trans howner)]
    · simp at hstep
  | arrive job =>
    obtain rfl := Option.some.inj hstep
    rfl
  | ask owner query =>
    obtain rfl := Option.some.inj hstep
    rfl
  | start r =>
    obtain ⟨locks, -, rfl⟩ := Option.map_eq_some_iff.mp hstep
    rfl
  | release r =>
    obtain ⟨locks, -, rfl⟩ := Option.map_eq_some_iff.mp hstep
    rfl
  | load r | getRejects r message | setRejects r message | setReturns r | resume r timestamp
  | reply r reply stamp =>
    rw [step] at hstep
    split at hstep
    all_goals first
      | exact congrFun (congrFun (congrArg Server.store (Option.some.inj hstep)).symm other) id
      | simp at hstep
  | read i | readRejects i message | answer i =>
    rw [step] at hstep
    split at hstep
    all_goals first
      | exact congrFun (congrFun (congrArg Server.store (Option.some.inj hstep)).symm other) id
      | simp at hstep

theorem reads_own {s : Server π μ} {event : Event π μ} {owner : JsString}
    (hactor : s.actor? event = some owner) {store : TaskStore π μ}
    (hstore : store owner = s.store owner) :
    (step options listing { s with store } event).map Server.seen =
      (step options listing s event).map Server.seen := by
  have hrunning : ∀ r, ({ s with store } : Server π μ).running? r = s.running? r := fun _ => rfl
  cases event with
  | load r =>
    rw [step, step, hrunning]
    cases hr : s.running? r with
    | none => rfl
    | some pair =>
      obtain ⟨job, work⟩ := pair
      obtain ⟨previous, hlink⟩ := running?_eq_some.mp hr
      rw [Server.actor?, hlink] at hactor
      have howner : job.owner = owner := Option.some.inj hactor
      cases work with
      | loading =>
        dsimp only
        rw [howner, hstore]
        rfl
      | loaded task => rfl
      | calling existing => rfl
      | storing task turn => rfl
      | stored task => rfl
  | read i =>
    rw [step, step]
    dsimp only
    cases hi : s.readers[i]? with
    | none => rfl
    | some reader =>
      obtain ⟨owner', query, stage⟩ := reader
      rw [Server.actor?, hi] at hactor
      obtain rfl : owner' = owner := Option.some.inj hactor
      cases stage with
      | running records =>
        cases records with
        | none =>
          dsimp only
          rw [hstore]
          rfl
        | some records => rfl
      | waiting => rfl
      | settled result => rfl
      | released result => rfl
  | arrive job => rfl
  | ask owner query => rfl
  | start r =>
    rw [step, step]
    cases s.locks.start r .loading <;> rfl
  | release r =>
    rw [step, step]
    cases s.locks.release lockKey r <;> rfl
  | getRejects r message | setRejects r message | setReturns r | resume r timestamp
  | reply r reply stamp | write r =>
    rw [step, step, hrunning]
    split
    all_goals rfl
  | readRejects i message | answer i =>
    rw [step, step]
    dsimp only
    split
    all_goals rfl

end Owners

/-! ## Every run -/

/-- What holds of a server that started with the records `initial`. -/
structure TasksKept (options : HandlerOptions π)
    (listing : (JsString → Option (A2aTask π μ)) → List (A2aTask π μ)) (initial : TaskStore π μ)
    (s : Server π μ) : Prop where
  /-- A record in a terminal state is not changed by any later request. -/
  terminal : ∀ later s', run (step options listing) s later = some s' →
    ∀ owner id task, s.store owner id = some task → task.isTerminal = true →
      s'.store owner id = some task
  /-- The history and the artifacts are the initial ones and the turns that were stored. -/
  record : ∀ owner id, Recorded options.maxHistory (initial owner id) (s.store owner id)
    (turnsAt s.writes owner id)
  /-- These are the turns of the continuations whose `store.set` succeeded. -/
  exactly : ∀ r, (∃ w ∈ s.writes, w.request = r) ↔
    ∃ link : Link (Job π μ) (Work π μ) (Outcome π μ), s.locks.links[r]? = some link ∧
      succeeded link.stage = true
  named : ∀ w ∈ s.writes, ∃ link : Link (Job π μ) (Work π μ) (Outcome π μ),
    s.locks.links[w.request]? = some link ∧ link.job.owner = w.owner ∧
      link.job.taskId = w.task.id ∧ w.turn.isSome = link.job.operation.isContinue
  /-- They are in the order in which the locks were taken. -/
  inOrder : ∀ owner id, ((writesAt s.writes owner id).map Write.request).Pairwise (· < ·)
  /-- A record is what was written last; a request that fails writes nothing. -/
  last : ∀ owner id, s.store owner id =
    ((writesAt s.writes owner id).getLast?.map Write.task).or (initial owner id)
  failed : ∀ (r : ℕ) (link : Link (Job π μ) (Work π μ) (Outcome π μ)) failure,
    s.locks.links[r]? = some link → link.stage.result? = some (.error failure) →
      ∀ w ∈ s.writes, w.request ≠ r
  /-- A request neither writes nor reads a record of another owner. -/
  owners : ∀ event owner, s.actor? event = some owner →
    (∀ s', step options listing s event = some s' →
      ∀ other ≠ owner, ∀ id, s'.store other id = s.store other id) ∧
    ∀ store : TaskStore π μ, store owner = s.store owner →
      (step options listing { s with store } event).map Server.seen =
        (step options listing s event).map Server.seen
  /-- When no request is in progress, the lock map is empty. -/
  idle : (∀ link ∈ s.locks.links, link.stage.isReleased = true) → s.locks.tails = ∅

/-- **Tasks lose no turn and stay terminal**, in every interleaving. -/
theorem tasks_kept (options : HandlerOptions π)
    (listing : (JsString → Option (A2aTask π μ)) → List (A2aTask π μ)) {initial : TaskStore π μ}
    (hkeyed : initial.Keyed) {events : List (Event π μ)} {s : Server π μ}
    (hrun : run (step options listing) { store := initial } events = some s) :
    TasksKept options listing initial s := by
  have h : s.Inv options initial :=
    run_invariant_all (fun _ _ _ hinv hstep => inv_step hinv hstep) (inv_initial hkeyed) hrun
  refine ⟨?_, h.record, ?_, ?_, ?_, h.last, ?_, ?_, h.ordered.tails_empty⟩
  · intro later s' hlater owner id task htask hterminal
    have hpreserved : ∀ (t : Server π μ) (event : Event π μ) (t' : Server π μ),
        t.Inv options initial ∧ t.store owner id = some task → step options listing t event = some t' →
          t'.Inv options initial ∧ t'.store owner id = some task :=
      fun t event t' hboth hstep =>
        ⟨inv_step hboth.1 hstep, terminal_step hboth.1 hstep hboth.2 hterminal⟩
    exact (run_invariant_all hpreserved ⟨h, htask⟩ hlater).2
  · intro r
    constructor
    · rintro ⟨w, hw, rfl⟩
      obtain ⟨link, hlink, hsucceeded, -⟩ := h.written w hw
      exact ⟨link, hlink, hsucceeded⟩
    · rintro ⟨link, hlink, hsucceeded⟩
      exact h.logged r link hlink hsucceeded
  · intro w hw
    obtain ⟨link, hlink, -, hrest⟩ := h.written w hw
    exact ⟨link, hlink, hrest⟩
  · intro owner id
    rw [List.pairwise_map]
    refine (h.sorted.filter _).imp_of_mem ?_
    intro w w' hw hw' hlt
    have hat := (List.mem_filter.mp hw).2
    have hat' := (List.mem_filter.mp hw').2
    simp only [decide_eq_true_eq] at hat hat'
    exact hlt (hat.1.trans hat'.1.symm) (hat.2.trans hat'.2.symm)
  · intro r link failure hlink hresult w hw hrequest
    obtain ⟨other, hother, hsucceeded, -⟩ := h.written w hw
    rw [hrequest, hlink] at hother
    obtain rfl := Option.some.inj hother
    cases hstage : link.stage with
    | waiting =>
      rw [hstage] at hresult
      simp [Stage.result?] at hresult
    | running work =>
      rw [hstage] at hresult
      simp [Stage.result?] at hresult
    | settled result | released result =>
      rw [hstage] at hresult hsucceeded
      obtain rfl := Option.some.inj hresult
      simp [succeeded] at hsucceeded
  · intro event owner hactor
    exact ⟨fun s' hstep other hother id => writes_own hactor hstep hother id,
      fun store hstore => reads_own hactor hstore⟩

/-! ## Two runs -/

def plainOptions (maxHistory : ℕ) : HandlerOptions ℕ := ⟨maxHistory, .ok⟩

def userMessage (parts : ℕ) : A2aMessage ℕ ℕ :=
  { messageId := js "m", role := .user, parts }

def twoMessages : TaskStore ℕ ℕ := fun owner id =>
  if owner = js "o" ∧ id = js "t" then some {
    id := js "t"
    contextId := js "c"
    status := { state := .text (js "TASK_STATE_INPUT_REQUIRED") }
    history := some [userMessage 1, userMessage 2] }
  else none

theorem keyed_twoMessages : twoMessages.Keyed := by
  intro owner id task h
  rw [twoMessages] at h
  split at h
  · rename_i hat
    rw [← Option.some.inj h, hat.2]
  · simp at h

def threeRequests : List (Event ℕ ℕ) :=
  [.arrive ⟨.continue (userMessage 3), js "o", js "t"⟩, .start 0, .load 0,
    .arrive ⟨.continue (userMessage 4), js "o", js "t"⟩, .resume 0 [],
    .arrive ⟨.cancel, js "o", js "t"⟩,
    .reply 0 (some (.result (js "input-required") [] none none)) ⟨[], [], []⟩, .write 0,
    .setReturns 0, .start 1, .release 0, .load 1, .resume 1 [],
    .reply 1 (some (.result (js "input-required") [] none none)) ⟨[], [], []⟩, .write 1,
    .setReturns 1, .release 1, .start 2, .load 2, .resume 2 [], .write 2, .setReturns 2, .release 2]

theorem tasks_kept_example :
    ∃ s, run (step (plainOptions 3) fun _ => []) { store := twoMessages } threeRequests = some s ∧
      TasksKept (plainOptions 3) (fun _ => []) twoMessages s ∧
      ((s.store (js "o") (js "t")).bind A2aTask.history).map (List.map A2aMessage.parts) =
        some [2, 3, 4] := by
  obtain ⟨s, hs⟩ : ∃ s, run (step (plainOptions 3) fun _ => []) { store := twoMessages }
      threeRequests = some s := Option.isSome_iff_exists.mp (by decide)
  refine ⟨s, hs, tasks_kept (plainOptions 3) (fun _ => []) keyed_twoMessages hs, ?_⟩
  have hhistory : ((run (step (plainOptions 3) fun _ => []) { store := twoMessages }
      threeRequests).bind fun s => (s.store (js "o") (js "t")).bind A2aTask.history).map
        (List.map A2aMessage.parts) = some [2, 3, 4] := by
    decide
  rwa [hs] at hhistory

/-- A history that was longer is not cut before there is a turn: here `GetTask` is all that is
asked. -/
theorem history_not_cut :
    twoMessages.Keyed ∧
      ∃ s, run (step (plainOptions 1) fun _ => []) { store := twoMessages }
          [.ask (js "o") (.getTask (js "t")), .read 0, .answer 0] = some s ∧
        turnsAt s.writes (js "o") (js "t") = [] ∧
        ((s.store (js "o") (js "t")).bind A2aTask.history).getD [] ≠
          lastN (plainOptions 1).maxHistory
            ((((twoMessages (js "o") (js "t")).bind A2aTask.history).getD []) ++
              (turnsAt s.writes (js "o") (js "t")).flatMap Turn.messages) := by
  refine ⟨keyed_twoMessages, _, rfl, ?_⟩
  decide

end Daloy.A2a
