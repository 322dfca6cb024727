import Daloy.Scheduling.Scheduler

/-! # Runs are single-flight, and `stop` is final

* `Core`, `Armed`: what every step keeps, the steps of `Good` at least. Each operation has one lemma
  that says so, with the state it is applied to as its hypotheses.
-/

namespace Daloy.Scheduling
set_option autoImplicit false

open Daloy.Runs

variable {κ : Type} [DecidableEq κ]

namespace Scheduler

/-! ## Tasks and runs after an operation -/

@[simp] theorem task?_modifyTask (s : Scheduler κ) (name : κ) (f : RegisteredTask → RegisteredTask)
    (name' : κ) : (s.modifyTask name f).task? name' =
      if name' = name then (s.task? name').map f else s.task? name' :=
  JsMap.get?_modify s.tasks name name' f

omit [DecidableEq κ] in
theorem runs_setPhase (s : Scheduler κ) (run : ℕ) (phase : Phase) (i : ℕ) :
    (s.setPhase run phase).runs[i]? =
      if run = i then (s.runs[i]?).map fun r => { r with phase } else s.runs[i]? := by
  rw [setPhase, List.getElem?_modify]
  split <;> simp_all

/-! ## The invariant -/

def HasRun (s : Scheduler κ) (i : ℕ) (r : Run κ) : Prop := s.runs[i]? = some r

/-- The runs that `stop` awaits. -/
def awaited (s : Scheduler κ) : List ℕ :=
  match s.stopping with
  | .racing runs _ => runs
  | .unwinding runs => runs
  | _ => []

structure Core (s : Scheduler κ) : Prop where
  running : ∀ i r, s.HasRun i r → r.phase.inProgress = true →
    ∃ t, s.task? r.task = some t ∧ t.running = true ∧ (r.phase = .pending → t.current = some i)
  single : ∀ i j r r', s.HasRun i r → s.HasRun j r' → r.phase.inProgress = true →
    r'.phase.inProgress = true → r.task = r'.task → i = j
  stack : ∀ i, i ∈ s.stack ↔ ∃ r, s.HasRun i r ∧ r.phase = .starting
  stack_nodup : s.stack.Nodup
  fulfilled : ∀ i r, s.HasRun i r → r.phase ≠ .rejected
  timers : ∀ timer ∈ s.timers, timer.1 < s.nextTimer ∧
    ∃ t, s.task? timer.2 = some t ∧ t.timer = some timer.1
  timer : ∀ name t id, s.task? name = some t → t.timer = some id → (id, name) ∈ s.timers
  timers_nodup : (s.timers.map Prod.fst).Nodup
  cleared : s.stopped = true → s.timers = []
  called : s.stopped = true ↔ s.stopping ≠ .notCalled
  awaits : s.stopped = true → ∀ i r, s.HasRun i r → r.trigger = .tick →
    r.phase.inProgress = true → i ∈ s.awaited
  not_rejected : s.stopping ≠ .rejected

def Armed (s : Scheduler κ) : Prop :=
  s.stopped = false → ∀ name t, s.task? name = some t → t.armed = true → t.timer.isSome = true

/-! ## Operations that keep it -/

theorem Core.modifyTask {s : Scheduler κ} (h : s.Core) (name : κ)
    {f : RegisteredTask → RegisteredTask}
    (hf : ∀ t, (f t).timer = t.timer ∧ (f t).running = t.running ∧ (f t).current = t.current) :
    (s.modifyTask name f).Core where
  running := by
    intro i r hrun hprogress
    obtain ⟨t, ht, hrunning, hcurrent⟩ := h.running i r hrun hprogress
    rw [task?_modifyTask]
    split
    · refine ⟨f t, by rw [ht]; rfl, (hf t).2.1.trans hrunning, ?_⟩
      exact fun hpending => (hf t).2.2.trans (hcurrent hpending)
    · exact ⟨t, ht, hrunning, hcurrent⟩
  single := h.single
  stack := h.stack
  stack_nodup := h.stack_nodup
  fulfilled := h.fulfilled
  timers := by
    intro timer hin
    obtain ⟨hlt, t, ht, htimer⟩ := h.timers timer hin
    refine ⟨hlt, ?_⟩
    rw [task?_modifyTask]
    split
    · exact ⟨f t, by rw [ht]; rfl, (hf t).1.trans htimer⟩
    · exact ⟨t, ht, htimer⟩
  timer := by
    intro name' t id ht htimer
    rw [task?_modifyTask] at ht
    split at ht
    · obtain ⟨t₀, ht₀, rfl⟩ := Option.map_eq_some_iff.mp ht
      rw [(hf t₀).1] at htimer
      exact h.timer name' t₀ id ht₀ htimer
    · exact h.timer name' t id ht htimer
  timers_nodup := h.timers_nodup
  cleared := h.cleared
  called := h.called
  awaits := h.awaits
  not_rejected := h.not_rejected

theorem Armed.modifyTask {s : Scheduler κ} (h : s.Armed) (name : κ)
    {f : RegisteredTask → RegisteredTask}
    (hf : ∀ t, (f t).timer = t.timer ∧ (f t).armed = t.armed) : (s.modifyTask name f).Armed := by
  intro hstopped name' t ht harmed
  rw [task?_modifyTask] at ht
  split at ht
  · obtain ⟨t₀, ht₀, rfl⟩ := Option.map_eq_some_iff.mp ht
    rw [(hf t₀).2] at harmed
    rw [(hf t₀).1]
    exact h hstopped name' t₀ ht₀ harmed
  · exact h hstopped name' t ht harmed

theorem Core.setTimer {s : Scheduler κ} (h : s.Core) {name : κ} {t : RegisteredTask}
    (ht : s.task? name = some t) (hnone : t.timer = none) (hstopped : s.stopped = false)
    (nextRunAt : ℤ) : (s.setTimer name nextRunAt).Core := by
  have htask : ∀ name', (s.setTimer name nextRunAt).task? name' =
      if name' = name then (s.task? name').map fun t => { t with
        timer := some s.nextTimer, nextRunAt := some nextRunAt, armed := true }
      else s.task? name' := fun name' => task?_modifyTask s name _ name'
  have hfresh : ∀ timer ∈ s.timers, timer.2 ≠ name := by
    rintro timer hin rfl
    obtain ⟨-, t', ht', htimer⟩ := h.timers timer hin
    rw [ht] at ht'
    rw [← Option.some.inj ht', hnone] at htimer
    simp at htimer
  refine ⟨?_, h.single, h.stack, h.stack_nodup, h.fulfilled, ?_, ?_, ?_, ?_, h.called, ?_,
    h.not_rejected⟩
  · intro i r hrun hprogress
    obtain ⟨t', ht', hrunning, hcurrent⟩ := h.running i r hrun hprogress
    rw [htask, ht']
    split
    · exact ⟨_, rfl, hrunning, hcurrent⟩
    · exact ⟨t', rfl, hrunning, hcurrent⟩
  · intro timer hin
    rcases List.mem_append.mp hin with hin | hin
    · obtain ⟨hlt, t', ht', htimer⟩ := h.timers timer hin
      refine ⟨Nat.lt_succ_of_lt hlt, t', ?_, htimer⟩
      rw [htask, if_neg (hfresh timer hin), ht']
    · obtain rfl := List.mem_singleton.mp hin
      refine ⟨Nat.lt_succ_self _, { t with
        timer := some s.nextTimer, nextRunAt := some nextRunAt, armed := true }, ?_, rfl⟩
      rw [htask, if_pos rfl, ht]
      rfl
  · intro name' t' id ht' htimer
    rw [htask] at ht'
    split at ht'
    · next heq =>
      obtain ⟨t₀, -, rfl⟩ := Option.map_eq_some_iff.mp ht'
      obtain rfl : s.nextTimer = id := Option.some.inj htimer
      rw [heq]
      exact List.mem_append_right _ (List.mem_singleton_self _)
    · exact List.mem_append_left _ (h.timer name' t' id ht' htimer)
  · show ((s.timers ++ [(s.nextTimer, name)]).map Prod.fst).Nodup
    rw [List.map_append, List.nodup_append]
    refine ⟨h.timers_nodup, by simp, ?_⟩
    intro a ha b hb
    obtain ⟨timer, hin, rfl⟩ := List.mem_map.mp ha
    obtain rfl : b = s.nextTimer := by simpa using hb
    exact Nat.ne_of_lt (h.timers timer hin).1
  · intro hstop
    rw [show (s.setTimer name nextRunAt).stopped = s.stopped from rfl, hstopped] at hstop
    exact absurd hstop Bool.false_ne_true
  · intro hstop
    rw [show (s.setTimer name nextRunAt).stopped = s.stopped from rfl, hstopped] at hstop
    exact absurd hstop Bool.false_ne_true

theorem armed_setTimer {s : Scheduler κ} {name : κ}
    (h : ∀ name' t, name' ≠ name → s.task? name' = some t → t.armed = true →
      t.timer.isSome = true) (nextRunAt : ℤ) : (s.setTimer name nextRunAt).Armed := by
  intro hstopped name' t ht harmed
  rw [show (s.setTimer name nextRunAt).task? name' = _ from task?_modifyTask s name _ name'] at ht
  split at ht
  · obtain ⟨t₀, -, rfl⟩ := Option.map_eq_some_iff.mp ht
    rfl
  · next hne => exact h name' t hne ht harmed

theorem hasRun_run {s : Scheduler κ} {name : κ} {task : RegisteredTask} {trigger : Trigger}
    {scheduledFor : ℤ} {i : ℕ} {r : Run κ} :
    (s.run name task trigger scheduledFor).HasRun i r ↔ s.HasRun i r ∨
      i = s.runs.length ∧ r = ⟨name, trigger, task.runs + 1, scheduledFor, .starting⟩ := by
  show (s.runs ++ [_])[i]? = some r ↔ _
  exact getElem?_concat

omit [DecidableEq κ] in
theorem lt_of_hasRun {s : Scheduler κ} {i : ℕ} {r : Run κ} (h : s.HasRun i r) :
    i < s.runs.length := (List.getElem?_eq_some_iff.mp h).1

theorem Core.run {s : Scheduler κ} (h : s.Core) {name : κ} {current : RegisteredTask}
    (htask : s.task? name = some current) (hidle : current.running = false) {trigger : Trigger}
    (htrigger : trigger = .tick → s.stopped = false) (task : RegisteredTask) (scheduledFor : ℤ) :
    (s.run name task trigger scheduledFor).Core := by
  have htask' : ∀ name', (s.run name task trigger scheduledFor).task? name' =
      if name' = name then (s.task? name').map fun t => { t with running := true }
      else s.task? name' := fun name' => task?_modifyTask s name _ name'
  -- no run of the task is in progress
  have hnone : ∀ i r, s.HasRun i r → r.phase.inProgress = true → r.task ≠ name := by
    rintro i r hrun hprogress rfl
    obtain ⟨t, ht, hrunning, -⟩ := h.running i r hrun hprogress
    rw [htask] at ht
    rw [← Option.some.inj ht, hidle] at hrunning
    exact Bool.false_ne_true hrunning
  refine ⟨?_, ?_, ?_, ?_, ?_, ?_, ?_, h.timers_nodup, h.cleared, h.called, ?_, h.not_rejected⟩
  · intro i r hrun hprogress
    rcases hasRun_run.mp hrun with hrun | ⟨rfl, rfl⟩
    · obtain ⟨t, ht, hrunning, hcurrent⟩ := h.running i r hrun hprogress
      rw [htask', if_neg (hnone i r hrun hprogress)]
      exact ⟨t, ht, hrunning, hcurrent⟩
    · rw [htask', if_pos rfl, htask]
      exact ⟨_, rfl, rfl, by simp⟩
  · intro i j r r' hrun hrun' hprogress hprogress' hsame
    rcases hasRun_run.mp hrun with hold | ⟨rfl, rfl⟩ <;>
      rcases hasRun_run.mp hrun' with hold' | ⟨rfl, rfl⟩
    · exact h.single i j r r' hold hold' hprogress hprogress' hsame
    · exact absurd hsame (hnone i r hold hprogress)
    · exact absurd hsame.symm (hnone j r' hold' hprogress')
    · rfl
  · intro i
    show i ∈ s.runs.length :: s.stack ↔ _
    rw [List.mem_cons, h.stack]
    constructor
    · rintro (rfl | ⟨r, hrun, hstarting⟩)
      · exact ⟨_, hasRun_run.mpr (.inr ⟨rfl, rfl⟩), rfl⟩
      · exact ⟨r, hasRun_run.mpr (.inl hrun), hstarting⟩
    · rintro ⟨r, hrun, hstarting⟩
      rcases hasRun_run.mp hrun with hrun | ⟨rfl, -⟩
      · exact .inr ⟨r, hrun, hstarting⟩
      · exact .inl rfl
  · show (s.runs.length :: s.stack).Nodup
    refine List.nodup_cons.mpr ⟨?_, h.stack_nodup⟩
    intro hin
    obtain ⟨r, hrun, -⟩ := (h.stack _).mp hin
    exact Nat.lt_irrefl _ (lt_of_hasRun hrun)
  · intro i r hrun
    rcases hasRun_run.mp hrun with hrun | ⟨-, rfl⟩
    · exact h.fulfilled i r hrun
    · simp
  · intro timer hin
    obtain ⟨hlt, t, ht, htimer⟩ := h.timers timer hin
    refine ⟨hlt, ?_⟩
    rw [htask', ht]
    split
    · exact ⟨_, rfl, htimer⟩
    · exact ⟨t, rfl, htimer⟩
  · intro name' t id ht htimer
    rw [htask'] at ht
    split at ht
    · obtain ⟨t₀, ht₀, rfl⟩ := Option.map_eq_some_iff.mp ht
      exact h.timer name' t₀ id ht₀ htimer
    · exact h.timer name' t id ht htimer
  · intro hstopped i r hrun htick hprogress
    rcases hasRun_run.mp hrun with hrun | ⟨rfl, rfl⟩
    · exact h.awaits hstopped i r hrun htick hprogress
    · rw [show (s.run name task trigger scheduledFor).stopped = s.stopped from rfl,
        htrigger htick] at hstopped
      exact absurd hstopped Bool.false_ne_true

/-! ## Runs that come back -/

theorem hasRun_setPhase {s : Scheduler κ} {run : ℕ} {phase : Phase} {i : ℕ} {r : Run κ} :
    (s.setPhase run phase).HasRun i r ↔
      run ≠ i ∧ s.HasRun i r ∨ run = i ∧ ∃ r₀, s.HasRun i r₀ ∧ r = { r₀ with phase } := by
  rw [HasRun, runs_setPhase]
  by_cases heq : run = i
  · rw [if_pos heq, Option.map_eq_some_iff]
    simp only [heq, ne_eq, not_true_eq_false, false_and, true_and, false_or, HasRun, eq_comm]
  · simp [heq, HasRun]

/-- The state when a run in progress has got to another phase: its task is changed, and it leaves
the stack. -/
def moveRun (s : Scheduler κ) (run : ℕ) (name : κ) (phase : Phase) (stack : List ℕ)
    (f : RegisteredTask → RegisteredTask) : Scheduler κ :=
  { (s.setPhase run phase).modifyTask name f with stack }

theorem Core.moveRun {s : Scheduler κ} (h : s.Core) {run : ℕ} {r : Run κ} (hrun : s.HasRun run r)
    (hprogress : r.phase.inProgress = true) {phase : Phase} (hphase : phase = .pending ∨
      phase = .fulfilled) {f : RegisteredTask → RegisteredTask} (htimer : ∀ t, (f t).timer = t.timer)
    (hpending : phase = .pending → ∀ t, (f t).running = t.running ∧ (f t).current = some run)
    {stack : List ℕ} (hstack : ∀ i, i ∈ stack ↔ i ∈ s.stack ∧ i ≠ run) (hnodup : stack.Nodup) :
    (s.moveRun run r.task phase stack f).Core := by
  have htask : ∀ name', (s.moveRun run r.task phase stack f).task? name' =
      if name' = r.task then (s.task? name').map f else s.task? name' :=
    fun name' => task?_modifyTask (s.setPhase run phase) r.task f name'
  have hruns : ∀ {i r'}, (s.moveRun run r.task phase stack f).HasRun i r' ↔
      run ≠ i ∧ s.HasRun i r' ∨ run = i ∧ ∃ r₀, s.HasRun i r₀ ∧ r' = { r₀ with phase } :=
    hasRun_setPhase
  -- the runs of the new state are those of the old one, with the same task and trigger
  have hold : ∀ {i r'}, (s.moveRun run r.task phase stack f).HasRun i r' →
      r'.phase.inProgress = true → ∃ r₀, s.HasRun i r₀ ∧ r₀.phase.inProgress = true ∧
        r₀.task = r'.task ∧ r₀.trigger = r'.trigger := by
    intro i r' hrun' hprogress'
    rcases hruns.mp hrun' with ⟨-, hrun'⟩ | ⟨rfl, r₀, hrun₀, rfl⟩
    · exact ⟨r', hrun', hprogress', rfl, rfl⟩
    · obtain rfl : r = r₀ := Option.some.inj (hrun.symm.trans hrun₀)
      exact ⟨r, hrun, hprogress, rfl, rfl⟩
  refine ⟨?_, ?_, ?_, hnodup, ?_, ?_, ?_, h.timers_nodup, h.cleared, h.called, ?_, h.not_rejected⟩
  · intro i r' hrun' hprogress'
    rcases hruns.mp hrun' with ⟨hne, hrun'⟩ | ⟨rfl, r₀, hrun₀, rfl⟩
    · obtain ⟨t, ht, hrunning, hcurrent⟩ := h.running i r' hrun' hprogress'
      have hother : r'.task ≠ r.task := fun hsame =>
        hne (h.single run i r r' hrun hrun' hprogress hprogress' hsame.symm)
      rw [htask, if_neg hother]
      exact ⟨t, ht, hrunning, hcurrent⟩
    · obtain rfl : r = r₀ := Option.some.inj (hrun.symm.trans hrun₀)
      rcases hphase with rfl | rfl
      · obtain ⟨t, ht, hrunning, -⟩ := h.running run r hrun hprogress
        rw [htask, if_pos rfl, ht]
        exact ⟨f t, rfl, (hpending rfl t).1.trans hrunning, fun _ => (hpending rfl t).2⟩
      · exact absurd hprogress' Bool.false_ne_true
  · intro i j r' r'' hrun' hrun'' hprogress' hprogress'' hsame
    obtain ⟨r₁, hrun₁, hprogress₁, htask₁, -⟩ := hold hrun' hprogress'
    obtain ⟨r₂, hrun₂, hprogress₂, htask₂, -⟩ := hold hrun'' hprogress''
    exact h.single i j r₁ r₂ hrun₁ hrun₂ hprogress₁ hprogress₂
      (htask₁.trans (hsame.trans htask₂.symm))
  · intro i
    show i ∈ stack ↔ _
    rw [hstack, h.stack]
    constructor
    · rintro ⟨⟨r', hrun', hstarting⟩, hne⟩
      exact ⟨r', hruns.mpr (.inl ⟨hne.symm, hrun'⟩), hstarting⟩
    · rintro ⟨r', hrun', hstarting⟩
      rcases hruns.mp hrun' with ⟨hne, hrun'⟩ | ⟨rfl, r₀, -, rfl⟩
      · exact ⟨⟨r', hrun', hstarting⟩, hne.symm⟩
      · rcases hphase with rfl | rfl <;> simp at hstarting
  · intro i r' hrun'
    rcases hruns.mp hrun' with ⟨-, hrun'⟩ | ⟨-, r₀, -, rfl⟩
    · exact h.fulfilled i r' hrun'
    · rcases hphase with rfl | rfl <;> simp
  · intro timer hin
    obtain ⟨hlt, t, ht, htimer'⟩ := h.timers timer hin
    refine ⟨hlt, ?_⟩
    rw [htask, ht]
    split
    · exact ⟨f t, rfl, (htimer t).trans htimer'⟩
    · exact ⟨t, rfl, htimer'⟩
  · intro name' t id ht htimer'
    rw [htask] at ht
    split at ht
    · obtain ⟨t₀, ht₀, rfl⟩ := Option.map_eq_some_iff.mp ht
      rw [htimer] at htimer'
      exact h.timer name' t₀ id ht₀ htimer'
    · exact h.timer name' t id ht htimer'
  · intro hstopped i r' hrun' htick hprogress'
    obtain ⟨r₀, hrun₀, hprogress₀, -, htrigger⟩ := hold hrun' hprogress'
    exact h.awaits hstopped i r₀ hrun₀ (htrigger.trans htick) hprogress₀

/-! ## Timers that fire, and `stop` -/

/-- The state when a timer has fired: it is pending no more, and its task has none. -/
def fired (s : Scheduler κ) (timer : ℕ) (name : κ) : Scheduler κ :=
  { s with timers := s.timers.filter fun t => t.1 ≠ timer }.modifyTask name fun t =>
    { t with timer := none }

omit [DecidableEq κ] in
theorem mem_of_lookup {timers : List (ℕ × κ)} {timer : ℕ} {name : κ}
    (h : timers.lookup timer = some name) : (timer, name) ∈ timers := by
  obtain ⟨front, back, rfl, -⟩ := List.lookup_eq_some_iff.mp h
  simp

theorem Core.fired {s : Scheduler κ} (h : s.Core) {timer : ℕ} {name : κ}
    (hlookup : s.timers.lookup timer = some name) : (s.fired timer name).Core := by
  have hin := mem_of_lookup hlookup
  obtain ⟨-, task, htask, htimer⟩ := h.timers _ hin
  have htask' : ∀ name', (s.fired timer name).task? name' =
      if name' = name then (s.task? name').map fun t => { t with timer := none }
      else s.task? name' := fun name' => task?_modifyTask _ name _ name'
  have hkeep : ∀ t, t ∈ (s.fired timer name).timers ↔ t ∈ s.timers ∧ t.1 ≠ timer := by
    intro t
    show t ∈ s.timers.filter _ ↔ _
    simp
  refine ⟨?_, h.single, h.stack, h.stack_nodup, h.fulfilled, ?_, ?_, ?_, ?_, h.called, h.awaits,
    h.not_rejected⟩
  · intro i r hrun hprogress
    obtain ⟨t, ht, hrunning, hcurrent⟩ := h.running i r hrun hprogress
    rw [htask', ht]
    split
    · exact ⟨_, rfl, hrunning, hcurrent⟩
    · exact ⟨t, rfl, hrunning, hcurrent⟩
  · intro timer' hin'
    obtain ⟨hold, hne⟩ := (hkeep timer').mp hin'
    obtain ⟨hlt, t, ht, htimer'⟩ := h.timers timer' hold
    refine ⟨hlt, t, ?_, htimer'⟩
    -- another timer is that of another task
    rw [htask', if_neg ?_, ht]
    intro hname
    rw [hname] at ht
    change s.task? name = some task at htask
    rw [ht] at htask
    rw [← Option.some.inj htask, htimer'] at htimer
    exact hne (Option.some.inj htimer)
  · intro name' t id ht hid
    rw [htask'] at ht
    split at ht
    · obtain ⟨t₀, -, rfl⟩ := Option.map_eq_some_iff.mp ht
      simp at hid
    · next hname =>
      have hold := h.timer name' t id ht hid
      refine (hkeep _).mpr ⟨hold, ?_⟩
      rintro rfl
      exact hname (Prod.mk.inj (List.inj_on_of_nodup_map h.timers_nodup hold hin rfl)).2
  · exact h.timers_nodup.sublist (List.filter_sublist.map Prod.fst)
  · intro hstopped
    show s.timers.filter _ = []
    rw [h.cleared hstopped]
    rfl

theorem mem_inflight {s : Scheduler κ} {i : ℕ} :
    i ∈ s.inflight ↔ ∃ name t, s.task? name = some t ∧ t.current = some i := by
  rw [inflight, List.mem_filterMap]
  constructor
  · rintro ⟨t, hin, hcurrent⟩
    obtain ⟨name, ht⟩ := JsMap.mem_values.mp hin
    exact ⟨name, t, ht, hcurrent⟩
  · rintro ⟨name, t, ht, hcurrent⟩
    exact ⟨t, JsMap.mem_values.mpr ⟨name, ht⟩, hcurrent⟩

theorem Core.inflight {s : Scheduler κ} (h : s.Core) {i : ℕ} {r : Run κ} (hrun : s.HasRun i r)
    (hpending : r.phase = .pending) : i ∈ s.inflight := by
  obtain ⟨t, ht, -, hcurrent⟩ := h.running i r hrun (by rw [hpending]; rfl)
  exact mem_inflight.mpr ⟨r.task, t, ht, hcurrent hpending⟩

theorem pending_of_inProgress {s : Scheduler κ} (h : s.Core) {i : ℕ} {r : Run κ}
    (hrun : s.HasRun i r) (hprogress : r.phase.inProgress = true) (hnot : i ∉ s.stack) :
    r.phase = .pending := by
  cases hphase : r.phase with
  | starting => exact absurd ((h.stack i).mpr ⟨r, hrun, hphase⟩) hnot
  | pending => rfl
  | fulfilled => rw [hphase] at hprogress; exact absurd hprogress Bool.false_ne_true
  | rejected => rw [hphase] at hprogress; exact absurd hprogress Bool.false_ne_true

theorem Core.stop {s : Scheduler κ} (h : s.Core)
    (hstack : ∀ i ∈ s.stack, ∀ r, s.HasRun i r → r.trigger ≠ .tick) : s.stop.Core := by
  have htask : ∀ name, s.stop.task? name =
      (s.task? name).map fun t => { t with timer := none, nextRunAt := none } :=
    fun name => JsMap.get?_mapValues s.tasks _ name
  have htimers : s.stop.timers = [] := by
    show s.timers.filter _ = []
    rw [List.filter_eq_nil_iff]
    intro timer hin
    obtain ⟨-, t, ht, htimer⟩ := h.timers timer hin
    have hcleared : timer.1 ∈ s.tasks.values.filterMap RegisteredTask.timer :=
      List.mem_filterMap.mpr ⟨t, JsMap.mem_values.mpr ⟨timer.2, ht⟩, htimer⟩
    simpa using hcleared
  have hinflight : ∀ i, i ∈ s.inflight → i ∈ s.stop.inflight := by
    intro i hin
    obtain ⟨name, t, ht, hcurrent⟩ := mem_inflight.mp hin
    exact mem_inflight.mpr
      ⟨name, { t with timer := none, nextRunAt := none }, by rw [htask, ht]; rfl, hcurrent⟩
  have hstopping : s.stop.stopping =
      if s.stop.inflight = [] then .resolved else .racing s.stop.inflight false := rfl
  refine ⟨?_, h.single, h.stack, h.stack_nodup, h.fulfilled, ?_, ?_, ?_, fun _ => htimers, ?_, ?_,
    ?_⟩
  · intro i r hrun hprogress
    obtain ⟨t, ht, hrunning, hcurrent⟩ := h.running i r hrun hprogress
    rw [htask, ht]
    exact ⟨_, rfl, hrunning, hcurrent⟩
  · rw [htimers]
    simp
  · intro name t id ht hid
    rw [htask] at ht
    obtain ⟨t₀, -, rfl⟩ := Option.map_eq_some_iff.mp ht
    simp at hid
  · rw [htimers]
    exact List.nodup_nil
  · refine iff_of_true rfl ?_
    rw [hstopping]
    split <;> simp
  · intro _ i r hrun htick hprogress
    have hpending := pending_of_inProgress h hrun hprogress fun hin => hstack i hin r hrun htick
    have hin := hinflight i (h.inflight hrun hpending)
    rw [awaited, hstopping, if_neg (List.ne_nil_of_mem hin)]
    exact hin
  · rw [hstopping]
    split <;> simp

theorem Core.setStopping {s : Scheduler κ} (h : s.Core) {stopping : Stopping}
    (hcalled : s.stopping ≠ .notCalled) (hnot : stopping ≠ .notCalled)
    (hrejected : stopping ≠ .rejected)
    (hawaits : ∀ i r, s.HasRun i r → r.trigger = .tick → r.phase.inProgress = true →
      i ∈ awaited { s with stopping }) : Core { s with stopping } :=
  { h with
    called := iff_of_true (h.called.mpr hcalled) hnot
    awaits := fun _ => hawaits
    not_rejected := hrejected }

omit [DecidableEq κ] in
theorem not_allFulfilled {s : Scheduler κ} {i : ℕ} {r : Run κ} {runs : List ℕ}
    (hrun : s.HasRun i r) (hprogress : r.phase.inProgress = true) (hin : i ∈ runs) :
    s.allFulfilled runs = false := by
  rw [allFulfilled, List.all_eq_false]
  refine ⟨i, hin, ?_⟩
  have hphase : s.phase? i = some r.phase := by rw [phase?, show s.runs[i]? = some r from hrun]; rfl
  rw [hphase]
  cases hr : r.phase <;> rw [hr] at hprogress <;> simp [Phase.inProgress] at hprogress ⊢

theorem not_someRejected {s : Scheduler κ} (h : s.Core) (runs : List ℕ) :
    s.someRejected runs = false := by
  rw [someRejected, List.any_eq_false]
  intro i _
  rw [phase?]
  cases hrun : s.runs[i]? with
  | none => simp
  | some r => simpa using h.fulfilled i r hrun

theorem Core.afterRace {s : Scheduler κ} (h : s.Core) {runs : List ℕ} {timedOut : Bool}
    (hracing : s.stopping = .racing runs timedOut) (hstack : s.stack = [])
    (hover : timedOut = true ∨ s.allFulfilled runs = true) :
    Core { s with stopping := s.afterRace timedOut } := by
  have hcalled : s.stopping ≠ .notCalled := by simp [hracing]
  have hpending : ∀ i r, s.HasRun i r → r.phase.inProgress = true → i ∈ s.inflight := by
    intro i r hrun hprogress
    exact h.inflight hrun (pending_of_inProgress h hrun hprogress (by simp [hstack]))
  refine h.setStopping hcalled ?_ ?_ ?_
  · rw [Scheduler.afterRace]
    split <;> simp
  · rw [Scheduler.afterRace]
    split <;> simp
  · intro i r hrun htick hprogress
    have hin := hpending i r hrun hprogress
    have hawaited := h.awaits (h.called.mpr hcalled) i r hrun htick hprogress
    rw [awaited, hracing] at hawaited
    cases timedOut with
    | true =>
      rw [awaited, Scheduler.afterRace, if_pos ⟨rfl, List.ne_nil_of_mem hin⟩]
      exact hin
    | false =>
      have hall := hover.resolve_left Bool.false_ne_true
      rw [not_allFulfilled hrun hprogress hawaited] at hall
      exact absurd hall Bool.false_ne_true

/-! ## Every step -/

/-- `stop` is not called from the synchronous part of a handler that a tick started, reporting an
error does not throw, and a tick finds the time of the next one. -/
def Good (s : Scheduler κ) : Label κ → Prop
  | .stop => ∀ i ∈ s.stack, ∀ r ∈ s.runs[i]?, r.trigger ≠ .tick
  | .fire _ _ delay => delay ≠ none
  | .handlerThrows rejects => rejects = false
  | .settle _ _ rejects => rejects = false
  | _ => True

instance (s : Scheduler κ) : ∀ l, Decidable (Good s l)
  | .stop => inferInstanceAs (Decidable (∀ i ∈ s.stack, ∀ r ∈ s.runs[i]?, r.trigger ≠ .tick))
  | .fire _ _ delay => inferInstanceAs (Decidable (delay ≠ none))
  | .handlerThrows rejects => inferInstanceAs (Decidable (rejects = false))
  | .settle _ _ rejects => inferInstanceAs (Decidable (rejects = false))
  | .define .. | .runNow .. | .handlerReturns | .deadline | .stopResumes | .stopThrows =>
    .isTrue trivial

structure Inv (s : Scheduler κ) : Prop where
  core : s.Core
  armed : s.Armed

theorem Inv.skip {s : Scheduler κ} (h : s.Inv) (name : κ) : (s.skip name).Inv :=
  ⟨h.core.modifyTask name fun _ => ⟨rfl, rfl, rfl⟩, h.armed.modifyTask name fun _ => ⟨rfl, rfl⟩⟩

theorem Inv.run {s : Scheduler κ} (h : s.Inv) {name : κ} {current : RegisteredTask}
    (htask : s.task? name = some current) (hidle : current.running = false) {trigger : Trigger}
    (htrigger : trigger = .tick → s.stopped = false) (task : RegisteredTask) (scheduledFor : ℤ) :
    (s.run name task trigger scheduledFor).Inv :=
  ⟨h.core.run htask hidle htrigger task scheduledFor,
    h.armed.modifyTask name fun _ => ⟨rfl, rfl⟩⟩

/-- What `#tick` does to a running scheduler: the next timer is set, and the tick is skipped if a run
is in progress and starts one otherwise. -/
theorem tick_cases {s : Scheduler κ} (h : s.Core) {timer : ℕ} {name : κ}
    (hlookup : s.timers.lookup timer = some name) (now : ℤ) (delay : ℕ) :
    s.stopped = false ∧ ∃ task, (s.fired timer name).task? name = some task ∧ task.timer = none ∧
      { s with timers := s.timers.filter fun t => t.1 ≠ timer }.tick name now (some delay) =
        if task.running then ((s.fired timer name).setTimer name (now + delay)).skip name
        else ((s.fired timer name).setTimer name (now + delay)).run name task .tick
          (task.nextRunAt.getD now) := by
  have hrunning : s.stopped = false := by
    cases hstopped : s.stopped with
    | false => rfl
    | true =>
      rw [h.cleared hstopped] at hlookup
      simp at hlookup
  obtain ⟨-, task, htask, -⟩ := h.timers _ (mem_of_lookup hlookup)
  have hfired : (s.fired timer name).task? name = some { task with timer := none } := by
    rw [show (s.fired timer name).task? name = _ from task?_modifyTask _ name _ name, if_pos rfl]
    exact congrArg (Option.map _) htask
  refine ⟨hrunning, { task with timer := none }, hfired, rfl, ?_⟩
  have hstopped : (s.fired timer name).stopped = false := hrunning
  rw [tick]
  dsimp only
  rw [← fired, hfired]
  dsimp only
  rw [hstopped, if_neg Bool.false_ne_true, arm, hstopped, if_neg Bool.false_ne_true,
    if_neg Bool.false_ne_true]
  rfl

theorem Inv.fire {s : Scheduler κ} (h : s.Inv) {timer : ℕ} {name : κ}
    (hlookup : s.timers.lookup timer = some name) (now : ℤ) (delay : ℕ) :
    ({ s with timers := s.timers.filter fun t => t.1 ≠ timer }.tick name now (some delay)).Inv := by
  obtain ⟨hrunning, task, htask, hnone, heq⟩ := tick_cases h.core hlookup now delay
  have hset : ((s.fired timer name).setTimer name (now + delay)).Inv := by
    refine ⟨(h.core.fired hlookup).setTimer htask hnone hrunning _, armed_setTimer ?_ _⟩
    intro name' t hne ht harmed
    rw [show (s.fired timer name).task? name' = _ from task?_modifyTask _ name _ name',
      if_neg hne] at ht
    exact h.armed hrunning name' t ht harmed
  rw [heq]
  split
  · exact hset.skip name
  · next hidle =>
    have htask' : ((s.fired timer name).setTimer name (now + delay)).task? name =
        some { task with
          timer := some (s.fired timer name).nextTimer
          nextRunAt := some (now + delay)
          armed := true } := by
      rw [show ((s.fired timer name).setTimer name (now + delay)).task? name = _ from
        task?_modifyTask _ name _ name, if_pos rfl, htask]
      rfl
    exact hset.run htask' (Bool.not_eq_true _ ▸ hidle) (fun _ => hrunning) task _

theorem Inv.arm {s s' : Scheduler κ} (h : s.Inv) {name : κ} {task : RegisteredTask}
    (htask : s.task? name = some task) (hnone : task.timer = none) {immediate : Bool} {now : ℤ}
    {delay : Option ℕ} (harm : s.arm name immediate now delay = some s') : s'.Inv := by
  rw [Scheduler.arm] at harm
  split at harm
  · exact Option.some.inj harm ▸ h
  · next hstopped =>
    have hrunning : s.stopped = false := by simpa using hstopped
    have hset : ∀ nextRunAt, (s.setTimer name nextRunAt).Inv := fun nextRunAt =>
      ⟨h.core.setTimer htask hnone hrunning nextRunAt,
        armed_setTimer (fun name' t _ ht harmed => h.armed hrunning name' t ht harmed) nextRunAt⟩
    split at harm
    · exact Option.some.inj harm ▸ hset now
    · obtain ⟨d, -, rfl⟩ := Option.map_eq_some_iff.mp harm
      exact hset (now + d)

theorem Inv.define {s : Scheduler κ} (h : s.Inv) (name : κ) (runOnStart : Bool) (now : ℤ)
    (delay : Option ℕ) : (s.define name runOnStart now delay).Inv := by
  rw [Scheduler.define]
  split
  · exact h
  · next hnew =>
    have hnone : s.task? name = none := by simpa using hnew
    have htask : ∀ name', task? { s with tasks := s.tasks.set name { runOnStart } } name' =
        if name' = name then some { runOnStart } else s.task? name' :=
      fun name' => JsMap.get?_set s.tasks name name' _
    have hne : ∀ {name' t}, s.task? name' = some t → name' ≠ name := by
      rintro name' t ht rfl
      rw [hnone] at ht
      simp at ht
    have hset : Inv { s with tasks := s.tasks.set name { runOnStart } } := by
      refine ⟨⟨?_, h.core.single, h.core.stack, h.core.stack_nodup, h.core.fulfilled, ?_, ?_,
        h.core.timers_nodup, h.core.cleared, h.core.called, h.core.awaits,
        h.core.not_rejected⟩, ?_⟩
      · intro i r hrun hprogress
        obtain ⟨t, ht, hrest⟩ := h.core.running i r hrun hprogress
        rw [htask, if_neg (hne ht)]
        exact ⟨t, ht, hrest⟩
      · intro timer hin
        obtain ⟨hlt, t, ht, htimer⟩ := h.core.timers timer hin
        rw [htask, if_neg (hne ht)]
        exact ⟨hlt, t, ht, htimer⟩
      · intro name' t id ht hid
        rw [htask] at ht
        split at ht
        · obtain rfl := Option.some.inj ht
          simp at hid
        · exact h.core.timer name' t id ht hid
      · intro hrunning name' t ht harmed
        rw [htask] at ht
        split at ht
        · obtain rfl := Option.some.inj ht
          simp at harmed
        · exact h.armed hrunning name' t ht harmed
    dsimp only
    cases harm : Scheduler.arm { s with tasks := s.tasks.set name { runOnStart } } name runOnStart
        now delay with
    | none => exact hset
    | some s' => exact hset.arm ((htask name).trans (if_pos rfl)) rfl harm

theorem Inv.runNow {s : Scheduler κ} (h : s.Inv) (name : κ) (now : ℤ) : (s.runNow name now).Inv := by
  rw [Scheduler.runNow]
  cases htask : s.task? name with
  | none => exact h
  | some task =>
    dsimp only
    split
    · exact h.skip name
    · next hidle => exact h.run htask (Bool.not_eq_true _ ▸ hidle) (by simp) task now

theorem Core.tail {s : Scheduler κ} (h : s.Core) {run : ℕ} {rest : List ℕ}
    (hstack : s.stack = run :: rest) :
    rest.Nodup ∧ ∀ i, i ∈ rest ↔ i ∈ s.stack ∧ i ≠ run := by
  have hnodup := h.stack_nodup
  rw [hstack, List.nodup_cons] at hnodup
  refine ⟨hnodup.2, ?_⟩
  intro i
  rw [hstack, List.mem_cons]
  constructor
  · intro hin
    exact ⟨.inr hin, fun heq => hnodup.1 (heq ▸ hin)⟩
  · rintro ⟨heq | hin, hne⟩
    · exact absurd heq hne
    · exact hin

theorem Inv.moveRun {s : Scheduler κ} (h : s.Inv) {run : ℕ} {r : Run κ} (hrun : s.HasRun run r)
    (hprogress : r.phase.inProgress = true) {phase : Phase} (hphase : phase = .pending ∨
      phase = .fulfilled) {f : RegisteredTask → RegisteredTask}
    (hkept : ∀ t, (f t).timer = t.timer ∧ (f t).armed = t.armed)
    (hpending : phase = .pending → ∀ t, (f t).running = t.running ∧ (f t).current = some run)
    {stack : List ℕ} (hstack : ∀ i, i ∈ stack ↔ i ∈ s.stack ∧ i ≠ run) (hnodup : stack.Nodup) :
    (s.moveRun run r.task phase stack f).Inv := by
  have harmed : (s.setPhase run phase).Armed := h.armed
  exact ⟨h.core.moveRun hrun hprogress hphase (fun t => (hkept t).1) hpending hstack hnodup,
    harmed.modifyTask r.task hkept⟩

theorem Inv.setStopping {s : Scheduler κ} (h : s.Inv) {stopping : Stopping}
    (hcore : Core { s with stopping }) : Inv { s with stopping } := ⟨hcore, h.armed⟩

theorem Core.top {s : Scheduler κ} (h : s.Core) {run : ℕ} {rest : List ℕ} {r : Run κ}
    (hstack : s.stack = run :: rest) (hrun : s.runs[run]? = some r) :
    r.phase.inProgress = true := by
  obtain ⟨r', hrun', hstarting⟩ := (h.stack run).mp (by simp [hstack])
  obtain rfl : r = r' := Option.some.inj (hrun.symm.trans hrun')
  rw [hstarting]
  rfl

theorem inv_step {s s' : Scheduler κ} {l : Label κ} (hgood : Good s l) (h : s.Inv)
    (hstep : s.step l = some s') : s'.Inv := by
  cases l with
  | define name runOnStart now delay =>
    obtain rfl := Option.some.inj hstep
    exact h.define name runOnStart now delay
  | runNow name now =>
    obtain rfl := Option.some.inj hstep
    exact h.runNow name now
  | stop =>
    rw [step] at hstep
    split at hstep
    · obtain rfl := Option.some.inj hstep
      refine ⟨h.core.stop hgood, ?_⟩
      intro hrunning
      exact absurd hrunning (by simp [stop])
    · simp at hstep
  | fire timer now delay =>
    rw [step] at hstep
    split at hstep
    · simp at hstep
    · obtain ⟨name, hlookup, rfl⟩ := Option.map_eq_some_iff.mp hstep
      cases delay with
      | none => exact absurd rfl hgood
      | some delay => exact h.fire hlookup now delay
  | handlerReturns =>
    rw [step] at hstep
    cases hstack : s.stack with
    | nil =>
      rw [hstack] at hstep
      simp at hstep
    | cons run rest =>
      rw [hstack] at hstep
      obtain ⟨r, hrun, rfl⟩ := Option.map_eq_some_iff.mp hstep
      obtain ⟨hnodup, hrest⟩ := h.core.tail hstack
      rw [handlerReturns, hstack, List.tail_cons]
      exact h.moveRun (f := fun t => { t with current := some run }) hrun
        (h.core.top hstack hrun) (.inl rfl) (fun _ => ⟨rfl, rfl⟩) (fun _ _ => ⟨rfl, rfl⟩) hrest
        hnodup
  | handlerThrows rejects =>
    obtain rfl : rejects = false := hgood
    rw [step] at hstep
    cases hstack : s.stack with
    | nil =>
      rw [hstack] at hstep
      simp at hstep
    | cons run rest =>
      rw [hstack] at hstep
      obtain ⟨r, hrun, rfl⟩ := Option.map_eq_some_iff.mp hstep
      obtain ⟨hnodup, hrest⟩ := h.core.tail hstack
      rw [handlerThrows, hstack, List.tail_cons]
      exact h.moveRun (f := fun t => { t with
          failures := t.failures + 1
          runs := t.runs + 1
          running := false
          current := some run }) hrun (h.core.top hstack hrun) (.inr rfl) (fun _ => ⟨rfl, rfl⟩)
        (by simp) hrest hnodup
  | settle run failed rejects =>
    obtain rfl : rejects = false := hgood
    rw [step] at hstep
    split at hstep
    · simp at hstep
    · next hguard =>
      have hempty : s.stack = [] := by simpa using fun hne => hguard (.inl hne)
      cases hrun : s.runs[run]? with
      | none =>
        rw [hrun] at hstep
        simp at hstep
      | some r =>
        rw [hrun] at hstep
        dsimp only at hstep
        split at hstep
        · next hpending =>
          obtain rfl := Option.some.inj hstep
          have hprogress : r.phase.inProgress = true := by rw [hpending]; rfl
          have hkept : ∀ i, i ∈ s.stack ↔ i ∈ s.stack ∧ i ≠ run := by simp [hempty]
          exact h.moveRun (f := fun t => { t with
              failures := if failed then t.failures + 1 else t.failures
              runs := t.runs + 1
              running := false
              current := none }) hrun hprogress (.inr rfl) (fun _ => ⟨rfl, rfl⟩) (by simp)
            hkept h.core.stack_nodup
        · simp at hstep
  | deadline =>
    rw [step] at hstep
    split at hstep
    · next runs hracing =>
      split at hstep
      · obtain rfl := Option.some.inj hstep
        have hcalled : s.stopping ≠ .notCalled := by simp [hracing]
        refine h.setStopping (h.core.setStopping hcalled (by simp) (by simp) ?_)
        intro i r hrun htick hprogress
        have hin := h.core.awaits (h.core.called.mpr hcalled) i r hrun htick hprogress
        rwa [awaited, hracing] at hin
      · simp at hstep
    · simp at hstep
  | stopResumes =>
    rw [step] at hstep
    split at hstep
    · next runs timedOut hracing =>
      split at hstep
      · next hguard =>
        obtain rfl := Option.some.inj hstep
        exact h.setStopping (h.core.afterRace hracing hguard.1 hguard.2)
      · simp at hstep
    · next stuck hunwinding =>
      split at hstep
      · next hguard =>
        obtain rfl := Option.some.inj hstep
        have hcalled : s.stopping ≠ .notCalled := by simp [hunwinding]
        refine h.setStopping (h.core.setStopping hcalled (by simp) (by simp) ?_)
        intro i r hrun htick hprogress
        have hin := h.core.awaits (h.core.called.mpr hcalled) i r hrun htick hprogress
        rw [awaited, hunwinding] at hin
        rw [not_allFulfilled hrun hprogress hin, not_someRejected h.core] at hguard
        simp at hguard
      · simp at hstep
    · simp at hstep
  | stopThrows =>
    rw [step] at hstep
    split at hstep
    · next runs timedOut hracing =>
      rw [not_someRejected h.core] at hstep
      simp at hstep
    · simp at hstep

/-! ## The start -/

theorem inv_defined (defs : JsMap κ Definition) : (defined defs).Inv := by
  have hfresh : ∀ name t, (defined defs).task? name = some t → t.timer = none ∧ t.armed = false := by
    intro name t ht
    obtain ⟨d, -, heq⟩ := List.mem_map.mp (JsMap.get?_eq_some.mp ht)
    rw [← (Prod.mk.inj heq).2]
    exact ⟨rfl, rfl⟩
  refine ⟨⟨by simp [HasRun, defined], by simp [HasRun, defined], by simp [HasRun, defined],
    List.nodup_nil, by simp [HasRun, defined], by simp [defined], ?_, List.nodup_nil,
    fun _ => rfl, by simp [defined], by simp [HasRun, defined], by simp [defined]⟩, ?_⟩
  · intro name t id ht hid
    rw [(hfresh name t ht).1] at hid
    simp at hid
  · intro _ name t ht harmed
    rw [(hfresh name t ht).2] at harmed
    exact absurd harmed Bool.false_ne_true

theorem inv_armAll {s : Scheduler κ} (h : s.Inv) (now : ℤ) {defs : List (κ × Definition)}
    (hnodup : (defs.map Prod.fst).Nodup)
    (hnew : ∀ d ∈ defs, ∃ t, s.task? d.1 = some t ∧ t.timer = none) : (s.armAll now defs).Inv := by
  induction defs generalizing s with
  | nil => exact h
  | cons d defs ih =>
    obtain ⟨name, d⟩ := d
    rw [List.map_cons, List.nodup_cons] at hnodup
    obtain ⟨t, ht, hnone⟩ := hnew _ (List.mem_cons_self ..)
    rw [armAll]
    cases harm : s.arm name d.runOnStart now d.delay with
    | none => exact h
    | some s' =>
      refine ih (h.arm ht hnone harm) hnodup.2 ?_
      intro d' hd'
      have hne : d'.1 ≠ name := by
        rintro rfl
        exact hnodup.1 (List.mem_map.mpr ⟨d', hd', rfl⟩)
      obtain ⟨t', ht', hnone'⟩ := hnew d' (List.mem_cons_of_mem _ hd')
      refine ⟨t', ?_, hnone'⟩
      rw [← ht']
      -- arming one task leaves the others
      have hset : ∀ nextRunAt, (s.setTimer name nextRunAt).task? d'.1 = s.task? d'.1 := fun _ =>
        (task?_modifyTask s name _ d'.1).trans (if_neg hne)
      rw [Scheduler.arm] at harm
      split at harm
      · exact Option.some.inj harm ▸ rfl
      · split at harm
        · exact Option.some.inj harm ▸ hset now
        · obtain ⟨delay, -, rfl⟩ := Option.map_eq_some_iff.mp harm
          exact hset _

theorem inv_started (defs : JsMap κ Definition) (now : ℤ) : (started defs now).Inv := by
  refine inv_armAll (inv_defined defs) now defs.nodup ?_
  intro d hd
  exact ⟨{ runOnStart := d.2.runOnStart },
    JsMap.get?_eq_some.mpr (List.mem_map.mpr ⟨d, hd, rfl⟩), rfl⟩

/-! ## What the invariant says -/

/-- One run of a task is in progress at a time; while the scheduler is running, an armed task has
one timer that ticks for it; when `stop` has resolved, no timer is pending and no run that a tick
started is in progress. -/
structure Safe (s : Scheduler κ) : Prop where
  singleFlight : ∀ (i j : ℕ) (r r' : Run κ), s.runs[i]? = some r → s.runs[j]? = some r' →
    r.phase.inProgress = true → r'.phase.inProgress = true → r.task = r'.task → i = j
  oneTimer : s.stopped = false → ∀ name t, s.task? name = some t → t.armed = true →
    s.timers.countP (fun timer => timer.2 = name) = 1
  stopped : s.stopping = .resolved → s.timers = [] ∧
    ∀ r ∈ s.runs, r.trigger = .tick → r.phase.inProgress = false

/-- A tick that fires starts a run of its task, or the task counts one more that was skipped. -/
def Answers (s : Scheduler κ) : Label κ → Prop
  | .fire timer now delay => ∀ s', s.step (.fire timer now delay) = some s' →
    ∀ name, s.timers.lookup timer = some name →
      ∃ t t', s.task? name = some t ∧ s'.task? name = some t' ∧
        ((∃ r, s'.runs = s.runs ++ [r] ∧ r.task = name ∧ r.trigger = .tick ∧
            t'.skipped = t.skipped) ∨
          s'.runs = s.runs ∧ t'.skipped = t.skipped + 1)
  | _ => True

/-- When `stop` has resolved, no step starts a run by a tick. -/
def StartsNoTick (s : Scheduler κ) (l : Label κ) : Prop :=
  s.stopping = .resolved → ∀ s', s.step l = some s' →
    ∀ r ∈ s'.runs.drop s.runs.length, r.trigger ≠ .tick

theorem countP_eq_one {timers : List (ℕ × κ)} (hnodup : (timers.map Prod.fst).Nodup) {timer : ℕ}
    {name : κ} (hin : (timer, name) ∈ timers)
    (honly : ∀ t ∈ timers, t.2 = name → t.1 = timer) :
    timers.countP (fun timer => timer.2 = name) = 1 := by
  induction timers with
  | nil => simp at hin
  | cons head timers ih =>
    rw [List.map_cons, List.nodup_cons] at hnodup
    rw [List.countP_cons]
    rcases List.mem_cons.mp hin with rfl | hrest
    · have hzero : timers.countP (fun timer => timer.2 = name) = 0 := by
        rw [List.countP_eq_zero]
        intro t ht hname
        have heq := honly t (List.mem_cons_of_mem _ ht) (by simpa using hname)
        exact hnodup.1 (List.mem_map.mpr ⟨t, ht, heq⟩)
      simp [hzero]
    · have hother : head.2 ≠ name := by
        intro hname
        have heq := honly head (List.mem_cons_self ..) hname
        exact hnodup.1 (List.mem_map.mpr ⟨_, hrest, heq.symm⟩)
      rw [ih hnodup.2 hrest fun t ht => honly t (List.mem_cons_of_mem _ ht)]
      simp [hother]

theorem Inv.safe {s : Scheduler κ} (h : s.Inv) : s.Safe where
  singleFlight := h.core.single
  oneTimer := by
    intro hrunning name t ht harmed
    obtain ⟨id, hid⟩ := Option.isSome_iff_exists.mp (h.armed hrunning name t ht harmed)
    refine countP_eq_one h.core.timers_nodup (h.core.timer name t id ht hid) ?_
    rintro timer hin rfl
    obtain ⟨-, t', ht', htimer⟩ := h.core.timers timer hin
    rw [ht] at ht'
    rw [← Option.some.inj ht', hid] at htimer
    exact (Option.some.inj htimer).symm
  stopped := by
    intro hresolved
    have hstopped : s.stopped = true := h.core.called.mpr (by simp [hresolved])
    refine ⟨h.core.cleared hstopped, ?_⟩
    intro r hin htick
    cases hprogress : r.phase.inProgress with
    | false => rfl
    | true =>
      obtain ⟨i, hrun⟩ := List.mem_iff_getElem?.mp hin
      have hawaited := h.core.awaits hstopped i r hrun htick hprogress
      rw [awaited, hresolved] at hawaited
      simp at hawaited

theorem Inv.answers {s : Scheduler κ} (h : s.Inv) {l : Label κ} (hgood : Good s l) :
    Answers s l := by
  cases l with
  | fire timer now delay =>
    intro s' hstep name hlookup
    rw [step] at hstep
    split at hstep
    · simp at hstep
    · rw [hlookup] at hstep
      obtain rfl := Option.some.inj hstep
      cases delay with
      | none => exact absurd rfl hgood
      | some delay =>
        obtain ⟨-, task, htask, -, heq⟩ := tick_cases h.core hlookup now delay
        obtain ⟨-, t, ht, -⟩ := h.core.timers _ (mem_of_lookup hlookup)
        -- the task when the timer has fired counts as many that were skipped
        have hskipped : task.skipped = t.skipped := by
          rw [show (s.fired timer name).task? name = _ from task?_modifyTask _ name _ name,
            if_pos rfl] at htask
          obtain ⟨t₀, ht₀, rfl⟩ := Option.map_eq_some_iff.mp htask
          rw [Option.some.inj (ht.symm.trans ht₀)]
        obtain ⟨armed, harmed, hsame⟩ : ∃ armed,
            ((s.fired timer name).setTimer name (now + delay)).task? name = some armed ∧
              armed.skipped = t.skipped := by
          rw [show ((s.fired timer name).setTimer name (now + delay)).task? name = _ from
            task?_modifyTask _ name _ name, if_pos rfl, htask]
          exact ⟨_, rfl, hskipped⟩
        dsimp only
        rw [heq]
        split
        · refine ⟨t, { armed with skipped := armed.skipped + 1 }, ht, ?_, .inr ⟨rfl, by rw [hsame]⟩⟩
          rw [Scheduler.skip, task?_modifyTask, if_pos rfl, harmed]
          rfl
        · refine ⟨t, { armed with running := true }, ht, ?_, .inl ⟨_, rfl, rfl, rfl, hsame⟩⟩
          rw [show (Scheduler.run _ name task .tick _).task? name = _ from
            task?_modifyTask _ name _ name, if_pos rfl, harmed]
          rfl
  | _ => trivial

theorem runs_arm {s s' : Scheduler κ} {name : κ} {immediate : Bool} {now : ℤ}
    {delay : Option ℕ} (h : s.arm name immediate now delay = some s') : s'.runs = s.runs := by
  rw [Scheduler.arm] at h
  split at h
  · exact Option.some.inj h ▸ rfl
  split at h
  · exact Option.some.inj h ▸ rfl
  · obtain ⟨d, -, rfl⟩ := Option.map_eq_some_iff.mp h
    rfl

theorem runs_step {s s' : Scheduler κ} {l : Label κ} (hstep : s.step l = some s') :
    (∃ timer now delay, l = .fire timer now delay) ∨ s'.runs.length = s.runs.length ∨
      ∃ r, s'.runs = s.runs ++ [r] ∧ r.trigger = .manual := by
  have hmodify : ∀ (run : ℕ) (phase : Phase), (s.setPhase run phase).runs.length = s.runs.length :=
    fun run phase => List.length_modify _ _ _
  cases l with
  | define name runOnStart now delay =>
    obtain rfl := Option.some.inj hstep
    right; left
    rw [define]
    split
    · rfl
    · dsimp only
      cases harm : Scheduler.arm { s with tasks := s.tasks.set name { runOnStart } } name runOnStart
          now delay with
      | none => rfl
      | some s' => rw [Option.getD_some, runs_arm harm]
  | runNow name now =>
    obtain rfl := Option.some.inj hstep
    right
    rw [runNow]
    cases s.task? name with
    | none => exact .inl rfl
    | some task =>
      dsimp only
      split
      · exact .inl rfl
      · exact .inr ⟨_, rfl, rfl⟩
  | stop =>
    rw [step] at hstep
    split at hstep
    · exact .inr (.inl (Option.some.inj hstep ▸ rfl))
    · simp at hstep
  | fire timer now delay => exact .inl ⟨timer, now, delay, rfl⟩
  | handlerReturns =>
    rw [step] at hstep
    split at hstep
    · simp at hstep
    · obtain ⟨r, -, rfl⟩ := Option.map_eq_some_iff.mp hstep
      exact .inr (.inl (hmodify _ _))
  | handlerThrows rejects =>
    rw [step] at hstep
    split at hstep
    · simp at hstep
    · obtain ⟨r, -, rfl⟩ := Option.map_eq_some_iff.mp hstep
      exact .inr (.inl (hmodify _ _))
  | settle run failed rejects =>
    rw [step] at hstep
    split at hstep
    · simp at hstep
    split at hstep
    · simp at hstep
    split at hstep
    · obtain rfl := Option.some.inj hstep
      exact .inr (.inl (hmodify _ _))
    · simp at hstep
  | deadline =>
    rw [step] at hstep
    split at hstep
    · split at hstep
      · exact .inr (.inl (Option.some.inj hstep ▸ rfl))
      · simp at hstep
    · simp at hstep
  | stopResumes =>
    rw [step] at hstep
    split at hstep
    · split at hstep
      · exact .inr (.inl (Option.some.inj hstep ▸ rfl))
      · simp at hstep
    · split at hstep
      · exact .inr (.inl (Option.some.inj hstep ▸ rfl))
      · simp at hstep
    · simp at hstep
  | stopThrows =>
    rw [step] at hstep
    split at hstep
    · split at hstep
      · exact .inr (.inl (Option.some.inj hstep ▸ rfl))
      · simp at hstep
    · simp at hstep

theorem Inv.startsNoTick {s : Scheduler κ} (h : s.Inv) (l : Label κ) : StartsNoTick s l := by
  intro hresolved s' hstep r hin
  rcases runs_step hstep with ⟨timer, now, delay, rfl⟩ | hlength | ⟨r', hruns, hmanual⟩
  · -- no timer is pending
    rw [step, (h.safe.stopped hresolved).1] at hstep
    simp at hstep
  · rw [← hlength, List.drop_length] at hin
    simp at hin
  · rw [hruns, List.drop_left] at hin
    rw [List.mem_singleton.mp hin, hmanual]
    simp

/-- **Single-flight runs, and a final `stop`.** In every run of good steps of a started scheduler,
the state is safe, every tick that fired started a run or was counted as skipped, and no tick
started a run when `stop` had resolved. -/
theorem single_flight (defs : JsMap κ Definition) (now : ℤ) (labels : List (Label κ))
    (s : Scheduler κ) (hrun : Runs.run step (started defs now) labels = some s)
    (hgood : AllSteps step Good (started defs now) labels) :
    s.Safe ∧ AllSteps step (fun s l => Answers s l ∧ StartsNoTick s l) (started defs now) labels := by
  have hstep : ∀ (s : Scheduler κ) (l : Label κ) (s' : Scheduler κ), Good s l → s.Inv →
      s.step l = some s' → s'.Inv := fun _ _ _ hgood h hstep => inv_step hgood h hstep
  have hanswers : ∀ (s : Scheduler κ) (l : Label κ), Good s l → s.Inv →
      Answers s l ∧ StartsNoTick s l := fun _ l hgood h => ⟨h.answers hgood, h.startsNoTick l⟩
  exact ⟨(run_invariant hstep (inv_started defs now) hgood hrun).safe,
    allSteps_of_invariant hstep hanswers (inv_started defs now) hgood⟩

def everySecond : JsMap ℕ Definition := (∅ : JsMap ℕ Definition).set 0 ⟨false, some 1000⟩

/-- `stop` during a run, which it awaits. -/
def stoppedRun : List (Label ℕ) :=
  [.fire 0 1000 (some 1000), .handlerReturns, .stop, .settle 0 false false, .stopResumes]

theorem single_flight_example :
    ∃ s, Runs.run step (started everySecond 0) stoppedRun = some s ∧ s.stopping = .resolved ∧
      s.Safe ∧
      AllSteps step (fun s l => Answers s l ∧ StartsNoTick s l) (started everySecond 0)
        stoppedRun := by
  refine ⟨_, rfl, rfl, ?_⟩
  exact single_flight everySecond 0 stoppedRun _ rfl (by decide)

/-- A handler that stops the scheduler before it returns its promise: `stop` does not see the run
and resolves at once. -/
theorem stop_inside_handler :
    ∃ s, Runs.run step (started everySecond 0)
        [.fire 0 1000 (some 1000), .stop, .handlerReturns] = some s ∧
      s.stopping = .resolved ∧ s.runs.map Run.phase = [.pending] ∧ ¬ s.Safe := by
  refine ⟨_, rfl, rfl, rfl, ?_⟩
  intro h
  exact absurd ((h.stopped rfl).2 _ (List.mem_singleton_self _) rfl) (by decide)

end Scheduler

end Daloy.Scheduling
