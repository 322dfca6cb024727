import Daloy.A2a.Tasks
import Daloy.Foundations.Json
import Daloy.Foundations.PromiseChain
import Daloy.Foundations.Runs

/-! # Requests of an A2A agent, interleaved

The handler of `src/a2a.ts` over a task store whose `get` and `set` take effect at one moment between
the call and its promise, and may reject. A step is what happens next, to any of the requests that are
in progress.

* `withTaskLock` is a `Chain`, with the text of `JSON.stringify([owner, taskId])` as key. A job takes
  its place in the chain when the request comes, and its number says in which order.
* `Work`: how far the callback of `withTaskLock` is, between two `await`s.
* `GetTask` and `ListTasks` take no lock. What `store.list` picks is any function of the records of
  one owner.
* `writes` logs the calls of `store.set` that took effect.
-/

namespace Daloy.A2a
set_option autoImplicit false

open Daloy.Unicode Daloy.Json

variable {π μ : Type}

/-- `SendMessage` with a `taskId`, or `CancelTask`. -/
inductive Operation (π μ : Type)
  | continue (message : A2aMessage π μ)
  | cancel
  deriving DecidableEq

def Operation.isContinue : Operation π μ → Bool
  | .continue _ => true
  | .cancel => false

/-- A request that takes the lock of a task, its owner resolved. -/
structure Job (π μ : Type) where
  operation : Operation π μ
  owner : JsString
  taskId : JsString
  deriving DecidableEq

/-- `JSON.stringify([owner, taskId])`. -/
def lockKey (job : Job π μ) : JsString :=
  js "[" ++ quote job.owner ++ js "," ++ quote job.taskId ++ js "]"

/-- The callback of `withTaskLock`: it awaits `store.get`, `onMessage` and `store.set`. The last two
stages tell the time before the store takes the record from that after. -/
inductive Work (π μ : Type)
  | loading
  | loaded (task : Option (A2aTask π μ))
  | calling (existing : A2aTask π μ)
  | storing (task : A2aTask π μ) (turn : Option (Turn π μ))
  | stored (task : A2aTask π μ)
  deriving DecidableEq

abbrev Outcome (π μ : Type) := Except Failure (A2aTask π μ)

abbrev TaskLocks (π μ : Type) := Chain (Job π μ) JsString (Work π μ) (Outcome π μ)

inductive Query
  | getTask (taskId : JsString)
  | listTasks
  deriving DecidableEq

/-- A request that only reads, with the records that the store gave it. -/
structure Reader (π μ : Type) where
  owner : JsString
  query : Query
  stage : Stage (Option (List (A2aTask π μ))) (Except Failure (List (A2aTask π μ)))
  deriving DecidableEq

/-- A call of `store.set` that took effect. -/
structure Write (π μ : Type) where
  request : ℕ
  owner : JsString
  task : A2aTask π μ
  turn : Option (Turn π μ)
  deriving DecidableEq

abbrev TaskStore (π μ : Type) := JsString → JsString → Option (A2aTask π μ)

def TaskStore.set (store : TaskStore π μ) (owner : JsString) (task : A2aTask π μ) : TaskStore π μ :=
  fun o i => if o = owner ∧ i = task.id then some task else store o i

structure Server (π μ : Type) where
  store : TaskStore π μ
  locks : TaskLocks π μ := {}
  readers : List (Reader π μ) := []
  writes : List (Write π μ) := []

/-- What may happen next. The numbers are those of jobs in the chain, or of readers. -/
inductive Event (π μ : Type)
  | arrive (job : Job π μ)
  | start (r : ℕ)
  | load (r : ℕ)
  | getRejects (r : ℕ) (message : JsString)
  | resume (r : ℕ) (timestamp : JsString)
  | reply (r : ℕ) (reply : Option (A2aReply π μ)) (stamp : Stamp)
  | write (r : ℕ)
  | setRejects (r : ℕ) (message : JsString)
  | setReturns (r : ℕ)
  | release (r : ℕ)
  | ask (owner : JsString) (query : Query)
  | read (i : ℕ)
  | readRejects (i : ℕ) (message : JsString)
  | answer (i : ℕ)

def Query.records (listing : (JsString → Option (A2aTask π μ)) → List (A2aTask π μ))
    (records : JsString → Option (A2aTask π μ)) : Query → List (A2aTask π μ)
  | .getTask taskId => (records taskId).toList
  | .listTasks => listing records

/-- What `getTask` and `listTasks` answer with the records that were read. -/
def Query.outcome (records : List (A2aTask π μ)) : Query → Except Failure (List (A2aTask π μ))
  | .getTask _ => if records = [] then .error taskNotFound else .ok records
  | .listTasks => .ok records

namespace Server

def running? (s : Server π μ) (r : ℕ) : Option (Job π μ × Work π μ) :=
  match s.locks.links[r]? with
  | some ⟨job, _, .running work⟩ => some (job, work)
  | _ => none

def put (s : Server π μ) (r : ℕ) (stage : Stage (Work π μ) (Outcome π μ)) : Server π μ :=
  { s with locks := s.locks.setStage r stage }

def setReader (s : Server π μ) (i : ℕ)
    (stage : Stage (Option (List (A2aTask π μ))) (Except Failure (List (A2aTask π μ)))) :
    Server π μ :=
  { s with readers := s.readers.modify i fun reader => { reader with stage } }

end Server

def after {α : Type} (result : Except Failure α) (next : α → Work π μ) :
    Stage (Work π μ) (Outcome π μ) :=
  match result with
  | .error failure => .settled (.error failure)
  | .ok a => .running (next a)

section Steps

variable (options : HandlerOptions π)
  (listing : (JsString → Option (A2aTask π μ)) → List (A2aTask π μ))

open Server

def step (s : Server π μ) : Event π μ → Option (Server π μ)
  | .arrive job => some { s with locks := s.locks.enter lockKey job }
  | .start r => (s.locks.start r .loading).map fun locks => { s with locks }
  | .load r =>
    match s.running? r with
    | some (job, .loading) => some (s.put r (.running (.loaded (s.store job.owner job.taskId))))
    | _ => none
  | .getRejects r message =>
    match s.running? r with
    | some (_, .loading) => some (s.put r (.settled (.error (.internal message))))
    | _ => none
  | .resume r timestamp =>
    match s.running? r with
    | some (_, .loaded none) => some (s.put r (.settled (.error taskNotFound)))
    | some (⟨.continue message, _, _⟩, .loaded (some task)) =>
      some (s.put r (after (checkMessage message task) fun _ => .calling task))
    | some (⟨.cancel, _, _⟩, .loaded (some task)) =>
      some (s.put r (after (canceled task timestamp) fun task => .storing task none))
    | _ => none
  | .reply r reply stamp =>
    match s.running? r with
    | some (⟨.continue message, _, _⟩, .calling existing) =>
      some (s.put r (after (completed options message existing stamp reply)
        fun stored => .storing stored.1 (some stored.2)))
    | _ => none
  | .write r =>
    match s.running? r with
    | some (job, .storing task turn) => some { s.put r (.running (.stored task)) with
        store := s.store.set job.owner task
        writes := s.writes ++ [⟨r, job.owner, task, turn⟩] }
    | _ => none
  | .setRejects r message =>
    match s.running? r with
    | some (_, .storing _ _) => some (s.put r (.settled (.error (.internal message))))
    | _ => none
  | .setReturns r =>
    match s.running? r with
    | some (_, .stored task) => some (s.put r (.settled (.ok task)))
    | _ => none
  | .release r => (s.locks.release lockKey r).map fun locks => { s with locks }
  | .ask owner query => some { s with readers := s.readers ++ [⟨owner, query, .running none⟩] }
  | .read i =>
    match s.readers[i]? with
    | some ⟨owner, query, .running none⟩ =>
      some (s.setReader i (.running (some (query.records listing (s.store owner)))))
    | _ => none
  | .readRejects i message =>
    match s.readers[i]? with
    | some ⟨_, _, .running none⟩ => some (s.setReader i (.released (.error (.internal message))))
    | _ => none
  | .answer i =>
    match s.readers[i]? with
    | some ⟨_, query, .running (some records)⟩ =>
      some (s.setReader i (.released (query.outcome records)))
    | _ => none

def Server.actor? (s : Server π μ) : Event π μ → Option JsString
  | .arrive job => some job.owner
  | .ask owner _ => some owner
  | .start r | .load r | .getRejects r _ | .resume r _ | .reply r _ _ | .write r | .setRejects r _ |
    .setReturns r | .release r => (s.locks.links[r]?).map fun link => link.job.owner
  | .read i | .readRejects i _ | .answer i => (s.readers[i]?).map Reader.owner

def Server.seen (s : Server π μ) : TaskLocks π μ × List (Reader π μ) × List (Write π μ) :=
  (s.locks, s.readers, s.writes)

/-! ## What a step can do -/

/-- The store holds the record that a job goes by, and that record may still change. -/
def Work.Sound (job : Job π μ) (record : Option (A2aTask π μ)) : Work π μ → Prop
  | .loading | .stored _ => True
  | .loaded task => task = record
  | .calling existing =>
    record = some existing ∧ existing.isTerminal = false ∧ job.operation.isContinue = true
  | .storing task turn => ∃ existing, record = some existing ∧ existing.isTerminal = false ∧
      task.id = existing.id ∧ turn.isSome = job.operation.isContinue ∧
      task.history.getD [] = (match turn with
        | none => existing.history.getD []
        | some turn => if options.maxHistory = 0 then []
          else lastN options.maxHistory (existing.history.getD [] ++ turn.messages)) ∧
      task.artifacts.getD [] = existing.artifacts.getD [] ++ ((turn.map Turn.artifacts).getD [])

/-- The call of `store.set` took effect. -/
def succeeded : Stage (Work π μ) (Outcome π μ) → Bool
  | .running (.stored _) | .settled (.ok _) | .released (.ok _) => true
  | _ => false

/-- A stage that a callback may come to: what is known of a running job is kept, and it is not one
that the store took a record from unless it was before. -/
structure Moves (job : Job π μ) (record : Option (A2aTask π μ)) (work : Work π μ)
    (stage : Stage (Work π μ) (Outcome π μ)) : Prop where
  sound : work.Sound options job record → ∀ next, stage = .running next →
    next.Sound options job record
  open_end : stage.isReleased = false
  same : succeeded stage = succeeded (.running work : Stage (Work π μ) (Outcome π μ))

variable {options listing}

theorem moves_failed {job : Job π μ} {record : Option (A2aTask π μ)} {work : Work π μ}
    (h : ∀ task, work ≠ .stored task) (failure : Failure) :
    Moves options job record work (.settled (.error failure)) where
  sound := by simp
  open_end := rfl
  same := by
    cases work with
    | stored task => exact absurd rfl (h task)
    | loading => rfl
    | loaded task => rfl
    | calling existing => rfl
    | storing task turn => rfl

theorem moves_after {α : Type} {job : Job π μ} {record : Option (A2aTask π μ)} {work : Work π μ}
    {result : Except Failure α} {next : α → Work π μ} (h : ∀ task, work ≠ .stored task)
    (hnext : ∀ a task, next a ≠ .stored task)
    (hsound : ∀ a, result = .ok a → work.Sound options job record →
      (next a).Sound options job record) :
    Moves options job record work (after result next) := by
  have hopen : succeeded (.running work : Stage (Work π μ) (Outcome π μ)) = false := by
    cases work with
    | stored task => exact absurd rfl (h task)
    | loading => rfl
    | loaded task => rfl
    | calling existing => rfl
    | storing task turn => rfl
  cases result with
  | error failure => exact moves_failed h failure
  | ok a =>
    refine ⟨fun hwork next' hnext' => ?_, rfl, ?_⟩
    · obtain rfl := Stage.running.inj hnext'
      exact hsound a rfl hwork
    · rw [hopen, after]
      cases hn : next a with
      | stored task => exact absurd hn (hnext a task)
      | loading => rfl
      | loaded task => rfl
      | calling existing => rfl
      | storing task turn => rfl

theorem running?_eq_some {s : Server π μ} {r : ℕ} {job : Job π μ} {work : Work π μ} :
    s.running? r = some (job, work) ↔ ∃ previous, s.locks.links[r]? = some ⟨job, previous, .running work⟩ := by
  rw [Server.running?]
  constructor
  · intro h
    split at h
    · rename_i job' previous work' hlink
      obtain ⟨rfl, rfl⟩ := Prod.mk.inj (Option.some.inj h)
      exact ⟨previous, hlink⟩
    · simp at h
  · rintro ⟨previous, hlink⟩
    rw [hlink]

theorem step_cases {s s' : Server π μ} {event : Event π μ}
    (h : step options listing s event = some s') :
    (∃ job, s' = { s with locks := s.locks.enter lockKey job }) ∨
    (∃ r locks, s.locks.start r .loading = some locks ∧ s' = { s with locks }) ∨
    (∃ r job previous work stage, s.locks.links[r]? = some ⟨job, previous, .running work⟩ ∧
      Moves options job (s.store job.owner job.taskId) work stage ∧ s' = s.put r stage) ∨
    (∃ r job previous task turn,
      s.locks.links[r]? = some ⟨job, previous, .running (.storing task turn)⟩ ∧
      s' = { s.put r (.running (.stored task)) with
        store := s.store.set job.owner task
        writes := s.writes ++ [⟨r, job.owner, task, turn⟩] }) ∨
    (∃ r locks, s.locks.release lockKey r = some locks ∧ s' = { s with locks }) ∨
    ∃ readers, s' = { s with readers } := by
  cases event with
  | arrive job => exact .inl ⟨job, (Option.some.inj h).symm⟩
  | start r =>
    obtain ⟨locks, hlocks, rfl⟩ := Option.map_eq_some_iff.mp h
    exact .inr (.inl ⟨r, locks, hlocks, rfl⟩)
  | release r =>
    obtain ⟨locks, hlocks, rfl⟩ := Option.map_eq_some_iff.mp h
    exact .inr (.inr (.inr (.inr (.inl ⟨r, locks, hlocks, rfl⟩))))
  | load r =>
    rw [step] at h
    split at h
    · rename_i job hrunning
      obtain ⟨previous, hlink⟩ := running?_eq_some.mp hrunning
      refine .inr (.inr (.inl ⟨r, job, previous, _, _, hlink, ?_, (Option.some.inj h).symm⟩))
      refine ⟨fun _ next hnext => ?_, rfl, rfl⟩
      obtain rfl := Stage.running.inj hnext
      rfl
    · simp at h
  | getRejects r message =>
    rw [step] at h
    split at h
    · rename_i job hrunning
      obtain ⟨previous, hlink⟩ := running?_eq_some.mp hrunning
      exact .inr (.inr (.inl ⟨r, job, previous, _, _, hlink, moves_failed (by simp) _,
        (Option.some.inj h).symm⟩))
    · simp at h
  | resume r timestamp =>
    rw [step] at h
    split at h
    · rename_i job hrunning
      obtain ⟨previous, hlink⟩ := running?_eq_some.mp hrunning
      exact .inr (.inr (.inl ⟨r, job, previous, _, _, hlink, moves_failed (by simp) _,
        (Option.some.inj h).symm⟩))
    · rename_i message owner taskId task hrunning
      obtain ⟨previous, hlink⟩ := running?_eq_some.mp hrunning
      refine .inr (.inr (.inl ⟨r, _, previous, _, _, hlink,
        moves_after (by simp) (by simp) ?_, (Option.some.inj h).symm⟩))
      intro _ hadmit hsound
      have hrecord : some task = s.store owner taskId := hsound
      exact ⟨hrecord.symm, (admit_eq_ok hadmit).1, rfl⟩
    · rename_i owner taskId task hrunning
      obtain ⟨previous, hlink⟩ := running?_eq_some.mp hrunning
      refine .inr (.inr (.inl ⟨r, _, previous, _, _, hlink,
        moves_after (by simp) (by simp) ?_, (Option.some.inj h).symm⟩))
      intro task' hcancel hsound
      have hrecord : some task = s.store owner taskId := hsound
      obtain ⟨hopen, hid, hhistory, hartifacts⟩ := canceled_eq_ok hcancel
      refine ⟨task, hrecord.symm, hopen, hid, rfl, by rw [hhistory], ?_⟩
      rw [hartifacts, Option.map_none, Option.getD_none, List.append_nil]
    · simp at h
  | reply r reply stamp =>
    rw [step] at h
    split at h
    · rename_i message owner taskId existing hrunning
      obtain ⟨previous, hlink⟩ := running?_eq_some.mp hrunning
      refine .inr (.inr (.inl ⟨r, _, previous, _, _, hlink,
        moves_after (by simp) (by simp) ?_, (Option.some.inj h).symm⟩))
      rintro ⟨task, turn⟩ hcompleted ⟨hrecord, hopen, -⟩
      obtain ⟨hid, hhistory, hartifacts⟩ := completed_eq_ok hcompleted
      exact ⟨existing, hrecord, hopen, hid, rfl, hhistory, hartifacts⟩
    · simp at h
  | write r =>
    rw [step] at h
    split at h
    · rename_i job task turn hrunning
      obtain ⟨previous, hlink⟩ := running?_eq_some.mp hrunning
      exact .inr (.inr (.inr (.inl ⟨r, job, previous, task, turn, hlink,
        (Option.some.inj h).symm⟩)))
    · simp at h
  | setRejects r message =>
    rw [step] at h
    split at h
    · rename_i job task turn hrunning
      obtain ⟨previous, hlink⟩ := running?_eq_some.mp hrunning
      exact .inr (.inr (.inl ⟨r, job, previous, _, _, hlink, moves_failed (by simp) _,
        (Option.some.inj h).symm⟩))
    · simp at h
  | setReturns r =>
    rw [step] at h
    split at h
    · rename_i job task hrunning
      obtain ⟨previous, hlink⟩ := running?_eq_some.mp hrunning
      exact .inr (.inr (.inl ⟨r, job, previous, _, .settled (.ok task), hlink,
        ⟨by simp, rfl, rfl⟩, (Option.some.inj h).symm⟩))
    · simp at h
  | ask owner query =>
    exact .inr (.inr (.inr (.inr (.inr ⟨_, (Option.some.inj h).symm⟩))))
  | read i =>
    rw [step] at h
    split at h
    · exact .inr (.inr (.inr (.inr (.inr ⟨_, (Option.some.inj h).symm⟩))))
    · simp at h
  | readRejects i message =>
    rw [step] at h
    split at h
    · exact .inr (.inr (.inr (.inr (.inr ⟨_, (Option.some.inj h).symm⟩))))
    · simp at h
  | answer i =>
    rw [step] at h
    split at h
    · exact .inr (.inr (.inr (.inr (.inr ⟨_, (Option.some.inj h).symm⟩))))
    · simp at h

end Steps

end Daloy.A2a
