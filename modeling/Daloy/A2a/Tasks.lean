import Daloy.Foundations.Unicode
import Mathlib.Data.List.TakeWhile

/-! # Tasks of an A2A agent

The records of `src/a2a.ts` and what a continuation and a cancel make of them. The parts of messages
and artifacts and the free-form metadata are of any type; so is the check of the parts that a handler
returns.

* `checkMessage`: the checks of `complete` on the task that was loaded, before the handler runs.
* `completed`: what `complete` stores for a reply. `Turn` is what a continuation adds.
* `canceled`: what `cancelTask` stores.
-/

namespace Daloy.A2a
set_option autoImplicit false

open Daloy.Unicode

/-! ## Records -/

inductive Role
  | user | agent
  deriving DecidableEq

structure A2aMessage (π μ : Type) where
  messageId : JsString
  contextId : Option JsString := none
  taskId : Option JsString := none
  role : Role
  parts : π
  metadata : Option μ := none
  deriving DecidableEq

structure A2aArtifact (π μ : Type) where
  artifactId : JsString
  name : Option JsString := none
  description : Option JsString := none
  parts : π
  metadata : Option μ := none
  deriving DecidableEq

/-- What a `state` may be: a text, or what a plain object inherits under a name. -/
inductive StateValue
  | text (state : JsString)
  | inherited (name : JsString)
  deriving DecidableEq

structure A2aTaskStatus (π μ : Type) where
  state : StateValue
  message : Option (A2aMessage π μ) := none
  timestamp : Option JsString := none
  deriving DecidableEq

structure A2aTask (π μ : Type) where
  id : JsString
  contextId : JsString
  status : A2aTaskStatus π μ
  artifacts : Option (List (A2aArtifact π μ)) := none
  history : Option (List (A2aMessage π μ)) := none
  metadata : Option μ := none
  deriving DecidableEq

def terminalStates : List StateValue :=
  [.text (js "TASK_STATE_COMPLETED"), .text (js "TASK_STATE_FAILED"),
    .text (js "TASK_STATE_CANCELED"), .text (js "TASK_STATE_REJECTED")]

def inheritedNames : List JsString :=
  [js "constructor", js "__defineGetter__", js "__defineSetter__", js "hasOwnProperty",
    js "__lookupGetter__", js "__lookupSetter__", js "isPrototypeOf", js "propertyIsEnumerable",
    js "toString", js "valueOf", js "__proto__", js "toLocaleString"]

/-- `RESULT_STATES[status]`, when `status in RESULT_STATES`. The operator finds inherited names. -/
def resultState (status : JsString) : Option StateValue :=
  if status = js "completed" then some (.text (js "TASK_STATE_COMPLETED"))
  else if status = js "failed" then some (.text (js "TASK_STATE_FAILED"))
  else if status = js "rejected" then some (.text (js "TASK_STATE_REJECTED"))
  else if status = js "input-required" then some (.text (js "TASK_STATE_INPUT_REQUIRED"))
  else if status = js "auth-required" then some (.text (js "TASK_STATE_AUTH_REQUIRED"))
  else if status ∈ inheritedNames then some (.inherited status)
  else none

variable {π μ : Type}

def A2aTask.isTerminal (task : A2aTask π μ) : Bool := task.status.state ∈ terminalStates

/-! ## Failures -/

/-- An `RpcFailure` with its code, or any other error, which is answered with `internalError`. -/
inductive Failure
  | rpc (code : ℤ) (message : JsString)
  | internal (message : JsString)
  deriving DecidableEq

def taskNotFound : Failure := .rpc (-32001) (js "Task not found")
def taskNotCancelable : Failure := .rpc (-32002) (js "Task cannot be canceled")
def terminalTask : Failure :=
  .rpc (-32004) (js "Task is in a terminal state and cannot accept messages.")
def otherContext : Failure := .rpc (-32602) (js "Invalid parameters")
def directReply : Failure :=
  .internal (js "A2A onMessage must return a task result (\x7b status \x7d) when " ++
    js "continuing an existing task.")
def unrecognized : Failure := .internal (js "A2A onMessage returned an unrecognized result.")

/-! ## A continuation -/

/-- An artifact as a handler returns it, with the id that it gets if it has none. -/
structure NewArtifact (π μ : Type) where
  artifactId : Option JsString
  name : Option JsString := none
  description : Option JsString := none
  parts : π
  metadata : Option μ := none
  deriving DecidableEq

/-- What `onMessage` returns: a text or a `reply`, a result with a `status`, or anything else. -/
inductive A2aReply (π μ : Type)
  | direct
  | result (status : JsString) (artifacts : List (NewArtifact π μ)) (message : Option π)
      (metadata : Option μ)
  | other

/-- What comes from outside while a reply is taken: ids and the time. -/
structure Stamp where
  messageId : JsString
  artifactIds : List JsString
  timestamp : JsString
  deriving DecidableEq

structure HandlerOptions (π : Type) where
  maxHistory : ℕ
  /-- `normalizeParts`, the message of its `TypeError` where it throws. -/
  normalizeParts : π → Except JsString π

/-- `list.slice(-n)`, for a positive `n`. -/
def lastN {α : Type} (n : ℕ) (list : List α) : List α := list.drop (list.length - n)

def checkMessage (message : A2aMessage π μ) (existing : A2aTask π μ) : Except Failure Unit :=
  if existing.isTerminal then .error terminalTask
  else
    match message.contextId with
    | none => .ok ()
    | some contextId => if contextId ≠ existing.contextId then .error otherContext else .ok ()

/-- What a continuation adds to a task. -/
structure Turn (π μ : Type) where
  messages : List (A2aMessage π μ)
  artifacts : List (A2aArtifact π μ)
  deriving DecidableEq

/-- The loop over `reply.artifacts`. -/
def newArtifacts (options : HandlerOptions π) :
    List (NewArtifact π μ) → List JsString → Except JsString (List (A2aArtifact π μ))
  | [], _ => .ok []
  | artifact :: artifacts, ids =>
    match options.normalizeParts artifact.parts, newArtifacts options artifacts ids.tail with
    | .ok parts, .ok rest => .ok ({
        artifactId := artifact.artifactId.getD (ids.headD [])
        name := artifact.name
        description := artifact.description
        parts
        metadata := artifact.metadata } :: rest)
    | .error message, _ => .error message
    | _, .error message => .error message

def statusMessage (options : HandlerOptions π) (existing : A2aTask π μ) (messageId : JsString) :
    Option π → Except JsString (Option (A2aMessage π μ))
  | none => .ok none
  | some parts =>
    match options.normalizeParts parts with
    | .error message => .error message
    | .ok parts => .ok (some {
        messageId, contextId := some existing.contextId, taskId := some existing.id
        role := .agent, parts })

/-- The task that `complete` stores for what the handler of a continuation did, `none` when it threw,
and what it added. -/
def completed (options : HandlerOptions π) (message : A2aMessage π μ) (existing : A2aTask π μ)
    (stamp : Stamp) : Option (A2aReply π μ) → Except Failure (A2aTask π μ × Turn π μ)
  | none => .error (.internal (js "onMessage"))
  | some .direct => .error directReply
  | some .other => .error unrecognized
  | some (.result status artifacts reply metadata) =>
    match resultState status with
    | none => .error unrecognized
    | some state =>
      match newArtifacts options artifacts stamp.artifactIds,
        statusMessage options existing stamp.messageId reply with
      | .ok newArtifacts, .ok statusMessage =>
        let inbound : A2aMessage π μ :=
          { message with contextId := some existing.contextId, taskId := some existing.id }
        let history := existing.history.getD [] ++ (inbound :: statusMessage.toList)
        let artifacts := existing.artifacts.getD [] ++ newArtifacts
        .ok ({
          id := existing.id
          contextId := existing.contextId
          status := { state, message := statusMessage, timestamp := some stamp.timestamp }
          artifacts := if 0 < artifacts.length then some artifacts else none
          history := if 0 < options.maxHistory then some (lastN options.maxHistory history) else none
          metadata := metadata.or existing.metadata },
          { messages := inbound :: statusMessage.toList, artifacts := newArtifacts })
      | .error message, _ => .error (.internal message)
      | _, .error message => .error (.internal message)

def canceled (task : A2aTask π μ) (timestamp : JsString) : Except Failure (A2aTask π μ) :=
  if task.isTerminal then .error taskNotCancelable
  else .ok { task with
    status := { state := .text (js "TASK_STATE_CANCELED"), timestamp := some timestamp } }

/-! ## What they keep -/

def historyAfter (maxHistory : ℕ) (history : List (A2aMessage π μ)) (turns : List (Turn π μ)) :
    List (A2aMessage π μ) :=
  if turns = [] then history
  else if maxHistory = 0 then []
  else lastN maxHistory (history ++ turns.flatMap Turn.messages)

theorem lastN_append {α : Type} (n : ℕ) (a b : List α) :
    lastN n (lastN n a ++ b) = lastN n (a ++ b) := by
  rw [lastN, lastN, lastN, List.length_append, List.length_append, List.length_drop]
  by_cases hlong : n ≤ a.length
  · rw [← List.drop_append_of_le_length (by omega), List.drop_drop]
    congr 1
    omega
  · have hzero : a.length - n = 0 := by omega
    rw [hzero, List.drop_zero, Nat.sub_zero]

theorem historyAfter_snoc (maxHistory : ℕ) (history : List (A2aMessage π μ))
    (turns : List (Turn π μ)) (turn : Turn π μ) :
    historyAfter maxHistory history (turns ++ [turn]) =
      if maxHistory = 0 then []
      else lastN maxHistory (historyAfter maxHistory history turns ++ turn.messages) := by
  rw [historyAfter, if_neg (by simp), List.flatMap_append, List.flatMap_singleton]
  split
  · rfl
  · rename_i hpos
    rw [historyAfter]
    split
    · rename_i hnil
      rw [hnil, List.flatMap_nil, List.nil_append]
    · rw [lastN_append, List.append_assoc]

theorem completed_eq_ok {options : HandlerOptions π} {message : A2aMessage π μ}
    {existing task : A2aTask π μ} {stamp : Stamp} {reply : Option (A2aReply π μ)}
    {turn : Turn π μ} (h : completed options message existing stamp reply = .ok (task, turn)) :
    task.id = existing.id ∧
      task.history.getD [] = (if options.maxHistory = 0 then []
        else lastN options.maxHistory (existing.history.getD [] ++ turn.messages)) ∧
      task.artifacts.getD [] = existing.artifacts.getD [] ++ turn.artifacts := by
  unfold completed at h
  split at h
  · simp at h
  · simp at h
  · simp at h
  · split at h
    · simp at h
    · split at h
      · dsimp only at h
        obtain ⟨rfl, rfl⟩ := Prod.mk.inj (Except.ok.inj h)
        refine ⟨rfl, ?_, ?_⟩
        · dsimp only
          by_cases hzero : options.maxHistory = 0
          · rw [if_pos hzero, if_neg (by omega), Option.getD_none]
          · rw [if_neg hzero, if_pos (by omega), Option.getD_some]
        · dsimp only
          split
          · rfl
          · rename_i hlength
            rw [Option.getD_none]
            exact (List.length_eq_zero_iff.mp (by omega)).symm
      · simp at h
      · simp at h

theorem canceled_eq_ok {task task' : A2aTask π μ} {timestamp : JsString}
    (h : canceled task timestamp = .ok task') :
    task.isTerminal = false ∧ task'.id = task.id ∧ task'.history = task.history ∧
      task'.artifacts = task.artifacts := by
  rw [canceled] at h
  split at h
  · simp at h
  · rename_i hterminal
    obtain rfl := Except.ok.inj h
    exact ⟨by simpa using hterminal, rfl, rfl, rfl⟩

theorem admit_eq_ok {message : A2aMessage π μ} {existing : A2aTask π μ}
    (h : checkMessage message existing = .ok ()) :
    existing.isTerminal = false ∧ ∀ contextId ∈ message.contextId, contextId = existing.contextId := by
  rw [checkMessage] at h
  split at h
  · simp at h
  · rename_i hterminal
    refine ⟨by simpa using hterminal, ?_⟩
    intro contextId hcontext
    rw [Option.mem_def.mp hcontext] at h
    dsimp only at h
    split at h
    · simp at h
    · rename_i hsame
      exact not_not.mp hsame

end Daloy.A2a
