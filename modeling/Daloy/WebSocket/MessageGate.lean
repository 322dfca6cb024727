import Daloy.Foundations.PromiseChain
import Daloy.Foundations.Runs
import Daloy.Security.JsonStructure
import Daloy.WebSocket.NodeConnection

/-! # `WebSocketMessageGate`

The queue of `src/websocket.ts` that keeps the messages of a connection in order while their
validations are pending. One event of the machine is a call of `push` or one job of the microtask
queue; which job is next, and how a promise of the schema ends, is left open.

* `WebSocketMessageGate.step`: the events.
* `Kept`: what has been delivered, followed by what is owed, is what was pushed.
-/

namespace Daloy.WebSocket
set_option autoImplicit false

open Daloy.Runs Daloy.Security Daloy.Unicode Daloy.Json

/-! ## One validation -/

/-- `StandardSchemaV1.Result`, with values of type `α`. -/
inductive SchemaResult (α : Type)
  | value (value : α)
  | issues

/-- What a call of `validate` of the schema does. -/
inductive Validate (α : Type)
  | throws
  | returns (result : SchemaResult α)
  | promises

/-- How a promise of the schema ends. -/
inductive Settlement (α : Type)
  | fulfilled (result : SchemaResult α)
  | rejected

/-- `WebSocketMessageValidation`, with the validated value. -/
inductive Validation (α : Type)
  | ok (value : α)
  | refused (refusal : MessageRefusal)
  deriving DecidableEq

def toWebSocketValidation {α : Type} : SchemaResult α → Validation α
  | .value value => .ok value
  | .issues => .refused .schemaFailed

/-- `result.then(toWebSocketValidation, () => WS_SCHEMA_FAILED)`. -/
def Settlement.validation {α : Type} : Settlement α → Validation α
  | .fulfilled result => toWebSocketValidation result
  | .rejected => .refused .schemaFailed

variable {ν α : Type} [NumberText ν]

namespace MessageEvent

/-- `validateWebSocketMessage`; `none` is a promise. -/
def validated (ev : MessageEvent) (validate : Option (Value ν) → Validate α) :
    Option (Validation α) :=
  match ev.isBinary, ev.data with
  | false, .text data =>
    match safeJsonParseLimited data with
    | .error _ => some (.refused .invalidJson)
    | .ok parsed =>
      match validate parsed with
      | .throws => some (.refused .schemaFailed)
      | .returns result => some (toWebSocketValidation result)
      | .promises => none
  | _, _ => some (.refused .binaryRefused)

end MessageEvent

/-! ## The gate -/

abbrev Arrival := MessageEvent × ℕ

/-- Where the promise that `run` returns is. -/
inductive GateWork (α : Type)
  | validating
  | answered (settlement : Settlement α)
  | validated (validation : Validation α)
  | returned

/-- A link of the chain is a promise given to `track`: `settled` says that `guarded` is resolved,
`released` that the callback that clears `pending` has run. -/
structure WebSocketMessageGate (α : Type) where
  chain : Chain Arrival Unit (GateWork α) Unit := {}
  pushed : List MessageEvent := []
  /-- The calls of `deliver`. -/
  delivered : List (Arrival × Validation α) := []

inductive GateEvent (ν α : Type)
  | push (ev : MessageEvent) (validate : Option (Value ν) → Validate α)
  /-- The callback of `this.pending.then(run)`. -/
  | run (r : ℕ) (validate : Option (Value ν) → Validate α)
  /-- The schema's promise ends. -/
  | settle (r : ℕ) (settlement : Settlement α)
  /-- The callbacks on the schema's promise. -/
  | convert (r : ℕ)
  /-- The callback that calls `deliver`. -/
  | deliver (r : ℕ)
  /-- `p.catch(() => undefined)` resolves. -/
  | guard (r : ℕ)
  /-- The callback that clears `pending`. -/
  | clear (r : ℕ)

def GateEvent.isPush : GateEvent ν α → Bool
  | .push .. => true
  | _ => false

namespace WebSocketMessageGate

def pending (gate : WebSocketMessageGate α) : Option ℕ :=
  gate.chain.tails.get? ()

def deliver (gate : WebSocketMessageGate α) (arrival : Arrival) (result : Validation α) :
    WebSocketMessageGate α :=
  { gate with delivered := gate.delivered ++ [(arrival, result)] }

def setStage (gate : WebSocketMessageGate α) (r : ℕ) (stage : Stage (GateWork α) Unit) :
    WebSocketMessageGate α :=
  { gate with chain := gate.chain.setStage r stage }

def track (gate : WebSocketMessageGate α) (arrival : Arrival) : WebSocketMessageGate α :=
  { gate with chain := gate.chain.enter (fun _ => ()) arrival }

def push (gate : WebSocketMessageGate α) (ev : MessageEvent)
    (validate : Option (Value ν) → Validate α) : WebSocketMessageGate α :=
  let arrival := (ev, gate.pushed.length)
  let gate := { gate with pushed := gate.pushed ++ [ev] }
  match gate.pending with
  | some _ => gate.track arrival
  | none =>
    match ev.validated validate with
    | some result => gate.deliver arrival result
    | none => (gate.track arrival).setStage gate.chain.links.length (.running .validating)

/-- `run` of a message that waited. -/
def runPushed (gate : WebSocketMessageGate α) (r : ℕ) (arrival : Arrival)
    (validate : Option (Value ν) → Validate α) : WebSocketMessageGate α :=
  match arrival.1.validated validate with
  | some result => (gate.deliver arrival result).setStage r (.running .returned)
  | none => gate.setStage r (.running .validating)

def step (gate : WebSocketMessageGate α) : GateEvent ν α → Option (WebSocketMessageGate α)
  | .push ev validate => some (gate.push ev validate)
  | .run r validate =>
    match gate.chain.links[r]? with
    | some ⟨arrival, previous, .waiting⟩ =>
      if gate.chain.isFree ⟨arrival, previous, .waiting⟩ then
        some (gate.runPushed r arrival validate)
      else none
    | _ => none
  | .settle r settlement =>
    match gate.chain.links[r]? with
    | some ⟨_, _, .running .validating⟩ => some (gate.setStage r (.running (.answered settlement)))
    | _ => none
  | .convert r =>
    match gate.chain.links[r]? with
    | some ⟨_, _, .running (.answered settlement)⟩ =>
      some (gate.setStage r (.running (.validated settlement.validation)))
    | _ => none
  | .deliver r =>
    match gate.chain.links[r]? with
    | some ⟨arrival, _, .running (.validated result)⟩ =>
      some ((gate.deliver arrival result).setStage r (.running .returned))
    | _ => none
  | .guard r =>
    match gate.chain.links[r]? with
    | some ⟨_, _, .running .returned⟩ => some (gate.setStage r (.settled ()))
    | _ => none
  | .clear r =>
    (gate.chain.release (fun _ => ()) r).map fun chain => { gate with chain }

/-! ## What is owed -/

def hasDelivered : Stage (GateWork α) Unit → Bool
  | .running .returned | .settled _ | .released _ => true
  | _ => false

def owed (gate : WebSocketMessageGate α) : List Arrival :=
  (gate.chain.links.filter fun link => !hasDelivered link.stage).map Link.job

structure Kept (gate : WebSocketMessageGate α) : Prop where
  ordered : gate.chain.Ordered fun _ => ()
  balanced : gate.delivered.map Prod.fst ++ gate.owed = gate.pushed.zipIdx

def remaining : Stage (GateWork α) Unit → ℕ
  | .waiting => 7
  | .running .validating => 6
  | .running (.answered _) => 5
  | .running (.validated _) => 4
  | .running .returned => 3
  | .settled _ => 2
  | .released _ => 0

def work (gate : WebSocketMessageGate α) : ℕ :=
  (gate.chain.links.map fun link => remaining link.stage).sum

/-! ## One event -/

variable {gate gate' : WebSocketMessageGate α} {r : ℕ} {link : Link Arrival (GateWork α) Unit}
  {stage : Stage (GateWork α) Unit}

theorem isDone_hasDelivered (h : stage.isDone = true) : hasDelivered stage = true := by
  cases stage with
  | waiting | running work => simp [Stage.isDone] at h
  | settled result | released result => rfl

theorem setStage_links (gate : WebSocketMessageGate α) (stage : Stage (GateWork α) Unit)
    (hlink : gate.chain.links[r]? = some link) :
    ∃ before after, before = gate.chain.links.take r ∧
      gate.chain.links = before ++ link :: after ∧
      (gate.setStage r stage).chain.links = before ++ { link with stage } :: after := by
  obtain ⟨hlt, hget⟩ := List.getElem?_eq_some_iff.mp hlink
  refine ⟨_, gate.chain.links.drop (r + 1), rfl, ?_, ?_⟩
  · rw [← hget, List.getElem_cons_drop, List.take_append_drop]
  · rw [setStage, Chain.setStage, List.modify_eq_take_cons_drop hlt, hget]

theorem owed_setStage (hlink : gate.chain.links[r]? = some link)
    (hsame : hasDelivered stage = hasDelivered link.stage) :
    (gate.setStage r stage).owed = gate.owed := by
  obtain ⟨before, after, -, hlinks, hafter⟩ := setStage_links gate stage hlink
  rw [owed, owed, hafter, hlinks]
  simp only [List.filter_append, List.filter_cons, hsame, List.map_append]
  cases hasDelivered link.stage <;> simp

theorem owed_deliver (hlink : gate.chain.links[r]? = some link)
    (hbefore : ∀ q < r, ∀ other, gate.chain.links[q]? = some other →
      hasDelivered other.stage = true)
    (hnot : hasDelivered link.stage = false) (hdelivered : hasDelivered stage = true) :
    gate.owed = link.job :: (gate.setStage r stage).owed := by
  obtain ⟨before, after, htake, hlinks, hafter⟩ := setStage_links gate stage hlink
  have hnone : before.filter (fun link => !hasDelivered link.stage) = [] := by
    rw [htake, List.filter_eq_nil_iff]
    intro other hother
    obtain ⟨q, hq, hget⟩ := List.getElem_of_mem hother
    rw [List.length_take] at hq
    rw [List.getElem_take] at hget
    have hget' : gate.chain.links[q]? = some other := by
      rw [List.getElem?_eq_getElem (by omega), hget]
    simp [hbefore q (by omega) other hget']
  rw [owed, owed, hafter, hlinks]
  simp [List.filter_append, hnone, hnot, hdelivered]

theorem kept_empty : Kept ({} : WebSocketMessageGate α) :=
  ⟨Chain.ordered_empty, rfl⟩

theorem Kept.setStage (h : Kept gate) (hlink : gate.chain.links[r]? = some link)
    (hsame : hasDelivered stage = hasDelivered link.stage)
    (hordered : (gate.setStage r stage).chain.Ordered fun _ => ()) :
    Kept (gate.setStage r stage) := by
  refine ⟨hordered, ?_⟩
  rw [owed_setStage hlink hsame]
  exact h.balanced

theorem Kept.deliver (h : Kept gate) (hlink : gate.chain.links[r]? = some link)
    (hbefore : ∀ q < r, ∀ other, gate.chain.links[q]? = some other → other.stage.isDone = true)
    (hnot : hasDelivered link.stage = false) (hdelivered : hasDelivered stage = true)
    (hordered : (gate.setStage r stage).chain.Ordered fun _ => ()) (result : Validation α) :
    Kept ((gate.deliver link.job result).setStage r stage) := by
  refine ⟨hordered, ?_⟩
  have howed := owed_deliver hlink
    (fun q hq other hother => isDone_hasDelivered (hbefore q hq other hother)) hnot hdelivered
  have hsame : ((gate.deliver link.job result).setStage r stage).owed =
      (gate.setStage r stage).owed := rfl
  have hpushed : ((gate.deliver link.job result).setStage r stage).pushed = gate.pushed := rfl
  have hbalanced := h.balanced
  rw [howed] at hbalanced
  rw [hsame, hpushed, ← hbalanced]
  simp [WebSocketMessageGate.deliver, WebSocketMessageGate.setStage]

theorem owed_track (gate : WebSocketMessageGate α) (arrival : Arrival) :
    (gate.track arrival).owed = gate.owed ++ [arrival] := by
  simp [owed, track, Chain.enter, List.filter_append, hasDelivered]

theorem Kept.owed_eq_nil (h : Kept gate) (hpending : gate.pending = none) : gate.owed = [] := by
  have hnone : gate.chain.links.filter (fun link => !hasDelivered link.stage) = [] := by
    rw [List.filter_eq_nil_iff]
    intro link hlink
    obtain ⟨q, hq⟩ := List.mem_iff_getElem?.mp hlink
    simp [isDone_hasDelivered (h.ordered.free () hpending q link hq rfl)]
  rw [owed, hnone, List.map_nil]

theorem Kept.track (h : Kept gate) (ev : MessageEvent) :
    Kept (WebSocketMessageGate.track { gate with pushed := gate.pushed ++ [ev] }
      (ev, gate.pushed.length)) := by
  refine ⟨h.ordered.enter _, ?_⟩
  have hpushed : (gate.pushed ++ [ev]).zipIdx = gate.pushed.zipIdx ++ [(ev, gate.pushed.length)] := by
    simp [List.zipIdx_append]
  rw [owed_track]
  have hbalanced := h.balanced
  simp only [WebSocketMessageGate.track]
  rw [hpushed, ← hbalanced, List.append_assoc]
  rfl

theorem Kept.push (h : Kept gate) (ev : MessageEvent)
    (validate : Option (Value ν) → Validate α) : Kept (gate.push ev validate) := by
  unfold WebSocketMessageGate.push
  dsimp only
  split
  · exact h.track ev
  · rename_i hpending
    split
    · -- delivered inline: nothing was owed
      rename_i result _
      have hnil := h.owed_eq_nil hpending
      refine ⟨h.ordered, ?_⟩
      have hbalanced := h.balanced
      have howed : ({ gate with pushed := gate.pushed ++ [ev] }.deliver
          (ev, gate.pushed.length) result).owed = gate.owed := rfl
      rw [hnil, List.append_nil] at hbalanced
      rw [howed, hnil]
      simp [WebSocketMessageGate.deliver, List.zipIdx_append, hbalanced]
    · have htrack := h.track ev
      have hlink : (WebSocketMessageGate.track { gate with pushed := gate.pushed ++ [ev] }
          (ev, gate.pushed.length)).chain.links[gate.chain.links.length]? =
            some ⟨(ev, gate.pushed.length), gate.chain.tails.get? (), .waiting⟩ := by
        simp [WebSocketMessageGate.track, Chain.enter]
      refine htrack.setStage hlink rfl ?_
      refine htrack.ordered.setStage hlink (by simp [Stage.isDone]) ?_ (by simp [Stage.isReleased])
      intro _ q hq other hother _
      have hne : q ≠ gate.chain.links.length := by omega
      rw [WebSocketMessageGate.track, Chain.links_enter, if_neg hne] at hother
      exact h.ordered.free () hpending q other hother rfl

theorem Kept.runPushed (h : Kept gate) (hlink : gate.chain.links[r]? = some link)
    (hwaiting : link.stage = .waiting) (hfree : gate.chain.isFree link = true)
    (validate : Option (Value ν) → Validate α) : Kept (gate.runPushed r link.job validate) := by
  have hbefore := h.ordered.of_isFree hlink hfree
  have hordered : ∀ work, (gate.setStage r (.running work)).chain.Ordered fun _ => () := by
    intro work
    refine h.ordered.setStage hlink (by simp [hwaiting, Stage.isDone]) (fun _ => hbefore) ?_
    simp [Stage.isReleased]
  unfold WebSocketMessageGate.runPushed
  split
  · rename_i result _
    exact h.deliver hlink (fun q hq other hother => hbefore q hq other hother rfl)
      (by rw [hwaiting]; rfl) rfl (hordered _) result
  · exact h.setStage hlink (by rw [hwaiting]; rfl) (hordered _)

theorem Kept.step {event : GateEvent ν α} (h : Kept gate) (hstep : gate.step event = some gate') :
    Kept gate' := by
  cases event with
  | push ev validate =>
    obtain rfl := Option.some.inj hstep
    exact h.push ev validate
  | run r validate =>
    simp only [WebSocketMessageGate.step] at hstep
    split at hstep
    · rename_i arrival previous hlink
      split at hstep
      · rename_i hfree
        obtain rfl := Option.some.inj hstep
        exact h.runPushed hlink rfl hfree validate
      · cases hstep
    · cases hstep
  | settle r settlement =>
    simp only [WebSocketMessageGate.step] at hstep
    split at hstep
    · rename_i hlink
      obtain rfl := Option.some.inj hstep
      exact h.setStage hlink rfl (h.ordered.advance hlink rfl rfl)
    · cases hstep
  | convert r =>
    simp only [WebSocketMessageGate.step] at hstep
    split at hstep
    · rename_i hlink
      obtain rfl := Option.some.inj hstep
      exact h.setStage hlink rfl (h.ordered.advance hlink rfl rfl)
    · cases hstep
  | deliver r =>
    simp only [WebSocketMessageGate.step] at hstep
    split at hstep
    · rename_i arrival previous result hlink
      obtain rfl := Option.some.inj hstep
      have hbefore := h.ordered.entered r _ hlink (by simp)
      exact h.deliver hlink (fun q hq other hother => hbefore q hq other hother rfl) rfl rfl
        (h.ordered.advance hlink rfl rfl) result
    · cases hstep
  | guard r =>
    simp only [WebSocketMessageGate.step] at hstep
    split at hstep
    · rename_i hlink
      obtain rfl := Option.some.inj hstep
      exact h.setStage hlink rfl (h.ordered.advance hlink rfl rfl)
    · cases hstep
  | clear r =>
    simp only [WebSocketMessageGate.step, Option.map_eq_some_iff] at hstep
    obtain ⟨chain, hrelease, rfl⟩ := hstep
    have hordered := h.ordered.release hrelease
    refine ⟨hordered, ?_⟩
    rw [Chain.release] at hrelease
    split at hrelease
    · rename_i arrival previous result hlink
      have hlinks : chain.links = (gate.setStage r (.released result)).chain.links := by
        obtain rfl := Option.some.inj hrelease
        split <;> rfl
      have howed : ({ gate with chain } : WebSocketMessageGate α).owed = gate.owed := by
        have hsame : (gate.setStage r (.released result)).owed = gate.owed :=
          owed_setStage hlink rfl
        rw [← hsame, owed, hlinks, owed]
      rw [howed]
      exact h.balanced
    · cases hrelease

/-! ## Whole runs -/

theorem work_setStage (hlink : gate.chain.links[r]? = some link) :
    (gate.setStage r stage).work + remaining link.stage = gate.work + remaining stage := by
  obtain ⟨before, after, -, hlinks, hafter⟩ := setStage_links gate stage hlink
  rw [work, work, hafter, hlinks]
  simp only [List.map_append, List.map_cons, List.sum_append, List.sum_cons]
  omega

theorem work_step {event : GateEvent ν α} (hpush : event.isPush = false)
    (hstep : gate.step event = some gate') : gate'.work < gate.work := by
  have hless : ∀ {r : ℕ} {link : Link Arrival (GateWork α) Unit} (stage : Stage (GateWork α) Unit),
      gate.chain.links[r]? = some link → remaining stage < remaining link.stage →
      (gate.setStage r stage).work < gate.work := by
    intro r link stage hlink hlt
    have hwork : (gate.setStage r stage).work + remaining link.stage =
        gate.work + remaining stage := work_setStage hlink
    omega
  cases event with
  | push ev validate => cases hpush
  | run r validate =>
    simp only [WebSocketMessageGate.step] at hstep
    split at hstep
    · rename_i arrival previous hlink
      split at hstep
      · obtain rfl := Option.some.inj hstep
        unfold WebSocketMessageGate.runPushed
        split
        · exact hless (.running .returned) hlink (by simp [remaining])
        · exact hless _ hlink (by simp [remaining])
      · cases hstep
    · cases hstep
  | settle r settlement =>
    simp only [WebSocketMessageGate.step] at hstep
    split at hstep
    · rename_i hlink
      obtain rfl := Option.some.inj hstep
      exact hless _ hlink (by simp [remaining])
    · cases hstep
  | convert r =>
    simp only [WebSocketMessageGate.step] at hstep
    split at hstep
    · rename_i hlink
      obtain rfl := Option.some.inj hstep
      exact hless _ hlink (by simp [remaining])
    · cases hstep
  | deliver r =>
    simp only [WebSocketMessageGate.step] at hstep
    split at hstep
    · rename_i hlink
      obtain rfl := Option.some.inj hstep
      exact hless (.running .returned) hlink (by simp [remaining])
    · cases hstep
  | guard r =>
    simp only [WebSocketMessageGate.step] at hstep
    split at hstep
    · rename_i hlink
      obtain rfl := Option.some.inj hstep
      exact hless _ hlink (by simp [remaining])
    · cases hstep
  | clear r =>
    simp only [WebSocketMessageGate.step, Option.map_eq_some_iff] at hstep
    obtain ⟨chain, hrelease, rfl⟩ := hstep
    rw [Chain.release] at hrelease
    split at hrelease
    · rename_i arrival previous result hlink
      have hlinks : chain.links = (gate.setStage r (.released result)).chain.links := by
        obtain rfl := Option.some.inj hrelease
        split <;> rfl
      have hlt := hless (.released result) hlink (by simp [remaining])
      rw [work] at hlt
      rw [work, hlinks]
      exact hlt
    · cases hrelease

theorem length_le_work {events : List (GateEvent ν α)}
    (hpushes : ∀ event ∈ events, event.isPush = false)
    (hrun : run step gate events = some gate') : events.length + gate'.work ≤ gate.work := by
  induction events generalizing gate with
  | nil =>
    obtain rfl := Option.some.inj hrun
    simp
  | cons event events ih =>
    obtain ⟨next, hnext, hrest⟩ := run_cons_eq_some.mp hrun
    have hlt := work_step (hpushes event List.mem_cons_self) hnext
    have hle := ih (fun e he => hpushes e (List.mem_cons_of_mem _ he)) hrest
    rw [List.length_cons]
    omega

theorem isReleased_of_quiet
    (hquiet : ∀ event : GateEvent ν α, event.isPush = false → gate.step event = none)
    (h : Kept gate) (hlink : gate.chain.links[r]? = some link) : link.stage.isReleased = true := by
  induction r using Nat.strong_induction_on generalizing link with
  | _ r ih =>
    obtain ⟨arrival, previous, stage⟩ := link
    cases stage with
    | waiting =>
      have hfree : gate.chain.isFree ⟨arrival, previous, .waiting⟩ = true := by
        cases previous with
        | none => rfl
        | some p =>
          obtain ⟨hlt, before, hbefore, -, -⟩ := h.ordered.previous r p _ hlink rfl
          have hreleased := ih p hlt hbefore
          simp only [Chain.isFree, hbefore, Option.any_some]
          cases hstage : before.stage with
          | waiting | running work => simp [hstage, Stage.isReleased] at hreleased
          | settled result | released result => simp [Stage.isDone]
      have hnone := hquiet (.run r fun _ => .throws) rfl
      simp [WebSocketMessageGate.step, hlink, hfree] at hnone
    | running work =>
      cases work with
      | validating =>
        have hnone := hquiet (.settle r .rejected) rfl
        simp [WebSocketMessageGate.step, hlink] at hnone
      | answered settlement =>
        have hnone := hquiet (.convert r) rfl
        simp [WebSocketMessageGate.step, hlink] at hnone
      | validated result =>
        have hnone := hquiet (.deliver r) rfl
        simp [WebSocketMessageGate.step, hlink] at hnone
      | returned =>
        have hnone := hquiet (.guard r) rfl
        simp [WebSocketMessageGate.step, hlink] at hnone
    | settled result =>
      have hnone := hquiet (.clear r) rfl
      simp [WebSocketMessageGate.step, Chain.release, hlink] at hnone
    | released result => rfl

/-- **Messages are delivered once each and in the order of the pushes.** After any run what was
delivered is the beginning of what was pushed; without further pushes the gate comes to rest; and at
rest everything that was pushed has been delivered. -/
theorem deliveries_in_push_order {events : List (GateEvent ν α)}
    (hrun : run step ({} : WebSocketMessageGate α) events = some gate) :
    gate.delivered.map Prod.fst = gate.pushed.zipIdx.take gate.delivered.length ∧
      (∀ (more : List (GateEvent ν α)) (rest : WebSocketMessageGate α),
        (∀ event ∈ more, event.isPush = false) → run step gate more = some rest →
          more.length + rest.work ≤ gate.work) ∧
      ((∀ event : GateEvent ν α, event.isPush = false → gate.step event = none) →
        gate.delivered.map Prod.fst = gate.pushed.zipIdx) := by
  have hkept : Kept gate := run_invariant_all (fun _ _ _ hk hs => hk.step hs) kept_empty hrun
  refine ⟨?_, ?_, ?_⟩
  · have hlength : (gate.delivered.map Prod.fst).length = gate.delivered.length := by simp
    rw [← hkept.balanced, ← hlength, List.take_left]
  · intro more rest hpushes hmore
    exact length_le_work hpushes hmore
  · intro hquiet
    have hnone : gate.owed = [] := by
      rw [owed, List.map_eq_nil_iff, List.filter_eq_nil_iff]
      intro link hlink
      obtain ⟨r, hr⟩ := List.mem_iff_getElem?.mp hlink
      have hreleased := isReleased_of_quiet hquiet hkept hr
      cases hstage : link.stage with
      | waiting | running work | settled result => simp [hstage, Stage.isReleased] at hreleased
      | released result => simp [hasDelivered]
    have hbalanced := hkept.balanced
    rwa [hnone, List.append_nil] at hbalanced

/-- The first message waits for a promise that is rejected, the second is pushed when `guarded` is
resolved and `pending` is not cleared yet, the third when it is. -/
def lateRun : List (GateEvent ℕ ℕ) :=
  [.push ⟨.text [], false⟩ fun _ => .promises, .settle 0 .rejected, .convert 0, .deliver 0, .guard 0,
    .push ⟨.binary [], true⟩ fun _ => .throws, .clear 0, .run 1 fun _ => .throws, .guard 1, .clear 1,
    .push ⟨.text [], false⟩ fun _ => .returns (.value 7)]

theorem deliveries_in_push_order_late :
    ∃ gate, run step ({} : WebSocketMessageGate ℕ) lateRun = some gate ∧
      gate.delivered.map Prod.snd = [.refused .schemaFailed, .refused .binaryRefused, .ok 7] ∧
      gate.delivered.map Prod.fst = gate.pushed.zipIdx.take gate.delivered.length := by
  have hrun : ∃ gate, run step ({} : WebSocketMessageGate ℕ) lateRun = some gate ∧
      gate.delivered.map Prod.snd = [.refused .schemaFailed, .refused .binaryRefused, .ok 7] :=
    ⟨_, rfl, rfl⟩
  obtain ⟨gate, hgate, hresults⟩ := hrun
  exact ⟨gate, hgate, hresults, (deliveries_in_push_order hgate).1⟩

end WebSocketMessageGate

end Daloy.WebSocket
