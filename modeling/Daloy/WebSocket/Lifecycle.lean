import Daloy.Foundations.Runs
import Daloy.WebSocket.NodeConnection

/-! # No lifecycle event after `close()`

Along any run of a connection the handler sees no `message()`, `error()` or `close()` behind its
`close()` exactly when no step of the run does one of these four things while `close()` has been
invoked (`quiet_iff`): it hands a message of the sink to a handler without a schema, it hands over a
protocol error, a `message()` callback fails, or `open()` fails.
-/

namespace Daloy.WebSocket
set_option autoImplicit false

open Daloy.Runs

def HandlerCall.isClose : HandlerCall → Bool
  | .close .. => true
  | _ => false

/-- `message()`, `error()` and `close()`: what must not come behind `close()`. -/
def HandlerCall.isLifecycle : HandlerCall → Bool
  | .message _ | .error _ | .close .. => true
  | _ => false

/-- Behind a `close()` comes no `message()`, `error()` or `close()`. -/
def Quiet (calls : List HandlerCall) : Prop :=
  calls.Pairwise fun before after => before.isClose = true → after.isLifecycle = false

instance (calls : List HandlerCall) : Decidable (Quiet calls) :=
  inferInstanceAs (Decidable (calls.Pairwise _))

theorem quiet_append {calls : List HandlerCall} {call : HandlerCall} :
    Quiet (calls ++ [call]) ↔
      Quiet calls ∧ ∀ before ∈ calls, before.isClose = true → call.isLifecycle = false := by
  simp [Quiet, List.pairwise_append]

namespace NodeWebSocketConnection

variable {cfg : ConnectionConfig} {conn conn' conn'' : NodeWebSocketConnection}

/-- The handler's `close()` has been invoked. -/
def closeInvoked (cfg : ConnectionConfig) (conn : NodeWebSocketConnection) : Bool :=
  conn.closeHandled && cfg.handler.definesClose

/-- The step calls `message()` or `error()` without looking at the state of the connection. -/
def disturbs (cfg : ConnectionConfig) (conn : NodeWebSocketConnection) : ConnectionStep → Bool
  | .resume .. =>
    match conn.stack with
    | .sinkEvent (.onMessage _) :: _ => !cfg.handler.hasBodySchema && cfg.handler.definesMessage
    | .sinkEvent (.onProtocolError _) :: _ => cfg.handler.definesError
    | _ => false
  | .callbackEnds .threw =>
    match conn.stack with
    | .callback (.message _) :: _ | .callback .open :: _ => cfg.handler.definesError
    | _ => false
  | .openSettles true | .messageSettles true => cfg.handler.definesError
  | _ => false

def Spares (cfg : ConnectionConfig) (conn : NodeWebSocketConnection) (l : ConnectionStep) : Prop :=
  conn.closeInvoked cfg = true → conn.disturbs cfg l = false

instance (cfg : ConnectionConfig) (conn : NodeWebSocketConnection) (l : ConnectionStep) :
    Decidable (Spares cfg conn l) :=
  inferInstanceAs (Decidable (_ → _))

/-! ## What the code does to the callbacks -/

/-- No callback is invoked, and a connection that is closing stays so. -/
structure Silent (conn conn' : NodeWebSocketConnection) : Prop where
  calls : conn'.calls = conn.calls
  closeHandled : conn'.closeHandled = conn.closeHandled
  closing : conn.readyState.atLeastClosing = true → conn'.readyState.atLeastClosing = true

/-- At most one callback is invoked: `close()` the first time only; `message()` or `error()` once
the close was handled only if `late`. -/
inductive Effect (cfg : ConnectionConfig) (late : Prop) (conn conn' : NodeWebSocketConnection) : Prop
  | silent (h : Silent conn conn')
  | closes (code : ℕ) (reason : Unicode.JsString) (hfirst : conn.closeHandled = false)
      (hhandled : conn'.closeHandled = true) (hclosing : conn'.readyState.atLeastClosing = true)
      (hcalls : conn'.calls =
        conn.calls ++ if cfg.handler.definesClose then [.close code reason] else [])
  | invokes (call : HandlerCall) (hcalls : conn'.calls = conn.calls ++ [call])
      (hhandled : conn'.closeHandled = conn.closeHandled) (hother : call.isClose = false)
      (hclosing : conn.readyState.atLeastClosing = true → conn'.readyState.atLeastClosing = true)
      (hlate : call.isLifecycle = true → conn.closeHandled = true → late)

variable {late : Prop}

theorem Silent.refl (conn : NodeWebSocketConnection) : Silent conn conn := ⟨rfl, rfl, id⟩

theorem Silent.trans (h : Silent conn conn') (h' : Silent conn' conn'') : Silent conn conn'' :=
  ⟨h'.calls.trans h.calls, h'.closeHandled.trans h.closeHandled, fun hc => h'.closing (h.closing hc)⟩

theorem Effect.after (h : Silent conn conn') (h' : Effect cfg late conn' conn'') :
    Effect cfg late conn conn'' := by
  cases h' with
  | silent h' => exact .silent (h.trans h')
  | closes code reason hfirst hhandled hclosing hcalls =>
    exact .closes code reason (h.closeHandled ▸ hfirst) hhandled hclosing (h.calls ▸ hcalls)
  | invokes call hcalls hhandled hother hclosing hlate =>
    refine .invokes call (h.calls ▸ hcalls) (hhandled.trans h.closeHandled) hother
      (fun hc => hclosing (h.closing hc)) ?_
    intro hlife hclosed
    exact hlate hlife (h.closeHandled.trans hclosed)

theorem invoke_effect {call : HandlerCall} (hother : call.isClose = false)
    (hlate : cfg.handler.defines call = true → call.isLifecycle = true →
      conn.closeHandled = true → late) : Effect cfg late conn (conn.invoke cfg call) := by
  unfold invoke
  split
  · next hdef => exact .invokes call rfl rfl hother id (hlate hdef)
  · exact .silent (Silent.refl conn)

theorem fireClose_effect (code : ℕ) (reason : Unicode.JsString)
    (hclosing : conn.readyState.atLeastClosing = true) :
    Effect cfg late conn (conn.fireClose cfg code reason) := by
  unfold fireClose invoke
  split
  · exact .silent (Silent.refl conn)
  · next hfirst =>
    rw [Bool.not_eq_true] at hfirst
    cases hdef : cfg.handler.definesClose with
    | true =>
      simp only [WebSocketHandler.defines, hdef, if_true]
      exact .closes code reason hfirst rfl hclosing (by simp [hdef])
    | false =>
      simp only [WebSocketHandler.defines, hdef, Bool.false_eq_true, if_false]
      exact .closes code reason hfirst rfl hclosing (by simp [hdef])

theorem andThen_silent (frames : List Frame) : Silent conn (conn.andThen frames) :=
  ⟨rfl, rfl, id⟩

theorem terminate_silent : Silent conn conn.terminate := ⟨rfl, rfl, fun _ => rfl⟩

theorem writeFrame_silent (answer : WriteAnswer) (opcode : ℕ) (payload : Bytes) :
    Silent conn (conn.writeFrame cfg answer opcode payload).1 := by
  unfold writeFrame
  split
  · exact Silent.refl conn
  · dsimp only
    split <;> exact ⟨rfl, rfl, id⟩

theorem close_effect (answer : WriteAnswer) (code : ℕ) (reason : Unicode.JsString) :
    Effect cfg late conn (conn.close cfg answer code reason).1 := by
  unfold close
  split
  · exact .silent (Silent.refl conn)
  · have hclosing : Silent conn { conn with readyState := .closing } := ⟨rfl, rfl, fun _ => rfl⟩
    dsimp only
    split
    · exact .silent hclosing
    · next payload _ =>
      have hwrite : Silent { conn with readyState := .closing }
          ({ conn with readyState := .closing }.writeFrame cfg answer WsOpcode.close payload).1 :=
        writeFrame_silent answer _ _
      split
      · next hw =>
        rw [hw] at hwrite
        exact .silent (hclosing.trans hwrite)
      · next sent hw =>
        rw [hw] at hwrite
        have hfire : Effect cfg late (sent.andThen [.endSocket])
            ((sent.andThen [.endSocket]).fireClose cfg code reason) :=
          fireClose_effect code reason (hwrite.closing rfl)
        exact hfire.after ((hclosing.trans hwrite).trans (andThen_silent [.endSocket]))

theorem deliver_effect (hsettled : conn.closeHandled = true → conn.readyState.atLeastClosing = true)
    (result : WebSocketMessageValidation) (ev : MessageEvent) :
    Effect cfg late conn (conn.deliver cfg result ev) := by
  unfold deliver
  split
  · exact .silent (Silent.refl conn)
  · next hopen =>
    split
    · exact .silent (andThen_silent _)
    · apply invoke_effect rfl
      intro _ _ hclosed
      -- the gate delivers in the OPEN state only
      have hstate := hsettled hclosed
      rw [not_not.mp hopen] at hstate
      simp [ReadyState.atLeastClosing] at hstate

theorem dispatchMessage_effect
    (hsettled : conn.closeHandled = true → conn.readyState.atLeastClosing = true)
    (schema : Option WebSocketMessageValidation) (ev : MessageEvent)
    (hlate : cfg.handler.hasBodySchema = false → cfg.handler.definesMessage = true → late) :
    Effect cfg late conn (conn.dispatchMessage cfg schema ev) := by
  unfold dispatchMessage
  split
  · unfold gatePush
    split
    · exact .silent ⟨rfl, rfl, id⟩
    split
    · exact deliver_effect hsettled _ ev
    · exact .silent ⟨rfl, rfl, id⟩
  · next hschema =>
    apply invoke_effect rfl
    intro hdef _ _
    exact hlate (by simpa using hschema) hdef

theorem onClose_effect (answer : WriteAnswer) (code : ℕ) (reason : Unicode.JsString) :
    Effect cfg late conn (conn.onClose cfg answer code reason) := by
  have hclosing : Silent conn { conn with readyState := .closing } := ⟨rfl, rfl, fun _ => rfl⟩
  have hclosed (c : NodeWebSocketConnection) :
      Silent c ({ c with readyState := .closed }.andThen [.endSocket]) := ⟨rfl, rfl, fun _ => rfl⟩
  unfold onClose
  dsimp only
  refine (fireClose_effect code reason rfl).after (Silent.trans ?_ (hclosed _))
  split
  · split
    · exact hclosing.trans (writeFrame_silent answer _ _)
    split
    · exact hclosing
    · exact hclosing.trans (writeFrame_silent answer _ _)
  · exact Silent.refl conn

theorem onSinkEvent_effect
    (hsettled : conn.closeHandled = true → conn.readyState.atLeastClosing = true)
    (answer : WriteAnswer) (schema : Option WebSocketMessageValidation) (ev : SinkEvent)
    (hmessage : (∃ m, ev = .onMessage m) → cfg.handler.hasBodySchema = false →
      cfg.handler.definesMessage = true → late)
    (herror : (∃ e, ev = .onProtocolError e) → cfg.handler.definesError = true → late) :
    Effect cfg late conn (conn.onSinkEvent cfg answer schema ev) := by
  cases ev with
  | onMessage m => exact dispatchMessage_effect hsettled schema m (hmessage ⟨m, rfl⟩)
  | onPing payload => exact .silent (writeFrame_silent answer _ payload)
  | onPong payload => exact .silent (Silent.refl conn)
  | onClose code reason => exact onClose_effect answer code reason
  | onProtocolError e =>
    refine Effect.after (andThen_silent _) (invoke_effect rfl ?_)
    intro hdef _ _
    exact herror ⟨e, rfl⟩ hdef

theorem invokeError_effect (err : HandlerError) (hlate : cfg.handler.definesError = true → late) :
    Effect cfg late conn (conn.invokeError cfg err) := by
  apply invoke_effect rfl
  intro hdef _ _
  exact hlate hdef

theorem called_effect (answer : WriteAnswer) (c : ConnectionCall) :
    Effect cfg late conn (conn.called cfg answer c) := by
  have hcontrol (opcode : ℕ) (data : Option MessageData) :
      Silent conn (conn.controlFrame cfg answer opcode data).1 := by
    unfold controlFrame
    dsimp only
    split
    · exact Silent.refl conn
    split
    · exact Silent.refl conn
    · exact writeFrame_silent answer _ _
  cases c with
  | send data =>
    unfold called send
    dsimp only
    split
    · exact .silent (Silent.refl conn)
    · exact .silent (writeFrame_silent answer _ _)
  | close code reason => exact close_effect answer code reason
  | ping data => exact .silent (hcontrol _ data)
  | pong data => exact .silent (hcontrol _ data)
  | terminate => exact .silent terminate_silent

theorem step_effect {l : ConnectionStep}
    (hsettled : conn.closeHandled = true → conn.readyState.atLeastClosing = true)
    (hs : conn.step cfg l = some conn') :
    Effect cfg (conn.disturbs cfg l = true) conn conn' := by
  cases l with
  | call c answer =>
    simp only [step, Option.ite_none_right_eq_some, Option.some.injEq] at hs
    obtain ⟨-, rfl⟩ := hs
    exact called_effect answer c
  | callbackEnds how =>
    simp only [step] at hs
    split at hs
    · next call rest hstack =>
      obtain rfl := Option.some.inj hs
      have hpop : Silent conn { conn with stack := rest } := ⟨rfl, rfl, id⟩
      cases call with
      | message ev =>
        cases how with
        | returned => exact .silent hpop
        | threw =>
          exact (invokeError_effect .thrown fun h => by simpa [disturbs, hstack] using h).after hpop
        | promised => exact .silent ⟨rfl, rfl, id⟩
      | «open» =>
        cases how with
        | returned => exact .silent hpop
        | threw =>
          exact (invokeError_effect .thrown fun h => by simpa [disturbs, hstack] using h).after
            (hpop.trans (andThen_silent [.terminate]))
        | promised => exact .silent ⟨rfl, rfl, id⟩
      | close code reason => exact .silent hpop
      | error err => exact .silent hpop
      | drain => exact .silent hpop
    · simp at hs
  | resume answer schema =>
    simp only [step] at hs
    split at hs
    · next frame rest hstack =>
      have hpop : Silent conn { conn with stack := rest } := ⟨rfl, rfl, id⟩
      cases frame with
      | callback call => simp [resumed] at hs
      | sinkEvent ev =>
        obtain rfl := Option.some.inj hs
        refine Effect.after hpop (onSinkEvent_effect (by exact hsettled) answer schema ev ?_ ?_)
        · rintro ⟨m, rfl⟩ hschema hdef
          simp [disturbs, hstack, hschema, hdef]
        · rintro ⟨e, rfl⟩ hdef
          simp [disturbs, hstack, hdef]
      | close code reason =>
        obtain rfl := Option.some.inj hs
        exact (close_effect answer code reason).after hpop
      | endSocket =>
        obtain rfl := Option.some.inj hs
        exact .silent ⟨rfl, rfl, id⟩
      | terminate =>
        obtain rfl := Option.some.inj hs
        exact .silent (hpop.trans terminate_silent)
    · simp at hs
  | callOpen =>
    simp only [step, Option.ite_none_right_eq_some, Option.some.injEq] at hs
    obtain ⟨-, rfl⟩ := hs
    have hphase : Silent conn { conn with openPhase := .settled } := ⟨rfl, rfl, id⟩
    exact Effect.after hphase (invoke_effect rfl fun _ hlife => by simp [HandlerCall.isLifecycle] at hlife)
  | openSettles rejected =>
    simp only [step, Option.ite_none_right_eq_some, Option.some.injEq] at hs
    obtain ⟨-, rfl⟩ := hs
    have hphase : Silent conn { conn with openPhase := .settled } := ⟨rfl, rfl, id⟩
    cases rejected with
    | true =>
      rw [if_pos rfl]
      exact Effect.after (hphase.trans (andThen_silent [.terminate]))
        (invokeError_effect .thrown fun hdef => hdef)
    | false => exact .silent hphase
  | messageSettles rejected =>
    simp only [step, Option.ite_none_right_eq_some, Option.some.injEq] at hs
    obtain ⟨-, rfl⟩ := hs
    have hcount : Silent conn { conn with messagePromises := conn.messagePromises - 1 } :=
      ⟨rfl, rfl, id⟩
    cases rejected with
    | true =>
      rw [if_pos rfl]
      exact Effect.after hcount (invokeError_effect .thrown fun hdef => hdef)
    | false => exact .silent hcount
  | chunk bytes =>
    simp only [step, Option.ite_none_right_eq_some, Option.some.injEq] at hs
    obtain ⟨-, rfl⟩ := hs
    unfold ingest
    split
    · exact .silent (Silent.refl conn)
    · exact .silent ⟨rfl, rfl, id⟩
  | socketClose =>
    simp only [step, Option.ite_none_right_eq_some, Option.some.injEq] at hs
    obtain ⟨-, rfl⟩ := hs
    have hclosed : Silent conn { conn with readyState := .closed } := ⟨rfl, rfl, fun _ => rfl⟩
    exact Effect.after hclosed (fireClose_effect _ _ rfl)
  | socketError =>
    simp only [step, Option.ite_none_right_eq_some, Option.some.injEq] at hs
    obtain ⟨-, rfl⟩ := hs
    unfold handleSocketError
    split
    · exact .silent terminate_silent
    · next hquiet =>
      rw [not_or] at hquiet
      refine (invoke_effect rfl ?_).after (andThen_silent [.terminate])
      intro _ _ hclosed
      exact absurd hclosed hquiet.1
  | socketDrain =>
    simp only [step, Option.ite_none_right_eq_some, Option.some.injEq] at hs
    obtain ⟨-, rfl⟩ := hs
    have hcount : Silent conn { conn with drainListeners := conn.drainListeners - 1 } :=
      ⟨rfl, rfl, id⟩
    exact Effect.after hcount (invoke_effect rfl fun _ hlife => by simp [HandlerCall.isLifecycle] at hlife)
  | validated result =>
    simp only [step] at hs
    split at hs
    · next ev waiting hstack hqueue =>
      obtain ⟨verdict, -, rfl⟩ := Option.map_eq_some_iff.mp hs
      have hqueue : Silent conn { conn with gateQueue := waiting } := ⟨rfl, rfl, id⟩
      exact Effect.after hqueue (deliver_effect (by exact hsettled) verdict ev)
    · simp at hs
  | gateIdle =>
    simp only [step, Option.ite_none_right_eq_some, Option.some.injEq] at hs
    obtain ⟨-, rfl⟩ := hs
    exact .silent ⟨rfl, rfl, id⟩

theorem disturbs_calls {l : ConnectionStep} (hd : conn.disturbs cfg l = true)
    (hs : conn.step cfg l = some conn') :
    ∃ call, call.isLifecycle = true ∧ conn'.calls = conn.calls ++ [call] := by
  have hinvoke {c : NodeWebSocketConnection} {call : HandlerCall} (hcalls : c.calls = conn.calls)
      (hdef : cfg.handler.defines call = true) :
      (c.invoke cfg call).calls = conn.calls ++ [call] := by
    rw [invoke, if_pos hdef, hcalls]
  cases l with
  | resume answer schema =>
    simp only [step] at hs
    unfold disturbs at hd
    split at hs
    · next frame rest hstack =>
      rw [hstack] at hd
      dsimp only at hd
      split at hd
      · next m _ heq =>
        obtain ⟨rfl, rfl⟩ := List.cons.inj heq
        simp only [Bool.and_eq_true, Bool.not_eq_true'] at hd
        obtain rfl := Option.some.inj hs
        refine ⟨.message m, rfl, ?_⟩
        rw [onSinkEvent, dispatchMessage, if_neg (by simp [hd.1])]
        exact hinvoke rfl hd.2
      · next e _ heq =>
        obtain ⟨rfl, rfl⟩ := List.cons.inj heq
        obtain rfl := Option.some.inj hs
        exact ⟨.error (.protocol e), rfl, hinvoke rfl hd⟩
      · simp at hd
    · simp at hs
  | callbackEnds how =>
    cases how with
    | threw =>
      simp only [step] at hs
      unfold disturbs at hd
      dsimp only at hd
      split at hs
      · next call rest hstack =>
        obtain rfl := Option.some.inj hs
        rw [hstack] at hd
        refine ⟨.error .thrown, rfl, ?_⟩
        cases call with
        | message ev => exact hinvoke rfl hd
        | «open» => exact hinvoke rfl hd
        | close code reason => simp at hd
        | error err => simp at hd
        | drain => simp at hd
      · simp at hs
    | returned => simp [disturbs] at hd
    | promised => simp [disturbs] at hd
  | openSettles rejected =>
    cases rejected with
    | true =>
      simp only [step, Option.ite_none_right_eq_some, Option.some.injEq] at hs
      obtain ⟨-, rfl⟩ := hs
      exact ⟨.error .thrown, rfl, hinvoke rfl hd⟩
    | false => simp [disturbs] at hd
  | messageSettles rejected =>
    cases rejected with
    | true =>
      simp only [step, Option.ite_none_right_eq_some, Option.some.injEq] at hs
      obtain ⟨-, rfl⟩ := hs
      exact ⟨.error .thrown, rfl, hinvoke rfl hd⟩
    | false => simp [disturbs] at hd
  | call c answer => simp [disturbs] at hd
  | callOpen => simp [disturbs] at hd
  | chunk bytes => simp [disturbs] at hd
  | socketClose => simp [disturbs] at hd
  | socketError => simp [disturbs] at hd
  | socketDrain => simp [disturbs] at hd
  | validated result => simp [disturbs] at hd
  | gateIdle => simp [disturbs] at hd

/-! ## Runs -/

def Settled (conn : NodeWebSocketConnection) : Prop :=
  conn.closeHandled = true → conn.readyState.atLeastClosing = true

theorem settled_step {l : ConnectionStep} (h : Settled conn) (hs : conn.step cfg l = some conn') :
    Settled conn' := by
  cases step_effect h hs with
  | silent hsilent =>
    intro hclosed
    exact hsilent.closing (h (hsilent.closeHandled ▸ hclosed))
  | closes code reason hfirst hhandled hclosing hcalls => exact fun _ => hclosing
  | invokes call hcalls hhandled hother hclosing hlate =>
    intro hclosed
    exact hclosing (h (hhandled ▸ hclosed))

theorem calls_step {l : ConnectionStep} (h : Settled conn) (hs : conn.step cfg l = some conn') :
    ∃ later, conn'.calls = conn.calls ++ later := by
  cases step_effect h hs with
  | silent hsilent => exact ⟨[], by rw [hsilent.calls, List.append_nil]⟩
  | closes code reason _ _ _ hcalls => exact ⟨_, hcalls⟩
  | invokes call hcalls => exact ⟨[call], hcalls⟩

theorem calls_run {steps : List ConnectionStep} (h : Settled conn)
    (hrun : run (step cfg) conn steps = some conn') :
    ∃ later, conn'.calls = conn.calls ++ later := by
  induction steps generalizing conn with
  | nil =>
    obtain rfl : conn = conn' := by simpa using hrun
    exact ⟨[], (List.append_nil _).symm⟩
  | cons l steps ih =>
    obtain ⟨mid, hmid, hrest⟩ := run_cons_eq_some.mp hrun
    obtain ⟨first, hfirst⟩ := calls_step h hmid
    obtain ⟨later, hlater⟩ := ih (settled_step h hmid) hrest
    exact ⟨first ++ later, by rw [hlater, hfirst, List.append_assoc]⟩

/-- The calls made so far are quiet, and tell whether `close()` has been invoked. -/
structure Inv (cfg : ConnectionConfig) (conn : NodeWebSocketConnection) : Prop where
  quiet : Quiet conn.calls
  invoked : (∃ call ∈ conn.calls, call.isClose = true) ↔ conn.closeInvoked cfg = true
  settled : Settled conn

theorem inv_fresh : Inv cfg {} := by
  refine ⟨List.Pairwise.nil, ?_, ?_⟩
  · simp [closeInvoked]
  · intro h
    simp at h

theorem inv_step (conn : NodeWebSocketConnection) (l : ConnectionStep)
    (conn' : NodeWebSocketConnection) (hspares : Spares cfg conn l) (h : Inv cfg conn)
    (hs : conn.step cfg l = some conn') : Inv cfg conn' := by
  have hinvoked := h.invoked
  unfold closeInvoked at hinvoked
  refine ⟨?_, ?_, settled_step h.settled hs⟩
  · cases step_effect h.settled hs with
    | silent hsilent =>
      rw [hsilent.calls]
      exact h.quiet
    | closes code reason hfirst hhandled hclosing hcalls =>
      rw [hcalls]
      split
      · refine quiet_append.mpr ⟨h.quiet, ?_⟩
        intro before hbefore hclose
        have := hinvoked.mp ⟨before, hbefore, hclose⟩
        simp [hfirst] at this
      · rw [List.append_nil]
        exact h.quiet
    | invokes call hcalls hhandled hother hclosing hlate =>
      rw [hcalls]
      refine quiet_append.mpr ⟨h.quiet, ?_⟩
      intro before hbefore hclose
      have hcloseInvoked := h.invoked.mp ⟨before, hbefore, hclose⟩
      have hdone : conn.closeHandled = true :=
        ((Bool.and_eq_true _ _).mp hcloseInvoked).1
      by_contra hlife
      have hdisturbs := hlate (by simpa using hlife) hdone
      rw [hspares hcloseInvoked] at hdisturbs
      simp at hdisturbs
  · cases step_effect h.settled hs with
    | silent hsilent =>
      rw [closeInvoked, hsilent.calls, hsilent.closeHandled]
      exact hinvoked
    | closes code reason hfirst hhandled hclosing hcalls =>
      have hnone : ¬ ∃ call ∈ conn.calls, call.isClose = true := by
        rw [hinvoked, hfirst]
        simp
      rw [closeInvoked, hcalls, hhandled, Bool.true_and]
      cases hdef : cfg.handler.definesClose with
      | true => exact ⟨fun _ => rfl, fun _ => ⟨.close code reason, by simp, rfl⟩⟩
      | false => simpa using hnone
    | invokes call hcalls hhandled hother hclosing hlate =>
      rw [closeInvoked, hcalls, hhandled, ← hinvoked]
      simp [hother]

theorem allSteps_of_quiet {steps : List ConnectionStep} (h : Inv cfg conn)
    (hrun : run (step cfg) conn steps = some conn') (hquiet : Quiet conn'.calls) :
    AllSteps (step cfg) (Spares cfg) conn steps := by
  induction steps generalizing conn with
  | nil => trivial
  | cons l steps ih =>
    obtain ⟨mid, hmid, hrest⟩ := run_cons_eq_some.mp hrun
    have hspares : Spares cfg conn l := by
      intro hinvoked
      by_contra hdisturbs
      obtain ⟨before, hbefore, hclose⟩ := h.invoked.mpr hinvoked
      obtain ⟨call, hlife, hcalls⟩ := disturbs_calls (by simpa using hdisturbs) hmid
      obtain ⟨later, hlater⟩ := calls_run (settled_step h.settled hmid) hrest
      rw [hlater] at hquiet
      have hmidQuiet : Quiet mid.calls := (List.pairwise_append.mp hquiet).1
      rw [hcalls] at hmidQuiet
      have hnot := (quiet_append.mp hmidQuiet).2 before hbefore hclose
      rw [hlife] at hnot
      simp at hnot
    refine ⟨hspares, ?_⟩
    intro mid' hmid'
    obtain rfl : mid = mid' := Option.some.inj (hmid.symm.trans hmid')
    exact ih (inv_step conn l mid hspares h hmid) hrest

/-- **A run is quiet exactly when its steps spare the closed connection.** -/
theorem quiet_iff (cfg : ConnectionConfig) (steps : List ConnectionStep)
    (conn : NodeWebSocketConnection) (hrun : run (step cfg) {} steps = some conn) :
    Quiet conn.calls ↔ AllSteps (step cfg) (Spares cfg) {} steps := by
  constructor
  · intro hquiet
    exact allSteps_of_quiet inv_fresh hrun hquiet
  · intro hspares
    exact (run_invariant inv_step inv_fresh hspares hrun).quiet

def plainConfig : ConnectionConfig := ⟨{}, ⟨1048576, 1048576, false⟩⟩

theorem quiet_iff_messageThenClose :
    ∃ conn, run (step plainConfig) {}
        [.callOpen, .callbackEnds .returned, .chunk [0x81, 0x81, 0, 0, 0, 0, 0x61],
          .resume {} none, .call (.close 1000 []) {}, .callbackEnds .returned, .resume {} none,
          .callbackEnds .returned, .socketClose] = some conn ∧ Quiet conn.calls := by
  have hrun : (run (step plainConfig) {}
      [.callOpen, .callbackEnds .returned, .chunk [0x81, 0x81, 0, 0, 0, 0, 0x61],
        .resume {} none, .call (.close 1000 []) {}, .callbackEnds .returned, .resume {} none,
        .callbackEnds .returned, .socketClose]).isSome = true := by decide
  obtain ⟨conn, hconn⟩ := Option.isSome_iff_exists.mp hrun
  exact ⟨conn, hconn, (quiet_iff plainConfig _ conn hconn).mpr (by decide)⟩

theorem message_after_close :
    ∃ conn, run (step plainConfig) {}
        [.callOpen, .callbackEnds .returned, .call (.close 1000 []) {}, .callbackEnds .returned,
          .resume {} none, .chunk [0x81, 0x81, 0, 0, 0, 0, 0x61], .resume {} none] = some conn ∧
      conn.calls = [.open, .close 1000 [], .message ⟨.text [0x61], false⟩] ∧
      ¬ Quiet conn.calls := by
  have hrun : (run (step plainConfig) {}
      [.callOpen, .callbackEnds .returned, .call (.close 1000 []) {}, .callbackEnds .returned,
        .resume {} none, .chunk [0x81, 0x81, 0, 0, 0, 0, 0x61], .resume {} none]).map (·.calls) =
      some [.open, .close 1000 [], .message ⟨.text [0x61], false⟩] := by decide
  obtain ⟨conn, hconn, hcalls⟩ := Option.map_eq_some_iff.mp hrun
  refine ⟨conn, hconn, hcalls, ?_⟩
  rw [hcalls]
  decide

end NodeWebSocketConnection

end Daloy.WebSocket
