import Daloy.Foundations.Logs
import Daloy.Foundations.Runs
import Mathlib.Algebra.Order.Ring.Int

/-! # Graceful shutdown

`App.shutdown` and `App.close` of `src/app.ts`, with any number of calls at once.

* `shutdown_ordered`: listeners come before the close hooks, each close hook is called once and no
  call ends before they have settled, if every close hook returns and no drain ends out of turn
  (`InTurn`). Once all calls have ended, only if.
* `second_call_overtakes`: a second call starts the close hooks while a listener is pending.

A call is numbered by its place among the calls. What it does between two of its `await`s is one
step. A callback that throws where it is called is told from one whose promise rejects.
-/

namespace Daloy.Shutdown
set_option autoImplicit false

open Daloy.Runs

/-- What a listener or a close hook does when it is called. -/
inductive Callback
  | returns
  | throws
  | rejects
  deriving DecidableEq, Repr

/-- What `App.onShutdown` and `App.onClose` have registered, and the adapters' hooks. -/
structure Registrations where
  shutdownListeners : List Callback
  closeHooks : List Callback
  idleConnectionCloseHooks : List Callback

inductive Entry
  | listenerStarted (i : ℕ)
  | listenerSettled (i : ℕ)
  | listenerFailedLogged (i : ℕ)
  | idleHookCalled (i : ℕ)
  | idleHookFailedLogged (i : ℕ)
  | hookStarted (i : ℕ)
  | hookSettled (i : ℕ)
  | resolved (call : ℕ)
  | rejected (call : ℕ)
  deriving DecidableEq, Repr

inductive Phase
  | listening (listener : ℕ) (timeoutMs : ℤ)
  | draining (start : ℤ) (timeoutMs : ℤ)
  | closing (hook : ℕ)
  | resolved
  | rejected
  deriving DecidableEq, Repr

def Phase.isListening : Phase → Bool
  | .listening .. => true
  | _ => false

def Phase.isClosing : Phase → Bool
  | .closing _ => true
  | _ => false

def Phase.isOver : Phase → Bool
  | .resolved | .rejected => true
  | _ => false

structure State where
  draining : Bool := false
  shutdownListenersRun : Bool := false
  closeHooksRun : Bool := false
  inflight : ℕ := 0
  calls : List Phase := []
  log : List Entry := []

/-- The readings of the clock are the start of the drain and the one its loop compares with. -/
inductive Label
  | fetch
  | settle
  | shutdown (timeoutMs : ℤ) (start now : ℤ)
  | listenerSettles (call : ℕ) (start now : ℤ)
  | timer (call : ℕ) (now : ℤ)
  | hookSettles (call : ℕ)
  deriving DecidableEq, Repr

namespace State

def note (s : State) (entries : List Entry) : State := { s with log := s.log ++ entries }

def setPhase (s : State) (call : ℕ) (phase : Phase) : State :=
  { s with calls := s.calls.set call phase }

end State

variable (app : Registrations)

def listenerDone (i : ℕ) : Callback → List Entry
  | .returns => [.listenerSettled i]
  | .throws | .rejects => [.listenerSettled i, .listenerFailedLogged i]

/-- The loop over the listeners from the `i`-th on, up to the first one that is awaited. -/
def callListeners (i : ℕ) : List Callback → List Entry × Option ℕ
  | [] => ([], none)
  | .throws :: rest =>
    let (entries, awaited) := callListeners (i + 1) rest
    (.listenerStarted i :: listenerDone i .throws ++ entries, awaited)
  | _ :: _ => ([.listenerStarted i], some i)

def callIdleHooks (i : ℕ) : List Callback → List Entry
  | [] => []
  | .returns :: rest => .idleHookCalled i :: callIdleHooks (i + 1) rest
  | _ :: rest => .idleHookCalled i :: .idleHookFailedLogged i :: callIdleHooks (i + 1) rest

/-- The loop over the close hooks from the `i`-th on, up to the first one that is awaited. A failure
goes to the caller. -/
def callHooks (call i : ℕ) : List Callback → List Entry × Phase
  | [] => ([.resolved call], .resolved)
  | .throws :: _ => ([.hookStarted i, .hookSettled i, .rejected call], .rejected)
  | _ :: _ => ([.hookStarted i], .closing i)

def closeFrom (s : State) (call i : ℕ) : State :=
  let (entries, phase) := callHooks call i (app.closeHooks.drop i)
  (s.note entries).setPhase call phase

def endDrain (s : State) (call : ℕ) : State :=
  if s.closeHooksRun then (s.note [.resolved call]).setPhase call .resolved
  else closeFrom app { s with closeHooksRun := true } call 0

def afterHook (s : State) (call i : ℕ) : Callback → State
  | .returns => closeFrom app (s.note [.hookSettled i]) call (i + 1)
  | .throws | .rejects => (s.note [.hookSettled i, .rejected call]).setPhase call .rejected

/-- The `while` condition of the drain. -/
def drains (s : State) (start timeoutMs now : ℤ) : Bool :=
  decide (0 < s.inflight) && decide (now - start < timeoutMs)

/-- What follows the listeners: the call is draining, and its drain may end at once. -/
def startDrain (s : State) (call : ℕ) (timeoutMs start now : ℤ) : State × Option ℕ :=
  let s := (s.note (callIdleHooks 0 app.idleConnectionCloseHooks)).setPhase call
    (.draining start timeoutMs)
  (s, if drains s start timeoutMs now then none else some call)

/-- The listeners from the `i`-th on. -/
def listen (s : State) (call i : ℕ) (timeoutMs start now : ℤ) : State × Option ℕ :=
  let (entries, awaited) := callListeners i (app.shutdownListeners.drop i)
  match awaited with
  | some listener => ((s.note entries).setPhase call (.listening listener timeoutMs), none)
  | none => startDrain app (s.note entries) call timeoutMs start now

def stepToDrain (s : State) : Label → Option (State × Option ℕ)
  | .fetch =>
    if s.draining then some (s, none) else some ({ s with inflight := s.inflight + 1 }, none)
  | .settle =>
    if s.inflight = 0 then none else some ({ s with inflight := s.inflight - 1 }, none)
  | .shutdown timeoutMs start now =>
    let call := s.calls.length
    let s := { s with draining := true, calls := s.calls ++ [.draining start timeoutMs] }
    if s.shutdownListenersRun then some (startDrain app s call timeoutMs start now)
    else some (listen app { s with shutdownListenersRun := true } call 0 timeoutMs start now)
  | .listenerSettles call start now =>
    match s.calls[call]? with
    | some (.listening i timeoutMs) => do
      let listener ← app.shutdownListeners[i]?
      some (listen app (s.note (listenerDone i listener)) call (i + 1) timeoutMs start now)
    | _ => none
  | .timer call now =>
    match s.calls[call]? with
    | some (.draining start timeoutMs) =>
      some (s, if drains s start timeoutMs now then none else some call)
    | _ => none
  | .hookSettles call =>
    match s.calls[call]? with
    | some (.closing i) => do
      let hook ← app.closeHooks[i]?
      some (afterHook app s call i hook, none)
    | _ => none

def step (s : State) (label : Label) : Option State :=
  (stepToDrain app s label).map fun
    | (s, some call) => endDrain app s call
    | (s, none) => s

/-! ## What is asked for -/

def Cause : Entry → List Entry → Prop
  | .hookStarted _, before => ∀ i < app.shutdownListeners.length, .listenerSettled i ∈ before
  | .resolved _, before => ∀ i < app.closeHooks.length, .hookSettled i ∈ before
  | .rejected _, _ => False
  | _, _ => True

def Over (s : State) : Prop := s.calls ≠ [] ∧ ∀ phase ∈ s.calls, phase.isOver = true

structure Graceful (s : State) : Prop where
  causes : Justified (Cause app) s.log
  atMostOnce : ∀ i, s.log.count (.hookStarted i) ≤ 1
  all : Over s → ∀ i < app.closeHooks.length, .hookStarted i ∈ s.log

/-- When the drain of a call ends, no listener is pending that close hooks would overtake, and no
call is running the close hooks. -/
def InTurn (s : State) (label : Label) : Prop :=
  ∀ s' call, stepToDrain app s label = some (s', some call) →
    (s'.closeHooksRun = false → app.closeHooks ≠ [] →
        ∀ phase ∈ s'.calls, phase.isListening = false) ∧
      ∀ phase ∈ s'.calls, phase.isClosing = false

instance (s : State) (label : Label) : Decidable (InTurn app s label) :=
  match h : stepToDrain app s label with
  | none => .isTrue (by simp [InTurn, h])
  | some (_, none) => .isTrue (by simp [InTurn, h])
  | some (t, some _) =>
    decidable_of_iff ((t.closeHooksRun = false → app.closeHooks.isEmpty = false →
        ∀ phase ∈ t.calls, phase.isListening = false) ∧ ∀ phase ∈ t.calls, phase.isClosing = false)
      (by simp [InTurn, h, List.isEmpty_eq_false_iff])

instance (s : State) : Decidable (Over s) :=
  decidable_of_iff (s.calls.isEmpty = false ∧ ∀ phase ∈ s.calls, phase.isOver = true)
    (by simp [Over, List.isEmpty_eq_false_iff])

/-! ## What a step leaves alone -/

def Entry.isQuiet : Entry → Bool
  | .hookStarted _ | .hookSettled _ | .resolved _ | .rejected _ => false
  | _ => true

def Phase.isEarly : Phase → Bool
  | .listening .. | .draining .. => true
  | _ => false

/-- Up to the end of a drain: the calls that run close hooks or are over are the same. -/
structure Quiet (s s' : State) : Prop where
  run : s'.closeHooksRun = s.closeHooksRun
  log : ∃ entries, s'.log = s.log ++ entries ∧ ∀ e ∈ entries, e.isQuiet = true
  calls : ∀ (call : ℕ) (phase : Phase), phase.isEarly = false → (s'.calls[call]? = some phase ↔
    s.calls[call]? = some phase)

namespace Quiet
variable {s s' s'' : State}

theorem refl (s : State) : Quiet s s := ⟨rfl, ⟨[], by simp⟩, fun _ _ _ => .rfl⟩

theorem trans (h : Quiet s s') (h' : Quiet s' s'') : Quiet s s'' := by
  obtain ⟨es, hlog, hes⟩ := h.log
  obtain ⟨es', hlog', hes'⟩ := h'.log
  refine ⟨h'.run.trans h.run, ⟨es ++ es', ?_, ?_⟩, ?_⟩
  · rw [hlog', hlog, List.append_assoc]
  · intro e he
    rcases List.mem_append.mp he with he | he
    · exact hes e he
    · exact hes' e he
  · intro call phase hphase
    exact (h'.calls call phase hphase).trans (h.calls call phase hphase)

theorem note {entries : List Entry} (h : ∀ e ∈ entries, e.isQuiet = true) (s : State) :
    Quiet s (s.note entries) :=
  ⟨rfl, ⟨entries, rfl, h⟩, fun _ _ _ => .rfl⟩

theorem setPhase {call : ℕ} {phase : Phase} (hphase : phase.isEarly = true)
    (hold : ∀ old, s.calls[call]? = some old → old.isEarly = true) :
    Quiet s (s.setPhase call phase) := by
  refine ⟨rfl, ⟨[], by simp [State.setPhase]⟩, ?_⟩
  intro call' phase' hlate
  show (s.calls.set call phase)[call']? = some phase' ↔ _
  rw [List.getElem?_set]
  by_cases heq : call = call'
  · subst heq
    rw [if_pos rfl]
    have hnot : s.calls[call]? ≠ some phase' := by
      intro hsome
      rw [hold phase' hsome] at hlate
      exact Bool.false_ne_true hlate.symm
    refine iff_of_false ?_ hnot
    split
    · intro hsome
      rw [← Option.some.inj hsome, hphase] at hlate
      exact Bool.false_ne_true hlate.symm
    · simp
  · rw [if_neg heq]

end Quiet

theorem quiet_listenerDone (i : ℕ) (callback : Callback) :
    ∀ e ∈ listenerDone i callback, e.isQuiet = true := by
  cases callback <;> simp [listenerDone, Entry.isQuiet]

theorem listenerSettled_mem_listenerDone (i j : ℕ) (callback : Callback) :
    .listenerSettled j ∈ listenerDone i callback ↔ j = i := by
  cases callback <;> simp [listenerDone]

theorem quiet_callIdleHooks (i : ℕ) (hooks : List Callback) :
    ∀ e ∈ callIdleHooks i hooks, e.isQuiet = true ∧ ∀ j, e ≠ .listenerSettled j := by
  induction hooks generalizing i with
  | nil => simp [callIdleHooks]
  | cons hook hooks ih => cases hook <;> simpa [callIdleHooks, Entry.isQuiet] using ih (i + 1)

theorem callListeners_spec (i : ℕ) (rest : List Callback) :
    (∀ e ∈ (callListeners i rest).1, e.isQuiet = true) ∧
    match (callListeners i rest).2 with
    | some k => i ≤ k ∧ k < i + rest.length ∧
        ∀ j, .listenerSettled j ∈ (callListeners i rest).1 ↔ i ≤ j ∧ j < k
    | none => ∀ j, .listenerSettled j ∈ (callListeners i rest).1 ↔ i ≤ j ∧ j < i + rest.length := by
  induction rest generalizing i with
  | nil => simp [callListeners]
  | cons callback rest ih =>
    cases callback with
    | returns => simp [callListeners, Entry.isQuiet]
    | rejects => simp [callListeners, Entry.isQuiet]
    | throws =>
      obtain ⟨hquiet, hspec⟩ := ih (i + 1)
      have hentries : (callListeners i (.throws :: rest)).1 =
          .listenerStarted i :: listenerDone i .throws ++ (callListeners (i + 1) rest).1 := rfl
      have hawaited : (callListeners i (.throws :: rest)).2 = (callListeners (i + 1) rest).2 := rfl
      have hmem (j : ℕ) : .listenerSettled j ∈ (callListeners i (.throws :: rest)).1 ↔
          j = i ∨ .listenerSettled j ∈ (callListeners (i + 1) rest).1 := by
        rw [hentries]
        simp [listenerSettled_mem_listenerDone]
      refine ⟨?_, ?_⟩
      · intro e he
        rw [hentries, List.cons_append, List.mem_cons, List.mem_append] at he
        rcases he with rfl | he | he
        · rfl
        · exact quiet_listenerDone i .throws e he
        · exact hquiet e he
      · rw [hawaited]
        cases hk : (callListeners (i + 1) rest).2 with
        | none =>
          rw [hk] at hspec
          intro j
          rw [hmem, hspec, List.length_cons]
          omega
        | some k =>
          rw [hk] at hspec
          obtain ⟨hle, hlt, hsettled⟩ := hspec
          refine ⟨by omega, by rw [List.length_cons]; omega, ?_⟩
          intro j
          rw [hmem, hsettled]
          omega

/-! ## Listeners -/

/-- A listener is awaited by one call at most, after those before it have settled. -/
structure Heard (s : State) : Prop where
  fresh : s.shutdownListenersRun = false → s.calls = [] ∧ ∀ j, .listenerSettled j ∉ s.log
  pending : ∀ (call i : ℕ) (timeoutMs : ℤ), s.calls[call]? = some (.listening i timeoutMs) →
    i < app.shutdownListeners.length ∧ ∀ j, .listenerSettled j ∈ s.log ↔ j < i
  only : ∀ (call call' i i' : ℕ) (t t' : ℤ), s.calls[call]? = some (.listening i t) →
    s.calls[call']? = some (.listening i' t') → call = call'
  progress : s.shutdownListenersRun = true →
    (∃ (call i : ℕ) (timeoutMs : ℤ), s.calls[call]? = some (.listening i timeoutMs)) ∨
      ∀ j < app.shutdownListeners.length, .listenerSettled j ∈ s.log

variable {app : Registrations}

theorem heard_init : Heard app {} := by
  refine ⟨fun _ => ⟨rfl, by simp⟩, ?_, ?_, ?_⟩
  · intro call i t h
    simp at h
  · intro call call' i i' t t' h
    simp at h
  · intro h
    exact absurd h Bool.false_ne_true

theorem Heard.frame {s s' : State} (h : Heard app s)
    (hrun : s'.shutdownListenersRun = s.shutdownListenersRun)
    (hfresh : s.shutdownListenersRun = true ∨ s'.calls = s.calls)
    (hcalls : ∀ (call i : ℕ) (t : ℤ), s'.calls[call]? = some (.listening i t) ↔
      s.calls[call]? = some (.listening i t))
    (hlog : ∀ j, .listenerSettled j ∈ s'.log ↔ .listenerSettled j ∈ s.log) : Heard app s' := by
  refine ⟨?_, ?_, ?_, ?_⟩
  · intro hnot
    rw [hrun] at hnot
    obtain ⟨hnil, hnone⟩ := h.fresh hnot
    refine ⟨?_, ?_⟩
    · rcases hfresh with hfresh | hfresh
      · rw [hnot] at hfresh
        exact absurd hfresh Bool.false_ne_true
      · rw [hfresh, hnil]
    · intro j hmem
      exact hnone j ((hlog j).mp hmem)
  · intro call i t hcall
    obtain ⟨hlt, hsettled⟩ := h.pending call i t ((hcalls call i t).mp hcall)
    exact ⟨hlt, fun j => (hlog j).trans (hsettled j)⟩
  · intro call call' i i' t t' hcall hcall'
    exact h.only call call' i i' t t' ((hcalls call i t).mp hcall) ((hcalls call' i' t').mp hcall')
  · intro hyes
    rw [hrun] at hyes
    rcases h.progress hyes with ⟨call, i, t, hcall⟩ | hall
    · exact .inl ⟨call, i, t, (hcalls call i t).mpr hcall⟩
    · exact .inr fun j hj => (hlog j).mpr (hall j hj)

theorem getElem?_setPhase (s : State) (call call' : ℕ) (phase : Phase) :
    (s.setPhase call phase).calls[call']? =
      if call = call' then (if call < s.calls.length then some phase else none)
      else s.calls[call']? := List.getElem?_set ..

theorem heard_setPhase {s : State} {call : ℕ} {phase : Phase} (h : Heard app s)
    (hrun : s.shutdownListenersRun = true) (hphase : phase.isListening = false)
    (hold : ∀ old, s.calls[call]? = some old → old.isListening = false) :
    Heard app (s.setPhase call phase) := by
  refine h.frame rfl (.inl hrun) ?_ fun _ => .rfl
  intro call' i t
  rw [getElem?_setPhase]
  by_cases heq : call = call'
  · subst heq
    rw [if_pos rfl]
    refine iff_of_false ?_ ?_
    · split
      · intro hsome
        rw [Option.some.inj hsome] at hphase
        exact Bool.false_ne_true hphase.symm
      · simp
    · intro hsome
      exact Bool.false_ne_true (hold _ hsome).symm
  · rw [if_neg heq]

theorem heard_startDrain {s : State} {call : ℕ} {timeoutMs start now : ℤ} (h : Heard app s)
    (hrun : s.shutdownListenersRun = true)
    (hold : ∀ old, s.calls[call]? = some old → old.isListening = false) :
    Heard app (startDrain app s call timeoutMs start now).1 := by
  show Heard app ((s.note (callIdleHooks 0 app.idleConnectionCloseHooks)).setPhase call
    (.draining start timeoutMs))
  refine heard_setPhase ?_ hrun rfl hold
  refine h.frame rfl (.inr rfl) (fun _ _ _ => .rfl) ?_
  intro j
  show _ ∈ s.log ++ _ ↔ _
  rw [List.mem_append]
  constructor
  · rintro (hmem | hmem)
    · exact hmem
    · exact absurd rfl ((quiet_callIdleHooks 0 _ _ hmem).2 j)
  · exact .inl

theorem listen_awaited {s : State} {i k : ℕ} (call : ℕ) (timeoutMs start now : ℤ)
    (h : (callListeners i (app.shutdownListeners.drop i)).2 = some k) :
    listen app s call i timeoutMs start now =
      ((s.note (callListeners i (app.shutdownListeners.drop i)).1).setPhase call
        (.listening k timeoutMs), none) := by
  rw [listen]
  split
  next entries awaited hloop =>
    rw [hloop] at h
    obtain rfl : awaited = some k := h
    rw [hloop]

theorem listen_done {s : State} {i : ℕ} (call : ℕ) (timeoutMs start now : ℤ)
    (h : (callListeners i (app.shutdownListeners.drop i)).2 = none) :
    listen app s call i timeoutMs start now =
      startDrain app (s.note (callListeners i (app.shutdownListeners.drop i)).1) call timeoutMs
        start now := by
  rw [listen]
  split
  next entries awaited hloop =>
    rw [hloop] at h
    obtain rfl : awaited = none := h
    rw [hloop]

theorem heard_listen {s : State} {call i : ℕ} {timeoutMs start now : ℤ}
    (hrun : s.shutdownListenersRun = true) (hcall : call < s.calls.length)
    (hi : i ≤ app.shutdownListeners.length) (hlog : ∀ j, .listenerSettled j ∈ s.log ↔ j < i)
    (hothers : ∀ (call' k : ℕ) (t : ℤ), call' ≠ call → s.calls[call']? ≠ some (.listening k t)) :
    Heard app (listen app s call i timeoutMs start now).1 := by
  obtain ⟨-, hspec⟩ := callListeners_spec i (app.shutdownListeners.drop i)
  cases hawaited : (callListeners i (app.shutdownListeners.drop i)).2 with
  | some k =>
    rw [hawaited] at hspec
    rw [listen_awaited call timeoutMs start now hawaited]
    obtain ⟨hle, hlt, hsettled⟩ := hspec
    rw [List.length_drop] at hlt
    generalize (callListeners i (app.shutdownListeners.drop i)).1 = entries at hsettled
    have hpending : ∀ (call' i' : ℕ) (t : ℤ), ((s.note entries).setPhase call
        (.listening k timeoutMs)).calls[call']? = some (.listening i' t) →
        call' = call ∧ i' = k := by
      intro call' i' t h
      rw [getElem?_setPhase] at h
      by_cases heq : call = call'
      · rw [if_pos heq] at h
        split at h
        · cases h
          exact ⟨heq.symm, rfl⟩
        · simp at h
      · rw [if_neg heq] at h
        exact absurd h (hothers call' i' t fun h => heq h.symm)
    refine ⟨?_, ?_, ?_, ?_⟩
    · intro hnot
      exact absurd (hrun.symm.trans hnot) Bool.false_ne_true.symm
    · intro call' i' t h
      obtain ⟨rfl, rfl⟩ := hpending call' i' t h
      refine ⟨by omega, ?_⟩
      intro j
      show _ ∈ s.log ++ entries ↔ _
      rw [List.mem_append, hlog, hsettled]
      omega
    · intro c c' i₁ i₂ t t' h h'
      rw [(hpending c i₁ t h).1, (hpending c' i₂ t' h').1]
    · intro _
      refine .inl ⟨call, k, timeoutMs, ?_⟩
      rw [getElem?_setPhase, if_pos rfl]
      exact if_pos hcall
  | none =>
    rw [hawaited] at hspec
    rw [listen_done call timeoutMs start now hawaited]
    rw [List.length_drop] at hspec
    generalize (callListeners i (app.shutdownListeners.drop i)).1 = entries at hspec
    have hnone : ∀ (call' i' : ℕ) (t : ℤ), (startDrain app (s.note entries) call timeoutMs start
        now).1.calls[call']? ≠ some (.listening i' t) := by
      intro call' i' t h
      rw [startDrain, getElem?_setPhase] at h
      by_cases heq : call = call'
      · rw [if_pos heq] at h
        split at h <;> simp at h
      · rw [if_neg heq] at h
        exact hothers call' i' t (fun h => heq h.symm) h
    refine ⟨?_, ?_, ?_, ?_⟩
    · intro hnot
      exact absurd (hrun.symm.trans hnot) Bool.false_ne_true.symm
    · intro call' i' t h
      exact absurd h (hnone call' i' t)
    · intro c c' i₁ i₂ t t' h
      exact absurd h (hnone c i₁ t)
    · intro _
      refine .inr ?_
      intro j hj
      apply List.mem_append_left
      apply List.mem_append.mpr
      rw [hlog, hspec]
      omega

/-! ## A step up to the end of a drain -/

/-- A step that is quiet up to the end of a drain, and the call whose drain ends. -/
structure Drains (s : State) (result : State × Option ℕ) : Prop where
  quiet : Quiet s result.1
  ended : ∀ call, result.2 = some call →
    ∃ start timeoutMs, result.1.calls[call]? = some (.draining start timeoutMs)

theorem Drains.after {s s' : State} {result : State × Option ℕ} (h : Drains s' result)
    (hquiet : Quiet s s') : Drains s result := ⟨hquiet.trans h.quiet, h.ended⟩

theorem drains_startDrain {s : State} {call : ℕ} (timeoutMs start now : ℤ)
    (hcall : call < s.calls.length)
    (hold : ∀ old, s.calls[call]? = some old → old.isEarly = true) :
    Drains s (startDrain app s call timeoutMs start now) := by
  refine ⟨?_, ?_⟩
  · refine (Quiet.note ?_ s).trans (Quiet.setPhase rfl hold)
    intro e he
    exact (quiet_callIdleHooks 0 _ e he).1
  · intro ended h
    have hended : ended = call := by
      rw [startDrain] at h
      split at h
      · simp at h
      · exact (Option.some.inj h).symm
    refine ⟨start, timeoutMs, ?_⟩
    rw [hended, startDrain, getElem?_setPhase, if_pos rfl]
    exact if_pos hcall

theorem drains_listen {s : State} {call i : ℕ} (timeoutMs start now : ℤ)
    (hcall : call < s.calls.length)
    (hold : ∀ old, s.calls[call]? = some old → old.isEarly = true) :
    Drains s (listen app s call i timeoutMs start now) := by
  have hnote := Quiet.note (callListeners_spec i (app.shutdownListeners.drop i)).1 s
  cases hawaited : (callListeners i (app.shutdownListeners.drop i)).2 with
  | some k =>
    rw [listen_awaited call timeoutMs start now hawaited]
    exact ⟨hnote.trans (Quiet.setPhase rfl hold), by simp⟩
  | none =>
    rw [listen_done call timeoutMs start now hawaited]
    refine Drains.after ?_ hnote
    exact drains_startDrain timeoutMs start now hcall hold

theorem stepToDrain_cases {s : State} {label : Label} {result : State × Option ℕ}
    (h : stepToDrain app s label = some result) :
    Drains s result ∨
      ∃ (call i : ℕ) (hook : Callback), s.calls[call]? = some (.closing i) ∧
        app.closeHooks[i]? = some hook ∧ result = (afterHook app s call i hook, none) := by
  cases label with
  | fetch =>
    refine .inl ?_
    rw [stepToDrain] at h
    split at h
    · cases h
      exact ⟨.refl s, by simp⟩
    · cases h
      exact ⟨⟨rfl, ⟨[], by simp⟩, fun _ _ _ => .rfl⟩, by simp⟩
  | settle =>
    refine .inl ?_
    rw [stepToDrain] at h
    split at h
    · simp at h
    · cases h
      exact ⟨⟨rfl, ⟨[], by simp⟩, fun _ _ _ => .rfl⟩, by simp⟩
  | shutdown timeoutMs start now =>
    refine .inl ?_
    have hold : ∀ old, (s.calls ++ [Phase.draining start timeoutMs])[s.calls.length]? = some old →
        old.isEarly = true := by
      intro old hsome
      rw [List.getElem?_concat_length] at hsome
      cases hsome
      rfl
    have hlt : s.calls.length < (s.calls ++ [Phase.draining start timeoutMs]).length := by
      rw [List.length_append, List.length_singleton]
      omega
    have hadded (run : Bool) : Quiet s { s with
        draining := true, shutdownListenersRun := run,
        calls := s.calls ++ [.draining start timeoutMs] } := by
      refine ⟨rfl, ⟨[], by simp⟩, ?_⟩
      intro call phase hlate
      show (s.calls ++ [_])[call]? = _ ↔ _
      rw [getElem?_concat]
      refine or_iff_left ?_
      rintro ⟨-, rfl⟩
      exact Bool.false_ne_true hlate.symm
    rw [stepToDrain] at h
    split at h
    · rw [← Option.some.inj h]
      exact (drains_startDrain timeoutMs start now hlt hold).after
        (hadded s.shutdownListenersRun)
    · rw [← Option.some.inj h]
      exact (drains_listen timeoutMs start now hlt hold).after (hadded true)
  | listenerSettles call start now =>
    refine .inl ?_
    rw [stepToDrain] at h
    split at h
    · next i timeoutMs hphase =>
      obtain ⟨listener, -, hs'⟩ := Option.bind_eq_some_iff.mp h
      have hlt : call < s.calls.length := (List.getElem?_eq_some_iff.mp hphase).1
      have hold : ∀ old, s.calls[call]? = some old → old.isEarly = true := by
        intro old hsome
        rw [hsome] at hphase
        cases hphase
        rfl
      rw [← Option.some.inj hs']
      refine Drains.after ?_ (Quiet.note (quiet_listenerDone i listener) s)
      exact drains_listen timeoutMs start now hlt hold
    · simp at h
  | timer call now =>
    refine .inl ?_
    rw [stepToDrain] at h
    split at h
    · next start timeoutMs hphase =>
      rw [← Option.some.inj h]
      refine ⟨.refl s, ?_⟩
      intro ended hended
      dsimp only at hended
      split at hended
      · simp at hended
      · cases hended
        exact ⟨start, timeoutMs, hphase⟩
    · simp at h
  | hookSettles call =>
    rw [stepToDrain] at h
    split at h
    · next i hphase =>
      obtain ⟨hook, hhook, hs'⟩ := Option.bind_eq_some_iff.mp h
      exact .inr ⟨call, i, hook, hphase, hhook, (Option.some.inj hs').symm⟩
    · simp at h

theorem Heard.run_of_call {s : State} (h : Heard app s) {call : ℕ} {phase : Phase}
    (hcall : s.calls[call]? = some phase) : s.shutdownListenersRun = true := by
  cases hrun : s.shutdownListenersRun with
  | true => rfl
  | false =>
    rw [(h.fresh hrun).1] at hcall
    simp at hcall

theorem Heard.note {s : State} {entries : List Entry} (h : Heard app s)
    (hentries : ∀ j, .listenerSettled j ∉ entries) : Heard app (s.note entries) := by
  refine h.frame rfl (.inr rfl) (fun _ _ _ => .rfl) ?_
  intro j
  show _ ∈ s.log ++ entries ↔ _
  rw [List.mem_append]
  exact ⟨fun hmem => hmem.resolve_right (hentries j), .inl⟩

theorem callHooks_quiet (call i : ℕ) (hooks : List Callback) :
    (∀ j, .listenerSettled j ∉ (callHooks call i hooks).1) ∧
      (callHooks call i hooks).2.isListening = false := by
  cases hooks with
  | nil => exact ⟨by simp [callHooks], rfl⟩
  | cons hook hooks => cases hook <;> exact ⟨by simp [callHooks], rfl⟩

theorem heard_closeFrom {s : State} {call : ℕ} (h : Heard app s) (i : ℕ)
    (hrun : s.shutdownListenersRun = true)
    (hold : ∀ old, s.calls[call]? = some old → old.isListening = false) :
    Heard app (closeFrom app s call i) := by
  obtain ⟨hentries, hphase⟩ := callHooks_quiet call i (app.closeHooks.drop i)
  exact heard_setPhase (h.note hentries) hrun hphase hold

theorem heard_stepToDrain {s : State} {label : Label} {result : State × Option ℕ} (h : Heard app s)
    (hstep : stepToDrain app s label = some result) : Heard app result.1 := by
  cases label with
  | fetch =>
    rw [stepToDrain] at hstep
    split at hstep
    · cases hstep
      exact h
    · cases hstep
      exact h.frame rfl (.inr rfl) (fun _ _ _ => .rfl) fun _ => .rfl
  | settle =>
    rw [stepToDrain] at hstep
    split at hstep
    · simp at hstep
    · cases hstep
      exact h.frame rfl (.inr rfl) (fun _ _ _ => .rfl) fun _ => .rfl
  | shutdown timeoutMs start now =>
    rw [stepToDrain] at hstep
    split at hstep
    · next hrun =>
      rw [← Option.some.inj hstep]
      refine heard_startDrain ?_ hrun ?_
      · refine h.frame rfl (.inl hrun) ?_ fun _ => .rfl
        intro call i t
        show (s.calls ++ [_])[call]? = _ ↔ _
        rw [getElem?_concat]
        refine or_iff_left ?_
        rintro ⟨-, heq⟩
        cases heq
      · intro old hsome
        rw [show _ = some (Phase.draining start timeoutMs) from List.getElem?_concat_length] at hsome
        cases hsome
        rfl
    · next hrun =>
      obtain ⟨hnil, hnone⟩ := h.fresh (Bool.eq_false_iff.mpr hrun)
      rw [← Option.some.inj hstep]
      refine heard_listen rfl ?_ (Nat.zero_le _) ?_ ?_
      · show _ < (s.calls ++ [_]).length
        rw [List.length_append, List.length_singleton]
        omega
      · intro j
        exact iff_of_false (hnone j) (Nat.not_lt_zero j)
      · intro call' k t hne
        show (s.calls ++ [_])[call']? ≠ _
        rw [hnil] at hne ⊢
        rw [List.length_nil] at hne
        rw [List.nil_append, List.getElem?_singleton, if_neg hne]
        simp
  | listenerSettles call start now =>
    rw [stepToDrain] at hstep
    split at hstep
    · next i timeoutMs hphase =>
      obtain ⟨listener, hlistener, hs'⟩ := Option.bind_eq_some_iff.mp hstep
      have hlt : call < s.calls.length := (List.getElem?_eq_some_iff.mp hphase).1
      obtain ⟨hi, hsettled⟩ := h.pending call i timeoutMs hphase
      rw [← Option.some.inj hs']
      refine heard_listen ?_ hlt hi ?_ ?_
      · exact h.run_of_call hphase
      · intro j
        show _ ∈ s.log ++ _ ↔ _
        rw [List.mem_append, hsettled, listenerSettled_mem_listenerDone]
        omega
      · intro call' k t hne hother
        exact hne (h.only call' call k i t timeoutMs hother hphase)
    · simp at hstep
  | timer call now =>
    rw [stepToDrain] at hstep
    split at hstep
    · rw [← Option.some.inj hstep]
      exact h
    · simp at hstep
  | hookSettles call =>
    rw [stepToDrain] at hstep
    split at hstep
    · next i hphase =>
      obtain ⟨hook, hhook, hs'⟩ := Option.bind_eq_some_iff.mp hstep
      have hrun := h.run_of_call hphase
      have hold : ∀ old, s.calls[call]? = some old → old.isListening = false := by
        intro old hsome
        rw [hsome] at hphase
        cases hphase
        rfl
      rw [← Option.some.inj hs']
      have hnoted := h.note (by simp : ∀ j, Entry.listenerSettled j ∉ [Entry.hookSettled i])
      cases hook with
      | returns => exact heard_closeFrom hnoted (i + 1) hrun hold
      | throws => exact heard_setPhase (h.note (by simp)) hrun rfl hold
      | rejects => exact heard_setPhase (h.note (by simp)) hrun rfl hold
    · simp at hstep

theorem heard_endDrain {s : State} {call : ℕ} {start timeoutMs : ℤ} (h : Heard app s)
    (hcall : s.calls[call]? = some (.draining start timeoutMs)) :
    Heard app (endDrain app s call) := by
  have hrun := h.run_of_call hcall
  have hold : ∀ old, s.calls[call]? = some old → old.isListening = false := by
    intro old hsome
    rw [hsome] at hcall
    cases hcall
    rfl
  rw [endDrain]
  split
  · exact heard_setPhase (h.note (by simp)) hrun rfl hold
  · refine heard_closeFrom ?_ 0 hrun hold
    exact h.frame rfl (.inr rfl) (fun _ _ _ => .rfl) fun _ => .rfl

/-! ## Close hooks -/

section Closing
variable (app)

/-- The first `started` close hooks have been called, and the first `settled` have returned. -/
structure Called (started settled : ℕ) (log : List Entry) : Prop where
  starts : ∀ j, log.count (.hookStarted j) = if j < started then 1 else 0
  settles : ∀ j, .hookSettled j ∈ log ↔ j < settled
  returned : ∀ j < settled, app.closeHooks[j]? = some .returns

/-- A close hook has failed, and its error went to a caller. -/
structure Failed (log : List Entry) : Prop where
  once : ∀ j, log.count (.hookStarted j) ≤ 1
  rejected : ∃ call, .rejected call ∈ log
  hook : ∃ hook ∈ app.closeHooks, hook ≠ .returns

/-- The close hooks are called by one call, in order. -/
structure Closes (s : State) : Prop where
  fresh : s.closeHooksRun = false →
    (∀ (call : ℕ) (phase : Phase), s.calls[call]? = some phase → phase.isEarly = true) ∧
      Called app 0 0 s.log
  pending : ∀ (call i : ℕ), s.calls[call]? = some (.closing i) →
    i < app.closeHooks.length ∧ Called app (i + 1) i s.log
  only : ∀ (call call' i i' : ℕ), s.calls[call]? = some (.closing i) →
    s.calls[call']? = some (.closing i') → call = call'
  progress : s.closeHooksRun = true → (∃ (call i : ℕ), s.calls[call]? = some (.closing i)) ∨
    Called app app.closeHooks.length app.closeHooks.length s.log ∨ Failed app s.log

end Closing

theorem Called.append {started settled : ℕ} {log entries : List Entry}
    (h : Called app started settled log) (hstarted : ∀ j, .hookStarted j ∉ entries)
    (hsettled : ∀ j, .hookSettled j ∉ entries) : Called app started settled (log ++ entries) := by
  refine ⟨?_, ?_, h.returned⟩
  · intro j
    rw [List.count_append, h.starts, List.count_eq_zero.mpr (hstarted j), Nat.add_zero]
  · intro j
    rw [List.mem_append, h.settles]
    exact ⟨fun hmem => hmem.resolve_right (hsettled j), .inl⟩

theorem Called.start {i : ℕ} {log : List Entry} (h : Called app i i log) :
    Called app (i + 1) i (log ++ [.hookStarted i]) := by
  refine ⟨?_, ?_, h.returned⟩
  · intro j
    rw [List.count_append, h.starts, List.count_singleton]
    by_cases heq : j = i
    · subst heq
      simp
    · have hne : (Entry.hookStarted i == Entry.hookStarted j) = false := by
        rw [beq_eq_false_iff_ne]
        intro hsame
        exact heq (Entry.hookStarted.inj hsame).symm
      have hiff : j < i + 1 ↔ j < i := by omega
      simp only [hne, hiff, Bool.false_eq_true, if_false, Nat.add_zero]
  · intro j
    rw [List.mem_append, h.settles]
    simp

theorem Called.settle {i : ℕ} {log : List Entry} (h : Called app (i + 1) i log)
    (hreturns : app.closeHooks[i]? = some .returns) :
    Called app (i + 1) (i + 1) (log ++ [.hookSettled i]) := by
  refine ⟨?_, ?_, ?_⟩
  · intro j
    rw [List.count_append, h.starts]
    simp
  · intro j
    rw [List.mem_append, h.settles, List.mem_singleton, Entry.hookSettled.injEq]
    omega
  · intro j hj
    rcases Nat.lt_succ_iff_lt_or_eq.mp hj with hlt | rfl
    · exact h.returned j hlt
    · exact hreturns

theorem Called.fail {i : ℕ} {log : List Entry} {hook : Callback} (call : ℕ)
    (h : Called app (i + 1) i log) (hhook : app.closeHooks[i]? = some hook)
    (hfails : hook ≠ .returns) :
    Failed app (log ++ [.hookSettled i, .rejected call]) := by
  refine ⟨?_, ⟨call, by simp⟩, hook, List.mem_of_getElem? hhook, hfails⟩
  intro j
  rw [List.count_append, h.starts]
  have hzero : [Entry.hookSettled i, .rejected call].count (.hookStarted j) = 0 := by simp
  rw [hzero]
  split <;> simp

theorem Failed.append {log entries : List Entry} (h : Failed app log)
    (hstarted : ∀ j, .hookStarted j ∉ entries) : Failed app (log ++ entries) := by
  obtain ⟨call, hcall⟩ := h.rejected
  refine ⟨?_, ⟨call, List.mem_append_left _ hcall⟩, h.hook⟩
  intro j
  rw [List.count_append, List.count_eq_zero.mpr (hstarted j)]
  exact h.once j

theorem closes_init : Closes app {} := by
  refine ⟨?_, ?_, ?_, ?_⟩
  · intro _
    refine ⟨by simp, by simp, by simp, ?_⟩
    intro j hj
    exact absurd hj (Nat.not_lt_zero j)
  · intro call i h
    simp at h
  · intro call call' i i' h
    simp at h
  · intro h
    exact absurd h Bool.false_ne_true

theorem Closes.of_done {s : State} (hrun : s.closeHooksRun = true)
    (hnone : ∀ (call i : ℕ), s.calls[call]? ≠ some (.closing i))
    (hdone : Called app app.closeHooks.length app.closeHooks.length s.log ∨ Failed app s.log) :
    Closes app s := by
  refine ⟨?_, ?_, ?_, fun _ => .inr hdone⟩
  · intro hnot
    exact absurd (hrun.symm.trans hnot) Bool.false_ne_true.symm
  · intro call i h
    exact absurd h (hnone call i)
  · intro call call' i i' h
    exact absurd h (hnone call i)

theorem Closes.quiet {s s' : State} (h : Closes app s) (hquiet : Quiet s s') : Closes app s' := by
  obtain ⟨entries, hlog, hentries⟩ := hquiet.log
  have hstarted (j : ℕ) : .hookStarted j ∉ entries := fun hmem =>
    Bool.false_ne_true (hentries _ hmem)
  have hsettled (j : ℕ) : .hookSettled j ∉ entries := fun hmem =>
    Bool.false_ne_true (hentries _ hmem)
  refine ⟨?_, ?_, ?_, ?_⟩
  · intro hnot
    rw [hquiet.run] at hnot
    obtain ⟨hearly, hcalled⟩ := h.fresh hnot
    refine ⟨?_, ?_⟩
    · intro call phase hcall
      cases hphase : phase.isEarly with
      | true => rfl
      | false =>
        have := hearly call phase ((hquiet.calls call phase hphase).mp hcall)
        exact hphase.symm.trans this
    · rw [hlog]
      exact hcalled.append hstarted hsettled
  · intro call i hcall
    obtain ⟨hi, hcalled⟩ := h.pending call i ((hquiet.calls call _ rfl).mp hcall)
    rw [hlog]
    exact ⟨hi, hcalled.append hstarted hsettled⟩
  · intro call call' i i' hcall hcall'
    exact h.only call call' i i' ((hquiet.calls call _ rfl).mp hcall)
      ((hquiet.calls call' _ rfl).mp hcall')
  · intro hyes
    rw [hquiet.run] at hyes
    rw [hlog]
    rcases h.progress hyes with ⟨call, i, hcall⟩ | hdone | hfailed
    · exact .inl ⟨call, i, (hquiet.calls call _ rfl).mpr hcall⟩
    · exact .inr (.inl (hdone.append hstarted hsettled))
    · exact .inr (.inr (hfailed.append hstarted))

theorem callHooks_nil {call i : ℕ} (h : app.closeHooks.length ≤ i) :
    callHooks call i (app.closeHooks.drop i) = ([.resolved call], .resolved) := by
  rw [List.drop_eq_nil_of_le h]
  rfl

theorem callHooks_throws {call i : ℕ} (h : app.closeHooks[i]? = some .throws) :
    callHooks call i (app.closeHooks.drop i) =
      ([.hookStarted i, .hookSettled i, .rejected call], .rejected) := by
  obtain ⟨hlt, hget⟩ := List.getElem?_eq_some_iff.mp h
  rw [List.drop_eq_getElem_cons hlt, hget]
  rfl

theorem callHooks_awaited {call i : ℕ} {hook : Callback} (h : app.closeHooks[i]? = some hook)
    (hne : hook ≠ .throws) :
    callHooks call i (app.closeHooks.drop i) = ([.hookStarted i], .closing i) := by
  obtain ⟨hlt, hget⟩ := List.getElem?_eq_some_iff.mp h
  rw [List.drop_eq_getElem_cons hlt, hget]
  cases hook with
  | throws => exact absurd rfl hne
  | returns => rfl
  | rejects => rfl

theorem closes_closeFrom {s : State} {call i : ℕ} (hrun : s.closeHooksRun = true)
    (hcall : call < s.calls.length) (hi : i ≤ app.closeHooks.length) (hcalled : Called app i i s.log)
    (hothers : ∀ (call' k : ℕ), call' ≠ call → s.calls[call']? ≠ some (.closing k)) :
    Closes app (closeFrom app s call i) := by
  have hnot (entries : List Entry) {phase : Phase} (hphase : phase.isClosing = false) :
      ∀ (call' k : ℕ), ((s.note entries).setPhase call phase).calls[call']? ≠
        some (.closing k) := by
    intro call' k h
    rw [getElem?_setPhase] at h
    by_cases heq : call = call'
    · rw [if_pos heq] at h
      split at h
      · cases h
        exact Bool.false_ne_true hphase.symm
      · simp at h
    · rw [if_neg heq] at h
      exact hothers call' k (fun h => heq h.symm) h
  rcases Nat.lt_or_ge i app.closeHooks.length with hlt | hge
  · have hget : app.closeHooks[i]? = some app.closeHooks[i] := List.getElem?_eq_getElem hlt
    by_cases hthrows : app.closeHooks[i] = .throws
    · rw [hthrows] at hget
      rw [closeFrom, callHooks_throws hget]
      refine Closes.of_done hrun (hnot _ rfl) (.inr ?_)
      have hfailed := Called.fail call hcalled.start hget (by simp)
      rwa [List.append_assoc] at hfailed
    · rw [closeFrom, callHooks_awaited hget hthrows]
      have hstate : ∀ (call' k : ℕ), ((s.note [.hookStarted i]).setPhase call
          (.closing i)).calls[call']? = some (.closing k) ↔ call' = call ∧ k = i := by
        intro call' k
        rw [getElem?_setPhase]
        by_cases heq : call = call'
        · subst heq
          rw [if_pos rfl, if_pos (show call < (s.note _).calls.length from hcall)]
          simp [eq_comm]
        · rw [if_neg heq]
          refine iff_of_false (hothers call' k fun h => heq h.symm) ?_
          intro h
          exact heq h.1.symm
      refine ⟨?_, ?_, ?_, ?_⟩
      · intro hnot
        exact absurd (hrun.symm.trans hnot) Bool.false_ne_true.symm
      · intro call' k h
        obtain ⟨rfl, rfl⟩ := (hstate call' k).mp h
        exact ⟨hlt, hcalled.start⟩
      · intro c c' k k' h h'
        rw [((hstate c k).mp h).1, ((hstate c' k').mp h').1]
      · intro _
        exact .inl ⟨call, i, (hstate call i).mpr ⟨rfl, rfl⟩⟩
  · obtain rfl : i = app.closeHooks.length := by omega
    rw [closeFrom, callHooks_nil (Nat.le_refl _)]
    refine Closes.of_done hrun (hnot _ rfl) (.inl ?_)
    exact hcalled.append (by simp) (by simp)

theorem closes_endDrain {s : State} {call : ℕ} {start timeoutMs : ℤ} (h : Closes app s)
    (hcall : s.calls[call]? = some (.draining start timeoutMs)) :
    Closes app (endDrain app s call) := by
  have hlt : call < s.calls.length := (List.getElem?_eq_some_iff.mp hcall).1
  rw [endDrain]
  split
  · next hrun =>
    have hsame : ∀ (call' k : ℕ), ((s.note [.resolved call]).setPhase call .resolved).calls[call']? =
        some (.closing k) ↔ s.calls[call']? = some (.closing k) := by
      intro call' k
      rw [getElem?_setPhase]
      by_cases heq : call = call'
      · subst heq
        rw [if_pos rfl, hcall]
        refine iff_of_false ?_ (by simp)
        split <;> simp
      · rw [if_neg heq]
        rfl
    refine ⟨?_, ?_, ?_, ?_⟩
    · intro hnot
      exact absurd (hrun.symm.trans hnot) Bool.false_ne_true.symm
    · intro call' k hphase
      obtain ⟨hk, hcalled⟩ := h.pending call' k ((hsame call' k).mp hphase)
      exact ⟨hk, hcalled.append (by simp) (by simp)⟩
    · intro c c' k k' hphase hphase'
      exact h.only c c' k k' ((hsame c k).mp hphase) ((hsame c' k').mp hphase')
    · intro _
      rcases h.progress hrun with ⟨call', k, hphase⟩ | hdone | hfailed
      · exact .inl ⟨call', k, (hsame call' k).mpr hphase⟩
      · exact .inr (.inl (hdone.append (by simp) (by simp)))
      · exact .inr (.inr (hfailed.append (by simp)))
  · next hrun =>
    obtain ⟨hearly, hcalled⟩ := h.fresh (Bool.eq_false_iff.mpr hrun)
    refine closes_closeFrom rfl hlt (Nat.zero_le _) hcalled ?_
    intro call' k _ hphase
    exact Bool.false_ne_true (hearly call' _ hphase)

theorem closes_afterHook {s : State} {call i : ℕ} {hook : Callback} (h : Closes app s)
    (hcall : s.calls[call]? = some (.closing i)) (hhook : app.closeHooks[i]? = some hook) :
    Closes app (afterHook app s call i hook) := by
  obtain ⟨hi, hcalled⟩ := h.pending call i hcall
  have hlt : call < s.calls.length := (List.getElem?_eq_some_iff.mp hcall).1
  have hrun : s.closeHooksRun = true := by
    cases hrun : s.closeHooksRun with
    | true => rfl
    | false => exact absurd ((h.fresh hrun).1 call _ hcall) Bool.false_ne_true
  have hothers : ∀ (call' k : ℕ), call' ≠ call → s.calls[call']? ≠ some (.closing k) := by
    intro call' k hne hphase
    exact hne (h.only call' call k i hphase hcall)
  have hfails (hne : hook ≠ .returns) : Closes app
      ((s.note [.hookSettled i, .rejected call]).setPhase call .rejected) := by
    refine Closes.of_done hrun ?_ (.inr (hcalled.fail _ hhook hne))
    intro call' k hphase
    rw [getElem?_setPhase] at hphase
    by_cases heq : call = call'
    · rw [if_pos heq] at hphase
      split at hphase <;> simp at hphase
    · rw [if_neg heq] at hphase
      exact hothers call' k (fun h => heq h.symm) hphase
  cases hook with
  | returns => exact closes_closeFrom hrun hlt hi (hcalled.settle hhook) hothers
  | throws => exact hfails (by simp)
  | rejects => exact hfails (by simp)

/-! ## Steps -/

theorem step_eq_some {s s' : State} {label : Label} (h : step app s label = some s') :
    (stepToDrain app s label = some (s', none)) ∨
      ∃ t call, stepToDrain app s label = some (t, some call) ∧ s' = endDrain app t call := by
  obtain ⟨⟨t, ended⟩, ht, hs'⟩ := Option.map_eq_some_iff.mp h
  cases ended with
  | none =>
    rw [ht, ← hs']
    exact .inl rfl
  | some call =>
    exact .inr ⟨t, call, ht, hs'.symm⟩

theorem drains_of_ended {s t : State} {label : Label} {call : ℕ}
    (h : stepToDrain app s label = some (t, some call)) :
    Quiet s t ∧ ∃ start timeoutMs, t.calls[call]? = some (.draining start timeoutMs) := by
  rcases stepToDrain_cases h with hdrains | ⟨_, _, _, _, _, heq⟩
  · exact ⟨hdrains.quiet, hdrains.ended call rfl⟩
  · cases heq

structure Ordered (app : Registrations) (s : State) : Prop where
  heard : Heard app s
  closes : Closes app s

theorem ordered_init : Ordered app {} := ⟨heard_init, closes_init⟩

theorem ordered_stepToDrain {s : State} {label : Label} {result : State × Option ℕ}
    (h : Ordered app s) (hstep : stepToDrain app s label = some result) : Ordered app result.1 := by
  refine ⟨heard_stepToDrain h.heard hstep, ?_⟩
  rcases stepToDrain_cases hstep with hdrains | ⟨call, i, hook, hcall, hhook, rfl⟩
  · exact h.closes.quiet hdrains.quiet
  · exact closes_afterHook h.closes hcall hhook

theorem ordered_step {s s' : State} {label : Label} (h : Ordered app s)
    (hstep : step app s label = some s') : Ordered app s' := by
  rcases step_eq_some hstep with hdrain | ⟨t, call, hdrain, rfl⟩
  · exact ordered_stepToDrain h hdrain
  · obtain ⟨-, start, timeoutMs, hcall⟩ := drains_of_ended hdrain
    have ht : Ordered app t := ordered_stepToDrain h hdrain
    exact ⟨heard_endDrain ht.heard hcall, closes_endDrain ht.closes hcall⟩

/-! ## Causes -/

theorem justified_of_quiet {log entries : List Entry} (h : Justified (Cause app) log)
    (hentries : ∀ e ∈ entries, e.isQuiet = true) : Justified (Cause app) (log ++ entries) := by
  apply h.append
  intro before e after heq
  have he : e.isQuiet = true := by
    apply hentries
    rw [heq]
    simp
  cases e <;> trivial

theorem listeners_of_started {s : State} (h : Justified (Cause app) s.log) {i : ℕ}
    (hstarted : .hookStarted i ∈ s.log) :
    ∀ j < app.shutdownListeners.length, .listenerSettled j ∈ s.log := by
  obtain ⟨before, after, hlog⟩ := List.append_of_mem hstarted
  intro j hj
  rw [hlog]
  exact List.mem_append_left _ (h before _ after hlog j hj)

theorem causes_closeFrom {s : State} {call i : ℕ}
    (hreturn : ∀ hook ∈ app.closeHooks, hook = .returns) (hi : i ≤ app.closeHooks.length)
    (hcauses : Justified (Cause app) s.log) (hcalled : Called app i i s.log)
    (hheard : i < app.closeHooks.length →
      ∀ j < app.shutdownListeners.length, .listenerSettled j ∈ s.log) :
    Justified (Cause app) (closeFrom app s call i).log := by
  rcases Nat.lt_or_ge i app.closeHooks.length with hlt | hge
  · have hget : app.closeHooks[i]? = some app.closeHooks[i] := List.getElem?_eq_getElem hlt
    rw [hreturn _ (List.getElem_mem hlt)] at hget
    rw [closeFrom, callHooks_awaited hget (by simp)]
    exact hcauses.concat (hheard hlt)
  · obtain rfl : i = app.closeHooks.length := by omega
    rw [closeFrom, callHooks_nil (Nat.le_refl _)]
    refine hcauses.concat ?_
    intro j hj
    exact (hcalled.settles j).mpr hj

theorem causes_step (hreturn : ∀ hook ∈ app.closeHooks, hook = .returns) {s s' : State}
    {label : Label} (hturn : InTurn app s label) (hordered : Ordered app s)
    (hcauses : Justified (Cause app) s.log) (hstep : step app s label = some s') :
    Justified (Cause app) s'.log := by
  rcases step_eq_some hstep with hdrain | ⟨t, call, hdrain, rfl⟩
  · rcases stepToDrain_cases hdrain with hdrains | ⟨call, i, hook, hcall, hhook, heq⟩
    · obtain ⟨entries, hlog, hentries⟩ := hdrains.quiet.log
      rw [show s'.log = s.log ++ entries from hlog]
      exact justified_of_quiet hcauses hentries
    · obtain ⟨rfl, -⟩ := Prod.mk.inj heq
      obtain rfl := hreturn hook (List.mem_of_getElem? hhook)
      obtain ⟨hi, hcalled⟩ := hordered.closes.pending call i hcall
      have hsettled : Justified (Cause app) (s.log ++ [.hookSettled i]) := hcauses.concat trivial
      refine causes_closeFrom hreturn hi hsettled (hcalled.settle hhook) ?_
      intro _
      refine listeners_of_started hsettled (i := i) ?_
      apply List.mem_append_left
      apply List.count_pos_iff.mp
      rw [hcalled.starts, if_pos (Nat.lt_succ_self i)]
      exact Nat.one_pos
  · obtain ⟨hquiet, start, timeoutMs, hcall⟩ := drains_of_ended hdrain
    obtain ⟨hlistening, hclosing⟩ := hturn t call hdrain
    have ht : Ordered app t := ordered_stepToDrain hordered hdrain
    have htcauses : Justified (Cause app) t.log := by
      obtain ⟨entries, hlog, hentries⟩ := hquiet.log
      rw [hlog]
      exact justified_of_quiet hcauses hentries
    rw [endDrain]
    split
    · next hrun =>
      refine htcauses.concat ?_
      rcases ht.closes.progress hrun with ⟨call', k, hphase⟩ | hdone | hfailed
      · have := hclosing _ (List.mem_of_getElem? hphase)
        exact absurd this.symm Bool.false_ne_true
      · intro j hj
        exact (hdone.settles j).mpr hj
      · obtain ⟨hook, hmem, hne⟩ := hfailed.hook
        exact absurd (hreturn hook hmem) hne
    · next hrun =>
      replace hrun := Bool.eq_false_iff.mpr hrun
      refine causes_closeFrom hreturn (Nat.zero_le _) htcauses (ht.closes.fresh hrun).2 ?_
      intro hpos
      rcases ht.heard.progress (ht.heard.run_of_call hcall) with ⟨call', i, t', hphase⟩ | hall
      · have hne : app.closeHooks ≠ [] := List.ne_nil_of_length_pos hpos
        have := hlistening hrun hne _ (List.mem_of_getElem? hphase)
        exact absurd this.symm Bool.false_ne_true
      · exact hall

theorem broken_of_step {s s' : State} {label : Label} (hturn : ¬ InTurn app s label)
    (hordered : Ordered app s) (hstep : step app s label = some s') :
    ¬ Justified (Cause app) s'.log := by
  intro hcauses
  apply hturn
  intro t call hdrain
  have hs' : s' = endDrain app t call := by
    rw [step, hdrain] at hstep
    exact (Option.some.inj hstep).symm
  rw [hs', endDrain] at hcauses
  have ht : Ordered app t := ordered_stepToDrain hordered hdrain
  refine ⟨?_, ?_⟩
  · intro hrun hne phase hphase
    cases hlistening : phase.isListening with
    | false => rfl
    | true =>
      exfalso
      obtain ⟨call', hcall'⟩ := List.getElem?_of_mem hphase
      cases phase with
      | listening i timeoutMs =>
        obtain ⟨hi, hsettled⟩ := ht.heard.pending call' i timeoutMs hcall'
        rw [hrun] at hcauses
        -- the first entry behind the log is the start of the first close hook
        have hstart : ∃ entries, (closeFrom app { t with closeHooksRun := true } call 0).log =
            t.log ++ .hookStarted 0 :: entries := by
          rw [closeFrom, List.drop_zero]
          cases hhooks : app.closeHooks with
          | nil => exact absurd hhooks hne
          | cons hook hooks => cases hook <;> exact ⟨_, rfl⟩
        obtain ⟨entries, hlog⟩ := hstart
        rw [if_neg Bool.false_ne_true, hlog] at hcauses
        have := (hsettled i).mp (hcauses.last i hi)
        omega
      | draining => exact Bool.false_ne_true hlistening
      | closing => exact Bool.false_ne_true hlistening
      | resolved => exact Bool.false_ne_true hlistening
      | rejected => exact Bool.false_ne_true hlistening
  · intro phase hphase
    cases hclosing : phase.isClosing with
    | false => rfl
    | true =>
      exfalso
      obtain ⟨call', hcall'⟩ := List.getElem?_of_mem hphase
      cases phase with
      | closing i =>
        obtain ⟨hi, hcalled⟩ := ht.closes.pending call' i hcall'
        have hrun : t.closeHooksRun = true := by
          cases hrun : t.closeHooksRun with
          | true => rfl
          | false => exact absurd ((ht.closes.fresh hrun).1 call' _ hcall') Bool.false_ne_true
        rw [hrun, if_pos rfl] at hcauses
        have := (hcalled.settles i).mp (hcauses.last i hi)
        omega
      | draining => exact Bool.false_ne_true hclosing
      | listening => exact Bool.false_ne_true hclosing
      | resolved => exact Bool.false_ne_true hclosing
      | rejected => exact Bool.false_ne_true hclosing

/-! ## Runs -/

variable (app) in
theorem log_closeFrom (s : State) (call i : ℕ) :
    ∃ entries, (closeFrom app s call i).log = s.log ++ entries := ⟨_, rfl⟩

theorem log_step {s s' : State} {label : Label} (hstep : step app s label = some s') :
    ∃ entries, s'.log = s.log ++ entries := by
  rcases step_eq_some hstep with hdrain | ⟨t, call, hdrain, rfl⟩
  · rcases stepToDrain_cases hdrain with hdrains | ⟨call, i, hook, -, -, heq⟩
    · obtain ⟨entries, hlog, -⟩ := hdrains.quiet.log
      exact ⟨entries, hlog⟩
    · obtain ⟨rfl, -⟩ := Prod.mk.inj heq
      cases hook with
      | returns =>
        obtain ⟨entries, hlog⟩ := log_closeFrom app (s.note [.hookSettled i]) call (i + 1)
        refine ⟨[.hookSettled i] ++ entries, ?_⟩
        rw [← List.append_assoc]
        exact hlog
      | throws => exact ⟨_, rfl⟩
      | rejects => exact ⟨_, rfl⟩
  · obtain ⟨hquiet, -⟩ := drains_of_ended hdrain
    obtain ⟨entries, hlog, -⟩ := hquiet.log
    have hend : ∃ entries', (endDrain app t call).log = t.log ++ entries' := by
      rw [endDrain]
      split
      · exact ⟨_, rfl⟩
      · exact log_closeFrom app { t with closeHooksRun := true } call 0
    obtain ⟨entries', hlog'⟩ := hend
    refine ⟨entries ++ entries', ?_⟩
    rw [hlog', hlog, List.append_assoc]

theorem log_run {s s' : State} {labels : List Label} (hrun : run (step app) s labels = some s') :
    ∃ entries, s'.log = s.log ++ entries := by
  induction labels generalizing s with
  | nil =>
    obtain rfl : s = s' := by simpa using hrun
    exact ⟨[], by simp⟩
  | cons label labels ih =>
    obtain ⟨t, ht, hrest⟩ := run_cons_eq_some.mp hrun
    obtain ⟨entries, hlog⟩ := log_step ht
    obtain ⟨entries', hlog'⟩ := ih hrest
    refine ⟨entries ++ entries', ?_⟩
    rw [hlog', hlog, List.append_assoc]

theorem inTurn_of_causes {s s' : State} {labels : List Label} (hordered : Ordered app s)
    (hrun : run (step app) s labels = some s') (hcauses : Justified (Cause app) s'.log) :
    AllSteps (step app) (InTurn app) s labels := by
  induction labels generalizing s with
  | nil => trivial
  | cons label labels ih =>
    obtain ⟨t, ht, hrest⟩ := run_cons_eq_some.mp hrun
    refine ⟨?_, ?_⟩
    · by_contra hturn
      obtain ⟨entries, hlog⟩ := log_run hrest
      rw [hlog] at hcauses
      exact broken_of_step hturn hordered ht hcauses.of_append
    · intro t' ht'
      obtain rfl : t = t' := Option.some.inj (ht.symm.trans ht')
      exact ih (ordered_step hordered ht) hrest

theorem done_of_over {s : State} (h : Closes app s) (hover : Over s) :
    Called app app.closeHooks.length app.closeHooks.length s.log ∨ Failed app s.log := by
  obtain ⟨hne, hover⟩ := hover
  have hrun : s.closeHooksRun = true := by
    cases hrun : s.closeHooksRun with
    | true => rfl
    | false =>
      exfalso
      obtain ⟨phase, hmem⟩ := List.exists_mem_of_ne_nil s.calls hne
      obtain ⟨call, hcall⟩ := List.getElem?_of_mem hmem
      have hearly := (h.fresh hrun).1 call phase hcall
      have hlate := hover phase hmem
      cases phase <;> first | exact Bool.false_ne_true hearly | exact Bool.false_ne_true hlate
  rcases h.progress hrun with ⟨call, i, hcall⟩ | hdone
  · exact absurd (hover _ (List.mem_of_getElem? hcall)) Bool.false_ne_true
  · exact hdone

theorem started_le_one {s : State} (h : Closes app s) (i : ℕ) :
    s.log.count (.hookStarted i) ≤ 1 := by
  have hcalled {started settled : ℕ} (hcalled : Called app started settled s.log) :
      s.log.count (.hookStarted i) ≤ 1 := by
    rw [hcalled.starts]
    split <;> simp
  cases hrun : s.closeHooksRun with
  | false => exact hcalled (h.fresh hrun).2
  | true =>
    rcases h.progress hrun with ⟨call, k, hcall⟩ | hdone | hfailed
    · exact hcalled (h.pending call k hcall).2
    · exact hcalled hdone
    · exact hfailed.once i

/-- What holds in every state reached when each drain ends in its turn. -/
structure Timely (app : Registrations) (s : State) : Prop where
  ordered : Ordered app s
  causes : Justified (Cause app) s.log

/-- **Shutdown is ordered and complete** when every close hook returns and every drain ends in its
turn. Once all the calls have ended, only then. -/
theorem shutdown_ordered (labels : List Label) (s : State)
    (hrun : run (step app) {} labels = some s) :
    ((∀ hook ∈ app.closeHooks, hook = .returns) ∧ AllSteps (step app) (InTurn app) {} labels →
        Graceful app s) ∧
      (Over s → Graceful app s →
        (∀ hook ∈ app.closeHooks, hook = .returns) ∧
          AllSteps (step app) (InTurn app) {} labels) := by
  have hordered : Ordered app s :=
    run_invariant_all (fun _ _ _ h hstep => ordered_step h hstep) ordered_init hrun
  constructor
  · rintro ⟨hreturn, hturns⟩
    have hinv : Timely app s := by
      refine run_invariant ?_ ⟨ordered_init, Justified.nil⟩ hturns hrun
      intro s label s' hturn hs hstep
      exact ⟨ordered_step hs.ordered hstep,
        causes_step hreturn hturn hs.ordered hs.causes hstep⟩
    refine ⟨hinv.causes, started_le_one hordered.closes, ?_⟩
    intro hover i hi
    rcases done_of_over hordered.closes hover with hdone | hfailed
    · apply List.count_pos_iff.mp
      rw [hdone.starts, if_pos hi]
      exact Nat.one_pos
    · obtain ⟨hook, hmem, hne⟩ := hfailed.hook
      exact absurd (hreturn hook hmem) hne
  · intro hover hgraceful
    refine ⟨?_, inTurn_of_causes ordered_init hrun hgraceful.causes⟩
    intro hook hmem
    rcases done_of_over hordered.closes hover with hdone | hfailed
    · obtain ⟨i, hi, rfl⟩ := List.getElem_of_mem hmem
      have := hdone.returned i hi
      rw [List.getElem?_eq_getElem hi] at this
      exact Option.some.inj this
    · obtain ⟨call, hrejected⟩ := hfailed.rejected
      obtain ⟨before, after, hlog⟩ := List.append_of_mem hrejected
      exact (hgraceful.causes before _ after hlog).elim

theorem shutdown_ordered_example :
    ∃ s, run (step ⟨[.rejects], [.returns, .returns], [.throws]⟩) {}
        [.fetch, .shutdown 1000 0 0, .listenerSettles 0 0 0, .shutdown 1000 5 5, .settle,
          .timer 0 25, .hookSettles 0, .hookSettles 0, .timer 1 30] = some s ∧
      Over s ∧ Graceful ⟨[.rejects], [.returns, .returns], [.throws]⟩ s := by
  refine ⟨_, rfl, by decide, ?_⟩
  apply (shutdown_ordered [.fetch, .shutdown 1000 0 0, .listenerSettles 0 0 0,
    .shutdown 1000 5 5, .settle, .timer 0 25, .hookSettles 0, .hookSettles 0, .timer 1 30] _ rfl).1
  exact ⟨by decide, by decide⟩

/-- A second call starts the close hooks while a listener is pending. A close hook that fails keeps
the next from being called. -/
theorem second_call_overtakes :
    (∃ s, run (step ⟨[.returns], [.returns], []⟩) {} [.shutdown 1000 0 0, .shutdown 1000 0 0] =
        some s ∧ ¬ Graceful ⟨[.returns], [.returns], []⟩ s) ∧
      ∃ s, run (step ⟨[], [.throws, .returns], []⟩) {} [.shutdown 1000 0 0] = some s ∧
        Over s ∧ .hookStarted 1 ∉ s.log := by
  refine ⟨⟨_, rfl, ?_⟩, ⟨_, rfl, by decide, by decide⟩⟩
  intro h
  have hcause := h.causes [.listenerStarted 0] (.hookStarted 0) [] rfl 0 Nat.one_pos
  exact absurd hcause (by decide)

end Daloy.Shutdown
