import Daloy.App.Dispatch

/-! # The trace of a dispatch

What the parts of a dispatch add to the trace: each step that is started has settled when the next
one is, but for a step that the deadline has abandoned and for a hook of a response on its way.

* `Segment ps since w`: only steps were logged since then, and `ps` have not settled.
* `tidy_tryBlock`, `tidy_catchBlock`: the `try` and the `catch` block.
-/

namespace Daloy.Dispatch
set_option autoImplicit false

open Daloy.Effects

variable {K : Kinds} {α β : Type}

/-! ## Counting -/

def Entry.starts (slot : Slot) : Entry K → Bool
  | .started slot' => slot' == slot
  | _ => false

def Entry.settles (slot : Slot) : Entry K → Bool
  | .settled slot' => slot' == slot
  | _ => false

def Entry.isStep : Entry K → Bool
  | .started _ | .settled _ | .served .. => true
  | _ => false

/-- The steps `qs` were running before, and `ps` are now. -/
def Owes (qs ps : List Slot) (entries : List (Entry K)) : Prop :=
  ∀ slot, entries.countP (Entry.starts slot) + qs.count slot =
    entries.countP (Entry.settles slot) + ps.count slot

/-- A state, and the steps that are running in it. -/
structure Since (K : Kinds) where
  world : World K
  running : List Slot := []

structure Segment (ps : List Slot) (since : Since K) (w : World K) : Prop where
  inflight : w.inflight = since.world.inflight
  log : ∃ es, w.log = since.world.log ++ es ∧ (∀ e ∈ es, e.isStep = true) ∧
    Owes since.running ps es

namespace Segment
variable {ps : List Slot} {w : Since K} {w' w'' : World K} {slot : Slot}

theorem refl (w : World K) (ps : List Slot) : Segment ps ⟨w, ps⟩ w :=
  ⟨rfl, [], by simp, by simp, fun _ => rfl⟩

theorem frame (h : Segment ps w w') (hinflight : w''.inflight = w'.inflight)
    (hlog : w''.log = w'.log) : Segment ps w w'' := by
  obtain ⟨es, heq, hes⟩ := h.log
  exact ⟨hinflight.trans h.inflight, es, hlog.trans heq, hes⟩

theorem note {entries : List (Entry K)} {qs : List Slot} (h : Segment ps w w')
    (hsteps : ∀ e ∈ entries, e.isStep = true)
    (howes : ∀ es, Owes w.running ps es → Owes w.running qs (es ++ entries)) :
    Segment qs w (w'.note entries) := by
  obtain ⟨es, heq, hes, hps⟩ := h.log
  refine ⟨h.inflight, es ++ entries, ?_, ?_, howes es hps⟩
  · show w'.log ++ entries = _
    rw [heq, List.append_assoc]
  · intro e he
    rcases List.mem_append.mp he with he | he
    · exact hes e he
    · exact hsteps e he

theorem perm {qs : List Slot} (h : Segment ps w w') (hperm : ps.Perm qs) : Segment qs w w' := by
  obtain ⟨es, heq, hes, howes⟩ := h.log
  refine ⟨h.inflight, es, heq, hes, ?_⟩
  intro slot
  rw [← hperm.count_eq slot]
  exact howes slot

theorem start (h : Segment ps w w') (slot : Slot) :
    Segment (slot :: ps) w (w'.note [.started slot]) := by
  apply h.note (by simp [Entry.isStep])
  intro es hes slot'
  have := hes slot'
  rw [List.countP_append, List.countP_append, List.count_cons]
  simp only [List.countP_singleton, Entry.starts, Entry.settles, beq_iff_eq, Bool.false_eq_true,
    if_false]
  omega

theorem settle (h : Segment (slot :: ps) w w') : Segment ps w (w'.note [.settled slot]) := by
  apply h.note (by simp [Entry.isStep])
  intro es hes slot'
  have := hes slot'
  rw [List.count_cons] at this
  rw [List.countP_append, List.countP_append]
  simp only [List.countP_singleton, Entry.starts, Entry.settles, beq_iff_eq, Bool.false_eq_true,
    if_false] at this ⊢
  omega

theorem both (h : Segment ps w w') (slot : Slot) :
    Segment ps w (w'.note [.started slot, .settled slot]) := by
  have h' := (h.start slot).settle
  refine ⟨h'.inflight, ?_⟩
  obtain ⟨es, heq, hes⟩ := h'.log
  refine ⟨es, ?_, hes⟩
  rw [← heq]
  show _ ++ _ = (_ ++ _) ++ _
  rw [List.append_assoc]
  rfl

theorem served (h : Segment ps w w') (slot : Slot) (env : Env K) :
    Segment ps w (w'.note [.served slot env]) := by
  apply h.note (by simp [Entry.isStep])
  intro es hes slot'
  have := hes slot'
  rw [List.countP_append, List.countP_append]
  exact this

theorem tick (h : Segment ps w w') (env : Env K) :
    Segment ps w (World.tick { w' with env }) := by
  refine h.frame ?_ ?_
  · rw [World.tick]
    split <;> rfl
  · rw [World.tick]
    split <;> rfl

end Segment

/-! ## Steps -/

def Slot.isFinal : Slot → Bool
  | .onError | .onSend | .onResponse => true
  | _ => false

def Ends (ps : List Slot) (w₀ : Since K) : Failure K → World K → Prop
  | .thrown _, w => Segment ps w₀ w
  | .abandoned slot _, w => slot.isFinal = false ∧ Segment (slot :: ps) w₀ w

def Tidy (c : Step K α) : Prop :=
  ∀ w₀ ps, Triple (Segment ps w₀) c (fun _ => Segment ps w₀) (Ends ps w₀)

namespace Tidy

theorem pure (a : α) : Tidy (pure a : Step K α) := fun _ _ _ h => h

theorem fail (err : Thrown K) : Tidy (fail err : Step K α) := fun _ _ _ h => h

theorem get : Tidy (get : Step K (World K)) := fun _ _ _ h => h

theorem orFail (r : Except (Thrown K) α) : Tidy (orFail r : Step K α) := by
  cases r with
  | ok a => exact pure a
  | error err => exact fail err

theorem bind {c : Step K α} {f : α → Step K β} (hc : Tidy c) (hf : ∀ a, Tidy (f a)) :
    Tidy (c >>= f) := fun w₀ ps => Triple.bind (hc w₀ ps) fun a => hf a w₀ ps

theorem modify {f : World K → World K} (hinflight : ∀ w, (f w).inflight = w.inflight)
    (hlog : ∀ w, (f w).log = w.log) : Tidy (modify f : Step K Unit) :=
  fun _ _ w h => h.frame (hinflight w) (hlog w)

end Tidy

theorem tidy_served (slot : Slot) :
    Tidy (modify fun w => w.note [.served slot w.env] : Step K Unit) :=
  fun _ _ w h => h.served slot w.env

theorem finish_spec {slot : Slot} {raced : Bool} (task : Task (Env K) (Thrown K) α)
    (hraced : raced = true → slot.isFinal = false) (w₀ : Since K) (ps : List Slot) :
    Triple (Segment (slot :: ps) w₀) (finish slot raced task) (fun _ => Segment ps w₀)
      (Ends ps w₀) := by
  induction task with
  | done result =>
    refine Triple.bind (Q := fun _ => Segment ps w₀) ?_ ?_
    · intro w h
      exact h.settle
    · intro _
      exact Tidy.orFail result w₀ ps
  | run step next ih =>
    intro w h
    rw [finish]
    dsimp only
    by_cases hexpired : (raced && w.expired) = true
    · rw [if_pos hexpired]
      refine ⟨hraced (Bool.and_eq_true_iff.mp hexpired).1, ?_⟩
      exact h.frame rfl rfl
    · rw [if_neg hexpired]
      exact ih w.env _ (h.tick (step w.env))

theorem segment_arm {ps : List Slot} {w₀ : Since K} {w : World K} (h : Segment ps w₀ w) :
    Segment ps w₀ w.arm := by
  refine h.frame ?_ ?_
  · rw [World.arm]
    split <;> rfl
  · rw [World.arm]
    split <;> rfl

theorem race_spec {slot : Slot} (task : Task (Env K) (Thrown K) α) (hslot : slot.isFinal = false)
    (w₀ : Since K) (ps : List Slot) :
    Triple (Segment (slot :: ps) w₀) (race slot task) (fun _ => Segment ps w₀) (Ends ps w₀) := by
  intro w h
  have harm := segment_arm h
  rw [race]
  dsimp only
  by_cases hexpired : w.arm.expired = true
  · rw [if_pos hexpired]
    exact ⟨hslot, harm.frame rfl rfl⟩
  · rw [if_neg hexpired]
    exact finish_spec task (fun _ => hslot) w₀ ps _ harm

theorem start_spec (slot : Slot) (given : Option Which) (fn : Hook K α) (w₀ : Since K)
    (ps : List Slot) :
    Triple (Segment ps w₀) (start slot given fn)
      (fun r => match r with
        | .value _ => Segment ps w₀
        | .promise _ => Segment (slot :: ps) w₀)
      (fun _ => Segment ps w₀) := by
  intro w h
  rw [start]
  have henv (env : Env K) : Segment ps w₀ { w with env } := h.frame rfl rfl
  cases hfn : fn { w.env with given } with
  | ok r env =>
    cases r with
    | value a => exact (henv env).both slot
    | promise task => exact (henv env).start slot
  | error err env => exact (henv env).both slot

theorem tidy_call (slot : Slot) (given : Option Which) (raced : Bool) (fn : Hook K α)
    (hslot : raced = true → slot.isFinal = false) : Tidy (call slot given raced fn) := by
  intro w₀ ps w h
  have hstart := start_spec slot given fn w₀ ps w h
  rw [call]
  cases hrun : start slot given fn w with
  | ok r w' =>
    rw [hrun] at hstart
    cases r with
    | value a => exact hstart
    | promise task =>
      cases raced with
      | true => exact race_spec task (hslot rfl) w₀ ps w' hstart
      | false => exact finish_spec task (by simp) w₀ ps w' hstart
  | error err w' =>
    rw [hrun] at hstart
    exact hstart

/-! ## Responses on their way -/

def Finalizing.pending : Finalizing K → List Slot
  | .finished _ => []
  | .sending .. => [.onSend]
  | .responding .. => [.onResponse]

section Finalizing
variable (app : App K) (hooks : MergedHooks K) (ctx : Option Which) {w₀ : Since K} {w : World K}
  {ps : List Slot}

theorem finishFinalize_spec (res : Response K) (h : Segment ps w₀ w) :
    Segment ((finishFinalize app hooks ctx res w).1.pending ++ ps) w₀
        (finishFinalize app hooks ctx res w).2 ∧
      ∀ res' task, (finishFinalize app hooks ctx res w).1 ≠ .sending res' task := by
  rw [finishFinalize]
  cases applyFingerprint app.fingerprint res with
  | error err => exact ⟨h, by simp⟩
  | ok res =>
    cases hooks.onResponse with
    | none => exact ⟨h, by simp⟩
    | some onResponse =>
      dsimp only
      have hstart := start_spec .onResponse ctx (onResponse res) w₀ ps w h
      cases hrun : start .onResponse ctx (onResponse res) w with
      | ok r w' =>
        rw [hrun] at hstart
        cases r with
        | value a => exact ⟨hstart, by simp⟩
        | promise task => exact ⟨hstart, by simp⟩
      | error err w' =>
        rw [hrun] at hstart
        exact ⟨hstart, by simp⟩

theorem finalizeResponse_spec (res : Response K) (h : Segment ps w₀ w) :
    Segment ((finalizeResponse app hooks ctx res w).1.pending ++ ps) w₀
      (finalizeResponse app hooks ctx res w).2 := by
  rw [finalizeResponse]
  cases hooks.onSend with
  | none => exact (finishFinalize_spec app hooks ctx res h).1
  | some onSend =>
    dsimp only
    have hstart := start_spec .onSend ctx (onSend res) w₀ ps w h
    cases hrun : start .onSend ctx (onSend res) w with
    | ok r w' =>
      rw [hrun] at hstart
      cases r with
      | value sent => exact (finishFinalize_spec app hooks ctx (sent.getD res) hstart).1
      | promise task => exact hstart
    | error err w' =>
      rw [hrun] at hstart
      exact hstart

theorem step_spec (fin : Finalizing K) (h : Segment (fin.pending ++ ps) w₀ w) :
    Segment ((fin.step app hooks ctx w).1.pending ++ ps) w₀ (fin.step app hooks ctx w).2 := by
  cases fin with
  | finished result => exact h
  | sending res task =>
    cases task with
    | done result =>
      cases result with
      | ok sent => exact (finishFinalize_spec app hooks ctx (sent.getD res) (Segment.settle h)).1
      | error err => exact Segment.settle h
    | run step next => exact h.tick (step w.env)
  | responding res task =>
    cases task with
    | done result =>
      cases result with
      | ok sent => exact Segment.settle h
      | error err => exact Segment.settle h
    | run step next => exact h.tick (step w.env)

theorem settleResponding_spec (res : Response K) (task : Task (Env K) (Thrown K) Unit)
    (h : Segment (.onResponse :: ps) w₀ w) : Segment ps w₀ (settleResponding res task w).2 := by
  induction task generalizing w with
  | done result =>
    cases result with
    | ok r => exact Segment.settle h
    | error err => exact Segment.settle h
  | run step next ih => exact ih w.env (h.tick (step w.env))

theorem settleSending_spec (res : Response K)
    (task : Task (Env K) (Thrown K) (Option (Response K))) (h : Segment (.onSend :: ps) w₀ w) :
    Segment ps w₀ (settleSending app hooks ctx res task w).2 := by
  induction task generalizing w with
  | done result =>
    cases result with
    | error err => exact Segment.settle h
    | ok sent =>
      obtain ⟨hseg, hnot⟩ := finishFinalize_spec app hooks ctx (sent.getD res)
        (Segment.settle h)
      rw [settleSending]
      cases hfin : finishFinalize app hooks ctx (sent.getD res) (w.note [.settled .onSend]) with
      | mk fin w' =>
        rw [hfin] at hseg hnot
        cases fin with
        | finished result => exact hseg
        | responding res' task => exact settleResponding_spec res' task hseg
        | sending res' task => exact absurd rfl (hnot res' task)
  | run step next ih => exact ih w.env (h.tick (step w.env))

theorem settle_spec (fin : Finalizing K) (h : Segment (fin.pending ++ ps) w₀ w) :
    Segment ps w₀ (fin.settle app hooks ctx w).2 := by
  cases fin with
  | finished result => exact h
  | sending res task => exact settleSending_spec app hooks ctx res task h
  | responding res task => exact settleResponding_spec res task h

end Finalizing

theorem tidy_finalize (app : App K) (hooks : MergedHooks K) (ctx : Option Which)
    (res : Response K) : Tidy (finalize app hooks ctx res) := by
  intro w₀ ps w h
  have hsettle := settle_spec app hooks ctx _ (finalizeResponse_spec app hooks ctx res h)
  rw [finalize]
  dsimp only
  cases hrun : (finalizeResponse app hooks ctx res w).1.settle app hooks ctx
      (finalizeResponse app hooks ctx res w).2 with
  | mk result w' =>
    rw [hrun] at hsettle
    cases result with
    | ok res => exact hsettle
    | error err => exact hsettle

theorem tidy_send (app : App K) (hooks : MergedHooks K) (which : Which) (res : Response K) :
    Tidy (send app hooks which res) := by
  apply Tidy.get.bind
  intro w
  apply (Tidy.orFail _).bind
  intro res
  apply (Tidy.orFail _).bind
  intro res
  exact tidy_finalize app hooks (some which) res

/-! ## The `try` block -/

theorem tidy_coldGuard (app : App K) (slot : Slot)
    (guard : Option (Hook K (Option (Response K)))) {rest : Step K (Response K)}
    (hrest : Tidy rest) : Tidy (coldGuard app slot guard rest) := by
  cases guard with
  | none => exact hrest
  | some guard =>
    apply (tidy_call slot _ false guard (by simp)).bind
    intro guarded
    cases guarded with
    | none => exact hrest
    | some guarded => exact tidy_send app _ .main guarded

theorem tidy_preflight (app : App K) (allowed : List Routing.HttpMethod) :
    Tidy (preflight app allowed) := by
  rw [preflight]
  apply Tidy.bind
  · exact Tidy.modify (fun _ => rfl) fun _ => rfl
  · intro _
    dsimp only
    cases app.coldPathHooks.beforeHandle with
    | none => exact tidy_send app _ .preflight _
    | some beforeHandle =>
      apply (tidy_call _ _ false beforeHandle (by simp)).bind
      intro intercepted
      cases intercepted with
      | none => exact tidy_send app _ .preflight _
      | some intercepted => exact tidy_send app _ .preflight intercepted

theorem tidy_coldContext (app : App K) (needed : Bool) : Tidy (coldContext app needed) := by
  cases needed with
  | true => exact Tidy.modify (fun _ => rfl) fun _ => rfl
  | false => exact Tidy.modify (fun _ => rfl) fun _ => rfl

theorem tidy_coldPath (app : App K) (request : Request K) (allowed : List Routing.HttpMethod) :
    Tidy (coldPath app request allowed) := by
  rw [coldPath]
  split
  · split
    · apply (tidy_coldContext app _).bind
      intro _
      exact Tidy.fail _
    · exact tidy_preflight app allowed
  · apply (tidy_coldContext app _).bind
    intro _
    apply tidy_coldGuard
    apply tidy_coldGuard
    split
    · exact Tidy.fail _
    · exact Tidy.fail _

theorem tidy_assertAuthRan (app : App K) (route : CompiledRoute K) :
    Tidy (assertAuthRan app route) := by
  apply Tidy.get.bind
  intro w
  split
  · apply Tidy.get.bind
    intro w
    repeat' split
    · exact Tidy.pure _
    · exact Tidy.fail _
    · exact Tidy.fail _
    · exact Tidy.pure _
  · exact Tidy.pure _

theorem tidy_answerEarly (app : App K) (route : CompiledRoute K) (slot : Slot)
    (res : Response K) : Tidy (answerEarly app route slot res) := by
  have hsend : Tidy (do
      orFail (assertAcknowledged route res)
      send app route.mergedHooks .main res) := by
    apply (Tidy.orFail _).bind
    intro _
    exact tidy_send app _ .main res
  rw [answerEarly]
  split
  · apply (tidy_assertAuthRan app route).bind
    intro _
    apply (tidy_served slot).bind
    intro _
    exact hsend
  · exact hsend

theorem tidy_gate (app : App K) (route : CompiledRoute K) {slot : Slot}
    (hslot : slot.isFinal = false) (hook : Option (Hook K (Option (Response K))))
    {rest : Step K (Response K)} (hrest : Tidy rest) : Tidy (gate app route slot hook rest) := by
  cases hook with
  | none => exact hrest
  | some hook =>
    apply (tidy_call slot _ _ hook fun _ => hslot).bind
    intro answer
    have hadopt : Tidy (modify adoptRequestId : Step K Unit) := by
      apply Tidy.modify
      · intro w
        rw [adoptRequestId]
        repeat' split
        all_goals rfl
      · intro w
        rw [adoptRequestId]
        repeat' split
        all_goals rfl
    apply hadopt.bind
    intro _
    cases answer with
    | none => exact hrest
    | some res => exact tidy_answerEarly app route slot res

theorem tidy_handle (app : App K) (request : Request K) (route : CompiledRoute K) :
    Tidy (handle app request route) := by
  apply (tidy_assertAuthRan app route).bind
  intro _
  apply (tidy_served .handler).bind
  intro _
  have hrun : Tidy (runHandler app route) := by
    rw [runHandler]
    split
    · exact Tidy.orFail _
    · exact tidy_call .handler _ _ _ fun _ => rfl
  apply hrun.bind
  intro result
  have hafter : Tidy (runAfterHandle route result) := by
    rw [runAfterHandle]
    split
    · exact Tidy.pure _
    · apply (tidy_call .afterHandle _ _ _ fun _ => rfl).bind
      intro r
      exact Tidy.pure _
  apply hafter.bind
  intro result
  cases result with
  | inr res =>
    rw [respond]
    have hsend : Tidy (do
        return headOnly request (← send app route.mergedHooks .main res)) := by
      apply (tidy_send app _ .main res).bind
      intro res
      exact Tidy.pure _
    split
    · apply (Tidy.fail _).bind
      intro _
      exact hsend
    · exact hsend
  | inl value =>
    apply (tidy_call .serialization _ false _ (by simp)).bind
    intro res
    apply Tidy.get.bind
    intro w
    apply (Tidy.orFail _).bind
    intro res
    apply (Tidy.orFail _).bind
    intro res
    apply (tidy_finalize app _ _ res).bind
    intro res
    exact Tidy.pure _

theorem tidy_createContext (request : Request K) (route : CompiledRoute K) :
    Tidy (createContext request route) := by
  rw [createContext]
  apply Tidy.bind
  · exact Tidy.modify (fun _ => rfl) fun _ => rfl
  intro _
  split
  · apply (Tidy.pure _).bind
    intro _
    exact Tidy.modify (fun _ => rfl) fun _ => rfl
  · apply Tidy.bind
    · apply (Tidy.orFail _).bind
      intro _
      exact Tidy.pure _
    intro _
    exact Tidy.modify (fun _ => rfl) fun _ => rfl

theorem tidy_routePath (app : App K) (request : Request K) (route : CompiledRoute K) :
    Tidy (routePath app request route) := by
  rw [routePath]
  apply Tidy.bind
  · exact Tidy.modify (fun _ => rfl) fun _ => rfl
  intro _
  have hrest : Tidy (do
      createContext request route
      gate app route .preBody route.mergedHooks.preBody do
        call .validation (some .main) route.raced route.validate
        gate app route .beforeHandle route.mergedHooks.beforeHandle do
          handle app request route) := by
    apply (tidy_createContext request route).bind
    intro _
    apply tidy_gate app route rfl
    apply (tidy_call .validation _ _ _ fun _ => rfl).bind
    intro _
    exact tidy_gate app route rfl _ (tidy_handle app request route)
  split
  · exact hrest
  · apply (tidy_call .routeOnRequest _ false _ (by simp)).bind
    intro _
    exact hrest

theorem tidy_tryBlock (app : App K) (allowInternal : Bool) (request : Request K) :
    Tidy (tryBlock app allowInternal request) := by
  apply (Tidy.orFail _).bind
  intro _
  have hrun : Tidy (runOnRequest app request) := by
    rw [runOnRequest]
    split
    · exact Tidy.pure _
    · apply Tidy.bind
      · exact Tidy.modify (fun _ => rfl) fun _ => rfl
      · intro _
        exact tidy_call .onRequest _ false _ (by simp)
  apply hrun.bind
  intro _
  cases app.findRoute request with
  | none =>
    apply (Tidy.orFail _).bind
    intro _
    exact tidy_coldPath app request _
  | some found =>
    dsimp only
    split
    · apply (Tidy.orFail _).bind
      intro _
      exact Tidy.fail _
    · apply (Tidy.orFail _).bind
      intro _
      exact tidy_routePath app request found.handler

/-! ## The `catch` block -/

def Steady (c : Step K α) : Prop :=
  Triple (fun _ => True) c (fun _ _ => True) fun failure _ => ∃ err, failure = .thrown err

namespace Steady

theorem bind {c : Step K α} {f : α → Step K β} (hc : Steady c) (hf : ∀ a, Steady (f a)) :
    Steady (c >>= f) := Triple.bind hc hf

theorem orFail (r : Except (Thrown K) α) : Steady (orFail r : Step K α) := by
  cases r with
  | ok a => exact fun _ _ => trivial
  | error err => exact fun _ _ => ⟨err, rfl⟩

end Steady

theorem steady_finish (slot : Slot) (task : Task (Env K) (Thrown K) α) :
    Steady (finish slot false task) := by
  induction task with
  | done result =>
    apply Steady.bind
    · exact fun _ _ => trivial
    · intro _
      exact Steady.orFail result
  | run step next ih =>
    intro w _
    exact ih w.env _ trivial

theorem steady_call (slot : Slot) (given : Option Which) (fn : Hook K α) :
    Steady (call slot given false fn) := by
  intro w _
  rw [call]
  cases start slot given fn w with
  | ok r w' =>
    cases r with
    | value a => trivial
    | promise task => exact steady_finish slot task w' trivial
  | error err w' => exact ⟨err, rfl⟩

theorem steady_runOnError (hooks : MergedHooks K) (err : Thrown K) :
    Steady (runOnError hooks err) := by
  rw [runOnError]
  split
  · exact fun _ _ => trivial
  · next onError _ => exact fun w => steady_call .onError w.hookCtx (onError err) w

theorem steady_catchBlock (app : App K) (request : Request K) (err : Thrown K) :
    Steady (catchBlock app request err) := by
  apply Steady.bind
  · exact fun _ _ => trivial
  intro _
  apply Steady.bind
  · exact fun _ _ => trivial
  intro w
  apply (steady_runOnError _ err).bind
  intro handled
  cases handled with
  | some handled =>
    apply Steady.bind
    · exact fun _ _ => trivial
    intro w
    exact Steady.orFail _
  | none =>
    apply Steady.bind
    · exact fun _ _ => trivial
    intro w
    apply (Steady.orFail _).bind
    intro res
    exact Steady.orFail _

theorem tidy_catchBlock (app : App K) (request : Request K) (err : Thrown K) :
    Tidy (catchBlock app request err) := by
  apply Tidy.bind
  · apply Tidy.modify
    · intro w
      rw [bootstrapContext]
      split <;> rfl
    · intro w
      rw [bootstrapContext]
      split <;> rfl
  intro _
  apply Tidy.get.bind
  intro w
  have hrun : Tidy (runOnError (app.activeHooks w) err) := by
    rw [runOnError]
    split
    · exact Tidy.pure _
    · next onError _ =>
      exact fun w₀ ps w => tidy_call .onError w.hookCtx false (onError err) (by simp) w₀ ps w
  apply hrun.bind
  intro handled
  cases handled with
  | some handled =>
    apply Tidy.get.bind
    intro w
    exact Tidy.orFail _
  | none =>
    apply Tidy.get.bind
    intro w
    apply (Tidy.orFail _).bind
    intro res
    exact Tidy.orFail _

theorem answerError_spec (app : App K) (request : Request K) (err : Thrown K) {w₀ : Since K}
    {w : World K} {ps : List Slot} (h : Segment ps w₀ w) :
    Segment ((answerError app request err w).1.pending ++ ps) w₀
      (answerError app request err w).2 := by
  have htidy := tidy_catchBlock app request err w₀ ps w h
  have hsteady := steady_catchBlock app request err w trivial
  rw [answerError]
  cases hrun : catchBlock app request err w with
  | ok res w' =>
    rw [hrun] at htidy
    exact finalizeResponse_spec app (app.activeHooks w') w'.hookCtx res htidy
  | error failure w' =>
    rw [hrun] at htidy hsteady
    obtain ⟨err', rfl⟩ := hsteady
    exact htidy

/-- The steps that are running at the `return`: a hook of the answer, and an abandoned step. -/
def Answer.running (answer : Answer K) : List Slot :=
  answer.fin.pending ++ (answer.held.map Prod.fst).toList

theorem answer_spec (app : App K) (allowInternal : Bool) (request : Request K) (w : World K) :
    Segment (answer app allowInternal request w).running ⟨w, []⟩
        (answer app allowInternal request w).world ∧
      ∀ held, (answer app allowInternal request w).held = some held →
        held.1.isFinal = false := by
  have htry := tidy_tryBlock app allowInternal request ⟨w, []⟩ [] w (.refl w [])
  rw [answer]
  cases hrun : tryBlock app allowInternal request w with
  | ok res w' =>
    rw [hrun] at htry
    exact ⟨htry, by simp⟩
  | error failure w' =>
    rw [hrun] at htry
    cases failure with
    | thrown err => exact ⟨answerError_spec app request err htry, by simp⟩
    | abandoned slot rest =>
      obtain ⟨hslot, hseg⟩ := htry
      refine ⟨answerError_spec app request (timeoutError app) hseg, ?_⟩
      rintro held ⟨⟩
      exact hslot

end Daloy.Dispatch
