import Daloy.Foundations.JsMap
import Mathlib.Tactic.Common

/-! # The branches of `some`

`runCandidates` of `src/combine.ts` with the snapshots of `ctx.state`, over the request finalizers
of `src/request-finalizers.ts`.

* `Ctx`: the own keys of `ctx.state`, one of which refers to the array of the finalizers.
-/

namespace Daloy.Compose.Branches
set_option autoImplicit false

variable {K V F E R : Type} [DecidableEq K]

/-! ## The source -/

/-- What happens to `ctx.state`: an own key gets a value, `none` for `undefined`, or is deleted, or
a finalizer is registered. -/
inductive Effect (K V F : Type)
  | set (key : K) (value : Option V)
  | delete (key : K)
  | register (fn : F)

inductive Event (F : Type)
  | started
  | ran (fn : F)
  deriving DecidableEq

/-- A context: the own keys of `ctx.state` but for `REQUEST_FINALIZERS`, that key, which is absent,
undefined or refers to an array, the arrays, the reference of the next one, and what happened.
Values are taken up to `===`. -/
structure Ctx (K V F : Type) where
  own : JsMap K (Option V) := ∅
  slot : Option (Option ℕ) := none
  arrays : ℕ → List F := fun _ => []
  next : ℕ := 0
  trace : List (Event F) := []

def Ctx.value (ctx : Ctx K V F) (key : K) : Option V := (ctx.own.get? key).join

def Ctx.write (ctx : Ctx K V F) (ref : ℕ) (list : List F) : Ctx K V F :=
  { ctx with arrays := Function.update ctx.arrays ref list }

def registerRequestFinalizer (ctx : Ctx K V F) (fn : F) : Ctx K V F :=
  match ctx.slot.join with
  | none => { ctx.write ctx.next [fn] with slot := some (some ctx.next), next := ctx.next + 1 }
  | some ref => ctx.write ref (ctx.arrays ref ++ [fn])

def apply (ctx : Ctx K V F) : Effect K V F → Ctx K V F
  | .set key value => { ctx with own := ctx.own.set key value }
  | .delete key => { ctx with own := ctx.own.delete key }
  | .register fn => registerRequestFinalizer ctx fn

def perform (effects : List (Effect K V F)) (ctx : Ctx K V F) : Ctx K V F :=
  effects.foldl apply ctx

def Ctx.record (ctx : Ctx K V F) (event : Event F) : Ctx K V F :=
  { ctx with trace := ctx.trace ++ [event] }

def Ctx.finalizers (ctx : Ctx K V F) : List F :=
  match ctx.slot.join with
  | none => []
  | some ref => ctx.arrays ref

def requestFinalizerMark (ctx : Ctx K V F) : ℕ := ctx.finalizers.length

/-- A finalizer runs: what it does until it returns or throws, which is swallowed. -/
def runFinalizer (release : F → Ctx K V F → List (Effect K V F)) (ctx : Ctx K V F) (fn : F) :
    Ctx K V F :=
  perform (release fn (ctx.record (.ran fn))) (ctx.record (.ran fn))

def rollbackRequestFinalizers (release : F → Ctx K V F → List (Effect K V F)) (ctx : Ctx K V F)
    (mark : ℕ) : Ctx K V F :=
  match ctx.slot.join with
  | none => ctx
  | some ref =>
    if (ctx.arrays ref).length ≤ mark then ctx
    else
      -- `list.splice(mark)`
      ((ctx.arrays ref).drop mark).foldl (runFinalizer release)
        (ctx.write ref ((ctx.arrays ref).take mark))

/-- The own keys with their values. -/
structure StateSnapshot (K V : Type) where
  own : JsMap K (Option V)
  slot : Option (Option ℕ)

def snapshotState (ctx : Ctx K V F) : StateSnapshot K V := ⟨ctx.own, ctx.slot⟩

/-- `if (state[key] !== value) state[key] = value`. -/
def resetKey [DecidableEq V] (own : JsMap K (Option V)) (entry : K × Option V) :
    JsMap K (Option V) :=
  if (own.get? entry.1).join ≠ entry.2 then own.set entry.1 entry.2 else own

def resetSlot (slot : Option (Option ℕ)) : Option (Option ℕ) → Option (Option ℕ)
  | none => none
  | some ref => if slot.join ≠ ref then some ref else slot

def restoreState [DecidableEq V] (ctx : Ctx K V F) (snapshot : StateSnapshot K V) : Ctx K V F :=
  let added := (ctx.own.entries.map Prod.fst).filter
    fun key => key ∉ snapshot.own.entries.map Prod.fst
  { ctx with
    own := snapshot.own.entries.foldl resetKey (added.foldl JsMap.delete ctx.own)
    slot := resetSlot ctx.slot snapshot.slot }

inductive Denial (E R : Type)
  | thrown (err : E)
  | response (res : R)
  deriving DecidableEq

/-- What a candidate does when it runs, and how it denies. -/
structure Branch (K V F E R : Type) where
  effects : List (Effect K V F)
  denial : Option (Denial E R) := none

abbrev Candidate (K V F E R : Type) := Ctx K V F → Branch K V F E R

def runLoop [DecidableEq V] (release : F → Ctx K V F → List (Effect K V F))
    (snapshot : StateSnapshot K V) (finalizerMark : ℕ) :
    List (Candidate K V F E R) → Option (Denial E R) → Ctx K V F →
      Option (Denial E R) × Ctx K V F
  | [], firstFailure, ctx => (firstFailure, ctx)
  | fn :: candidates, firstFailure, ctx =>
    let branch := fn ctx
    let after := perform branch.effects (ctx.record .started)
    match branch.denial with
    | none => (none, after)
    | some denial =>
      runLoop release snapshot finalizerMark candidates (firstFailure.or (some denial))
        (restoreState (rollbackRequestFinalizers release after finalizerMark) snapshot)

/-- The gate of one candidate or more: `none` where it returns `undefined`. -/
def runCandidates [DecidableEq V] (release : F → Ctx K V F → List (Effect K V F))
    (first : Candidate K V F E R) (others : List (Candidate K V F E R)) (ctx : Ctx K V F) :
    Option (Denial E R) × Ctx K V F :=
  runLoop release (snapshotState ctx) (requestFinalizerMark ctx) (first :: others) none ctx

/-! ## What is promised -/

def registered (effects : List (Effect K V F)) : List F :=
  effects.filterMap fun
    | .register fn => some fn
    | _ => none

/-- A finalizer releases what it was registered for: it may change any own key, and registers
nothing. -/
def Releases (release : F → Ctx K V F → List (Effect K V F)) : Prop :=
  ∀ fn ctx, registered (release fn ctx) = []

/-- The keys with defined values and the finalizers are the same. -/
structure Same (ctx ctx' : Ctx K V F) : Prop where
  values : ∀ key, ctx.value key = ctx'.value key
  finalizers : ctx.finalizers = ctx'.finalizers

/-- A candidate that ran, and the context that it started in. -/
structure Attempt (K V F E R : Type) where
  candidate : Candidate K V F E R
  start : Ctx K V F

def Attempt.branch (attempt : Attempt K V F E R) : Branch K V F E R :=
  attempt.candidate attempt.start

/-- What an attempt leaves in the trace: the finalizers of a branch that is denied run, each once,
in order. -/
def Attempt.events (attempt : Attempt K V F E R) : List (Event F) :=
  .started :: if attempt.branch.denial.isSome then
    (registered attempt.branch.effects).map .ran else []

/-- A run of candidates is a transaction, by its attempts in order. -/
structure Transaction (candidates : List (Candidate K V F E R)) (ctx : Ctx K V F)
    (result : Option (Denial E R)) (ctx' : Ctx K V F) (attempts : List (Attempt K V F E R)) :
    Prop where
  in_order : attempts.map Attempt.candidate <+: candidates
  starts : ∀ attempt ∈ attempts, Same attempt.start ctx
  passes_iff : result = none ↔ ∃ attempt ∈ attempts, attempt.branch.denial = none
  passed : result = none → ∃ denied last, attempts = denied ++ [last] ∧
    (∀ attempt ∈ denied, attempt.branch.denial ≠ none) ∧
    (∀ key, ctx'.value key = (perform last.branch.effects ctx).value key) ∧
    ctx'.finalizers = ctx.finalizers ++ registered last.branch.effects
  denied : result ≠ none → attempts.map Attempt.candidate = candidates ∧ Same ctx' ctx ∧
    attempts.head?.map (fun attempt => attempt.branch.denial) = some result
  events : ctx'.trace = ctx.trace ++ attempts.flatMap Attempt.events

/-! ## What effects do -/

omit [DecidableEq K] in
theorem registered_cons (effect : Effect K V F) (effects : List (Effect K V F)) :
    registered (effect :: effects) = registered [effect] ++ registered effects := by
  cases effect with
  | set key value => rfl
  | delete key => rfl
  | register fn => rfl

theorem apply_values {ctx ctx' : Ctx K V F} (h : ∀ key, ctx.value key = ctx'.value key)
    (effect : Effect K V F) (key : K) :
    (apply ctx effect).value key = (apply ctx' effect).value key := by
  cases effect with
  | set k value =>
    have hkey := h key
    simp only [Ctx.value, apply, JsMap.get?_set] at hkey ⊢
    split
    · rfl
    · exact hkey
  | delete k =>
    have hkey := h key
    simp only [Ctx.value, apply, JsMap.get?_delete] at hkey ⊢
    split
    · rfl
    · exact hkey
  | register fn =>
    have hown (c : Ctx K V F) : (registerRequestFinalizer c fn).own = c.own := by
      unfold registerRequestFinalizer
      split
      · rfl
      · rfl
    simp only [Ctx.value, apply, hown]
    exact h key

theorem perform_values (effects : List (Effect K V F)) {ctx ctx' : Ctx K V F}
    (h : ∀ key, ctx.value key = ctx'.value key) (key : K) :
    (perform effects ctx).value key = (perform effects ctx').value key := by
  unfold perform
  induction effects generalizing ctx ctx' with
  | nil => exact h key
  | cons effect effects ih => exact ih (apply_values h effect)

theorem apply_finalizers (ctx : Ctx K V F) (effect : Effect K V F) :
    (apply ctx effect).finalizers = ctx.finalizers ++ registered [effect] := by
  cases effect with
  | set key value => exact (List.append_nil _).symm
  | delete key => exact (List.append_nil _).symm
  | register fn =>
    simp only [apply, registerRequestFinalizer, Ctx.finalizers]
    cases hslot : ctx.slot.join with
    | none => simp [Ctx.write, registered]
    | some ref => simp [Ctx.write, hslot, registered]

theorem perform_finalizers (effects : List (Effect K V F)) (ctx : Ctx K V F) :
    (perform effects ctx).finalizers = ctx.finalizers ++ registered effects := by
  unfold perform
  induction effects generalizing ctx with
  | nil => exact (List.append_nil _).symm
  | cons effect effects ih =>
    rw [List.foldl_cons, ih, apply_finalizers, List.append_assoc, ← registered_cons]

theorem perform_trace (effects : List (Effect K V F)) (ctx : Ctx K V F) :
    (perform effects ctx).trace = ctx.trace := by
  have happly (c : Ctx K V F) (effect : Effect K V F) : (apply c effect).trace = c.trace := by
    cases effect with
    | set key value => rfl
    | delete key => rfl
    | register fn =>
      rw [apply, registerRequestFinalizer]
      split
      · rfl
      · rfl
  unfold perform
  induction effects generalizing ctx with
  | nil => rfl
  | cons effect effects ih => rw [List.foldl_cons, ih, happly]

theorem perform_slot (effects : List (Effect K V F)) {ctx : Ctx K V F} {ref : ℕ}
    (h : ctx.slot.join = some ref) : (perform effects ctx).slot.join = some ref := by
  have happly {c : Ctx K V F} (hc : c.slot.join = some ref) (effect : Effect K V F) :
      (apply c effect).slot.join = some ref := by
    cases effect with
    | set key value => exact hc
    | delete key => exact hc
    | register fn =>
      rw [apply, registerRequestFinalizer, hc]
      exact hc
  unfold perform
  induction effects generalizing ctx with
  | nil => exact h
  | cons effect effects ih => exact ih (happly h effect)

theorem perform_own {effects : List (Effect K V F)} (h : registered effects = [])
    (ctx : Ctx K V F) :
    (perform effects ctx).slot = ctx.slot ∧ (perform effects ctx).arrays = ctx.arrays := by
  unfold perform
  induction effects generalizing ctx with
  | nil => exact ⟨rfl, rfl⟩
  | cons effect effects ih =>
    rw [registered_cons, List.append_eq_nil_iff] at h
    obtain ⟨hslot, harrays⟩ := ih h.2 (apply ctx effect)
    rw [List.foldl_cons, hslot, harrays]
    cases effect with
    | set key value => exact ⟨rfl, rfl⟩
    | delete key => exact ⟨rfl, rfl⟩
    | register fn => exact absurd h.1 (List.cons_ne_nil _ _)

/-! ## The rollback -/

variable {release : F → Ctx K V F → List (Effect K V F)}

theorem runFinalizers (hrelease : Releases release) (fns : List F) (ctx : Ctx K V F) :
    (fns.foldl (runFinalizer release) ctx).slot = ctx.slot ∧
      (fns.foldl (runFinalizer release) ctx).arrays = ctx.arrays ∧
      (fns.foldl (runFinalizer release) ctx).trace = ctx.trace ++ fns.map .ran := by
  induction fns generalizing ctx with
  | nil => exact ⟨rfl, rfl, (List.append_nil _).symm⟩
  | cons fn fns ih =>
    obtain ⟨hslot, harrays, htrace⟩ := ih (runFinalizer release ctx fn)
    obtain ⟨hslot', harrays'⟩ :=
      perform_own (hrelease fn (ctx.record (.ran fn))) (ctx.record (.ran fn))
    rw [List.foldl_cons, hslot, harrays, htrace, runFinalizer, hslot', harrays', perform_trace]
    refine ⟨rfl, rfl, ?_⟩
    simp [Ctx.record]

theorem rollback_trace (hrelease : Releases release) (ctx : Ctx K V F) (mark : ℕ) :
    (rollbackRequestFinalizers release ctx mark).trace =
      ctx.trace ++ (ctx.finalizers.drop mark).map .ran := by
  unfold rollbackRequestFinalizers Ctx.finalizers
  cases ctx.slot.join with
  | none => simp
  | some ref =>
    simp only
    split
    · rename_i hle
      rw [List.drop_eq_nil_of_le hle, List.map_nil, List.append_nil]
    · exact (runFinalizers hrelease _ _).2.2

theorem rollback_array (hrelease : Releases release) {ctx : Ctx K V F} {ref : ℕ}
    (h : ctx.slot.join = some ref) (mark : ℕ) :
    (rollbackRequestFinalizers release ctx mark).arrays ref = (ctx.arrays ref).take mark := by
  unfold rollbackRequestFinalizers
  rw [h]
  simp only
  split
  · rename_i hle
    rw [List.take_of_length_le hle]
  · rw [(runFinalizers hrelease _ _).2.1]
    simp [Ctx.write]

/-! ## The snapshot -/

variable [DecidableEq V]

theorem resetSlot_join (slot snapshot : Option (Option ℕ)) :
    (resetSlot slot snapshot).join = snapshot.join := by
  cases snapshot with
  | none => rfl
  | some ref =>
    rw [resetSlot]
    split
    · rfl
    · rename_i h
      simpa using h

theorem resetKey_get (own : JsMap K (Option V)) (entry : K × Option V) (key : K) :
    ((resetKey own entry).get? key).join =
      if key = entry.1 then entry.2 else (own.get? key).join := by
  rw [resetKey]
  split
  · rw [JsMap.get?_set]
    split
    · rfl
    · rfl
  · rename_i hsame
    split
    · rename_i hkey
      rw [hkey]
      simpa using hsame
    · rfl

theorem resetKeys_get {entries : List (K × Option V)} (hnodup : (entries.map Prod.fst).Nodup)
    (own : JsMap K (Option V)) :
    (∀ entry ∈ entries, ((entries.foldl resetKey own).get? entry.1).join = entry.2) ∧
      ∀ key, key ∉ entries.map Prod.fst →
        ((entries.foldl resetKey own).get? key).join = (own.get? key).join := by
  induction entries generalizing own with
  | nil => exact ⟨by simp, fun key _ => rfl⟩
  | cons entry entries ih =>
    rw [List.map_cons, List.nodup_cons] at hnodup
    obtain ⟨hmem, hother⟩ := ih hnodup.2 (resetKey own entry)
    refine ⟨?_, ?_⟩
    · intro e he
      obtain rfl | he := List.mem_cons.mp he
      · rw [List.foldl_cons, hother _ hnodup.1, resetKey_get, if_pos rfl]
      · exact hmem e he
    · intro key hkey
      rw [List.map_cons, List.mem_cons, not_or] at hkey
      rw [List.foldl_cons, hother key hkey.2, resetKey_get, if_neg hkey.1]

theorem restore_values (ctx base : Ctx K V F) (key : K) :
    (restoreState ctx (snapshotState base)).value key = base.value key := by
  obtain ⟨hmem, hother⟩ := resetKeys_get base.own.nodup
    (((ctx.own.entries.map Prod.fst).filter
      fun k => k ∉ base.own.entries.map Prod.fst).foldl JsMap.delete ctx.own)
  show ((base.own.entries.foldl resetKey _).get? key).join = (base.own.get? key).join
  cases hvalue : base.own.get? key with
  | some value => exact hmem (key, value) (JsMap.get?_eq_some.mp hvalue)
  | none =>
    have hkey := JsMap.get?_eq_none.mp hvalue
    refine (hother key hkey).trans ?_
    rw [JsMap.get?_deleteAll]
    split
    · rfl
    · rename_i hkept
      cases hown : ctx.own.get? key with
      | none => rfl
      | some value =>
        have hin : key ∈ ctx.own.entries.map Prod.fst :=
          List.mem_map.mpr ⟨(key, value), JsMap.get?_eq_some.mp hown, rfl⟩
        exact absurd (List.mem_filter.mpr ⟨hin, by simpa using hkey⟩) hkept

/-! ## One branch -/

/-- What holds between the branches: the state is that of the start, and the array of its finalizers
has its items. -/
structure Restored (base ctx : Ctx K V F) : Prop where
  values : ∀ key, ctx.value key = base.value key
  slot : ctx.slot.join = base.slot.join
  array : ∀ ref, base.slot.join = some ref → ctx.arrays ref = base.arrays ref

omit [DecidableEq V] in
theorem Restored.same {base ctx : Ctx K V F} (h : Restored base ctx) : Same ctx base := by
  refine ⟨h.values, ?_⟩
  unfold Ctx.finalizers
  rw [h.slot]
  cases hslot : base.slot.join with
  | none => rfl
  | some ref => exact h.array ref hslot

/-- **What a branch that is denied leaves behind**: the state of the start, and its finalizers in
the trace. -/
theorem rolled_back (hrelease : Releases release) {base ctx : Ctx K V F} (h : Restored base ctx)
    (effects : List (Effect K V F)) :
    Restored base (restoreState (rollbackRequestFinalizers release
        (perform effects (ctx.record .started)) (requestFinalizerMark base)) (snapshotState base)) ∧
      (restoreState (rollbackRequestFinalizers release
        (perform effects (ctx.record .started)) (requestFinalizerMark base))
          (snapshotState base)).trace =
        ctx.trace ++ .started :: (registered effects).map .ran := by
  have hlist : (perform effects (ctx.record .started)).finalizers =
      base.finalizers ++ registered effects := by
    rw [perform_finalizers, ← h.same.finalizers]
    rfl
  refine ⟨⟨restore_values _ base, resetSlot_join _ _, ?_⟩, ?_⟩
  · intro ref href
    have hstart : (ctx.record .started).slot.join = some ref := h.slot.trans href
    have hslot := perform_slot effects hstart
    have hitems : (perform effects (ctx.record .started)).arrays ref =
        base.arrays ref ++ registered effects := by
      simpa only [Ctx.finalizers, hslot, href] using hlist
    have hmark : requestFinalizerMark base = (base.arrays ref).length := by
      simp only [requestFinalizerMark, Ctx.finalizers, href]
    show (rollbackRequestFinalizers release _ _).arrays ref = _
    rw [rollback_array hrelease hslot, hitems, hmark, List.take_left]
  · show (rollbackRequestFinalizers release _ _).trace = _
    rw [rollback_trace hrelease, perform_trace, hlist, requestFinalizerMark, List.drop_left]
    simp [Ctx.record]

/-! ## The run -/

theorem runLoop_attempts (hrelease : Releases release) {base : Ctx K V F}
    (candidates : List (Candidate K V F E R)) (firstFailure : Option (Denial E R))
    {ctx : Ctx K V F} (h : Restored base ctx) {result : Option (Denial E R)} {ctx' : Ctx K V F}
    (hrun : runLoop release (snapshotState base) (requestFinalizerMark base) candidates firstFailure
      ctx = (result, ctx')) :
    ∃ attempts : List (Attempt K V F E R),
      attempts.map Attempt.candidate <+: candidates ∧
      (∀ attempt ∈ attempts, Same attempt.start base) ∧
      ctx'.trace = ctx.trace ++ attempts.flatMap Attempt.events ∧
      ((result = none ∧ ∃ denied last, attempts = denied ++ [last] ∧
          (∀ attempt ∈ denied, attempt.branch.denial ≠ none) ∧ last.branch.denial = none ∧
          (∀ key, ctx'.value key = (perform last.branch.effects base).value key) ∧
          ctx'.finalizers = base.finalizers ++ registered last.branch.effects) ∨
        (attempts.map Attempt.candidate = candidates ∧ Restored base ctx' ∧
          (∀ attempt ∈ attempts, attempt.branch.denial ≠ none) ∧
          result = firstFailure.or
            (attempts.head?.bind fun attempt => attempt.branch.denial))) := by
  induction candidates generalizing firstFailure ctx with
  | nil =>
    obtain ⟨rfl, rfl⟩ := Prod.mk.inj hrun
    exact ⟨[], List.nil_prefix, by simp, by simp, .inr ⟨rfl, h, by simp, by simp⟩⟩
  | cons fn candidates ih =>
    rw [runLoop] at hrun
    cases hdenial : (fn ctx).denial with
    | none =>
      rw [hdenial] at hrun
      obtain ⟨rfl, rfl⟩ := Prod.mk.inj hrun
      refine ⟨[⟨fn, ctx⟩], by simp, by simpa using h.same, ?_, .inl ⟨rfl, [], ⟨fn, ctx⟩, rfl, ?_⟩⟩
      · simp [Attempt.events, Attempt.branch, hdenial, perform_trace, Ctx.record]
      · refine ⟨by simp, hdenial, perform_values (fn ctx).effects h.values, ?_⟩
        rw [perform_finalizers, ← h.same.finalizers]
        rfl
    | some denial =>
      rw [hdenial] at hrun
      obtain ⟨hrestored, htrace⟩ := rolled_back hrelease h (fn ctx).effects
      obtain ⟨attempts, horder, hstarts, hevents, hcases⟩ := ih _ hrestored hrun
      have hbranch : (Attempt.mk fn ctx).branch.denial = some denial := hdenial
      refine ⟨⟨fn, ctx⟩ :: attempts, ?_, ?_, ?_, ?_⟩
      · rw [List.map_cons, List.prefix_cons_inj]
        exact horder
      · exact List.forall_mem_cons.mpr ⟨h.same, hstarts⟩
      · rw [hevents, htrace, List.flatMap_cons, Attempt.events, hbranch]
        simp [Attempt.branch]
      · obtain ⟨hnone, denied, last, rfl, hdenied, hpass⟩ | ⟨hall, hend, hdenied, hresult⟩ := hcases
        · refine .inl ⟨hnone, ⟨fn, ctx⟩ :: denied, last, rfl, ?_, hpass⟩
          exact List.forall_mem_cons.mpr ⟨by simp [hbranch], hdenied⟩
        · refine .inr ⟨by rw [List.map_cons, hall], hend, ?_, ?_⟩
          · exact List.forall_mem_cons.mpr ⟨by simp [hbranch], hdenied⟩
          · rw [hresult, List.head?_cons, Option.bind_some, hbranch]
            cases firstFailure with
            | none => rfl
            | some failure => rfl

/-- **`some` is a transactional OR**, for finalizers that release and register nothing. -/
theorem some_transactional (hrelease : Releases release) (first : Candidate K V F E R)
    (others : List (Candidate K V F E R)) (ctx : Ctx K V F) :
    ∃ attempts, Transaction (first :: others) ctx (runCandidates release first others ctx).1
      (runCandidates release first others ctx).2 attempts := by
  have hstart : Restored ctx ctx := ⟨fun _ => rfl, rfl, fun _ _ => rfl⟩
  have hrun : runLoop release (snapshotState ctx) (requestFinalizerMark ctx) (first :: others) none
      ctx = ((runCandidates release first others ctx).1,
        (runCandidates release first others ctx).2) := rfl
  obtain ⟨attempts, horder, hstarts, hevents, hcases⟩ :=
    runLoop_attempts hrelease (first :: others) none hstart hrun
  refine ⟨attempts, ?_⟩
  obtain ⟨hnone, denied, last, hlist, hdenied, hlast, heffects⟩ | ⟨hall, hend, hdenied, hresult⟩ :=
    hcases
  · have hmem : last ∈ attempts := by simp [hlist]
    exact ⟨horder, hstarts, ⟨fun _ => ⟨last, hmem, hlast⟩, fun _ => hnone⟩,
      fun _ => ⟨denied, last, hlist, hdenied, heffects⟩, fun h => absurd hnone h, hevents⟩
  · obtain ⟨head, rest, rfl⟩ := List.exists_cons_of_ne_nil fun hnil : attempts = [] => by
      simp [hnil] at hall
    have hhead := hdenied head List.mem_cons_self
    rw [List.head?_cons, Option.bind_some, Option.none_or] at hresult
    have hne : (runCandidates release first others ctx).1 ≠ none := hresult ▸ hhead
    refine ⟨horder, hstarts, ?_, fun h => absurd h hne, fun _ => ⟨hall, hend.same, ?_⟩, hevents⟩
    · refine ⟨fun h => absurd h hne, ?_⟩
      rintro ⟨attempt, hattempt, hpass⟩
      exact absurd hpass (hdenied attempt hattempt)
    · rw [List.head?_cons, Option.map_some, hresult]

def denies : Candidate ℕ ℕ ℕ ℕ ℕ := fun _ => ⟨[.set 0 (some 1), .register 7], some (.thrown 401)⟩

def passes : Candidate ℕ ℕ ℕ ℕ ℕ := fun _ => ⟨[.set 1 (some 2), .register 8], none⟩

def clears (_ : ℕ) (_ : Ctx ℕ ℕ ℕ) : List (Effect ℕ ℕ ℕ) := [.set 0 none, .delete 1]

theorem some_transactional_denied_passes : Releases clears ∧
    ∃ attempts, Transaction [denies, passes] {} (runCandidates clears denies [passes] {}).1
      (runCandidates clears denies [passes] {}).2 attempts :=
  ⟨fun _ _ => rfl, some_transactional (fun _ _ => rfl) denies [passes] {}⟩

theorem registering_finalizer_stays :
    (runCandidates (fun fn _ => if fn = 7 then [.register 9] else []) denies []
      ({ slot := some (some 0), next := 1 } : Ctx ℕ ℕ ℕ)).1 = some (.thrown 401) ∧
    (runCandidates (fun fn _ => if fn = 7 then [.register 9] else []) denies []
      ({ slot := some (some 0), next := 1 } : Ctx ℕ ℕ ℕ)).2.finalizers = [9] ∧
    ({ slot := some (some 0), next := 1 } : Ctx ℕ ℕ ℕ).finalizers = [] := by
  decide

end Daloy.Compose.Branches
