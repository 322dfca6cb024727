import Daloy.Compose.Rejections

/-! # Hooks and what they do

A stack of hooks is given by names, and what each hook does by a behaviour.

* `balanced_of_runs`: a walk that is that of the flat list for every behaviour charges at each
  checkpoint as many budgets as are due there, all at one level.
-/

namespace Daloy.Compose
set_option autoImplicit false

open Daloy.Effects Daloy.Unicode

variable {κ : Type} {T : HookTypes}

/-- A bundle of hooks, by name. -/
structure Registered (κ : Type) where
  onRequest : Option κ := none
  preBody : Option κ := none
  beforeHandle : Option κ := none
  afterHandle : Option κ := none
  onError : Option κ := none
  onSend : Option κ := none
  onResponse : Option κ := none
  earlyRejection : Option (List κ) := none
  deferredPreBody : Option (List κ) := none
  deferredPreBodyOnly : Bool := false
  requireScopes : Option (List JsString) := none
  responseCache : Bool := false
  idempotency : Bool := false
  auth : Bool := false
  tenancy : Bool := false
  session : Bool := false
  csrf : Bool := false

/-- What the hook of a name does. -/
structure Behaviour (κ : Type) (T : HookTypes) where
  onRequest : κ → T.Request → T.Call Unit
  gate : κ → T.Gate
  afterHandle : κ → T.Value → T.Call (Option T.Value)
  onError : κ → T.Thrown → T.Gate
  onSend : κ → T.Response → T.Gate
  onResponse : κ → T.Response → T.Call Unit

namespace Registered

def hooks (behaviour : Behaviour κ T) (registered : Registered κ) : Hooks T where
  onRequest := registered.onRequest.map behaviour.onRequest
  preBody := registered.preBody.map behaviour.gate
  beforeHandle := registered.beforeHandle.map behaviour.gate
  afterHandle := registered.afterHandle.map behaviour.afterHandle
  onError := registered.onError.map behaviour.onError
  onSend := registered.onSend.map behaviour.onSend
  onResponse := registered.onResponse.map behaviour.onResponse
  earlyRejection := registered.earlyRejection.map (·.map behaviour.gate)
  deferredPreBody := registered.deferredPreBody.map (·.map behaviour.gate)
  deferredPreBodyOnly := registered.deferredPreBodyOnly
  requireScopes := registered.requireScopes
  responseCache := registered.responseCache
  idempotency := registered.idempotency
  auth := registered.auth
  tenancy := registered.tenancy
  session := registered.session
  csrf := registered.csrf

def layer (behaviour : Behaviour κ T) (registered : Registered κ) : Layer T :=
  ⟨registered.hooks behaviour, rfl⟩

/-- The `preBody` that is not left to the deferred hooks. -/
def normal (registered : Registered κ) : Option κ :=
  if registered.deferredPreBodyOnly then none else registered.preBody

def budgets (registered : Registered κ) : List κ := registered.earlyRejection.getD []

def deferred (registered : Registered κ) : List κ := registered.deferredPreBody.getD []

end Registered

/-- The bundles as `every` makes them. -/
def bracketed (behaviour : Behaviour κ T) (stack : List (Bracketed (Registered κ))) :
    List (Bundle T) :=
  Bracketed.mapAll (Registered.layer behaviour) stack

def flattened (behaviour : Behaviour κ T) (stack : List (Bracketed (Registered κ))) :
    List (Bundle T) :=
  ((Bracketed.flattenAll stack).map (Registered.layer behaviour)).map .item

def checkpointsOf (stack : List (Bracketed (Registered κ))) : List (Checkpoint κ) :=
  checkpointsAll Registered.normal Registered.budgets [] [] [] stack

section Stacks
variable (behaviour : Behaviour κ T)

theorem checkOf_layer (registered : Registered κ) :
    checkOf (registered.layer behaviour) = registered.normal.map behaviour.gate := by
  show (if registered.deferredPreBodyOnly then none else registered.preBody.map behaviour.gate) = _
  rw [Registered.normal]
  split <;> rfl

theorem duesOf_layer (registered : Registered κ) :
    duesOf (registered.layer behaviour) = registered.budgets.map behaviour.gate := by
  show (registered.earlyRejection.map (·.map behaviour.gate)).getD [] = _
  rw [Registered.budgets]
  cases registered.earlyRejection <;> rfl

theorem layers_bracketed (stack : List (Bracketed (Registered κ))) :
    Bundle.layers (bracketed behaviour stack) = Bundle.layers (flattened behaviour stack) := by
  rw [Bundle.layers, Bundle.layers, bracketed, flattened, Bracketed.flattenAll_mapAll,
    Bracketed.flattenAll_items]

theorem deferred_bracketed (stack : List (Bracketed (Registered κ))) :
    ((Bundle.layers (bracketed behaviour stack)).flatMap fun hooks =>
        hooks.deferredPreBody.getD []) =
      ((Bracketed.flattenAll stack).flatMap Registered.deferred).map behaviour.gate := by
  rw [Bundle.layers, bracketed, Bracketed.flattenAll_mapAll, List.flatMap_map, List.flatMap_map,
    List.map_flatMap]
  congr 1
  funext registered
  show (registered.deferredPreBody.map (·.map behaviour.gate)).getD [] = _
  rw [Registered.deferred]
  cases registered.deferredPreBody <;> rfl

theorem checkpoints_bracketed (stack : List (Bracketed (Registered κ))) :
    checkpointsAll checkOf duesOf [] [] [] (bracketed behaviour stack) =
      (checkpointsOf stack).map (Checkpoint.map behaviour.gate) :=
  checkpointsAll_map (checkOf_layer behaviour) (duesOf_layer behaviour) [] [] [] stack

theorem checkpoints_flattened (stack : List (Bracketed (Registered κ))) :
    checkpointsAll checkOf duesOf [] [] [] (flattened behaviour stack) =
      ((checkpointsOf stack).map Checkpoint.flat).map (Checkpoint.map behaviour.gate) := by
  have hflat : (Checkpoint.flat ∘ Checkpoint.map behaviour.gate : Checkpoint κ → _) =
      Checkpoint.map behaviour.gate ∘ Checkpoint.flat := rfl
  rw [List.map_map, ← hflat, ← List.map_map, ← checkpoints_bracketed, checkpointsAll_flat,
    bracketed, Bracketed.flattenAll_mapAll]
  rfl

theorem runCheckpoints_names (rest : T.Gate) {walk : List (Checkpoint κ)}
    (h : ∀ x ∈ walk, x.Agrees) :
    runCheckpoints rest (walk.map (Checkpoint.map behaviour.gate)) =
      runCheckpoints rest
        ((walk.map Checkpoint.flat).map (Checkpoint.map behaviour.gate)) := by
  have hflat : (Checkpoint.map behaviour.gate ∘ Checkpoint.flat : Checkpoint κ → _) =
      Checkpoint.flat ∘ Checkpoint.map behaviour.gate := rfl
  rw [List.map_map, hflat, ← List.map_map]
  apply runCheckpoints_flat
  intro y hy
  obtain ⟨x, hx, rfl⟩ := List.mem_map.mp hy
  exact (h x hx).map behaviour.gate

theorem preBody_stack (stack : List (Bracketed (Registered κ))) :
    (mergeHooks ((bracketed behaviour stack).map Bundle.hooks)).preBody.getD (pure none) =
      runCheckpoints
        (firstSome (((Bracketed.flattenAll stack).flatMap Registered.deferred).map behaviour.gate))
        ((checkpointsOf stack).map (Checkpoint.map behaviour.gate)) := by
  rw [preBody_checkpoints, deferred_bracketed, checkpoints_bracketed]

theorem preBody_flat (stack : List (Bracketed (Registered κ))) :
    (mergeHooks ((flattened behaviour stack).map Bundle.hooks)).preBody.getD (pure none) =
      runCheckpoints
        (firstSome (((Bracketed.flattenAll stack).flatMap Registered.deferred).map behaviour.gate))
        (((checkpointsOf stack).map Checkpoint.flat).map (Checkpoint.map behaviour.gate)) := by
  rw [preBody_checkpoints, ← layers_bracketed, deferred_bracketed, checkpoints_flattened]

end Stacks

/-! ## Hooks that are counted -/

abbrev Counted : HookTypes where
  World := ℕ
  Thrown := ℕ
  Request := Unit
  Response := Unit
  Value := Unit
  scopes _ := []
  setScopes _ count := count

def tick (plan : ℕ → Bool) : Counted.Gate := fun count =>
  if plan count then .error count (count + 1) else .ok none (count + 1)

def ticking (plan : ℕ → Bool) : Behaviour κ Counted where
  onRequest _ _ := pure ()
  gate _ := tick plan
  afterHandle _ _ := pure none
  onError _ _ := pure none
  onSend _ _ := pure none
  onResponse _ _ := pure ()

section Counted
variable {plan : ℕ → Bool}

theorem tick_pass {count : ℕ} (h : plan count = false) :
    tick plan count = .ok none (count + 1) := by
  rw [tick, h]
  rfl

theorem tick_throw {count : ℕ} (h : plan count = true) :
    tick plan count = .error count (count + 1) := by
  rw [tick, h]
  rfl

theorem charge_ticks {pending : List Counted.Gate} (hpending : ∀ hook ∈ pending, hook = tick plan)
    (count : ℕ) (h : ∀ n, count ≤ n → plan n = false) (response : Option Counted.Response) :
    charge pending response count = .ok response (count + pending.length) := by
  induction pending generalizing count with
  | nil => rfl
  | cons hook pending ih =>
    have hhook := hpending hook List.mem_cons_self
    subst hhook
    show EStateM.bind (tick plan) _ count = _
    rw [EStateM.bind, tick_pass (h count (Nat.le_refl count))]
    have hrest := ih (fun hook hmem => hpending hook (List.mem_cons_of_mem _ hmem)) (count + 1)
      fun n hn => h n (by omega)
    rw [Nat.add_assoc, Nat.add_comm 1] at hrest
    exact hrest

theorem reject_ticks_throw {pending : List Counted.Gate}
    (hpending : ∀ hook ∈ pending, hook = tick plan) (hne : pending ≠ []) {count : ℕ}
    (h : plan count = true) (err : ℕ) :
    reject pending (.error err) count = .error count (count + 1) := by
  cases pending with
  | nil => exact absurd rfl hne
  | cons hook pending =>
    have hhook := hpending hook List.mem_cons_self
    subst hhook
    show EStateM.bind (EStateM.bind (tick plan) _) _ count = _
    rw [EStateM.bind, EStateM.bind, tick_throw h]

theorem reject_ticks {pending : List Counted.Gate}
    (hpending : ∀ hook ∈ pending, hook = tick plan) {count : ℕ}
    (h : ∀ n, count ≤ n → plan n = false) (err : ℕ) :
    reject pending (.error err) count = .error err (count + pending.length) := by
  show EStateM.bind (charge pending none) _ count = _
  rw [EStateM.bind, charge_ticks hpending count h]
  rfl

theorem settleLevels_ticks {levels : List (List Counted.Gate)}
    (hlevels : ∀ hook ∈ levels.flatten, hook = tick plan) {count : ℕ}
    (h : ∀ n, count ≤ n → plan n = false) (err : ℕ) :
    settleLevels levels (.error err) count = .error err (count + levels.flatten.length) := by
  induction levels generalizing count err with
  | nil => rfl
  | cons level levels ih =>
    have hlevel : ∀ hook ∈ level, hook = tick plan := by
      intro hook hmem
      exact hlevels hook (by rw [List.flatten_cons]; exact List.mem_append_left _ hmem)
    have hrest : ∀ hook ∈ levels.flatten, hook = tick plan := by
      intro hook hmem
      exact hlevels hook (by rw [List.flatten_cons]; exact List.mem_append_right _ hmem)
    rw [settleLevels, guarded_apply, reject_ticks hlevel h, List.flatten_cons, List.length_append]
    show settleLevels levels (.error err) (count + level.length) = _
    rw [ih hrest fun n hn => h n (by omega), Nat.add_assoc]

theorem settleLevels_ticks_throw {level : List Counted.Gate} {levels : List (List Counted.Gate)}
    (hlevels : ∀ hook ∈ (level :: levels).flatten, hook = tick plan) (hne : level ≠ []) {count : ℕ}
    (hthrow : plan count = true) (h : ∀ n, count + 1 ≤ n → plan n = false) (err : ℕ) :
    settleLevels (level :: levels) (.error err) count =
      .error count (count + 1 + levels.flatten.length) := by
  rw [List.flatten_cons] at hlevels
  rw [settleLevels, guarded_apply,
    reject_ticks_throw (fun hook hmem => hlevels hook (List.mem_append_left _ hmem)) hne hthrow]
  exact settleLevels_ticks (fun hook hmem => hlevels hook (List.mem_append_right _ hmem)) h count

theorem runCheckpoints_ticks (rest : Counted.Gate) {xs : List (Checkpoint Counted.Gate)}
    {x : Checkpoint Counted.Gate} {ys : List (Checkpoint Counted.Gate)}
    (hxs : ∀ y ∈ xs, y.hook = tick plan) (hx : x.hook = tick plan) {count : ℕ}
    (hpass : ∀ n, count ≤ n → n < count + xs.length → plan n = false)
    (hthrow : plan (count + xs.length) = true) :
    runCheckpoints rest (xs ++ x :: ys) count =
      settleLevels x.levels (.error (count + xs.length)) (count + xs.length + 1) := by
  induction xs generalizing count with
  | nil =>
    change plan count = true at hthrow
    rw [List.nil_append, runCheckpoints, guarded_apply, hx, tick_throw hthrow]
    rfl
  | cons y xs ih =>
    rw [List.length_cons] at hpass hthrow
    rw [List.cons_append, runCheckpoints, guarded_apply, hxs y List.mem_cons_self,
      tick_pass (hpass count (Nat.le_refl count) (by omega))]
    have hrest := @ih (fun y hmem => hxs y (List.mem_cons_of_mem _ hmem)) (count + 1)
      (fun n hle hlt => hpass n (by omega) (by omega))
      (by rw [Nat.add_assoc, Nat.add_comm 1]; exact hthrow)
    rw [Nat.add_assoc count 1, Nat.add_comm 1] at hrest
    exact hrest

theorem settleLevels_map_filter (g : κ → T.Gate) (levels : List (List κ)) :
    settleLevels (levels.map (List.map g)) =
      settleLevels ((levels.filter fun l => !l.isEmpty).map (List.map g)) := by
  rw [← settleLevels_filter, filter_map_levels]

theorem balanced_of_runs (walk : List (Checkpoint κ)) (rest : (ℕ → Bool) → Counted.Gate)
    (hruns : ∀ plan, runCheckpoints (rest plan) (walk.map (Checkpoint.map (ticking plan).gate)) =
      runCheckpoints (rest plan)
        ((walk.map Checkpoint.flat).map (Checkpoint.map (ticking plan).gate))) :
    ∀ x ∈ walk, x.Balanced := by
  intro x hx
  obtain ⟨xs, ys, rfl⟩ := List.append_of_mem hx
  -- both walks up to this checkpoint, for a plan that lets the earlier ones pass
  have hsettle (plan : ℕ → Bool) (hpass : ∀ n < xs.length, plan n = false)
      (hthrow : plan xs.length = true) :
      settleLevels (x.levels.map (List.map (ticking plan).gate)) (.error xs.length)
          (xs.length + 1) =
        settleLevels [x.before.map (ticking plan).gate] (.error xs.length) (xs.length + 1) := by
    have hrun := congrFun (hruns plan) 0
    have hnames {ws : List (Checkpoint κ)} :
        ∀ y ∈ ws.map (Checkpoint.map (ticking plan).gate), y.hook = tick plan := by
      intro y hy
      obtain ⟨w, -, rfl⟩ := List.mem_map.mp hy
      rfl
    rw [List.map_append, List.map_cons, List.map_append, List.map_append, List.map_cons,
      List.map_cons] at hrun
    rw [runCheckpoints_ticks _ hnames rfl, runCheckpoints_ticks _ hnames rfl] at hrun
    · simp only [List.length_map, Nat.zero_add] at hrun
      exact hrun
    · intro n _ hlt
      rw [List.length_map, List.length_map, Nat.zero_add] at hlt
      exact hpass n hlt
    · rw [List.length_map, List.length_map, Nat.zero_add]
      exact hthrow
    · intro n _ hlt
      rw [List.length_map, Nat.zero_add] at hlt
      exact hpass n hlt
    · rw [List.length_map, Nat.zero_add]
      exact hthrow
  have hgate {plan : ℕ → Bool} {names : List κ} :
      ∀ hook ∈ names.map (ticking plan).gate, hook = tick plan := by
    intro hook hmem
    obtain ⟨name, -, rfl⟩ := List.mem_map.mp hmem
    rfl
  have hgates {plan : ℕ → Bool} {levels : List (List κ)} :
      ∀ hook ∈ (levels.map (List.map (ticking plan).gate)).flatten, hook = tick plan := by
    rw [← List.map_flatten]
    exact hgate
  have htotal : x.levels.flatten.length = x.before.length := by
    have h := hsettle (· == xs.length) (fun n hn => by simpa using Nat.ne_of_lt hn) (by simp)
    have hpass : ∀ n, xs.length + 1 ≤ n → (n == xs.length) = false := by
      intro n hn
      simpa using Nat.ne_of_gt hn
    have hbefore : ∀ hook ∈ [x.before.map (ticking (· == xs.length)).gate].flatten,
        hook = tick (· == xs.length) := by
      rw [List.flatten_singleton]
      exact hgate
    rw [settleLevels_ticks hgates hpass, settleLevels_ticks hbefore hpass] at h
    have hcount := (EStateM.Result.error.inj h).2
    rw [← List.map_flatten, List.length_map, List.flatten_singleton, List.length_map] at hcount
    exact Nat.add_left_cancel hcount
  refine ⟨htotal, ?_⟩
  cases hfilter : x.levels.filter fun l => !l.isEmpty with
  | nil => exact Nat.zero_le 1
  | cons level levels =>
    have hmem : ∀ l ∈ level :: levels, l ≠ [] := by
      intro l hl
      rw [← hfilter] at hl
      simpa using (List.mem_filter.mp hl).2
    have hlevel : level ≠ [] := hmem level List.mem_cons_self
    have hne : x.before ≠ [] := by
      intro hnil
      rw [hnil, List.length_nil] at htotal
      have hflat := List.eq_nil_of_length_eq_zero htotal
      have hlevels : level ∈ x.levels.filter fun l => !l.isEmpty := by
        rw [hfilter]
        exact List.mem_cons_self
      exact hlevel (List.flatten_eq_nil_iff.mp hflat level (List.mem_filter.mp hlevels).1)
    have h := hsettle (fun n => n == xs.length || n == xs.length + 1)
      (fun n hn => by simpa using ⟨Nat.ne_of_lt hn, by omega⟩) (by simp)
    have hpass : ∀ n, xs.length + 1 + 1 ≤ n → (n == xs.length || n == xs.length + 1) = false := by
      intro n hn
      simpa using ⟨by omega, by omega⟩
    have hfirst : ∀ hook ∈ ((level.map (ticking fun n =>
        n == xs.length || n == xs.length + 1).gate) :: levels.map (List.map (ticking fun n =>
        n == xs.length || n == xs.length + 1).gate)).flatten,
        hook = tick fun n => n == xs.length || n == xs.length + 1 := by
      rw [← List.map_cons]
      exact hgates
    have hbefore : ∀ hook ∈ [x.before.map (ticking fun n =>
        n == xs.length || n == xs.length + 1).gate].flatten,
        hook = tick fun n => n == xs.length || n == xs.length + 1 := by
      rw [List.flatten_singleton]
      exact hgate
    rw [settleLevels_map_filter, hfilter, List.map_cons,
      settleLevels_ticks_throw hfirst (by simpa using hlevel) (by simp) hpass,
      settleLevels_ticks_throw hbefore (by simpa using hne) (by simp) hpass] at h
    have hcount := Nat.add_left_cancel (EStateM.Result.error.inj h).2
    rw [← List.map_flatten, List.length_map, List.flatten_nil, List.length_nil] at hcount
    cases levels with
    | nil => exact Nat.le_refl 1
    | cons l levels =>
      have hpos := List.length_pos_of_ne_nil (hmem l (by simp))
      rw [List.flatten_cons, List.length_append] at hcount
      omega

end Counted

end Daloy.Compose
