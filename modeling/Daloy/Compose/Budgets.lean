import Daloy.Compose.Transparency

/-! # Request budgets of rejected requests

* `rejections_spend`: the stacks for which every rejection by `preBody` spends the budgets registered
  before the hook that rejects, whatever the hooks do.
* `deferred_spends_nothing`: the rejection of a deferred hook spends no budget.
-/

namespace Daloy.Compose
set_option autoImplicit false

open Daloy.Effects

variable {κ : Type} {T : HookTypes}

/-! ## What is asked for -/

/-- The budgets are called in order up to the first that throws. A response takes the place of the
rejection. -/
def spend : List T.Gate → Except T.Thrown T.Response → T.Gate
  | [], rejection => some <$> settle rejection
  | budget :: budgets, rejection => do
    match ← budget with
    | some response => spend budgets (.ok response)
    | none => spend budgets rejection

/-- The hooks that may reject, each with the budgets registered before it, are called in order. -/
def spending (behaviour : Behaviour κ T) : List (κ × List κ) → T.Gate
  | [] => pure none
  | (hook, budgets) :: hooks =>
    guarded (behaviour.gate hook) (spend (budgets.map behaviour.gate)) (spending behaviour hooks)

/-- The `preBody` hooks that are not deferred, in order of registration. -/
def normalHooks (before : List κ) : List (Registered κ) → List (κ × List κ)
  | [] => []
  | registered :: layers =>
    registered.normal.toList.map (·, before ++ registered.budgets) ++
      normalHooks (before ++ registered.budgets) layers

def deferredHooks (before : List κ) : List (Registered κ) → List (κ × List κ)
  | [] => []
  | registered :: layers =>
    registered.deferred.map (·, before ++ registered.budgets) ++
      deferredHooks (before ++ registered.budgets) layers

def rejectingHooks (stack : List (Bracketed (Registered κ))) : List (κ × List κ) :=
  normalHooks [] (Bracketed.flattenAll stack) ++ deferredHooks [] (Bracketed.flattenAll stack)

/-! ## What the code does -/

theorem reject_eq_spend (pending : List T.Gate) (rejection : Except T.Thrown T.Response) :
    reject pending rejection = spend pending rejection := by
  have hcharge (pending : List T.Gate) (response : T.Response) :
      charge pending (some response) = spend pending (.ok response) := by
    induction pending generalizing response with
    | nil => rfl
    | cons hook pending ih =>
      show (hook >>= fun replacement => charge pending (replacement <|> some response)) =
        hook >>= fun
          | some replaced => spend pending (.ok replaced)
          | none => spend pending (.ok response)
      congr 1
      funext replacement
      cases replacement with
      | none => exact ih response
      | some replaced => exact ih replaced
  cases rejection with
  | ok response => exact hcharge pending response
  | error err =>
    induction pending with
    | nil => rfl
    | cons hook pending ih =>
      show (hook >>= fun replacement => charge pending (replacement <|> none)) >>= _ =
        hook >>= fun
          | some replaced => spend pending (.ok replaced)
          | none => spend pending (.error err)
      rw [bind_assoc]
      congr 1
      funext replacement
      cases replacement with
      | none => exact ih
      | some replaced =>
        refine Eq.trans ?_ (hcharge pending replaced)
        funext w
        show EStateM.bind (charge pending (some replaced)) _ w = charge pending (some replaced) w
        rw [EStateM.bind]
        cases hw : charge pending (some replaced) w with
        | error err w => rfl
        | ok answer w' =>
          cases answer with
          | some response => rfl
          | none => exact absurd hw (charge_rejects pending replaced w w')

def charged (pair : κ × List κ) : Checkpoint κ := ⟨pair.1, [pair.2], pair.2⟩

def uncharged (pair : κ × List κ) : Checkpoint κ := ⟨pair.1, [], pair.2⟩

theorem settleLevels_one (level : List T.Gate) : settleLevels [level] = spend level := by
  funext rejection
  rw [← reject_eq_spend]
  exact guarded_settleLevels_nil _ _ (reject_rejects level rejection)

theorem spending_checkpoints (behaviour : Behaviour κ T) (hooks : List (κ × List κ)) :
    spending behaviour hooks =
      runCheckpoints (pure none) ((hooks.map charged).map (Checkpoint.map behaviour.gate)) := by
  induction hooks with
  | nil => rfl
  | cons pair hooks ih =>
    show guarded _ (spend (pair.2.map behaviour.gate)) (spending behaviour hooks) = _
    rw [ih, ← settleLevels_one]
    rfl

theorem normalHooks_checkpoints (before : List κ) (layers : List (Registered κ)) :
    checkpointsAll Registered.normal Registered.budgets [] before before (layers.map .item) =
      (normalHooks before layers).map charged := by
  induction layers generalizing before with
  | nil => rfl
  | cons registered layers ih =>
    rw [List.map_cons, checkpointsAll, checkpoints, left, Bracketed.flatten_item,
      List.flatMap_singleton, ih, normalHooks, List.map_append]
    cases registered.normal <;> rfl

theorem firstSome_deferred (behaviour : Behaviour κ T) (hooks : List (κ × List κ)) :
    firstSome ((hooks.map Prod.fst).map behaviour.gate) =
      runCheckpoints (pure none) ((hooks.map uncharged).map (Checkpoint.map behaviour.gate)) := by
  induction hooks with
  | nil => rfl
  | cons pair hooks ih =>
    rw [List.map_cons, List.map_cons, firstSome, List.foldr_cons, ← firstSome, ih]
    show orElse (behaviour.gate pair.1) _ = guarded (behaviour.gate pair.1) (reject []) _
    funext w
    rw [guarded_apply]
    show EStateM.bind (behaviour.gate pair.1) _ w = _
    rw [EStateM.bind]
    cases behaviour.gate pair.1 w with
    | error err w => rfl
    | ok answer w => cases answer <;> rfl

theorem deferredHooks_fst (before : List κ) (layers : List (Registered κ)) :
    (deferredHooks before layers).map Prod.fst = layers.flatMap Registered.deferred := by
  induction layers generalizing before with
  | nil => rfl
  | cons registered layers ih =>
    rw [deferredHooks, List.map_append, ih, List.map_map, List.flatMap_cons]
    congr 1
    exact List.map_id _

def fullWalk (stack : List (Bracketed (Registered κ))) : List (Checkpoint κ) :=
  checkpointsOf stack ++ (deferredHooks [] (Bracketed.flattenAll stack)).map uncharged

theorem preBody_fullWalk (behaviour : Behaviour κ T) (stack : List (Bracketed (Registered κ))) :
    (mergeHooks ((bracketed behaviour stack).map Bundle.hooks)).runPreBody =
      runCheckpoints (pure none) ((fullWalk stack).map (Checkpoint.map behaviour.gate)) := by
  rw [Hooks.runPreBody, preBody_stack, ← deferredHooks_fst [], firstSome_deferred, fullWalk,
    List.map_append, runCheckpoints_append]

theorem spending_fullWalk (behaviour : Behaviour κ T) (stack : List (Bracketed (Registered κ))) :
    spending behaviour (rejectingHooks stack) =
      runCheckpoints (pure none)
        (((fullWalk stack).map Checkpoint.flat).map (Checkpoint.map behaviour.gate)) := by
  have hwalk : (fullWalk stack).map Checkpoint.flat = (rejectingHooks stack).map charged := by
    rw [fullWalk, rejectingHooks, List.map_append, List.map_append, checkpointsOf,
      checkpointsAll_flat, normalHooks_checkpoints, List.map_map]
    rfl
  rw [hwalk, spending_checkpoints]

/-! ## When the two are the same -/

def NothingDeferred (stack : List (Bracketed (Registered κ))) : Prop :=
  leads (fun registered => !registered.budgets.isEmpty) (fun registered =>
    !registered.deferred.isEmpty) (Bracketed.flattenAll stack) = false

theorem deferredHooks_free (before : List κ) (layers : List (Registered κ)) :
    (∀ pair ∈ deferredHooks before layers, pair.2 = []) ↔
      leads (fun registered => !registered.budgets.isEmpty) (fun registered =>
          !registered.deferred.isEmpty) layers = false ∧
        (before = [] ∨ layers.any (fun registered => !registered.deferred.isEmpty) = false) := by
  induction layers generalizing before with
  | nil => simp [deferredHooks, leads]
  | cons registered layers ih =>
    rw [deferredHooks, leads, List.any_cons, Bool.or_eq_false_iff, Bool.or_eq_false_iff,
      List.forall_mem_append, ih]
    have hhead : (∀ pair ∈ registered.deferred.map (·, before ++ registered.budgets), pair.2 = []) ↔
        registered.deferred = [] ∨ before = [] ∧ registered.budgets = [] := by
      rw [List.forall_mem_map, ← List.append_eq_nil_iff]
      cases registered.deferred with
      | nil => simp
      | cons name names =>
        constructor
        · intro h
          exact .inr (h name List.mem_cons_self)
        · rintro (h | h)
          · exact absurd h (List.cons_ne_nil name names)
          · exact fun _ _ => h
    rw [hhead, List.append_eq_nil_iff]
    generalize leads _ _ layers = led, layers.any _ = any
    cases registered.deferred <;> cases registered.budgets <;> cases before <;> cases led <;>
      cases any <;> simp

theorem agrees_uncharged (pair : κ × List κ) : (uncharged pair).Agrees ↔ pair.2 = [] := by
  show ([] : List (List κ)) = [pair.2].filter _ ↔ _
  cases pair.2 with
  | nil => simp
  | cons name names => simp

theorem balanced_uncharged (pair : κ × List κ) (h : (uncharged pair).Balanced) : pair.2 = [] :=
  List.eq_nil_of_length_eq_zero h.total.symm

/-- **Every rejection spends the budgets before it, whatever the hooks do, when the budgets are in
sight and none is registered before a deferred hook.** -/
theorem rejections_spend (stack : List (Bracketed (Registered κ))) :
    (∀ (T : HookTypes) (behaviour : Behaviour κ T),
      (mergeHooks ((bracketed behaviour stack).map Bundle.hooks)).runPreBody =
        spending behaviour (rejectingHooks stack)) ↔
      BudgetsInSight stack ∧ NothingDeferred stack := by
  have hfree := deferredHooks_free [] (Bracketed.flattenAll stack)
  constructor
  · intro hspend
    have hbalanced : ∀ x ∈ fullWalk stack, x.Balanced := by
      apply balanced_of_runs (fullWalk stack) fun _ => pure none
      intro plan
      have h := hspend Counted (ticking plan)
      rw [preBody_fullWalk, spending_fullWalk] at h
      exact h
    constructor
    · have hle : ([([] : List κ)]).flatten.length ≤ ([] : List κ).length := Nat.le_refl 0
      exact unbroken_of_balanced hle fun x hx => hbalanced x (List.mem_append_left _ hx)
    · refine (hfree.mp ?_).1
      intro pair hpair
      apply balanced_uncharged
      exact hbalanced _ (List.mem_append_right _ (List.mem_map_of_mem hpair))
  · rintro ⟨hsight, hdeferred⟩ T behaviour
    rw [preBody_fullWalk, spending_fullWalk]
    apply runCheckpoints_names
    intro x hx
    rcases List.mem_append.mp hx with hx | hx
    · exact agreesAll_of_unbroken [] [] (fun _ h => absurd h List.not_mem_nil)
        (fun h => absurd rfl h) stack hsight.start x hx
    · obtain ⟨pair, hpair, rfl⟩ := List.mem_map.mp hx
      exact (agrees_uncharged pair).mpr (hfree.mpr ⟨hdeferred, .inl rfl⟩ pair hpair)

def decompressionBehindBudget : List (Bracketed (Registered ℕ)) :=
  [.item { beforeHandle := some 0, earlyRejection := some [0] },
    .item { preBody := some 1, deferredPreBody := some [1], deferredPreBodyOnly := true }]

theorem deferred_spends_nothing :
    (mergeHooks ((bracketed (ticking (· == 0)) decompressionBehindBudget).map
        Bundle.hooks)).runPreBody ≠
      spending (ticking (· == 0)) (rejectingHooks decompressionBehindBudget) := by
  intro h
  have hcode : (mergeHooks ((bracketed (ticking (· == 0)) decompressionBehindBudget).map
      Bundle.hooks)).runPreBody 0 = .error 0 1 := rfl
  have hasked : spending (ticking (· == 0)) (rejectingHooks decompressionBehindBudget) 0 =
      .error 0 2 := rfl
  rw [h, hasked] at hcode
  cases hcode

end Daloy.Compose
