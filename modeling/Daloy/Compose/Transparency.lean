import Daloy.Compose.Behaviours
import Daloy.Compose.ReplayOrder

/-! # Bundles and flat lists

`every` against the registration of its bundles one after another.

* `flat_phases`: all phases but `preBody` are alike for every stack.
* `every_hides_budget`: a budget in a bundle with a `preBody`, which a later rejection does not spend.
-/

namespace Daloy.Compose
set_option autoImplicit false

open Daloy.Effects Daloy.Unicode

variable {T : HookTypes}

/-! ## Phases as their callers see them -/

def keep {α : Type} (fn : α → T.Call (Option α)) (value : α) : T.Call α :=
  (·.getD value) <$> fn value

namespace Hooks
variable (hooks : Hooks T)

def runRequest : T.Request → T.Call Unit := hooks.onRequest.getD fun _ => pure ()

def runPreBody : T.Gate := hooks.preBody.getD (pure none)

def runBeforeHandle : T.Gate := hooks.beforeHandle.getD (pure none)

def runAfterHandle : T.Value → T.Call T.Value := (hooks.afterHandle.map keep).getD pure

def runError : T.Thrown → T.Gate := hooks.onError.getD fun _ => pure none

def runSend : T.Response → T.Call T.Response := (hooks.onSend.map keep).getD pure

def runResponse : T.Response → T.Call Unit := hooks.onResponse.getD fun _ => pure ()

end Hooks

/-- The phases other than `preBody`. -/
structure FlatPhases (a b : Hooks T) : Prop where
  request : a.runRequest = b.runRequest
  beforeHandle : a.runBeforeHandle = b.runBeforeHandle
  afterHandle : a.runAfterHandle = b.runAfterHandle
  error : a.runError = b.runError
  send : a.runSend = b.runSend
  response : a.runResponse = b.runResponse

/-- The same hooks are called in the same order, with the same outcome. -/
structure Alike (a b : Hooks T) : Prop extends FlatPhases a b where
  preBody : a.runPreBody = b.runPreBody

/-! ## Phases that are folds -/

section Folds

theorem phase_flat {M : Type} {op : M → M → M} {e : M} (phase : Hooks T → M)
    (assoc : ∀ a b c, op (op a b) c = op a (op b c)) (left_unit : ∀ a, op e a = a)
    (right_unit : ∀ a, op a e = a)
    (hmerge : ∀ layers, phase (mergeHooks layers) = (layers.map phase).foldr op e)
    (hevery : ∀ layers, phase (every layers) = (layers.map phase).foldr op e)
    (bundles : List (Bundle T)) :
    phase (mergeHooks (bundles.map Bundle.hooks)) = phase (mergeHooks (Bundle.layers bundles)) := by
  have hgroup (bs : List (Bundle T)) : phase (Bundle.hooks (.group bs)) =
      (bs.map fun b => phase (Bundle.hooks b)).foldr op e := by
    rw [Bundle.hooks_group, hevery, List.map_map]
    rfl
  rw [hmerge, hmerge, List.map_map, Bundle.layers, List.map_map]
  exact Bracketed.foldr_flattenAll assoc left_unit right_unit hgroup bundles

theorem foldr_filterMap {M : Type} {op : M → M → M} {e : M} (left_unit : ∀ a, op e a = a)
    (field : Hooks T → Option M) (layers : List (Hooks T)) :
    (layers.filterMap field).foldr op e =
      (layers.map fun hooks => (field hooks).getD e).foldr op e := by
  induction layers with
  | nil => rfl
  | cons hooks layers ih =>
    rw [List.filterMap_cons, List.map_cons, List.foldr_cons, ← ih]
    cases field hooks with
    | none => exact (left_unit _).symm
    | some fn => rfl

def seq {α : Type} (f g : α → T.Call Unit) (a : α) : T.Call Unit := f a >>= fun _ => g a

theorem runAll_map {α : Type} (fns : List (α → T.Call Unit)) :
    (fun a => runAll (fns.map (· a))) = fns.foldr seq fun _ => pure () := by
  induction fns with
  | nil => rfl
  | cons fn fns ih => rw [List.foldr_cons, ← ih]; rfl

theorem chain_getD {α : Type} (fns : List (α → T.Call Unit)) :
    (chain fns).getD (fun _ => pure ()) = fns.foldr seq fun _ => pure () := by
  match fns with
  | [] => rfl
  | [fn] =>
    funext a
    exact (bind_pure_unit (x := fn a)).symm
  | _ :: _ :: _ => exact runAll_map _

theorem every_getD {M F : Type} (fns : List F) (run : List F → M) (e : M) (h : run [] = e) :
    (if fns.isEmpty then none else some (run fns)).getD e = run fns := by
  cases fns with
  | nil => exact h.symm
  | cons fn fns => rfl

theorem seq_assoc {α : Type} (f g h : α → T.Call Unit) : seq (seq f g) h = seq f (seq g h) := by
  funext a
  exact bind_assoc (f a) (fun _ => g a) fun _ => h a

theorem skip_seq {α : Type} (f : α → T.Call Unit) : seq (fun _ => pure ()) f = f := rfl

theorem seq_skip {α : Type} (f : α → T.Call Unit) : seq f (fun _ => pure ()) = f := by
  funext a
  exact bind_pure_unit (x := f a)

theorem seq_flat {α : Type} (field : Hooks T → Option (α → T.Call Unit))
    (hmerge : ∀ layers, field (mergeHooks layers) = chain (layers.filterMap field))
    (hevery : ∀ layers, field (every layers) =
      if (layers.filterMap field).isEmpty then none
      else some fun a => runAll ((layers.filterMap field).map (· a)))
    (bundles : List (Bundle T)) :
    (field (mergeHooks (bundles.map Bundle.hooks))).getD (fun _ => pure ()) =
      (field (mergeHooks (Bundle.layers bundles))).getD fun _ => pure () := by
  apply phase_flat (fun hooks => (field hooks).getD fun _ => pure ()) seq_assoc skip_seq seq_skip
  · intro layers
    rw [hmerge, chain_getD, foldr_filterMap skip_seq]
  · intro layers
    have hall := every_getD (layers.filterMap field) (fun fns a => runAll (fns.map (· a)))
      (fun _ => pure ()) rfl
    rw [hevery, hall, runAll_map, foldr_filterMap skip_seq]

def firstOf {α : Type} (f g : α → T.Gate) (a : α) : T.Gate := orElse (f a) (g a)

theorem firstOf_assoc {α : Type} (f g h : α → T.Gate) :
    firstOf (firstOf f g) h = firstOf f (firstOf g h) := by
  funext a
  exact orElse_assoc (f a) (g a) (h a)

theorem none_firstOf {α : Type} (f : α → T.Gate) : firstOf (fun _ => pure none) f = f := rfl

theorem firstOf_none {α : Type} (f : α → T.Gate) : firstOf f (fun _ => pure none) = f := by
  funext a
  exact orElse_none (f a)

theorem firstSome_map {α : Type} (fns : List (α → T.Gate)) :
    (fun a => firstSome (fns.map (· a))) = fns.foldr firstOf fun _ => pure none := by
  induction fns with
  | nil => rfl
  | cons fn fns ih => rw [List.foldr_cons, ← ih]; rfl

theorem firstResponse_getD {α : Type} (fns : List (α → T.Gate)) :
    (firstResponse fns).getD (fun _ => pure none) = fns.foldr firstOf fun _ => pure none := by
  match fns with
  | [] => rfl
  | [fn] => exact (firstOf_none fn).symm
  | _ :: _ :: _ => exact firstSome_map _

theorem error_flat (bundles : List (Bundle T)) :
    (mergeHooks (bundles.map Bundle.hooks)).runError =
      (mergeHooks (Bundle.layers bundles)).runError := by
  apply phase_flat Hooks.runError firstOf_assoc none_firstOf firstOf_none
  · intro layers
    show (firstResponse (layers.filterMap Hooks.onError)).getD _ = _
    rw [firstResponse_getD, foldr_filterMap none_firstOf]
    rfl
  · intro layers
    show (if (layers.filterMap Hooks.onError).isEmpty then none
      else some fun err => firstSome ((layers.filterMap Hooks.onError).map (· err))).getD _ = _
    have hall := every_getD (layers.filterMap Hooks.onError)
      (fun fns err => firstSome (fns.map (· err))) (fun _ => pure none) rfl
    rw [hall, firstSome_map, foldr_filterMap none_firstOf]
    rfl

def pass {α : Type} (f g : α → T.Call α) (value : α) : T.Call α := f value >>= g

theorem pass_assoc {α : Type} (f g h : α → T.Call α) : pass (pass f g) h = pass f (pass g h) := by
  funext value
  exact bind_assoc (f value) g h

theorem pure_pass {α : Type} (f : α → T.Call α) : pass pure f = f := rfl

theorem pass_pure {α : Type} (f : α → T.Call α) : pass f pure = f := by
  funext value
  exact bind_pure (f value)

theorem thread_map {α : Type} (fns : List (α → T.Call (Option α))) :
    thread fns = (fns.map keep).foldr pass pure := by
  induction fns with
  | nil => rfl
  | cons fn fns ih => rw [List.map_cons, List.foldr_cons, ← ih]; rfl

theorem keep_some {α : Type} (fn : α → T.Call α) : keep (fun value => some <$> fn value) = fn := by
  funext value
  show (·.getD value) <$> some <$> fn value = fn value
  rw [← comp_map]
  exact id_map (fn value)

theorem pipeline_getD {α : Type} (fns : List (α → T.Call (Option α))) :
    ((pipeline fns).map keep).getD pure = (fns.map keep).foldr pass pure := by
  match fns with
  | [] => rfl
  | [fn] => exact (pass_pure (keep fn)).symm
  | fn :: fn' :: fns =>
    rw [← thread_map]
    exact keep_some _

theorem pass_flat {α : Type} (field : Hooks T → Option (α → T.Call (Option α)))
    (hmerge : ∀ layers, field (mergeHooks layers) = pipeline (layers.filterMap field))
    (hevery : ∀ layers, field (every layers) =
      if (layers.filterMap field).isEmpty then none
      else some fun value => some <$> thread (layers.filterMap field) value)
    (bundles : List (Bundle T)) :
    ((field (mergeHooks (bundles.map Bundle.hooks))).map keep).getD pure =
      ((field (mergeHooks (Bundle.layers bundles))).map keep).getD pure := by
  have hfold (layers : List (Hooks T)) : ((layers.filterMap field).map keep).foldr pass pure =
      (layers.map fun hooks => ((field hooks).map keep).getD pure).foldr pass pure := by
    rw [List.map_filterMap]
    exact foldr_filterMap pure_pass _ layers
  apply phase_flat (fun hooks => ((field hooks).map keep).getD pure) pass_assoc pure_pass pass_pure
  · intro layers
    rw [hmerge, pipeline_getD, hfold]
  · intro layers
    rw [hevery, ← hfold, ← thread_map]
    cases layers.filterMap field with
    | nil => rfl
    | cons fn fns => exact keep_some _

end Folds

/-! ## Scopes and gates -/

section Gates

theorem mem_addScopes {out scopes : List JsString} {scope : JsString} :
    scope ∈ addScopes out scopes ↔ scope ∈ out ∨ scope ∈ scopes := by
  induction scopes generalizing out with
  | nil => simp [addScopes]
  | cons s scopes ih =>
    rw [addScopes, List.foldl_cons, ← addScopes, ih, List.mem_cons]
    by_cases hs : s ∈ out
    · rw [if_pos hs]
      constructor
      · rintro (h | h)
        · exact .inl h
        · exact .inr (.inr h)
      · rintro (h | rfl | h)
        · exact .inl h
        · exact .inl hs
        · exact .inr h
    · rw [if_neg hs, List.mem_append, List.mem_singleton, or_assoc]

theorem addScopes_append (out xs ys : List JsString) :
    addScopes out (xs ++ ys) = addScopes (addScopes out xs) ys := List.foldl_append

theorem addScopes_addScopes (out acc xs : List JsString) :
    addScopes out (addScopes acc xs) = addScopes (addScopes out acc) xs := by
  induction xs generalizing acc with
  | nil => rfl
  | cons x xs ih =>
    have hcons (out : List JsString) :
        addScopes out (x :: xs) = addScopes (if x ∈ out then out else out ++ [x]) xs := rfl
    rw [hcons, ih, hcons]
    congr 1
    by_cases hx : x ∈ acc
    · rw [if_pos hx, if_pos (mem_addScopes.mpr (.inr hx))]
    · rw [if_neg hx, addScopes_append]
      rfl

theorem requireScopes_every (layers : List (Hooks T)) :
    (every layers).requireScopes.getD [] =
      addScopes [] (layers.flatMap fun hooks => hooks.requireScopes.getD []) := by
  have hconcat := getD_concatMarkers (layers.map Hooks.requireScopes)
  rw [List.flatMap_map] at hconcat
  rw [← hconcat, concatMarkers, List.any_map]
  show (if layers.any fun hooks => hooks.requireScopes.isSome then _ else none).getD [] = _
  change _ = addScopes [] ((if layers.any fun hooks => hooks.requireScopes.isSome then _
    else none).getD [])
  split
  · rw [List.flatMap_map]
    rfl
  · rfl

theorem addScopes_hooks (out : List JsString) (bundle : Bundle T) :
    addScopes out ((Bundle.hooks bundle).requireScopes.getD []) =
      addScopes out ((Bracketed.flatten bundle).flatMap fun layer =>
        layer.1.requireScopes.getD []) := by
  induction bundle using Bracketed.induct generalizing out with
  | item layer => rw [Bracketed.flatten_item, List.flatMap_singleton]; rfl
  | group bundles ih =>
    rw [Bundle.hooks_group, requireScopes_every, addScopes_addScopes, List.flatMap_map,
      Bracketed.flatten_group]
    show addScopes out _ = _
    induction bundles generalizing out with
    | nil => rfl
    | cons b bs ih' =>
      rw [List.flatMap_cons, Bracketed.flattenAll_cons, List.flatMap_append, addScopes_append,
        addScopes_append, ih b List.mem_cons_self,
        ih' (fun c hc => ih c (List.mem_cons_of_mem b hc))]

theorem requiredScopes_flat (bundles : List (Bundle T)) :
    requiredScopesFromHooks (bundles.map Bundle.hooks) =
      requiredScopesFromHooks (Bundle.layers bundles) := by
  have h := addScopes_hooks [] (.group bundles)
  rw [Bundle.hooks_group, requireScopes_every, addScopes_addScopes] at h
  rw [requiredScopesFromHooks, requiredScopesFromHooks, Bundle.layers]
  conv_rhs => rw [List.flatMap_map]
  exact h

theorem gates_flat (bundles : List (Bundle T)) :
    orderBeforeHandleForReplay (bundles.map Bundle.hooks) =
      orderBeforeHandleForReplay (Bundle.layers bundles) := by
  have hlayers : (Bundle.layers bundles).flatMap collect =
      (Bundle.layers bundles).flatMap entryOf := by
    rw [Bundle.layers, List.flatMap_map, List.flatMap_map]
    congr 1
    funext layer
    exact collect_layer layer
  rw [orderBeforeHandleForReplay, orderBeforeHandleForReplay, collectAll_eq, collectAll_eq,
    flatMap_collect_hooks, hlayers]

theorem beforeHandle_flat (bundles : List (Bundle T)) :
    (mergeHooks (bundles.map Bundle.hooks)).runBeforeHandle =
      (mergeHooks (Bundle.layers bundles)).runBeforeHandle := by
  show (mergeBeforeHandle (firstGate (orderBeforeHandleForReplay (bundles.map Bundle.hooks)))
    (requiredScopesFromHooks (bundles.map Bundle.hooks))).getD (pure none) = _
  rw [gates_flat, requiredScopes_flat]
  rfl

end Gates

theorem flat_phases (bundles : List (Bundle T)) :
    FlatPhases (mergeHooks (bundles.map Bundle.hooks)) (mergeHooks (Bundle.layers bundles)) where
  request := seq_flat Hooks.onRequest (fun _ => rfl) (fun _ => rfl) bundles
  beforeHandle := beforeHandle_flat bundles
  afterHandle := pass_flat Hooks.afterHandle (fun _ => rfl) (fun _ => rfl) bundles
  error := error_flat bundles
  send := pass_flat Hooks.onSend (fun _ => rfl) (fun _ => rfl) bundles
  response := seq_flat Hooks.onResponse (fun _ => rfl) (fun _ => rfl) bundles

/-! ## `preBody` -/

section PreBody
variable {κ : Type}

/-- No bundle with a `preBody` that is not deferred has budgets while such a `preBody` follows the
bundle, or budgets in front of one of its own while there are budgets in front of the bundle. -/
def BudgetsInSight (stack : List (Bracketed (Registered κ))) : Prop :=
  Unbroken (fun registered => registered.normal.isSome)
    (fun registered => !registered.budgets.isEmpty) stack

theorem layers_flattened (behaviour : Behaviour κ T) (stack : List (Bracketed (Registered κ))) :
    (flattened behaviour stack).map Bundle.hooks = Bundle.layers (bracketed behaviour stack) := by
  rw [layers_bracketed, flattened, Bundle.layers, Bracketed.flattenAll_items, List.map_map]
  rfl

/-- **A stack of bundles and the flat list behave alike, whatever the hooks do, when the budgets
are in sight.** -/
theorem every_transparent (stack : List (Bracketed (Registered κ))) :
    (∀ (T : HookTypes) (behaviour : Behaviour κ T),
      Alike (mergeHooks ((bracketed behaviour stack).map Bundle.hooks))
        (mergeHooks ((flattened behaviour stack).map Bundle.hooks))) ↔
      BudgetsInSight stack := by
  constructor
  · intro halike
    have hle : ([([] : List κ)]).flatten.length ≤ ([] : List κ).length := Nat.le_refl 0
    apply unbroken_of_balanced hle
    apply balanced_of_runs (checkpointsOf stack) fun plan => firstSome
      (((Bracketed.flattenAll stack).flatMap Registered.deferred).map (ticking plan).gate)
    intro plan
    have h := (halike Counted (ticking plan)).preBody
    rw [Hooks.runPreBody, Hooks.runPreBody, preBody_stack, preBody_flat] at h
    exact h
  · intro hsight T behaviour
    refine ⟨?_, ?_⟩
    · rw [layers_flattened]
      exact flat_phases (bracketed behaviour stack)
    · rw [Hooks.runPreBody, Hooks.runPreBody, preBody_stack, preBody_flat]
      apply runCheckpoints_names
      exact agreesAll_of_unbroken [] [] (fun _ h => absurd h List.not_mem_nil)
        (fun h => absurd rfl h) stack hsight.start

/-- `every` of an authentication hook and a budget, and a second authentication hook behind it. -/
def guardBehindBudget : List (Bracketed (Registered ℕ)) :=
  [.group [.item { preBody := some 0 }, .item { beforeHandle := some 1, earlyRejection := some [1] }],
    .item { preBody := some 2 }]

theorem every_hides_budget :
    ¬Alike (mergeHooks ((bracketed (ticking (· == 1)) guardBehindBudget).map Bundle.hooks))
      (mergeHooks ((flattened (ticking (· == 1)) guardBehindBudget).map Bundle.hooks)) := by
  intro halike
  have h := congrFun halike.preBody 0
  have hbundle : (mergeHooks ((bracketed (ticking (· == 1)) guardBehindBudget).map
      Bundle.hooks)).runPreBody 0 = .error 1 2 := rfl
  have hflat : (mergeHooks ((flattened (ticking (· == 1)) guardBehindBudget).map
      Bundle.hooks)).runPreBody 0 = .error 1 3 := rfl
  rw [hbundle, hflat] at h
  cases h

end PreBody

end Daloy.Compose
