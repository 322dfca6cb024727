import Daloy.Compose.Charging
import Daloy.Compose.Markers

/-! # Rejections in nested bundles

The merged `preBody` of bundles goes through the checkpoints of `Charging`: the `preBody` hooks that
are not deferred, with the budgets that are charged when one of them rejects.

* `preBody_checkpoints`: the merged `preBody` as such a walk.
* `runCheckpoints_flat`: where what is charged agrees, the walk is that of the flat list.
-/

namespace Daloy.Compose
set_option autoImplicit false

open Daloy.Effects

variable {T : HookTypes}

/-- A call whose rejection goes through `rejected`, and `k` where it does not reject. -/
def guarded (gate : T.Gate) (rejected : Except T.Thrown T.Response → T.Gate) (k : T.Gate) : T.Gate := do
  match ← attempt gate with
  | .error err => rejected (.error err)
  | .ok (some response) => rejected (.ok response)
  | .ok none => k

def settleLevels : List (List T.Gate) → Except T.Thrown T.Response → T.Gate
  | [], rejection => reject [] rejection
  | level :: levels, rejection =>
    guarded (reject level rejection) (settleLevels levels) (pure none)

def runCheckpoints (rest : T.Gate) : List (Checkpoint T.Gate) → T.Gate
  | [] => rest
  | x :: xs => guarded x.hook (settleLevels x.levels) (runCheckpoints rest xs)

def checkOf (layer : Layer T) : Option T.Gate := layer.1.normalPreBody

def duesOf (layer : Layer T) : List T.Gate := layer.1.earlyRejection.getD []

/-! ## `guarded` -/

section Guarded

theorem guarded_apply (gate : T.Gate) (rejected : Except T.Thrown T.Response → T.Gate) (k : T.Gate)
    (w : T.World) :
    guarded gate rejected k w =
      match gate w with
      | .error err w => rejected (.error err) w
      | .ok (some response) w => rejected (.ok response) w
      | .ok none w => k w := by
  show EStateM.bind (attempt gate) _ w = _
  rw [EStateM.bind, attempt]
  cases gate w with
  | error err w => rfl
  | ok answer w => cases answer <;> rfl

theorem guarded_assoc (gate : T.Gate) (first second : Except T.Thrown T.Response → T.Gate)
    (k l : T.Gate) :
    guarded (guarded gate first k) second l =
      guarded gate (fun rejection => guarded (first rejection) second l) (guarded k second l) := by
  funext w
  simp only [guarded_apply]
  cases gate w with
  | error err w => rfl
  | ok answer w => cases answer <;> rfl

theorem guarded_reject_nil (rejection : Except T.Thrown T.Response)
    (rejected : Except T.Thrown T.Response → T.Gate) (k : T.Gate) :
    guarded (reject [] rejection) rejected k = rejected rejection := by
  cases rejection <;> rfl

def Rejects (gate : T.Gate) : Prop := ∀ w w', gate w ≠ .ok none w'

theorem guarded_of_rejects {gate : T.Gate} (h : Rejects gate)
    (rejected : Except T.Thrown T.Response → T.Gate) (k l : T.Gate) :
    guarded gate rejected k = guarded gate rejected l := by
  funext w
  rw [guarded_apply, guarded_apply]
  cases hgate : gate w with
  | error err w => rfl
  | ok answer w' =>
    cases answer with
    | some response => rfl
    | none => exact absurd hgate (h w w')

theorem charge_rejects (pending : List T.Gate) (response : T.Response) :
    Rejects (charge pending (some response)) := by
  induction pending generalizing response with
  | nil =>
    intro w w' h
    cases h
  | cons hook pending ih =>
    intro w w' h
    change EStateM.bind hook (fun replacement => charge pending (replacement <|> some response)) w =
      _ at h
    rw [EStateM.bind] at h
    cases hhook : hook w with
    | error err w => simp [hhook] at h
    | ok replacement w'' =>
      rw [hhook] at h
      cases replacement with
      | none => exact ih response w'' w' h
      | some replaced => exact ih replaced w'' w' h

theorem reject_rejects (pending : List T.Gate) (rejection : Except T.Thrown T.Response) :
    Rejects (reject pending rejection) := by
  cases rejection with
  | ok response => exact charge_rejects pending response
  | error err =>
    intro w w' h
    change EStateM.bind (charge pending none) _ w = _ at h
    rw [EStateM.bind] at h
    cases hcharge : charge pending none w with
    | error err' w => simp [hcharge] at h
    | ok replaced w'' =>
      rw [hcharge] at h
      cases replaced <;> cases h

end Guarded

/-! ## Levels -/

section Levels

theorem guarded_settleLevels_nil (gate : T.Gate) (k : T.Gate) (h : Rejects gate) :
    guarded gate (settleLevels []) k = gate := by
  funext w
  rw [guarded_apply]
  cases hgate : gate w with
  | error err w => rfl
  | ok answer w' =>
    cases answer with
    | some response => rfl
    | none => exact absurd hgate (h w w')

theorem settleLevels_append (levels : List (List T.Gate)) (level : List T.Gate)
    (rejection : Except T.Thrown T.Response) (k : T.Gate) :
    guarded (settleLevels levels rejection) (reject level) k =
      settleLevels (levels ++ [level]) rejection := by
  induction levels generalizing rejection with
  | nil =>
    rw [settleLevels, guarded_reject_nil, List.nil_append, settleLevels,
      guarded_settleLevels_nil _ _ (reject_rejects level rejection)]
  | cons first levels ih =>
    rw [settleLevels, guarded_assoc, List.cons_append, settleLevels]
    rw [guarded_of_rejects (reject_rejects first rejection) _ _ (pure none)]
    congr 1
    funext rejection
    exact ih rejection

theorem settleLevels_filter (levels : List (List T.Gate)) :
    settleLevels (levels.filter fun l => !l.isEmpty) = settleLevels levels := by
  induction levels with
  | nil => rfl
  | cons level levels ih =>
    funext rejection
    cases level with
    | nil => rw [settleLevels, guarded_reject_nil, List.filter_cons, ← ih]; rfl
    | cons hook level =>
      show settleLevels ((hook :: level) :: levels.filter _) rejection = _
      rw [settleLevels, settleLevels, ih]

theorem runCheckpoints_append (rest : T.Gate) (xs ys : List (Checkpoint T.Gate)) :
    runCheckpoints rest (xs ++ ys) = runCheckpoints (runCheckpoints rest ys) xs := by
  induction xs with
  | nil => rfl
  | cons x xs ih => rw [List.cons_append, runCheckpoints, runCheckpoints, ih]

theorem guarded_runCheckpoints (level : List T.Gate) (k : T.Gate) (xs : List (Checkpoint T.Gate)) :
    guarded (runCheckpoints (pure none) xs) (reject level) k =
      runCheckpoints k (xs.map (Checkpoint.addLevel level)) := by
  induction xs with
  | nil => rfl
  | cons x xs ih =>
    rw [runCheckpoints, guarded_assoc, List.map_cons, runCheckpoints, ih]
    congr 1
    funext rejection
    exact settleLevels_append x.levels level rejection k

theorem runCheckpoints_flat (rest : T.Gate) {xs : List (Checkpoint T.Gate)}
    (h : ∀ x ∈ xs, x.Agrees) :
    runCheckpoints rest xs = runCheckpoints rest (xs.map Checkpoint.flat) := by
  induction xs with
  | nil => rfl
  | cons x xs ih =>
    have hlevels : settleLevels x.levels = settleLevels x.flat.levels := by
      rw [← settleLevels_filter x.levels, h x List.mem_cons_self, settleLevels_filter]
      rfl
    rw [List.map_cons, runCheckpoints, runCheckpoints, hlevels,
      ih fun y hy => h y (List.mem_cons_of_mem x hy)]
    rfl

end Levels

/-! ## The merged `preBody` -/

section Merged
open Bracketed

theorem any_normalPreBody (bundles : List (Bundle T)) :
    ((bundles.map Bundle.hooks).any fun hooks => hooks.normalPreBody.isSome) =
      (flattenAll bundles).any (HasCheck checkOf) := by
  rw [← isSome_mergePreBody, ← normalPreBody_every, ← Bundle.hooks_group, normalPreBody_hooks]
  rfl

theorem earlyRejection_hooks (bundle : Bundle T) :
    (Bundle.hooks bundle).earlyRejection.getD [] = left checkOf duesOf bundle := by
  induction bundle using Bracketed.induct with
  | item layer => rfl
  | group bundles ih =>
    rw [Bundle.hooks_group, earlyRejection_every, any_normalPreBody, left]
    cases hcheck : (flattenAll bundles).any (HasCheck checkOf) with
    | true => rfl
    | false =>
      rw [if_neg Bool.false_ne_true, if_neg Bool.false_ne_true, getD_concatMarkers,
        List.flatMap_map, List.flatMap_map, List.flatMap_congr ih, flatMap_left hcheck]

theorem runLayers_cons (deferred : List T.Gate) (hooks : Hooks T) (layers : List (Hooks T))
    (pending : List T.Gate) :
    runLayers deferred (hooks :: layers) pending =
      match hooks.normalPreBody with
      | none => runLayers deferred layers (pending ++ hooks.earlyRejection.getD [])
      | some preBody => guarded preBody (reject (pending ++ hooks.earlyRejection.getD []))
          (runLayers deferred layers (pending ++ hooks.earlyRejection.getD [])) := rfl

mutual
theorem runLayers_bundle (deferred : List T.Gate) (rest : List (Hooks T))
    (pending before : List T.Gate) :
    ∀ bundle : Bundle T, runLayers deferred (Bundle.hooks bundle :: rest) pending =
      runCheckpoints (runLayers deferred rest (pending ++ left checkOf duesOf bundle))
        (checkpoints checkOf duesOf [] pending before bundle)
  | .item layer => by
    have hone (level : List T.Gate) : settleLevels [level] = reject level := by
      funext rejection
      exact guarded_settleLevels_nil _ _ (reject_rejects level rejection)
    rw [runLayers_cons, Bundle.hooks, checkpoints, checkOf]
    cases layer.1.normalPreBody with
    | none => rfl
    | some preBody =>
      show _ = guarded preBody (settleLevels [pending ++ duesOf layer]) _
      rw [hone]
      rfl
  | .group bundles => by
    rw [runLayers_cons, earlyRejection_hooks, Bundle.hooks_group, normalPreBody_every,
      mergePreBodyWithEarlyRejections, any_normalPreBody, checkpoints]
    cases hcheck : (flattenAll bundles).any (HasCheck checkOf) with
    | false =>
      rw [(checkpointsAll_eq_nil _ _ _ bundles).mpr hcheck]
      rfl
    | true =>
      have hnone : left checkOf duesOf (.group bundles) = [] := if_pos hcheck
      rw [hnone, List.append_nil]
      show guarded (runLayers [] (bundles.map Bundle.hooks) []) (reject pending) _ = _
      rw [runLayers_checkpoints [] [] before bundles]
      exact (guarded_runCheckpoints pending _ _).trans
        (congrArg _ (checkpointsAll_addLevel pending [] [] before bundles).symm)

theorem runLayers_checkpoints (deferred : List T.Gate) (pending before : List T.Gate) :
    ∀ bundles : List (Bundle T), runLayers deferred (bundles.map Bundle.hooks) pending =
      runCheckpoints (firstSome deferred)
        (checkpointsAll checkOf duesOf [] pending before bundles)
  | [] => rfl
  | bundle :: bundles => by
    rw [List.map_cons, runLayers_bundle deferred _ pending before bundle,
      runLayers_checkpoints deferred _ (before ++ (flatten bundle).flatMap duesOf) bundles,
      ← runCheckpoints_append]
    rfl
end

theorem deferredPreBody_hooks (bundles : List (Bundle T)) :
    ((bundles.map Bundle.hooks).flatMap fun hooks => hooks.deferredPreBody.getD []) =
      (Bundle.layers bundles).flatMap fun hooks => hooks.deferredPreBody.getD [] := by
  have hgroup (bs : List (Bundle T)) : (Bundle.hooks (.group bs)).deferredPreBody.getD [] =
      bs.flatMap fun b => (Bundle.hooks b).deferredPreBody.getD [] := by
    rw [Bundle.hooks_group, deferredPreBody_every, getD_concatMarkers, List.flatMap_map,
      List.flatMap_map]
  rw [List.flatMap_map, flatMap_flattenAll hgroup, Bundle.layers, List.flatMap_map]
  rfl

theorem preBody_checkpoints (bundles : List (Bundle T)) :
    (mergeHooks (bundles.map Bundle.hooks)).preBody.getD (pure none) =
      runCheckpoints (firstSome ((Bundle.layers bundles).flatMap fun hooks =>
        hooks.deferredPreBody.getD [])) (checkpointsAll checkOf duesOf [] [] [] bundles) := by
  rw [← runLayers_checkpoints, ← deferredPreBody_hooks]
  show (mergePreBodyWithEarlyRejections (bundles.map Bundle.hooks) true).getD (pure none) = _
  rw [mergePreBodyWithEarlyRejections, any_normalPreBody, if_pos rfl]
  cases hcheck : (flattenAll bundles).any (HasCheck checkOf) with
  | true => rfl
  | false =>
    rw [runLayers_checkpoints _ [] [] bundles, (checkpointsAll_eq_nil _ _ _ bundles).mpr hcheck]
    cases (bundles.map Bundle.hooks).flatMap fun hooks => hooks.deferredPreBody.getD [] <;> rfl

end Merged

end Daloy.Compose
