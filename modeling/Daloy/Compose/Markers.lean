import Daloy.Compose.Bundles

/-! # The markers of a bundle

What `every` stamps on its bundle, read off the layers it was given.

* `normalPreBody_every`, `earlyRejection_every`: the budgets are out of sight behind a `preBody`.
* `isBudget_hooks`, `isReplay_hooks`, `tenancy_hooks`: the markers of nested bundles.
-/

namespace Daloy.Compose
set_option autoImplicit false

variable {T : HookTypes}

/-- A stored response: `responseCache()` or `idempotency()`. -/
def Hooks.isReplay (hooks : Hooks T) : Bool := hooks.responseCache || hooks.idempotency

/-- `rateLimit()` or `loginThrottle()`. -/
def Hooks.isBudget (hooks : Hooks T) : Bool := hooks.earlyRejection.isSome

theorem isSome_mergePreBody (layers : List (Hooks T)) :
    (mergePreBodyWithEarlyRejections layers false).isSome =
      layers.any fun hooks => hooks.normalPreBody.isSome := by
  rw [mergePreBodyWithEarlyRejections]
  cases layers.any fun hooks => hooks.normalPreBody.isSome with
  | true => rfl
  | false => rfl

theorem normalPreBody_every (layers : List (Hooks T)) :
    (every layers).normalPreBody = mergePreBodyWithEarlyRejections layers false := by
  rw [every, Hooks.normalPreBody, mergeCombineHooks]
  cases mergePreBodyWithEarlyRejections layers false with
  | some run => rfl
  | none =>
    cases mergePreBodyWithEarlyRejections layers true with
    | some run => rfl
    | none => rfl

theorem earlyRejection_every (layers : List (Hooks T)) :
    (every layers).earlyRejection =
      if layers.any fun hooks => hooks.normalPreBody.isSome then none
      else concatMarkers (layers.map Hooks.earlyRejection) := by
  rw [← isSome_mergePreBody, every, mergeCombineHooks]
  cases mergePreBodyWithEarlyRejections layers false with
  | some run => rfl
  | none =>
    cases mergePreBodyWithEarlyRejections layers true with
    | some run => rfl
    | none => rfl

theorem deferredPreBody_every (layers : List (Hooks T)) :
    (every layers).deferredPreBody = concatMarkers (layers.map Hooks.deferredPreBody) := rfl

theorem isSome_concatMarkers {α : Type} (lists : List (Option (List α))) :
    (concatMarkers lists).isSome = lists.any Option.isSome := by
  rw [concatMarkers]
  cases lists.any Option.isSome with
  | true => rfl
  | false => rfl

theorem getD_concatMarkers {α : Type} (lists : List (Option (List α))) :
    (concatMarkers lists).getD [] = lists.flatMap (·.getD []) := by
  rw [concatMarkers]
  cases hany : lists.any Option.isSome with
  | true => rfl
  | false =>
    show [] = _
    symm
    rw [List.flatMap_eq_nil_iff]
    intro xs hxs
    have hnone := List.any_eq_false.mp hany xs hxs
    rw [Bool.not_eq_true, Option.isSome_eq_false_iff, Option.isNone_iff_eq_none] at hnone
    rw [hnone, Option.getD_none]

/-! ## Nested bundles -/

section Bundles

/-- Whether a layer has a `preBody` that is not deferred. -/
def Bundle.hasPreBody (bundle : Bundle T) : Bool :=
  (Bracketed.flatten bundle).any fun layer => layer.1.normalPreBody.isSome

mutual
/-- Whether a budget is in sight: it stands in no `every` with a `preBody` that is not deferred. -/
def Bundle.showsBudget : Bundle T → Bool
  | .item layer => layer.1.isBudget
  | .group bundles =>
    !(Bundle.hasPreBody (.group bundles)) && Bundle.anyShowsBudget bundles

def Bundle.anyShowsBudget : List (Bundle T) → Bool
  | [] => false
  | bundle :: bundles => Bundle.showsBudget bundle || Bundle.anyShowsBudget bundles
end

theorem Bundle.anyShowsBudget_eq (bundles : List (Bundle T)) :
    Bundle.anyShowsBudget bundles = bundles.any Bundle.showsBudget := by
  induction bundles with
  | nil => rfl
  | cons b bs ih => rw [Bundle.anyShowsBudget, ih, List.any_cons]

theorem marker_hooks (marker : Hooks T → Bool)
    (hevery : ∀ layers, marker (every layers) = layers.any marker) (bundle : Bundle T) :
    marker (Bundle.hooks bundle) = (Bracketed.flatten bundle).any fun layer => marker layer.1 := by
  induction bundle using Bracketed.induct with
  | item layer => rw [Bundle.hooks, Bracketed.flatten_item, List.any_cons, List.any_nil,
      Bool.or_false]
  | group bundles ih =>
    rw [Bundle.hooks_group, hevery, Bracketed.flatten_group, List.any_map]
    induction bundles with
    | nil => rfl
    | cons b bs ih' =>
      rw [List.any_cons, Bracketed.flattenAll_cons, List.any_append, Function.comp_apply,
        ih b List.mem_cons_self, ih' fun c hc => ih c (List.mem_cons_of_mem b hc)]

theorem normalPreBody_hooks (bundle : Bundle T) :
    (Bundle.hooks bundle).normalPreBody.isSome = bundle.hasPreBody := by
  apply marker_hooks fun hooks => hooks.normalPreBody.isSome
  intro layers
  rw [normalPreBody_every, isSome_mergePreBody]

def Bundle.hasReplay (bundle : Bundle T) : Bool :=
  (Bracketed.flatten bundle).any fun layer => layer.1.isReplay

def Bundle.hasTenancy (bundle : Bundle T) : Bool :=
  (Bracketed.flatten bundle).any fun layer => layer.1.tenancy

theorem isReplay_hooks (bundle : Bundle T) : (Bundle.hooks bundle).isReplay = bundle.hasReplay := by
  apply marker_hooks Hooks.isReplay
  intro layers
  show (layers.any Hooks.responseCache || layers.any Hooks.idempotency) = _
  induction layers with
  | nil => rfl
  | cons hooks layers ih =>
    rw [List.any_cons, List.any_cons, List.any_cons, ← ih, Hooks.isReplay]
    ac_rfl

theorem tenancy_hooks (bundle : Bundle T) :
    (Bundle.hooks bundle).tenancy = bundle.hasTenancy :=
  marker_hooks Hooks.tenancy (fun _ => rfl) bundle

theorem isBudget_hooks (bundle : Bundle T) :
    (Bundle.hooks bundle).isBudget = bundle.showsBudget := by
  induction bundle using Bracketed.induct with
  | item layer => rw [Bundle.hooks, Bundle.showsBudget]
  | group bundles ih =>
    have hpre : ((bundles.map Bundle.hooks).any fun hooks => hooks.normalPreBody.isSome) =
        Bundle.hasPreBody (.group bundles) := by
      rw [← normalPreBody_hooks, Bundle.hooks_group, normalPreBody_every, isSome_mergePreBody]
    rw [Bundle.hooks_group, Hooks.isBudget, earlyRejection_every, hpre, Bundle.showsBudget]
    cases Bundle.hasPreBody (.group bundles) with
    | true => rfl
    | false =>
      rw [if_neg Bool.false_ne_true, isSome_concatMarkers, Bundle.anyShowsBudget_eq, Bool.not_false,
        Bool.true_and, List.any_map, List.any_map, Bool.eq_iff_iff, List.any_eq_true,
        List.any_eq_true]
      constructor
      · rintro ⟨b, hb, hshows⟩
        exact ⟨b, hb, by rw [← ih b hb]; exact hshows⟩
      · rintro ⟨b, hb, hshows⟩
        exact ⟨b, hb, by rw [← ih b hb] at hshows; exact hshows⟩

end Bundles

end Daloy.Compose
