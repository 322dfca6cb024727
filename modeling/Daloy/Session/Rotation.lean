import Daloy.Foundations.SortedText

/-! # Rotation of the session id

`rotateSession` of `src/session.ts`. Before the handler it writes the watched value as a text, and
after the handler it asks for a new id when the text is another. The text is that of
`stableSnapshot`: a `Date`, a `Map` and a `Set`, which a session store keeps, have no property that
it looks at.

* `rotates_eq`: when the hooks ask for a new id.
* `rotates_on_change_iff`: for which two watched values it is, whatever they are.
-/

namespace Daloy.Session
set_option autoImplicit false

open Daloy.Unicode Daloy.Json

/-- `stableSnapshot(value)`, for values that a session holds. -/
def stableSnapshot (value : JsValue) : Except TypeError JsString := sortedText .undefined value

/-- What the hooks read of `ctx`: the session, and what a selector may read besides. -/
structure RotationContext (σ : Type) where
  id : JsString
  data : List (JsString × JsValue)
  rest : σ

/-- `RotateSessionOptions["watch"]`. -/
inductive Watch (σ : Type)
  | key (key : JsString)
  | keys (keys : List JsString)
  | selector (read : RotationContext σ → JsValue)

def defaultRotateSessionKeys : List JsString :=
  [js "userId", js "accountId", js "tenantId", js "role", js "roles", js "scopes",
    js "permissions", js "privileges", js "isAdmin"]

structure RotateSessionSnapshot where
  id : JsString
  value : JsString
  deriving DecidableEq

section Hooks
variable {σ : Type}

/-- `for (const key of keys) out[key] = sessionCtx.data[key]`. -/
def readKeys (ctx : RotationContext σ) (keys : List JsString) : JsValue :=
  .object (ownOrder (keys.map fun key => (key, (ctx.data.lookup key).getD .undefined)))

def readRotationWatchValue (ctx : RotationContext σ) : Option (Watch σ) → JsValue
  | some (.selector read) => read ctx
  | some (.key key) => readKeys ctx [key]
  | some (.keys keys) => readKeys ctx keys
  | none => readKeys ctx defaultRotateSessionKeys

/-- `beforeHandle`, with the snapshot it leaves in `ctx.state`. -/
def rotationBeforeHandle (watch : Option (Watch σ)) (ctx : RotationContext σ) :
    Except TypeError RotateSessionSnapshot := do
  let value ← stableSnapshot (readRotationWatchValue ctx watch)
  return ⟨ctx.id, value⟩

/-- `afterHandle`: whether it calls `regenerate`. -/
def rotationAfterHandle (watch : Option (Watch σ)) (snapshot : RotateSessionSnapshot)
    (ctx : RotationContext σ) : Except TypeError Bool :=
  if ctx.id ≠ snapshot.id then .ok false
  else do
    let value ← stableSnapshot (readRotationWatchValue ctx watch)
    return value ≠ snapshot.value

/-- The two hooks around a handler that takes the context from `before` to `after`. -/
def rotates (watch : Option (Watch σ)) (before after : RotationContext σ) :
    Except TypeError Bool := do
  let snapshot ← rotationBeforeHandle watch before
  rotationAfterHandle watch snapshot after

variable {watch : Option (Watch σ)} {before after : RotationContext σ}

theorem stableSnapshot_eq {value : JsValue} (h : value.holdsBigint = false) :
    stableSnapshot value = .ok (value.seen .undefined).text := by
  rw [stableSnapshot, sortedText_eq, h]
  rfl

theorem rotates_eq (hbefore : (readRotationWatchValue before watch).holdsBigint = false)
    (hafter : (readRotationWatchValue after watch).holdsBigint = false) :
    ∃ rotated, rotates watch before after = .ok rotated ∧
      (rotated = true ↔ after.id = before.id ∧
        (readRotationWatchValue before watch).seen .undefined ≠
          (readRotationWatchValue after watch).seen .undefined) := by
  have hstep : rotates watch before after =
      rotationAfterHandle watch
        ⟨before.id, ((readRotationWatchValue before watch).seen .undefined).text⟩ after := by
    rw [rotates, rotationBeforeHandle, stableSnapshot_eq hbefore]
    rfl
  rw [hstep, rotationAfterHandle, stableSnapshot_eq hafter]
  by_cases hid : after.id = before.id
  · refine ⟨_, if_neg (not_not.mpr hid), ?_⟩
    rw [decide_eq_true_iff]
    constructor
    · exact fun hne => ⟨hid, fun hseen => hne (by rw [hseen])⟩
    · exact fun h htext => h.2 (Tree.text_injective htext).symm
  · refine ⟨false, if_pos hid, ?_⟩
    simp [hid]

/-- **Rotation, for any two watched values.** The hooks rotate the id when the watched value changed
while the id did not, if and only if two different values, under one id, are not seen alike: they
differ in more than the content of a `Date`, a `Map` or a `Set`, or in which number is not finite. -/
theorem rotates_on_change_iff (watch : Option (Watch σ)) (before after : RotationContext σ)
    (hbefore : (readRotationWatchValue before watch).holdsBigint = false)
    (hafter : (readRotationWatchValue after watch).holdsBigint = false) :
    (after.id = before.id →
        ¬ (readRotationWatchValue before watch).Same (readRotationWatchValue after watch) →
          rotates watch before after = .ok true) ↔
      (after.id = before.id →
        (readRotationWatchValue before watch).seen .undefined =
            (readRotationWatchValue after watch).seen .undefined →
          (readRotationWatchValue before watch).Same (readRotationWatchValue after watch)) := by
  obtain ⟨rotated, heq, hiff⟩ := rotates_eq hbefore hafter
  rw [heq, Except.ok.injEq, hiff]
  constructor
  · intro h hid hseen
    by_contra hchange
    exact (h hid hchange).2 hseen
  · intro h hid hchange
    exact ⟨hid, fun hseen => hchange (h hid hseen)⟩

end Hooks

def rolesSession (roles : List JsString) : RotationContext Unit :=
  ⟨js "sid", [(js "roles", .set (roles.map JsValue.string))], ()⟩

/-- `rotateSession({ watch: "roles" })`. -/
def watchRoles : Option (Watch Unit) := some (.key (js "roles"))

theorem rotates_on_change_example :
    ((rolesSession [js "admin"]).id = (rolesSession []).id →
        ¬ (readRotationWatchValue (rolesSession []) watchRoles).Same
          (readRotationWatchValue (rolesSession [js "admin"]) watchRoles) →
          rotates watchRoles (rolesSession []) (rolesSession [js "admin"]) = .ok true) ↔
      ((rolesSession [js "admin"]).id = (rolesSession []).id →
        (readRotationWatchValue (rolesSession []) watchRoles).seen .undefined =
            (readRotationWatchValue (rolesSession [js "admin"]) watchRoles).seen .undefined →
          (readRotationWatchValue (rolesSession []) watchRoles).Same
            (readRotationWatchValue (rolesSession [js "admin"]) watchRoles)) :=
  rotates_on_change_iff watchRoles (rolesSession []) (rolesSession [js "admin"]) (by decide)
    (by decide)

theorem set_change_unseen :
    (rolesSession [js "admin"]).id = (rolesSession []).id ∧
      ¬ (readRotationWatchValue (rolesSession []) watchRoles).Same
        (readRotationWatchValue (rolesSession [js "admin"]) watchRoles) ∧
      rotates watchRoles (rolesSession []) (rolesSession [js "admin"]) = .ok false := by
  have hread : ∀ roles, readRotationWatchValue (rolesSession roles) watchRoles =
      .object [(js "roles", .set (roles.map JsValue.string))] := fun _ => rfl
  refine ⟨rfl, ?_, by decide⟩
  intro h
  rw [hread, hread] at h
  simp [JsValue.Same, JsValue.normal, normalMembers, sortMembers, normalItems_eq] at h

end Daloy.Session
