import Daloy.Foundations.SortedText

/-! # The fingerprint of a parsed body

`stableStringify` of `src/idempotency.ts`, the material that a parsed request body is fingerprinted
by. What a schema may put into a body goes beyond JSON: a `Date`, a `Map` and a `Set` have no
property that the writer looks at, numbers that are not finite are written as `null`, and a `bigint`
makes the request fail.

* `fingerprint_separates_iff`: for which two bodies that holds, whatever they hold.
-/

namespace Daloy.Idempotency
set_option autoImplicit false

open Daloy.Unicode Daloy.Json

/-- `stableStringify(value)`: `undefined` is written like `null`. -/
def stableStringify (value : JsValue) : Except TypeError JsString := sortedText .null value

def SameMaterial (a b : JsValue) : Prop :=
  ∃ text, stableStringify a = .ok text ∧ stableStringify b = .ok text

/-- **Fingerprints, for any two bodies.** They have one material exactly if they are equal, if and
only if neither does equality cover a `bigint`, nor does the writer see the same of two different
bodies. -/
theorem fingerprint_separates_iff (a b : JsValue) :
    (SameMaterial a b ↔ a.Same b) ↔
      (a.Same b → a.holdsBigint = false ∧ b.holdsBigint = false) ∧
        (a.holdsBigint = false → b.holdsBigint = false → a.seen .null = b.seen .null →
          a.Same b) := by
  have hmaterial : SameMaterial a b ↔
      a.holdsBigint = false ∧ b.holdsBigint = false ∧ a.seen .null = b.seen .null :=
    sortedText_eq_iff .null a b
  rw [hmaterial]
  constructor
  · intro h
    refine ⟨?_, fun ha hb hseen => h.mp ⟨ha, hb, hseen⟩⟩
    intro hsame
    obtain ⟨ha, hb, -⟩ := h.mpr hsame
    exact ⟨ha, hb⟩
  · rintro ⟨hwrites, hseparates⟩
    constructor
    · rintro ⟨ha, hb, hseen⟩
      exact hseparates ha hb hseen
    · intro hsame
      obtain ⟨ha, hb⟩ := hwrites hsame
      exact ⟨ha, hb, hsame.seen_eq .null⟩

/-- `{ "at": date }`. -/
def booking (time : ℤ) : JsValue := .object [(js "at", .date (some time))]

theorem dates_collide :
    SameMaterial (booking 0) (booking 86400000) ∧ ¬ (booking 0).Same (booking 86400000) := by
  refine ⟨⟨js "\x7b\"at\":\x7b\x7d\x7d", by decide, by decide⟩, ?_⟩
  intro h
  simp [JsValue.Same, booking, JsValue.normal, normalMembers, sortMembers] at h

end Daloy.Idempotency
