import Daloy.Foundations.UriComponent
import Daloy.Waf.Signatures

/-! # What the firewall makes of a value

`inspectionVariants`: the value, what is decoded of it, the folded forms of these, and of each of
them the forms with spaces for plus signs, for block comments and for control characters. The
compatibility normalisation of the language is a parameter (`Normalizer`).

* `mem_inspectionVariants`: what the variants are.
* `length_inspectionVariants_le`: there are at most forty-eight.
-/

namespace Daloy.Waf
set_option autoImplicit false

open Daloy.Unicode Daloy.SearchPatterns

/-! ## Transformations -/

/-- `"NFKC"`, which leaves ASCII as it is. -/
structure Normalizer where
  fold : JsString → JsString
  fold_ascii : ∀ s, (∀ u ∈ s, u.toNat < 0x80) → fold s = s

def asciiNormalizer : Normalizer := ⟨id, fun _ _ => rfl⟩

def safeDecode (value : JsString) : JsString := (decodeURIComponent value).getD value

def MAX_DECODE_PASSES : ℕ := 2

/-- `/[\u0000-\u0008\u000e-\u001f\u007f]/`. -/
def isControl (u : UInt16) : Bool :=
  u.toNat ≤ 0x08 || (0x0e ≤ u.toNat && u.toNat ≤ 0x1f) || u.toNat == 0x7f

/-- `/[^\x00-\x7F]/`. -/
def isNonAscii (u : UInt16) : Bool := 0x80 ≤ u.toNat

def plusSign : UInt16 := 0x2B
def slash : UInt16 := 0x2F
def asterisk : UInt16 := 0x2A
def space : UInt16 := 0x20
def equalsSign : UInt16 := 0x3D

def plusToSpace (value : JsString) : JsString := value.map fun u => if u = plusSign then space else u

/-- `value.replace(CONTROL_CHAR_GLOBAL, " ")`. -/
def controlToSpace (value : JsString) : JsString :=
  value.map fun u => if isControl u then space else u

/-- What is in front of the first two units of these, and what is behind them. -/
def cutAt (x y : UInt16) : JsString → Option (JsString × JsString)
  | u :: v :: rest =>
    if u = x ∧ v = y then some ([], rest) else (cutAt x y (v :: rest)).map fun c => (u :: c.1, c.2)
  | _ => none

def stripFrom : ℕ → JsString → JsString
  | 0, value => value
  | most + 1, value =>
    match cutAt slash asterisk value with
    | none => value
    | some (front, inner) =>
      match cutAt asterisk slash inner with
      | none => value
      | some (_, rest) => front ++ space :: stripFrom most rest

def stripBlockComments (value : JsString) : JsString := stripFrom value.length value

/-- Runs of word characters without what is behind the first `MAX_SIGNATURE_RUN`. -/
def capFrom : ℕ → JsString → JsString
  | _, [] => []
  | run, u :: rest =>
    if isWordUnit u then
      if run < MAX_SIGNATURE_RUN then u :: capFrom (run + 1) rest else capFrom run rest
    else u :: capFrom 0 rest

/-- `none` where nothing is dropped. -/
def capWordRuns (value : JsString) : Option JsString :=
  if capFrom 0 value = value then none else some (capFrom 0 value)

/-! ## The variants -/

def push (out : List JsString) (v : JsString) : List JsString := if v ∈ out then out else out ++ [v]

def decodePasses : ℕ → JsString → List JsString → List JsString
  | 0, _, out => out
  | passes + 1, current, out =>
    if safeDecode current = current then out
    else decodePasses passes (safeDecode current) (push out (safeDecode current))

def foldOne (nfkc : Normalizer) (acc : List JsString × List JsString) (v : JsString) :
    List JsString × List JsString :=
  if v.any isNonAscii ∧ nfkc.fold v ≠ v then (push acc.1 (nfkc.fold v), acc.2 ++ [nfkc.fold v])
  else acc

def expandOne (out : List JsString) (v : JsString) : List JsString :=
  let out := if plusSign ∈ v then push out (plusToSpace v) else out
  let out := if (cutAt slash asterisk v).isSome then push out (stripBlockComments v) else out
  if v.any isControl then push out (controlToSpace v) else out

def capOne (out : List JsString) (v : JsString) : List JsString :=
  if MAX_SIGNATURE_RUN < v.length ∧ equalsSign ∈ v then
    match capWordRuns v with
    | some capped => push out capped
    | none => out
  else out

def inspectionVariants (nfkc : Normalizer) (value : JsString) : List JsString :=
  let decoded := decodePasses MAX_DECODE_PASSES value [value]
  let folded := decoded.foldl (foldOne nfkc) (decoded, decoded)
  let expanded := folded.2.foldl expandOne folded.1
  expanded.foldl capOne expanded

/-! ## What they are -/

theorem mem_push {out : List JsString} {v x : JsString} : x ∈ push out v ↔ x ∈ out ∨ x = v := by
  rw [push]
  split
  · rename_i h
    constructor
    · exact .inl
    · rintro (hx | rfl)
      · exact hx
      · exact h
  · rw [List.mem_append, List.mem_singleton]

theorem length_push_le (out : List JsString) (v : JsString) :
    (push out v).length ≤ out.length + 1 := by
  rw [push]
  split
  · exact Nat.le_succ _
  · rw [List.length_append, List.length_singleton]

theorem mem_foldl_iff {step : List JsString → JsString → List JsString}
    {Adds : JsString → JsString → Prop}
    (hstep : ∀ out v x, x ∈ step out v ↔ x ∈ out ∨ Adds v x) (vs out : List JsString)
    (x : JsString) : x ∈ vs.foldl step out ↔ x ∈ out ∨ ∃ v ∈ vs, Adds v x := by
  induction vs generalizing out with
  | nil => simp
  | cons v vs ih =>
    rw [List.foldl_cons, ih, hstep, or_assoc, List.exists_mem_cons_iff]

theorem length_foldl_le {step : List JsString → JsString → List JsString} {most : ℕ}
    (hstep : ∀ out v, (step out v).length ≤ out.length + most) (vs out : List JsString) :
    (vs.foldl step out).length ≤ out.length + vs.length * most := by
  induction vs generalizing out with
  | nil => simp
  | cons v vs ih =>
    have hhead := hstep out v
    have htail := ih (step out v)
    rw [List.foldl_cons, List.length_cons, Nat.succ_mul]
    omega

def decodeTimes : ℕ → JsString → Option JsString
  | 0, value => some value
  | k + 1, value => (decodeURIComponent value).bind (decodeTimes k)

theorem decodeTimes_of_fixed {value : JsString} (h : safeDecode value = value) {k : ℕ}
    {b : JsString} (hb : decodeTimes k value = some b) : b = value := by
  induction k generalizing value with
  | zero => exact (Option.some.inj hb).symm
  | succ k ih =>
    obtain ⟨next, hnext, hrest⟩ := Option.bind_eq_some_iff.mp hb
    have hfixed := h
    rw [safeDecode, hnext, Option.getD_some] at hfixed
    rw [hfixed] at hrest
    exact ih h hrest

theorem mem_decodePasses (passes : ℕ) (current : JsString) (out : List JsString) (x : JsString)
    (hcurrent : current ∈ out) :
    x ∈ decodePasses passes current out ↔
      x ∈ out ∨ ∃ k ≤ passes, decodeTimes k current = some x := by
  induction passes generalizing current out with
  | zero =>
    rw [decodePasses]
    constructor
    · exact .inl
    · rintro (hx | ⟨k, hk, hx⟩)
      · exact hx
      · obtain rfl := Nat.le_zero.mp hk
        obtain rfl := Option.some.inj hx
        exact hcurrent
  | succ passes ih =>
    rw [decodePasses]
    split
    · rename_i hfixed
      constructor
      · exact .inl
      · rintro (hx | ⟨k, -, hx⟩)
        · exact hx
        · rwa [decodeTimes_of_fixed hfixed hx]
    · rename_i hchanged
      have hdecoded : decodeURIComponent current = some (safeDecode current) := by
        rw [safeDecode] at hchanged ⊢
        cases hgot : decodeURIComponent current with
        | none =>
          rw [hgot] at hchanged
          exact absurd rfl hchanged
        | some next => rfl
      have hmem : safeDecode current ∈ push out (safeDecode current) := mem_push.mpr (.inr rfl)
      have hone : decodeTimes 1 current = some (safeDecode current) := by
        rw [decodeTimes, hdecoded]
        rfl
      rw [ih _ _ hmem, mem_push]
      constructor
      · rintro ((hx | rfl) | ⟨k, hk, hx⟩)
        · exact .inl hx
        · exact .inr ⟨1, Nat.le_add_left 1 passes, hone⟩
        · exact .inr ⟨k + 1, Nat.succ_le_succ hk, by rw [decodeTimes, hdecoded]; exact hx⟩
      · rintro (hx | ⟨k, hk, hx⟩)
        · exact .inl (.inl hx)
        · cases k with
          | zero =>
            obtain rfl := Option.some.inj hx
            exact .inl (.inl hcurrent)
          | succ k =>
            rw [decodeTimes, hdecoded] at hx
            exact .inr ⟨k, Nat.le_of_succ_le_succ hk, hx⟩

theorem length_decodePasses_le (passes : ℕ) (current : JsString) (out : List JsString) :
    (decodePasses passes current out).length ≤ out.length + passes := by
  induction passes generalizing current out with
  | zero => exact Nat.le_refl _
  | succ passes ih =>
    rw [decodePasses]
    split
    · exact Nat.le_add_right _ _
    · have hnext := ih (safeDecode current) (push out (safeDecode current))
      have hpush := length_push_le out (safeDecode current)
      omega

def InChain (nfkc : Normalizer) (value b : JsString) : Prop :=
  ∃ k ≤ MAX_DECODE_PASSES, ∃ d, decodeTimes k value = some d ∧ (b = d ∨ b = nfkc.fold d)

theorem fold_of_ascii (nfkc : Normalizer) {v : JsString} (h : ¬ v.any isNonAscii = true) :
    nfkc.fold v = v := by
  refine nfkc.fold_ascii v fun u hu => ?_
  by_contra hlarge
  refine h (List.any_eq_true.mpr ⟨u, hu, ?_⟩)
  rw [isNonAscii, decide_eq_true_eq]
  omega

/-- The values of a list, those that have been there, and their folded forms. -/
def WithFolds (nfkc : Normalizer) (vs out : List JsString) (x : JsString) : Prop :=
  x ∈ out ∨ ∃ v ∈ vs, nfkc.fold v ≠ v ∧ x = nfkc.fold v

theorem foldPasses (nfkc : Normalizer) (vs : List JsString)
    (acc : List JsString × List JsString) (x : JsString) :
    (x ∈ (vs.foldl (foldOne nfkc) acc).1 ↔ WithFolds nfkc vs acc.1 x) ∧
      (x ∈ (vs.foldl (foldOne nfkc) acc).2 ↔ WithFolds nfkc vs acc.2 x) := by
  induction vs generalizing acc with
  | nil => simp [WithFolds]
  | cons v vs ih =>
    rw [List.foldl_cons]
    obtain ⟨hout, hchain⟩ := ih (foldOne nfkc acc v)
    rw [hout, hchain]
    simp only [WithFolds, List.exists_mem_cons_iff, ← or_assoc]
    have hone : (x ∈ (foldOne nfkc acc v).1 ↔ x ∈ acc.1 ∨ nfkc.fold v ≠ v ∧ x = nfkc.fold v) ∧
        (x ∈ (foldOne nfkc acc v).2 ↔ x ∈ acc.2 ∨ nfkc.fold v ≠ v ∧ x = nfkc.fold v) := by
      rw [foldOne]
      split
      · rename_i hfolds
        rw [mem_push, List.mem_append, List.mem_singleton]
        simp only [ne_eq, hfolds.2, not_false_eq_true, true_and, and_self]
      · rename_i hkept
        have hsame : nfkc.fold v = v := by
          by_cases hascii : v.any isNonAscii = true
          · by_contra hne
            exact hkept ⟨hascii, hne⟩
          · exact fold_of_ascii nfkc hascii
        simp only [ne_eq, hsame, not_true_eq_false, false_and, or_false, and_self]
    rw [hone.1, hone.2]
    exact ⟨Iff.rfl, Iff.rfl⟩

theorem length_foldPasses_le (nfkc : Normalizer) (vs : List JsString)
    (acc : List JsString × List JsString) :
    (vs.foldl (foldOne nfkc) acc).1.length ≤ acc.1.length + vs.length ∧
      (vs.foldl (foldOne nfkc) acc).2.length ≤ acc.2.length + vs.length := by
  induction vs generalizing acc with
  | nil => exact ⟨Nat.le_refl _, Nat.le_refl _⟩
  | cons v vs ih =>
    obtain ⟨hout, hchain⟩ := ih (foldOne nfkc acc v)
    have hone : (foldOne nfkc acc v).1.length ≤ acc.1.length + 1 ∧
        (foldOne nfkc acc v).2.length ≤ acc.2.length + 1 := by
      rw [foldOne]
      split
      · refine ⟨length_push_le _ _, ?_⟩
        rw [List.length_append, List.length_singleton]
      · exact ⟨Nat.le_succ _, Nat.le_succ _⟩
    rw [List.foldl_cons, List.length_cons]
    omega

theorem map_eq_self {f : UInt16 → UInt16} {v : JsString} (h : ∀ u ∈ v, f u = u) : v.map f = v := by
  conv_rhs => rw [← List.map_id v]
  exact List.map_congr_left h

theorem plusToSpace_of_not_mem {v : JsString} (h : plusSign ∉ v) : plusToSpace v = v := by
  refine map_eq_self fun u hu => if_neg ?_
  rintro rfl
  exact h hu

theorem controlToSpace_of_none {v : JsString} (h : ¬ v.any isControl = true) :
    controlToSpace v = v := by
  refine map_eq_self fun u hu => if_neg fun hcontrol => ?_
  exact h (List.any_eq_true.mpr ⟨u, hu, hcontrol⟩)

theorem stripBlockComments_of_none {v : JsString} (h : ¬ (cutAt slash asterisk v).isSome = true) :
    stripBlockComments v = v := by
  rw [stripBlockComments]
  cases v.length with
  | zero => rfl
  | succ n =>
    rw [stripFrom, Option.not_isSome_iff_eq_none.mp h]

def FormOf (b x : JsString) : Prop :=
  x = b ∨ x = plusToSpace b ∨ x = stripBlockComments b ∨ x = controlToSpace b

def Adds (b x : JsString) : Prop :=
  (plusSign ∈ b ∧ x = plusToSpace b) ∨
    ((cutAt slash asterisk b).isSome = true ∧ x = stripBlockComments b) ∨
      (b.any isControl = true ∧ x = controlToSpace b)

theorem mem_expandOne (out : List JsString) (b x : JsString) :
    x ∈ expandOne out b ↔ x ∈ out ∨ Adds b x := by
  have hpush : ∀ (p : Prop) [Decidable p] (out : List JsString) (v : JsString),
      x ∈ (if p then push out v else out) ↔ x ∈ out ∨ p ∧ x = v := by
    intro p _ out v
    split
    · rename_i hp
      rw [mem_push]
      simp only [hp, true_and]
    · rename_i hp
      simp only [hp, false_and, or_false]
  rw [expandOne, Adds, hpush, hpush, hpush, or_assoc, or_assoc]

theorem formOf_iff {b x : JsString} : FormOf b x ↔ x = b ∨ Adds b x := by
  constructor
  · rintro (rfl | rfl | rfl | rfl)
    · exact .inl rfl
    · by_cases h : plusSign ∈ b
      · exact .inr (.inl ⟨h, rfl⟩)
      · exact .inl (plusToSpace_of_not_mem h)
    · by_cases h : (cutAt slash asterisk b).isSome = true
      · exact .inr (.inr (.inl ⟨h, rfl⟩))
      · exact .inl (stripBlockComments_of_none h)
    · by_cases h : b.any isControl = true
      · exact .inr (.inr (.inr ⟨h, rfl⟩))
      · exact .inl (controlToSpace_of_none h)
  · rintro (rfl | ⟨-, rfl⟩ | ⟨-, rfl⟩ | ⟨-, rfl⟩)
    · exact .inl rfl
    · exact .inr (.inl rfl)
    · exact .inr (.inr (.inl rfl))
    · exact .inr (.inr (.inr rfl))

theorem length_expandOne_le (out : List JsString) (b : JsString) :
    (expandOne out b).length ≤ out.length + 3 := by
  have hpush : ∀ (p : Prop) [Decidable p] (out : List JsString) (v : JsString),
      (if p then push out v else out).length ≤ out.length + 1 := by
    intro p _ out v
    split
    · exact length_push_le out v
    · exact Nat.le_succ _
  rw [expandOne]
  refine (hpush _ _ _).trans (Nat.succ_le_succ ((hpush _ _ _).trans (Nat.succ_le_succ ?_)))
  exact hpush _ _ _

def Shortens (y x : JsString) : Prop :=
  MAX_SIGNATURE_RUN < y.length ∧ equalsSign ∈ y ∧ capWordRuns y = some x

theorem mem_capOne (out : List JsString) (y x : JsString) :
    x ∈ capOne out y ↔ x ∈ out ∨ Shortens y x := by
  rw [capOne, Shortens]
  split
  · rename_i hlong
    cases hcap : capWordRuns y with
    | none => simp
    | some capped =>
      simp only [mem_push, hlong, true_and, Option.some.injEq]
      exact or_congr_right eq_comm
  · rename_i hshort
    rw [← and_assoc]
    simp only [hshort, false_and, or_false]

theorem length_capOne_le (out : List JsString) (y : JsString) :
    (capOne out y).length ≤ out.length + 1 := by
  rw [capOne]
  split
  · split
    · exact length_push_le out _
    · exact Nat.le_succ _
  · exact Nat.le_succ _

def Expanded (nfkc : Normalizer) (value x : JsString) : Prop :=
  ∃ b, InChain nfkc value b ∧ FormOf b x

theorem mem_chain (nfkc : Normalizer) (value b : JsString) :
    let decoded := decodePasses MAX_DECODE_PASSES value [value]
    (b ∈ (decoded.foldl (foldOne nfkc) (decoded, decoded)).1 ↔ InChain nfkc value b) ∧
      (b ∈ (decoded.foldl (foldOne nfkc) (decoded, decoded)).2 ↔ InChain nfkc value b) := by
  intro decoded
  have hdecoded : ∀ d, d ∈ decoded ↔ ∃ k ≤ MAX_DECODE_PASSES, decodeTimes k value = some d := by
    intro d
    rw [mem_decodePasses _ _ _ _ (List.mem_singleton_self value), List.mem_singleton]
    constructor
    · rintro (rfl | h)
      · exact ⟨0, Nat.zero_le _, rfl⟩
      · exact h
    · exact .inr
  have hfolds : WithFolds nfkc decoded decoded b ↔ InChain nfkc value b := by
    rw [WithFolds]
    constructor
    · rintro (hb | ⟨d, hd, -, rfl⟩)
      · obtain ⟨k, hk, hgot⟩ := (hdecoded b).mp hb
        exact ⟨k, hk, b, hgot, .inl rfl⟩
      · obtain ⟨k, hk, hgot⟩ := (hdecoded d).mp hd
        exact ⟨k, hk, d, hgot, .inr rfl⟩
    · rintro ⟨k, hk, d, hgot, rfl | rfl⟩
      · exact .inl ((hdecoded b).mpr ⟨k, hk, hgot⟩)
      · have hd : d ∈ decoded := (hdecoded d).mpr ⟨k, hk, hgot⟩
        by_cases hsame : nfkc.fold d = d
        · exact .inl (by rw [hsame]; exact hd)
        · exact .inr ⟨d, hd, hsame, rfl⟩
  obtain ⟨hout, hchain⟩ := foldPasses nfkc decoded (decoded, decoded) b
  exact ⟨hout.trans hfolds, hchain.trans hfolds⟩

theorem mem_inspectionVariants (nfkc : Normalizer) (value x : JsString) :
    x ∈ inspectionVariants nfkc value ↔
      Expanded nfkc value x ∨ ∃ y, Expanded nfkc value y ∧ Shortens y x := by
  have hexpanded : ∀ y,
      (let decoded := decodePasses MAX_DECODE_PASSES value [value]
       let folded := decoded.foldl (foldOne nfkc) (decoded, decoded)
       y ∈ folded.2.foldl expandOne folded.1) ↔ Expanded nfkc value y := by
    intro y
    dsimp only
    rw [mem_foldl_iff mem_expandOne, (mem_chain nfkc value y).1, Expanded]
    constructor
    · rintro (hy | ⟨b, hb, hy⟩)
      · exact ⟨y, hy, .inl rfl⟩
      · exact ⟨b, (mem_chain nfkc value b).2.mp hb, formOf_iff.mpr (.inr hy)⟩
    · rintro ⟨b, hb, hform⟩
      obtain rfl | hadds := formOf_iff.mp hform
      · exact .inl hb
      · exact .inr ⟨b, (mem_chain nfkc value b).2.mpr hb, hadds⟩
  rw [inspectionVariants]
  dsimp only at hexpanded ⊢
  rw [mem_foldl_iff mem_capOne, hexpanded]
  simp only [hexpanded]

theorem length_inspectionVariants_le (nfkc : Normalizer) (value : JsString) :
    (inspectionVariants nfkc value).length ≤ 48 := by
  rw [inspectionVariants]
  have hdecoded : (decodePasses MAX_DECODE_PASSES value [value]).length ≤ 3 :=
    length_decodePasses_le MAX_DECODE_PASSES value [value]
  generalize decodePasses MAX_DECODE_PASSES value [value] = decoded at hdecoded ⊢
  obtain ⟨hout, hchain⟩ := length_foldPasses_le nfkc decoded (decoded, decoded)
  generalize decoded.foldl (foldOne nfkc) (decoded, decoded) = folded at hout hchain ⊢
  have hexpand := length_foldl_le length_expandOne_le folded.2 folded.1
  dsimp only at hout hchain ⊢
  generalize folded.2.foldl expandOne folded.1 = expanded at hexpand ⊢
  have hcap := length_foldl_le length_capOne_le expanded expanded
  omega

theorem self_mem_inspectionVariants (nfkc : Normalizer) (value : JsString) :
    value ∈ inspectionVariants nfkc value :=
  (mem_inspectionVariants nfkc value value).mpr
    (.inl ⟨value, ⟨0, Nat.zero_le _, value, rfl, .inl rfl⟩, .inl rfl⟩)

end Daloy.Waf
