import Daloy.Foundations.JsonTexts
import Daloy.Http.Dispositions

/-! # File names of uploads and downloads

`sanitizeFilename` and `contentDisposition` of `src/security.ts`, against the reader of
`Daloy.Http.Dispositions`.

* `SafeName`: what holds of every name that `sanitizeFilename` returns.
* `sanitizeFilename_safe`, `sanitizeFilename_idempotent`: safe names come out, and stay as they are.
-/

namespace Daloy.Security.FileNames
set_option autoImplicit false

open Daloy.Fallible Daloy.Http Daloy.Http.Dispositions Daloy.Text Daloy.Unicode Daloy.UrlStandard

/-! ## The source -/

inductive FileNameError
  | badRequest (detail : JsString)
  /-- What `encodeURIComponent` throws. -/
  | uriError
  deriving DecidableEq

def isControlChar (u : UInt16) : Bool := u.toNat ≤ 0x1F || u.toNat = 0x7F

def isBidiFormatChar (u : UInt16) : Bool :=
  (0x80 ≤ u.toNat && u.toNat ≤ 0x9F) || u.toNat = 0xAD || u.toNat = 0x61C || u.toNat = 0x180E ||
    (0x200B ≤ u.toNat && u.toNat ≤ 0x200F) || (0x202A ≤ u.toNat && u.toNat ≤ 0x202E) ||
    (0x2060 ≤ u.toNat && u.toNat ≤ 0x2064) || (0x2066 ≤ u.toNat && u.toNat ≤ 0x206F) ||
    u.toNat = 0xFEFF || (0xFFF9 ≤ u.toNat && u.toNat ≤ 0xFFFB)

/-- `s.replace(LONE_SURROGATE_RE, "")`, behind the unit `before`. -/
def dropLone : Option UInt16 → JsString → JsString
  | _, [] => []
  | before, u :: rest =>
    if isHighSurrogate u && !rest.head?.any isLowSurrogate ||
        isLowSurrogate u && !before.any isHighSurrogate then
      dropLone (some u) rest
    else u :: dropLone (some u) rest

def isWindowsReservedChar (u : UInt16) : Bool := u ∈ js "<>:\"|?*"

def windowsReservedNames : List JsString :=
  [js "con", js "prn", js "aux", js "nul", js "com1", js "com2", js "com3", js "com4", js "com5",
    js "com6", js "com7", js "com8", js "com9", js "lpt1", js "lpt2", js "lpt3", js "lpt4",
    js "lpt5", js "lpt6", js "lpt7", js "lpt8", js "lpt9"]

def isSeparator (u : UInt16) : Bool := u = solidus || u = reverseSolidus

def isTrailing (u : UInt16) : Bool := isWhitespace u || u = fullStop

def cleanName (name : JsString) : JsString :=
  let base := name.rtakeWhile fun u => !isSeparator u
  let base := base.filter fun u => !isControlChar u
  let base := base.filter fun u => !isBidiFormatChar u
  let base := dropLone none base
  let base := base.map fun u => if isWindowsReservedChar u then 0x5F else u
  let base := base.dropWhile (· = fullStop)
  base.rdropWhile isTrailing

/-- The part in front of the first dot. No unit outside of ASCII is lowered to a letter of a
reserved name. -/
def stem (base : JsString) : JsString := lowerAscii (base.takeWhile (· ≠ fullStop))

def sanitizeFilename (name : JsString) : Except FileNameError JsString :=
  if (cleanName name).length = 0 then .error (.badRequest (js "Invalid filename"))
  else if stem (cleanName name) ∈ windowsReservedNames then
    .error (.badRequest (js "Reserved filename: " ++ name))
  else .ok (cleanName name)

inductive DispositionType
  | attachment
  | inline
  deriving DecidableEq

def DispositionType.text : DispositionType → JsString
  | .attachment => js "attachment"
  | .inline => js "inline"

/-- `[^\x20-\x7e]` and `["\\]`, both written as an underscore. -/
def fallback (safe : JsString) : JsString :=
  (safe.map fun u => if 0x20 ≤ u.toNat ∧ u.toNat ≤ 0x7E then u else 0x5F).map fun u =>
    if u = quotationMark ∨ u = backslash then 0x5F else u

/-- The marks that `encodeURIComponent` keeps and an extended value does not, escaped. -/
def escapeMarks (encoded : JsString) : JsString :=
  encoded.flatMap fun u => if u ∈ js "'()*" then escape (UInt8.ofNat u.toNat) else [u]

def contentDisposition (filename : JsString) (type : DispositionType) :
    Except FileNameError JsString := do
  let safe ← sanitizeFilename filename
  if fallback safe = safe ∧ percentSign ∉ safe then
    return type.text ++ js "; filename=\"" ++ safe ++ js "\""
  else
    match encodeURIComponent safe with
    | none => .error .uriError
    | some encoded =>
      return type.text ++ js "; filename=\"" ++
        (fallback safe).map (fun u => if u = percentSign then 0x5F else u) ++
        js "\"; filename*=UTF-8''" ++ escapeMarks encoded

/-! ## Lone surrogates -/

/-- Behind the unit `before`, a low surrogate stands exactly behind each high one. -/
def Paired : Option UInt16 → JsString → Prop
  | before, [] => before.any isHighSurrogate = false
  | before, u :: s => before.any isHighSurrogate = isLowSurrogate u ∧ Paired (some u) s

theorem Paired.congr {before before' : Option UInt16} {s : JsString} (h : Paired before s)
    (heq : before'.any isHighSurrogate = before.any isHighSurrogate) : Paired before' s := by
  cases s with
  | nil => exact heq.trans h
  | cons u s => exact ⟨heq.trans h.1, h.2⟩

theorem not_high_of_low {u : UInt16} (h : isLowSurrogate u = true) : isHighSurrogate u = false := by
  simp only [isLowSurrogate, Bool.and_eq_true, decide_eq_true_eq] at h
  simp only [isHighSurrogate, Bool.and_eq_false_iff, decide_eq_false_iff_not]
  omega

theorem not_low_of_high {u : UInt16} (h : isHighSurrogate u = true) : isLowSurrogate u = false := by
  simp only [isHighSurrogate, Bool.and_eq_true, decide_eq_true_eq] at h
  simp only [isLowSurrogate, Bool.and_eq_false_iff, decide_eq_false_iff_not]
  omega

theorem paired_dropLone (s : JsString) (before : Option UInt16)
    (h : before.any isHighSurrogate = false ∨ s.head?.any isLowSurrogate = false) :
    Paired none (dropLone before s) := by
  induction hn : s.length using Nat.strongRecOn generalizing s before with
  | _ n ih =>
    cases s with
    | nil => rfl
    | cons u rest =>
      rw [List.length_cons] at hn
      cases hhigh : isHighSurrogate u with
      | true =>
        have hlow := not_low_of_high hhigh
        cases rest with
        | nil =>
          rw [dropLone, if_pos (by simp [hhigh])]
          rfl
        | cons v rest =>
          cases hpair : isLowSurrogate v with
          | true =>
            have hv := not_high_of_low hpair
            have hrest := ih rest.length (by simp at hn; omega) rest (some v) (.inl (by simp [hv]))
              rfl
            rw [dropLone, if_neg (by simp [hhigh, hlow, hpair]), dropLone,
              if_neg (by simp [hv, hhigh])]
            exact ⟨by simp [hlow], by simp [hhigh, hpair], hrest.congr (by simp [hv])⟩
          | false =>
            rw [dropLone, if_pos (by simp [hhigh, hpair])]
            exact ih _ (by omega) _ _ (.inr (by simp [hpair])) rfl
      | false =>
        cases hlow : isLowSurrogate u with
        | true =>
          have hbefore : before.any isHighSurrogate = false := by
            obtain hbefore | hhead := h
            · exact hbefore
            · simp [hlow] at hhead
          rw [dropLone, if_pos (by simp [hlow, hbefore])]
          exact ih _ (by omega) _ _ (.inl (by simp [hhigh])) rfl
        | false =>
          have hrest := ih _ (by omega) rest (some u) (.inl (by simp [hhigh])) rfl
          rw [dropLone, if_neg (by simp [hhigh, hlow])]
          exact ⟨by simp [hlow], hrest.congr (by simp [hhigh])⟩

theorem Paired.dropLone_eq {s : JsString} {before : Option UInt16} (h : Paired before s) :
    dropLone before s = s := by
  induction s generalizing before with
  | nil => rfl
  | cons u rest ih =>
    obtain ⟨hbefore, hrest⟩ := h
    have hhigh : isHighSurrogate u = rest.head?.any isLowSurrogate := by
      cases rest with
      | nil => exact hrest
      | cons v rest => exact hrest.1
    rw [dropLone, hbefore, hhigh, if_neg (by simp), ih hrest]

theorem Paired.wellFormed {s : JsString} (h : Paired none s) : WellFormed s := by
  induction hn : s.length using Nat.strongRecOn generalizing s with
  | _ n ih =>
    cases s with
    | nil => rfl
    | cons u rest =>
      obtain ⟨hlow, hrest⟩ := h
      rw [List.length_cons] at hn
      cases hhigh : isHighSurrogate u with
      | false =>
        exact (wellFormed_plain ⟨hhigh, hlow.symm⟩).append
          (ih _ (by omega) (hrest.congr (by simp [hhigh])) rfl)
      | true =>
        cases rest with
        | nil =>
          have hnone : isHighSurrogate u = false := hrest
          rw [hhigh] at hnone
          exact absurd hnone (by simp)
        | cons v rest =>
          have hv : isLowSurrogate v = true := hrest.1.symm.trans hhigh
          exact (wellFormed_pair hhigh hv).append
            (ih rest.length (by simp at hn; omega)
              (hrest.2.congr (by simp [not_high_of_low hv])) rfl)

theorem Paired.map {f : UInt16 → UInt16} {s : JsString} {before : Option UInt16}
    (h : Paired before s)
    (hf : ∀ u ∈ s, isHighSurrogate (f u) = isHighSurrogate u ∧
      isLowSurrogate (f u) = isLowSurrogate u) : Paired before (s.map f) := by
  induction s generalizing before with
  | nil => exact h
  | cons u rest ih =>
    obtain ⟨hhigh, hlow⟩ := hf u List.mem_cons_self
    refine ⟨h.1.trans hlow.symm, Paired.congr ?_ (show _ = (some u).any isHighSurrogate from hhigh)⟩
    exact ih h.2 fun v hv => hf v (List.mem_cons_of_mem _ hv)

theorem Paired.dropWhile {s : JsString} (h : Paired none s) {p : UInt16 → Bool}
    (hp : ∀ u, p u = true → IsPlain u) : Paired none (s.dropWhile p) := by
  induction s with
  | nil => exact h
  | cons u rest ih =>
    rw [List.dropWhile_cons]
    split
    · rename_i hu
      exact ih (h.2.congr (by simp [(hp u hu).1]))
    · exact h

theorem Paired.of_append {a b : JsString} {before : Option UInt16} (h : Paired before (a ++ b))
    (hb : ∀ u ∈ b, IsPlain u) : Paired before a := by
  induction a generalizing before with
  | nil =>
    cases b with
    | nil => exact h
    | cons u b => exact h.1.trans (hb u List.mem_cons_self).2
  | cons u a ih => exact ⟨h.1, ih h.2⟩

theorem mem_of_mem_dropLone {s : JsString} {before : Option UInt16} {u : UInt16}
    (h : u ∈ dropLone before s) : u ∈ s := by
  induction s generalizing before with
  | nil => exact h
  | cons v rest ih =>
    rw [dropLone] at h
    split at h
    · exact List.mem_cons_of_mem _ (ih h)
    · obtain rfl | h := List.mem_cons.mp h
      · exact List.mem_cons_self
      · exact List.mem_cons_of_mem _ (ih h)

/-! ## What cleaning leaves -/

def IsSafeUnit (u : UInt16) : Prop :=
  isSeparator u = false ∧ isControlChar u = false ∧ isBidiFormatChar u = false ∧
    isWindowsReservedChar u = false

instance (u : UInt16) : Decidable (IsSafeUnit u) := inferInstanceAs (Decidable (_ ∧ _))

/-- A name that cleaning leaves as it is. -/
structure Cleaned (base : JsString) : Prop where
  units : ∀ u ∈ base, IsSafeUnit u
  paired : Paired none base
  front : base.head? ≠ some fullStop
  back : ∀ u, base.getLast? = some u → isTrailing u = false

theorem isPlain_trailing {u : UInt16} (h : isTrailing u = true) : IsPlain u := by
  simp only [isTrailing, isWhitespace, fullStop, Bool.or_eq_true, Bool.and_eq_true,
    decide_eq_true_eq, beq_iff_eq, ← UInt16.toNat_inj, UInt16.reduceToNat] at h
  simp only [IsPlain, isHighSurrogate, isLowSurrogate, Bool.and_eq_false_iff,
    decide_eq_false_iff_not]
  omega

def replaceReserved (u : UInt16) : UInt16 := if isWindowsReservedChar u then 0x5F else u

theorem isPlain_reserved {u : UInt16} (h : isWindowsReservedChar u = true) : IsPlain u := by
  have hall : ∀ v ∈ js "<>:\"|?*", IsPlain v := by decide
  exact hall u (of_decide_eq_true h)

theorem surrogates_replaceReserved (u : UInt16) :
    isHighSurrogate (replaceReserved u) = isHighSurrogate u ∧
      isLowSurrogate (replaceReserved u) = isLowSurrogate u := by
  rw [replaceReserved]
  split
  · rename_i hreserved
    obtain ⟨hhigh, hlow⟩ := isPlain_reserved hreserved
    rw [hhigh, hlow]
    decide
  · exact ⟨rfl, rfl⟩

theorem isSafeUnit_replaceReserved {u : UInt16} (hsep : isSeparator u = false)
    (hcontrol : isControlChar u = false) (hbidi : isBidiFormatChar u = false) :
    IsSafeUnit (replaceReserved u) := by
  rw [replaceReserved]
  split
  · decide
  · rename_i hreserved
    exact ⟨hsep, hcontrol, hbidi, Bool.eq_false_iff.mpr hreserved⟩

def replacedName (name : JsString) : JsString :=
  (dropLone none (((name.rtakeWhile fun u => !isSeparator u).filter fun u =>
    !isControlChar u).filter fun u => !isBidiFormatChar u)).map replaceReserved

theorem cleanName_eq (name : JsString) :
    cleanName name = ((replacedName name).dropWhile (· = fullStop)).rdropWhile isTrailing := rfl

theorem isSafeUnit_replacedName {name : JsString} {u : UInt16} (h : u ∈ replacedName name) :
    IsSafeUnit u := by
  obtain ⟨v, hv, rfl⟩ := List.mem_map.mp h
  have hkept := mem_of_mem_dropLone hv
  simp only [List.mem_filter, Bool.not_eq_true'] at hkept
  obtain ⟨⟨hbase, hcontrol⟩, hbidi⟩ := hkept
  have hsep := List.mem_rtakeWhile_imp hbase
  exact isSafeUnit_replaceReserved (Bool.not_eq_true' _ ▸ hsep) hcontrol hbidi

theorem cleaned_cleanName (name : JsString) : Cleaned (cleanName name) := by
  have hpre : (cleanName name) <+: (replacedName name).dropWhile (· = fullStop) :=
    List.rdropWhile_prefix isTrailing _
  have hpaired : Paired none (replacedName name) :=
    (paired_dropLone _ none (.inl rfl)).map fun u _ => surrogates_replaceReserved u
  have hfront : Paired none ((replacedName name).dropWhile (· = fullStop)) := by
    refine hpaired.dropWhile fun u hu => isPlain_trailing ?_
    rw [isTrailing, hu, Bool.or_true]
  refine ⟨fun u hu => ?_, ?_, ?_, fun u hu => ?_⟩
  · exact isSafeUnit_replacedName ((List.dropWhile_sublist _).subset (hpre.subset hu))
  · have happend := List.rdropWhile_append_rtakeWhile (p := isTrailing)
      (l := (replacedName name).dropWhile (· = fullStop))
    rw [← happend] at hfront
    exact hfront.of_append fun u hu => isPlain_trailing (List.mem_rtakeWhile_imp hu)
  · intro hhead
    obtain ⟨rest, hrest⟩ := hpre
    have hstop := List.head?_dropWhile_not (· = fullStop) (replacedName name)
    rw [← hrest, List.head?_append, hhead] at hstop
    simp at hstop
  · have hne : cleanName name ≠ [] := by
      intro hnil
      rw [hnil] at hu
      exact absurd hu (by simp)
    have hlast := List.rdropWhile_last_not isTrailing _ hne
    rw [List.getLast?_eq_some_getLast hne] at hu
    rw [← Option.some.inj hu]
    exact Bool.eq_false_iff.mpr hlast

theorem Cleaned.replacedName_eq {base : JsString} (h : Cleaned base) :
    replacedName base = base := by
  have hbase : base.rtakeWhile (fun u => !isSeparator u) = base := by
    rw [List.rtakeWhile_eq_self_iff]
    intro u hu
    rw [(h.units u hu).1]
    rfl
  have hcontrol : base.filter (fun u => !isControlChar u) = base := by
    rw [List.filter_eq_self]
    intro u hu
    rw [(h.units u hu).2.1]
    rfl
  have hbidi : base.filter (fun u => !isBidiFormatChar u) = base := by
    rw [List.filter_eq_self]
    intro u hu
    rw [(h.units u hu).2.2.1]
    rfl
  have hreserved : base.map replaceReserved = base := by
    refine (List.map_congr_left fun u hu => ?_).trans (List.map_id base)
    rw [replaceReserved, (h.units u hu).2.2.2]
    rfl
  rw [replacedName, hbase, hcontrol, hbidi, h.paired.dropLone_eq, hreserved]

theorem Cleaned.cleanName_eq {base : JsString} (h : Cleaned base) : cleanName base = base := by
  have hfront : base.dropWhile (· = fullStop) = base := by
    cases base with
    | nil => rfl
    | cons u base =>
      refine List.dropWhile_cons_of_neg ?_
      have hne : u ≠ fullStop := fun heq => h.front (congrArg some heq)
      simp [hne]
  rw [FileNames.cleanName_eq, h.replacedName_eq, hfront, List.rdropWhile_eq_self_iff]
  intro hne
  exact Bool.eq_false_iff.mp (h.back _ (List.getLast?_eq_some_getLast hne))

/-! ## Safe names -/

structure SafeName (name : JsString) : Prop where
  nonempty : name ≠ []
  separator : ∀ u ∈ name, u ≠ solidus ∧ u ≠ reverseSolidus
  control : ∀ u ∈ name, isControlChar u = false ∧ isBidiFormatChar u = false
  wellFormed : WellFormed name
  front : name.head? ≠ some fullStop
  back : ∀ u, name.getLast? = some u → u ≠ fullStop ∧ isWhitespace u = false
  device : stem name ∉ windowsReservedNames

theorem sanitizeFilename_ok {name safe : JsString} (h : sanitizeFilename name = .ok safe) :
    safe = cleanName name ∧ safe ≠ [] ∧ stem safe ∉ windowsReservedNames := by
  unfold sanitizeFilename at h
  split at h
  · cases h
  rename_i hlength
  split at h
  · cases h
  rename_i hdevice
  obtain rfl := Except.ok.inj h
  exact ⟨rfl, fun hnil => hlength (List.length_eq_zero_iff.mpr hnil), hdevice⟩

theorem sanitizeFilename_safe {name safe : JsString} (h : sanitizeFilename name = .ok safe) :
    SafeName safe := by
  obtain ⟨rfl, hne, hdevice⟩ := sanitizeFilename_ok h
  have hclean := cleaned_cleanName name
  refine ⟨hne, fun u hu => ?_, fun u hu => ?_, hclean.paired.wellFormed, hclean.front,
    fun u hu => ?_, hdevice⟩
  · have hsep := (hclean.units u hu).1
    simpa [isSeparator] using hsep
  · exact ⟨(hclean.units u hu).2.1, (hclean.units u hu).2.2.1⟩
  · have hback := hclean.back u hu
    simp only [isTrailing, Bool.or_eq_false_iff, decide_eq_false_iff_not] at hback
    exact ⟨hback.2, hback.1⟩

theorem sanitizeFilename_idempotent {name safe : JsString} (h : sanitizeFilename name = .ok safe) :
    sanitizeFilename safe = .ok safe := by
  obtain ⟨rfl, hne, hdevice⟩ := sanitizeFilename_ok h
  have hlength : (cleanName name).length ≠ 0 := fun hzero => hne (List.length_eq_zero_iff.mp hzero)
  rw [sanitizeFilename, (cleaned_cleanName name).cleanName_eq, if_neg hlength, if_neg hdevice]

/-! ## The header -/

def keptInExtended (u : UInt16) : Bool := keptInComponent u && u ∉ js "'()*"

/-- The units that `escapeMarks` escapes. -/
def isMark (u : UInt16) : Bool := u ∈ js "'()*"

theorem escapeMarks_of_not_mark {s : JsString} (h : ∀ u ∈ s, isMark u = false) :
    escapeMarks s = s := by
  induction s with
  | nil => rfl
  | cons u s ih =>
    have hu : u ∉ js "'()*" := of_decide_eq_false (h u List.mem_cons_self)
    have hrest := ih fun v hv => h v (List.mem_cons_of_mem _ hv)
    rw [escapeMarks] at hrest ⊢
    rw [List.flatMap_cons, if_neg hu, hrest]
    rfl

theorem not_mark_escape (b : UInt8) : ∀ u ∈ escape b, isMark u = false := by
  intro u hu
  have hescape := isEscapeUnit_escape b u hu
  cases hmark : isMark u with
  | false => rfl
  | true =>
    have hall : ∀ v ∈ js "'()*", isEscapeUnit v = false := by decide
    rw [hall u (of_decide_eq_true hmark)] at hescape
    exact hescape.symm

theorem escapeMarks_encodeChar (c : Char) :
    escapeMarks (encodeChar keptInComponent c) = encodeChar keptInExtended c := by
  unfold encodeChar
  by_cases hkept : c.toNat < 0x80 ∧ keptInComponent (UInt16.ofNat c.toNat) = true
  · rw [if_pos hkept]
    by_cases hmark : UInt16.ofNat c.toNat ∈ js "'()*"
    · have hnot : ¬ (c.toNat < 0x80 ∧ keptInExtended (UInt16.ofNat c.toNat) = true) := by
        simp [keptInExtended, hmark]
      have hbyte : String.utf8EncodeChar c = [UInt8.ofNat c.toNat] := by
        have hv : c.val.toNat = c.toNat := rfl
        rw [String.utf8EncodeChar, hv, if_pos (by omega)]
      have hunit : (UInt16.ofNat c.toNat).toNat = c.toNat :=
        UInt16.toNat_ofNat_of_lt' (by show _ < 65536; omega)
      rw [if_neg hnot, hbyte, escapeMarks, List.flatMap_cons, if_pos hmark, hunit]
      rfl
    · have hboth : c.toNat < 0x80 ∧ keptInExtended (UInt16.ofNat c.toNat) = true := by
        simp [keptInExtended, hmark, hkept]
      rw [if_pos hboth, escapeMarks, List.flatMap_cons, if_neg hmark]
      rfl
  · have hnot : ¬ (c.toNat < 0x80 ∧ keptInExtended (UInt16.ofNat c.toNat) = true) := by
      simp only [keptInExtended, Bool.and_eq_true]
      exact fun h => hkept ⟨h.1, h.2.1⟩
    rw [if_neg hkept, if_neg hnot]
    refine escapeMarks_of_not_mark fun u hu => ?_
    obtain ⟨b, -, hb⟩ := List.mem_flatMap.mp hu
    exact not_mark_escape b u hb

theorem escapeMarks_encode (s : JsString) :
    escapeMarks (encodeWith keptInComponent s) = encodeWith keptInExtended s := by
  rw [encodeWith, encodeWith, escapeMarks, List.flatMap_assoc]
  exact List.flatMap_congr fun c _ => escapeMarks_encodeChar c

def IsPrintable (u : UInt16) : Prop := 0x20 ≤ u.toNat ∧ u.toNat ≤ 0x7E

instance (u : UInt16) : Decidable (IsPrintable u) := inferInstanceAs (Decidable (_ ∧ _))

theorem attrUnit_extended {s : JsString} {u : UInt16} (h : u ∈ encodeWith keptInExtended s) :
    (isAttrUnit u = true ∨ u = percentSign) ∧ IsPrintable u := by
  have hlt : u.toNat < 0x80 := by
    obtain ⟨-, hkept⟩ | hescape := mem_encodeWith h
    · exact keptInPath_lt (keptInComponent_kept (Bool.and_eq_true _ _ ▸ hkept).1).1
    · exact keptInPath_lt (escapeUnit_kept hescape).1
  have hall : ∀ k : Fin 0x80, (keptInExtended (UInt16.ofNat k.val) = true ∨
      isEscapeUnit (UInt16.ofNat k.val) = true) →
      (isAttrUnit (UInt16.ofNat k.val) = true ∨ UInt16.ofNat k.val = percentSign) ∧
        IsPrintable (UInt16.ofNat k.val) := by
    decide +kernel
  have hu := hall ⟨u.toNat, hlt⟩
  rw [UInt16.ofNat_toNat] at hu
  exact hu ((mem_encodeWith h).imp And.right id)

def IsQuotable (u : UInt16) : Prop :=
  IsPrintable u ∧ u ≠ quotationMark ∧ u ≠ backslash ∧ u ≠ percentSign

instance (u : UInt16) : Decidable (IsQuotable u) := inferInstanceAs (Decidable (_ ∧ _))

theorem mem_fallback {s : JsString} {u : UInt16} (h : u ∈ fallback s) :
    IsPrintable u ∧ u ≠ quotationMark ∧ u ≠ backslash := by
  rw [fallback, List.mem_map] at h
  obtain ⟨v, hv, rfl⟩ := h
  split
  · decide
  rename_i hmark
  rw [not_or] at hmark
  obtain ⟨w, -, rfl⟩ := List.mem_map.mp hv
  refine ⟨?_, hmark⟩
  split
  · rename_i hprintable
    exact hprintable
  · decide

def quotedFallback (safe : JsString) : JsString :=
  (fallback safe).map fun u => if u = percentSign then 0x5F else u

theorem mem_quotedFallback {s : JsString} {u : UInt16} (h : u ∈ quotedFallback s) :
    IsQuotable u := by
  obtain ⟨v, hv, rfl⟩ := List.mem_map.mp h
  obtain ⟨hprintable, hquote, hslash⟩ := mem_fallback hv
  split
  · decide
  · rename_i hpercent
    exact ⟨hprintable, hquote, hslash, hpercent⟩

theorem type_token (type : DispositionType) : IsToken type.text := by
  cases type <;> decide

def header (type : DispositionType) (quoted rest : JsString) : JsString :=
  type.text ++ js "; filename=\"" ++ quoted ++ js "\"" ++ rest

theorem header_printable (type : DispositionType) {quoted rest : JsString}
    (hquoted : ∀ u ∈ quoted, IsQuotable u) (hrest : ∀ u ∈ rest, IsPrintable u) :
    ∀ u ∈ header type quoted rest, IsPrintable u := by
  intro u hu
  simp only [header, List.mem_append] at hu
  obtain (((hu | hu) | hu) | hu) | hu := hu
  · have hall : ∀ v ∈ type.text, IsPrintable v := by
      cases type <;> decide
    exact hall u hu
  · have hall : ∀ v ∈ js "; filename=\"", IsPrintable v := by decide
    exact hall u hu
  · exact (hquoted u hu).1
  · have hall : ∀ v ∈ js "\"", IsPrintable v := by decide
    exact hall u hu
  · exact hrest u hu

theorem header_quoted (type : DispositionType) (quoted : JsString) :
    header type quoted [] = type.text ++ semicolon :: 0x20 :: (js "filename" ++ equalsSign ::
      quotationMark :: (quoted ++ [quotationMark])) := by
  have hopen : js "; filename=\"" =
      semicolon :: 0x20 :: (js "filename" ++ [equalsSign, quotationMark]) := by decide
  have hclose : js "\"" = [quotationMark] := by decide
  rw [header, hopen, hclose]
  simp only [List.append_assoc, List.cons_append, List.nil_append, List.append_nil]

theorem header_extended (type : DispositionType) (quoted encoded : JsString) :
    header type quoted (js "; filename*=UTF-8''" ++ encoded) =
      type.text ++ semicolon :: 0x20 :: (js "filename" ++ equalsSign :: quotationMark ::
        (quoted ++ quotationMark :: semicolon :: 0x20 :: (js "filename*" ++ equalsSign ::
          (js "UTF-8''" ++ encoded)))) := by
  have hopen : js "; filename=\"" =
      semicolon :: 0x20 :: (js "filename" ++ [equalsSign, quotationMark]) := by decide
  have hclose : js "\"" = [quotationMark] := by decide
  have hextended : js "; filename*=UTF-8''" =
      semicolon :: 0x20 :: (js "filename*" ++ equalsSign :: js "UTF-8''") := by decide
  rw [header, hopen, hclose, hextended]
  simp only [List.append_assoc, List.cons_append, List.nil_append]

theorem contentDisposition_plain {filename safe : JsString}
    (h : sanitizeFilename filename = .ok safe) (type : DispositionType)
    (hplain : fallback safe = safe ∧ percentSign ∉ safe) :
    contentDisposition filename type = .ok (header type safe []) := by
  rw [contentDisposition, h, header, List.append_nil]
  show (if fallback safe = safe ∧ percentSign ∉ safe then _ else _) = _
  rw [if_pos hplain]
  rfl

theorem contentDisposition_encoded {filename safe : JsString}
    (h : sanitizeFilename filename = .ok safe) (type : DispositionType)
    (hplain : ¬ (fallback safe = safe ∧ percentSign ∉ safe)) :
    contentDisposition filename type = .ok (header type (quotedFallback safe)
      (js "; filename*=UTF-8''" ++ encodeWith keptInExtended safe)) := by
  have hsafe := sanitizeFilename_safe h
  have hencode : encodeURIComponent safe = some (encodeWith keptInComponent safe) :=
    if_pos hsafe.wellFormed
  have hjoin : js "\"; filename*=UTF-8''" = js "\"" ++ js "; filename*=UTF-8''" := by decide
  rw [contentDisposition, h]
  show (if fallback safe = safe ∧ percentSign ∉ safe then _ else _) = _
  rw [if_neg hplain, hencode, ← escapeMarks_encode, header, hjoin]
  simp only [List.append_assoc]
  rfl

/-- **A header carries exactly the safe name**: it is printable, its quoted parameter cannot be
left, and a client reads the name that `sanitizeFilename` returned, which is a safe one. -/
theorem content_disposition_exact (filename safe : JsString) (type : DispositionType)
    (h : sanitizeFilename filename = .ok safe) :
    (∃ quoted rest, contentDisposition filename type = .ok (header type quoted rest) ∧
      (∀ u ∈ header type quoted rest, IsPrintable u) ∧ (∀ u ∈ quoted, IsQuotable u) ∧
      fileName (header type quoted rest) = some safe) ∧
    sanitizeFilename safe = .ok safe ∧ SafeName safe := by
  have hsafe := sanitizeFilename_safe h
  refine ⟨?_, sanitizeFilename_idempotent h, hsafe⟩
  by_cases hplain : fallback safe = safe ∧ percentSign ∉ safe
  · have hquoted : ∀ u ∈ safe, IsQuotable u := by
      intro u hu
      obtain ⟨hprintable, hquote, hslash⟩ := mem_fallback (hplain.1.symm ▸ hu)
      exact ⟨hprintable, hquote, hslash, fun heq => hplain.2 (heq ▸ hu)⟩
    refine ⟨safe, [], contentDisposition_plain h type hplain,
      header_printable type hquoted (by simp), hquoted, ?_⟩
    rw [header_quoted]
    exact fileName_quoted (type_token type) fun u hu => ⟨(hquoted u hu).2.1, (hquoted u hu).2.2.1⟩
  · refine ⟨quotedFallback safe, js "; filename*=UTF-8''" ++ encodeWith keptInExtended safe,
      contentDisposition_encoded h type hplain,
      header_printable type (fun u => mem_quotedFallback) ?_, fun u => mem_quotedFallback, ?_⟩
    · intro u hu
      obtain hu | hu := List.mem_append.mp hu
      · have hall : ∀ v ∈ js "; filename*=UTF-8''", IsPrintable v := by decide
        exact hall u hu
      · exact (attrUnit_extended hu).2
    · rw [header_extended, fileName_extended (type_token type)
        (fun u hu => ⟨(mem_quotedFallback hu).2.1, (mem_quotedFallback hu).2.2.1⟩)
        fun u hu => (attrUnit_extended hu).1]
      exact decode_encodeWith (by decide) hsafe.wellFormed

theorem content_disposition_exact_accented :
    (∃ quoted rest, contentDisposition (js "a/é\"100%.txt") .attachment =
        .ok (header .attachment quoted rest) ∧
      (∀ u ∈ header .attachment quoted rest, IsPrintable u) ∧ (∀ u ∈ quoted, IsQuotable u) ∧
      fileName (header .attachment quoted rest) = some (js "é_100%.txt")) ∧
    sanitizeFilename (js "é_100%.txt") = .ok (js "é_100%.txt") ∧ SafeName (js "é_100%.txt") :=
  content_disposition_exact (js "a/é\"100%.txt") (js "é_100%.txt") .attachment (by decide)

end Daloy.Security.FileNames
