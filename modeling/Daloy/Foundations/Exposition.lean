import Daloy.Foundations.NumberTexts

/-! # The text exposition format

Nothing here mentions a program. Samples of metrics, one on a line, between comments.

* `parse`: the samples of a text, every line of which ends with a line feed.
* `sampleText`: how a sample is written without blanks that need not be there, its label values
  escaped. `readSample_sampleText`: it is read back.
* `Reads.parse_eq`: a text is read line by line.
-/

namespace Daloy.Exposition
set_option autoImplicit false

open Daloy.Unicode Daloy.Json Daloy.Text

def lineFeed : UInt16 := 0x0A
def space : UInt16 := 0x20
def quotation : UInt16 := 0x22
def numberSign : UInt16 := 0x23
def comma : UInt16 := 0x2C
def equalsSign : UInt16 := 0x3D
def reverseSolidus : UInt16 := 0x5C
def leftBrace : UInt16 := 0x7B
def rightBrace : UInt16 := 0x7D

/-! ## Names -/

/-- `[a-zA-Z_]`. -/
def isLabelFirst (u : UInt16) : Bool :=
  (0x41 ≤ u.toNat && u.toNat ≤ 0x5A) || u == 0x5F || (0x61 ≤ u.toNat && u.toNat ≤ 0x7A)

/-- `[a-zA-Z0-9_]`. -/
def isLabelUnit (u : UInt16) : Bool := isLabelFirst u || isDigit u

/-- `[a-zA-Z_:]`. -/
def isMetricFirst (u : UInt16) : Bool := isLabelFirst u || u == 0x3A

/-- `[a-zA-Z0-9_:]`. -/
def isMetricUnit (u : UInt16) : Bool := isMetricFirst u || isDigit u

def isName (first other : UInt16 → Bool) (s : JsString) : Bool :=
  s.head?.any first && s.tail.all other

def isLabelName : JsString → Bool := isName isLabelFirst isLabelUnit
def isMetricName : JsString → Bool := isName isMetricFirst isMetricUnit

def readName (first other : UInt16 → Bool) : JsString → Option (JsString × JsString)
  | [] => none
  | u :: s => if first u then some (u :: s.takeWhile other, s.dropWhile other) else none

theorem readName_append {first other : UInt16 → Bool} {name rest : JsString}
    (hname : isName first other name = true)
    (hrest : ∀ u, rest.head? = some u → other u = false) :
    readName first other (name ++ rest) = some (name, rest) := by
  cases name with
  | nil => cases hname
  | cons u name =>
    rw [isName, List.head?_cons, Option.any_some, List.tail_cons, Bool.and_eq_true] at hname
    obtain ⟨htake, hdrop⟩ := span_append (List.all_eq_true.mp hname.2) hrest
    rw [List.cons_append, readName, if_pos hname.1, htake, hdrop]

theorem metricName_units {name : JsString} (h : isMetricName name = true) :
    ∀ u ∈ name, isMetricUnit u = true := by
  cases name with
  | nil => cases h
  | cons u name =>
    rw [isMetricName, isName, List.head?_cons, Option.any_some, List.tail_cons,
      Bool.and_eq_true] at h
    intro v hv
    obtain rfl | hv := List.mem_cons.mp hv
    · rw [isMetricUnit, h.1, Bool.true_or]
    · exact List.all_eq_true.mp h.2 v hv

/-! ## Blanks -/

def isBlank (u : UInt16) : Bool := u == space || u == 0x09

def skipBlanks (s : JsString) : JsString := s.dropWhile isBlank

theorem skipBlanks_cons {u : UInt16} {s : JsString} (h : isBlank u = false) :
    skipBlanks (u :: s) = u :: s :=
  List.dropWhile_cons_of_neg (by simp [h])

def expect (u : UInt16) (s : JsString) : Option JsString :=
  if s.head? = some u then some s.tail else none

@[simp] theorem expect_cons (u : UInt16) (s : JsString) : expect u (u :: s) = some s := by
  simp [expect]

/-! ## Label values -/

def unescape (u : UInt16) : Option UInt16 :=
  if u = reverseSolidus then some reverseSolidus
  else if u = quotation then some quotation
  else if u = 0x6E then some lineFeed
  else none

def readLabelValue : JsString → Option (JsString × JsString)
  | [] => none
  | u :: s =>
    if u = quotation then some ([], s)
    else if u = reverseSolidus then
      match s with
      | [] => none
      | e :: s => (unescape e).bind fun v => (readLabelValue s).map fun r => (v :: r.1, r.2)
    else (readLabelValue s).map fun r => (u :: r.1, r.2)

def escapeUnit (u : UInt16) : JsString :=
  if u = reverseSolidus then [reverseSolidus, reverseSolidus]
  else if u = quotation then [reverseSolidus, quotation]
  else if u = lineFeed then [reverseSolidus, 0x6E]
  else [u]

theorem readLabelValue_escape (value rest : JsString) :
    readLabelValue (value.flatMap escapeUnit ++ quotation :: rest) = some (value, rest) := by
  induction value with
  | nil =>
    rw [List.flatMap_nil, List.nil_append, readLabelValue.eq_def]
    exact if_pos rfl
  | cons u value ih =>
    have hescape : ∀ e v, unescape e = some v →
        readLabelValue (reverseSolidus :: e :: (value.flatMap escapeUnit ++ quotation :: rest)) =
          some (v :: value, rest) := by
      intro e v he
      rw [readLabelValue.eq_def]
      dsimp only
      rw [if_neg (by decide), if_pos rfl, he, Option.bind_some, ih, Option.map_some]
    rw [List.flatMap_cons, List.append_assoc, escapeUnit]
    split
    · next h =>
      subst h
      exact hescape reverseSolidus reverseSolidus (by decide)
    · next hslash =>
      split
      · next h =>
        subst h
        exact hescape quotation quotation (by decide)
      · next hquote =>
        split
        · next h =>
          subst h
          exact hescape 0x6E lineFeed (by decide)
        · rw [List.singleton_append, readLabelValue.eq_def]
          simp only [if_neg hquote, if_neg hslash, ih, Option.map_some]

theorem lineFeed_not_mem_escape (value : JsString) : lineFeed ∉ value.flatMap escapeUnit := by
  rw [List.mem_flatMap]
  rintro ⟨u, -, hu⟩
  rw [escapeUnit] at hu
  split at hu
  · exact absurd hu (by decide)
  · split at hu
    · exact absurd hu (by decide)
    · split at hu
      · exact absurd hu (by decide)
      · next hne => exact hne (List.mem_singleton.mp hu).symm

/-! ## Label blocks -/

abbrev Label := JsString × JsString

/-- The labels behind an opening brace or a comma, and what follows the closing brace. -/
def readLabels : ℕ → JsString → Option (List Label × JsString)
  | 0, _ => none
  | fuel + 1, s =>
    if (skipBlanks s).head? = some rightBrace then some ([], (skipBlanks s).tail)
    else do
      let (name, s) ← readName isLabelFirst isLabelUnit (skipBlanks s)
      let s ← expect equalsSign (skipBlanks s)
      let s ← expect quotation (skipBlanks s)
      let (value, s) ← readLabelValue s
      if (skipBlanks s).head? = some comma then
        (readLabels fuel (skipBlanks s).tail).map fun r => ((name, value) :: r.1, r.2)
      else (expect rightBrace (skipBlanks s)).map fun s => ([(name, value)], s)

def labelText (label : Label) : JsString :=
  label.1 ++ equalsSign :: quotation :: (label.2.flatMap escapeUnit ++ [quotation])

def blockText (labels : List Label) : JsString :=
  if labels = [] then []
  else leftBrace :: ([comma].intercalate (labels.map labelText) ++ [rightBrace])

theorem readLabels_labelText {label : Label} (hname : isLabelName label.1 = true) (fuel : ℕ)
    (rest : JsString) : readLabels (fuel + 1) (labelText label ++ rest) =
      if (skipBlanks rest).head? = some comma then
        (readLabels fuel (skipBlanks rest).tail).map fun r => (label :: r.1, r.2)
      else (expect rightBrace (skipBlanks rest)).map fun s => ([label], s) := by
  have hequals : ∀ (s : JsString) u, (equalsSign :: s).head? = some u → isLabelUnit u = false := by
    intro s u hu
    obtain rfl := Option.some.inj hu
    decide
  have hread := readName_append hname
    (hequals (quotation :: (label.2.flatMap escapeUnit ++ quotation :: rest)))
  have hvalue := readLabelValue_escape label.2 rest
  have htext : labelText label ++ rest = label.1 ++ equalsSign :: quotation ::
      (label.2.flatMap escapeUnit ++ quotation :: rest) := by
    simp [labelText]
  obtain ⟨u, name, hcons⟩ : ∃ u name, label.1 = u :: name := by
    cases hlabel : label.1 with
    | nil =>
      rw [hlabel] at hname
      cases hname
    | cons u name => exact ⟨u, name, rfl⟩
  have hfirst : isLabelFirst u = true := by
    rw [hcons, isLabelName, isName, Bool.and_eq_true] at hname
    exact hname.1
  have hskip : skipBlanks (labelText label ++ rest) = labelText label ++ rest := by
    rw [htext, hcons, List.cons_append]
    refine skipBlanks_cons ?_
    rw [← Bool.not_eq_true]
    intro hblank
    simp only [isBlank, Bool.or_eq_true, beq_iff_eq] at hblank
    obtain rfl | rfl := hblank <;> exact absurd hfirst (by decide)
  have hbrace : (labelText label ++ rest).head? ≠ some rightBrace := by
    rw [htext, hcons, List.cons_append, List.head?_cons]
    intro h
    obtain rfl := Option.some.inj h
    exact absurd hfirst (by decide)
  rw [readLabels, hskip, if_neg hbrace, htext, hread]
  simp only [Option.bind_eq_bind, Option.bind_some, skipBlanks_cons (u := equalsSign) rfl,
    skipBlanks_cons (u := quotation) rfl, expect_cons, hvalue]

theorem readLabels_labels {label : Label} {labels : List Label} {fuel : ℕ} (rest : JsString)
    (hnames : ∀ l ∈ label :: labels, isLabelName l.1 = true) (hfuel : labels.length < fuel) :
    readLabels fuel ([comma].intercalate ((label :: labels).map labelText) ++ rightBrace :: rest) =
      some (label :: labels, rest) := by
  induction labels generalizing label fuel with
  | nil =>
    obtain ⟨fuel, rfl⟩ : ∃ n, fuel = n + 1 := ⟨fuel - 1, by omega⟩
    rw [List.map_singleton, List.intercalate_singleton,
      readLabels_labelText (hnames label List.mem_cons_self), skipBlanks_cons rfl,
      if_neg (by rw [List.head?_cons]; decide), expect_cons, Option.map_some]
  | cons next labels ih =>
    rw [List.length_cons] at hfuel
    obtain ⟨fuel, rfl⟩ : ∃ n, fuel = n + 1 := ⟨fuel - 1, by omega⟩
    have hrest : readLabels fuel
        ([comma].intercalate ((next :: labels).map labelText) ++ rightBrace :: rest) =
          some (next :: labels, rest) :=
      ih (fun l hl => hnames l (List.mem_cons_of_mem _ hl)) (by omega)
    rw [List.map_cons, List.map_cons, List.intercalate_cons_cons, List.append_assoc,
      List.append_assoc, readLabels_labelText (hnames label List.mem_cons_self),
      List.singleton_append, skipBlanks_cons rfl, if_pos (by rw [List.head?_cons]), List.tail_cons,
      ← List.map_cons, hrest, Option.map_some]

/-! ## Samples -/

structure Sample where
  name : JsString
  labels : List Label
  value : Quantity
  deriving DecidableEq

def Sample.key (s : Sample) : JsString × List Label := (s.name, s.labels)

/-- The labels at the front of a text, none where it does not begin with a brace. -/
def readBlock (s : JsString) : Option (List Label × JsString) :=
  if s.head? = some leftBrace then readLabels s.length s.tail else some ([], s)

def readSample (line : JsString) : Option Sample := do
  let (name, s) ← readName isMetricFirst isMetricUnit (skipBlanks line)
  let (labels, s) ← readBlock (skipBlanks s)
  let value ← readQuantity ((skipBlanks s).takeWhile fun u => !isBlank u)
  let rest := skipBlanks ((skipBlanks s).dropWhile fun u => !isBlank u)
  if rest = [] ∨ (readInteger rest).any (fun r => skipBlanks r.2 = []) = true then
    some ⟨name, labels, value⟩
  else none

def sampleText (name : JsString) (labels : List Label) (value : JsString) : JsString :=
  name ++ (blockText labels ++ space :: value)

theorem labelText_pos (label : Label) : 0 < (labelText label).length := by
  simp [labelText]

theorem length_le_intercalate (labels : List Label) :
    labels.length ≤ ([comma].intercalate (labels.map labelText)).length := by
  induction labels with
  | nil => simp
  | cons label labels ih =>
    have hpos := labelText_pos label
    cases labels with
    | nil =>
      rw [List.map_singleton, List.intercalate_singleton, List.length_singleton]
      exact hpos
    | cons next labels =>
      rw [List.map_cons, List.map_cons, List.intercalate_cons_cons, List.length_append,
        List.length_append, List.length_cons, ← List.map_cons]
      omega

theorem readBlock_blockText {labels : List Label} (hnames : ∀ l ∈ labels, isLabelName l.1 = true)
    (value : JsString) :
    readBlock (blockText labels ++ space :: value) = some (labels, space :: value) := by
  cases labels with
  | nil => rfl
  | cons label labels =>
    have hlength := length_le_intercalate (label :: labels)
    rw [blockText, if_neg (List.cons_ne_nil _ _), List.cons_append, readBlock, List.head?_cons,
      if_pos rfl, List.tail_cons, List.append_assoc, List.singleton_append]
    refine readLabels_labels _ hnames ?_
    rw [List.length_cons] at hlength
    rw [List.length_cons, List.length_append]
    omega

theorem readSample_sampleText {name value : JsString} {labels : List Label} {quantity : Quantity}
    (hname : isMetricName name = true) (hnames : ∀ l ∈ labels, isLabelName l.1 = true)
    (hvalue : readQuantity value = some quantity)
    (hprint : ∀ u ∈ value, Number.isPrinting u = true) :
    readSample (sampleText name labels value) = some ⟨name, labels, quantity⟩ := by
  have hunits := metricName_units hname
  have hstart : (blockText labels ++ space :: value).head? = some space ∨
      (blockText labels ++ space :: value).head? = some leftBrace := by
    rw [blockText]
    split
    · exact .inl rfl
    · exact .inr rfl
  have hother : ∀ u, (blockText labels ++ space :: value).head? = some u →
      isMetricUnit u = false := by
    intro u hu
    obtain h | h := hstart
    · obtain rfl := Option.some.inj (h.symm.trans hu)
      decide
    · obtain rfl := Option.some.inj (h.symm.trans hu)
      decide
  have hread := readName_append hname hother
  have hskip : skipBlanks (sampleText name labels value) = sampleText name labels value := by
    cases name with
    | nil => cases hname
    | cons u name =>
      refine skipBlanks_cons ?_
      rw [← Bool.not_eq_true]
      intro hblank
      have hunit := hunits u List.mem_cons_self
      simp only [isBlank, Bool.or_eq_true, beq_iff_eq] at hblank
      obtain rfl | rfl := hblank <;> exact absurd hunit (by decide)
  have hnot : ∀ u ∈ value, isBlank u = false ∧ u ≠ leftBrace := by
    intro u hu
    have hu := hprint u hu
    rw [← Bool.not_eq_true]
    constructor
    · intro hblank
      simp only [isBlank, Bool.or_eq_true, beq_iff_eq] at hblank
      obtain rfl | rfl := hblank <;> exact absurd hu (by decide)
    · rintro rfl
      exact absurd hu (by decide)
  have hvalueSkip : skipBlanks value = value := by
    cases value with
    | nil => rfl
    | cons u value => exact skipBlanks_cons (hnot u List.mem_cons_self).1
  have hspaceSkip : skipBlanks (space :: value) = value :=
    (List.dropWhile_cons_of_pos (by decide)).trans hvalueSkip
  -- the blank before the value is skipped before or behind the labels
  have hblock : ∃ s, readBlock (skipBlanks (blockText labels ++ space :: value)) =
      some (labels, s) ∧ skipBlanks s = value := by
    cases labels with
    | nil =>
      refine ⟨value, ?_, hvalueSkip⟩
      rw [blockText, if_pos rfl, List.nil_append, hspaceSkip, readBlock, if_neg]
      intro h
      exact (hnot leftBrace (List.mem_of_mem_head? h)).2 rfl
    | cons label labels =>
      refine ⟨space :: value, ?_, hspaceSkip⟩
      have hhead : skipBlanks (blockText (label :: labels) ++ space :: value) =
          blockText (label :: labels) ++ space :: value := by
        rw [blockText, if_neg (List.cons_ne_nil _ _), List.cons_append]
        exact skipBlanks_cons (by decide)
      rw [hhead, readBlock_blockText hnames]
  obtain ⟨s, hblock, hs⟩ := hblock
  have hall : ∀ u ∈ value, (!isBlank u) = true := by
    intro u hu
    rw [(hnot u hu).1]
    rfl
  rw [readSample, hskip, sampleText, hread]
  simp only [Option.bind_eq_bind, Option.bind_some, hblock, hs,
    List.takeWhile_eq_self_iff.mpr hall, List.dropWhile_eq_nil_iff.mpr hall, hvalue]
  rfl

/-! ## Whole texts -/

def readLine (line : JsString) : Option (List Sample) :=
  if (skipBlanks line).head?.all (· = numberSign) = true then some []
  else (readSample line).map fun sample => [sample]

def parse (text : JsString) : Option (List Sample) :=
  let lines := List.splitOn lineFeed text
  if lines.getLast? = some [] then (lines.dropLast.mapM readLine).map List.flatten else none

theorem readLine_sampleText {name value : JsString} {labels : List Label} {quantity : Quantity}
    (hname : isMetricName name = true) (hnames : ∀ l ∈ labels, isLabelName l.1 = true)
    (hvalue : readQuantity value = some quantity)
    (hprint : ∀ u ∈ value, Number.isPrinting u = true) :
    readLine (sampleText name labels value) = some [⟨name, labels, quantity⟩] := by
  have hread := readSample_sampleText hname hnames hvalue hprint
  have hhead : (skipBlanks (sampleText name labels value)).head?.all (· = numberSign) = false := by
    cases name with
    | nil => cases hname
    | cons u name =>
      have hunit := metricName_units hname u List.mem_cons_self
      have hblank : isBlank u = false := by
        rw [← Bool.not_eq_true]
        intro hblank
        simp only [isBlank, Bool.or_eq_true, beq_iff_eq] at hblank
        obtain rfl | rfl := hblank <;> exact absurd hunit (by decide)
      have hsharp : u ≠ numberSign := by
        rintro rfl
        exact absurd hunit (by decide)
      rw [sampleText, List.cons_append, skipBlanks_cons hblank]
      simp [hsharp]
  rw [readLine, if_neg (by rw [hhead]; decide), hread, Option.map_some]

theorem readLine_comment (text : JsString) : readLine (numberSign :: text) = some [] := by
  rw [readLine, skipBlanks_cons (by decide)]
  simp

theorem splitOn_lines (lines : List JsString) (h : ∀ line ∈ lines, lineFeed ∉ line) :
    List.splitOn lineFeed (lines.flatMap (· ++ [lineFeed])) = lines ++ [[]] := by
  induction lines with
  | nil => rfl
  | cons line lines ih =>
    have hline : ∀ u ∈ line, (u == lineFeed) = false := by
      intro u hu
      rw [beq_eq_false_iff_ne]
      rintro rfl
      exact h line List.mem_cons_self hu
    have hrest := ih fun l hl => h l (List.mem_cons_of_mem _ hl)
    rw [List.flatMap_cons, List.append_assoc, List.singleton_append, List.splitOn,
      List.splitOnP_append_cons_of_forall_mem hline _ (by simp)]
    exact congrArg (line :: ·) hrest

/-- Lines, none of which holds a line feed, and the samples on them. -/
inductive Reads : List JsString → List Sample → Prop
  | nil : Reads [] []
  | cons {line : JsString} {lines : List JsString} {found samples : List Sample} :
    lineFeed ∉ line → readLine line = some found → Reads lines samples →
      Reads (line :: lines) (found ++ samples)

theorem Reads.append {lines lines' : List JsString} {samples samples' : List Sample}
    (h : Reads lines samples) (h' : Reads lines' samples') :
    Reads (lines ++ lines') (samples ++ samples') := by
  induction h with
  | nil => exact h'
  | cons hbreak hread _ ih =>
    rw [List.cons_append, List.append_assoc]
    exact .cons hbreak hread ih

theorem Reads.flatMap {α : Type} {l : List α} {f : α → List JsString} {g : α → List Sample}
    (h : ∀ a ∈ l, Reads (f a) (g a)) : Reads (l.flatMap f) (l.flatMap g) := by
  induction l with
  | nil => exact .nil
  | cons a l ih =>
    rw [List.flatMap_cons, List.flatMap_cons]
    exact (h a List.mem_cons_self).append (ih fun b hb => h b (List.mem_cons_of_mem _ hb))

theorem Reads.single {line : JsString} {sample : Sample} (hbreak : lineFeed ∉ line)
    (hread : readLine line = some [sample]) : Reads [line] [sample] :=
  .cons hbreak hread .nil

theorem Reads.map {α : Type} {l : List α} {f : α → JsString} {g : α → Sample}
    (h : ∀ a ∈ l, Reads [f a] [g a]) : Reads (l.map f) (l.map g) := by
  rw [List.map_eq_flatMap, List.map_eq_flatMap]
  exact .flatMap h

theorem Reads.parse_eq {lines : List JsString} {samples : List Sample} (h : Reads lines samples) :
    parse (lines.flatMap (· ++ [lineFeed])) = some samples := by
  have hlines : (∀ line ∈ lines, lineFeed ∉ line) ∧
      (lines.mapM readLine).map List.flatten = some samples := by
    induction h with
    | nil => exact ⟨fun _ hline => absurd hline List.not_mem_nil, rfl⟩
    | cons hbreak hread _ ih =>
      obtain ⟨hbreaks, hreads⟩ := ih
      refine ⟨List.forall_mem_cons.mpr ⟨hbreak, hbreaks⟩, ?_⟩
      obtain ⟨found, hfound, rfl⟩ := Option.map_eq_some_iff.mp hreads
      rw [List.mapM_cons, hread, hfound]
      rfl
  rw [parse, splitOn_lines lines hlines.1, List.getLast?_concat, if_pos rfl,
    List.dropLast_concat, hlines.2]

theorem intercalate_lines {lines : List JsString} (h : lines ≠ []) :
    [lineFeed].intercalate lines ++ [lineFeed] = lines.flatMap (· ++ [lineFeed]) := by
  induction lines with
  | nil => exact absurd rfl h
  | cons line lines ih =>
    cases lines with
    | nil => simp
    | cons next lines =>
      rw [List.intercalate_cons_cons, List.append_assoc, List.append_assoc,
        ih (List.cons_ne_nil _ _), List.flatMap_cons]
      simp

/-! ## Written samples stay on their line -/

theorem lineFeed_not_mem_name {name : JsString} (h : isMetricName name = true) :
    lineFeed ∉ name := by
  intro hmem
  exact absurd (metricName_units h lineFeed hmem) (by decide)

theorem isMetricName_of_isLabelName {name : JsString} (h : isLabelName name = true) :
    isMetricName name = true := by
  cases name with
  | nil => cases h
  | cons u name =>
    rw [isLabelName, isName, Bool.and_eq_true, List.head?_cons, Option.any_some, List.tail_cons,
      List.all_eq_true] at h
    rw [isMetricName, isName, Bool.and_eq_true, List.head?_cons, Option.any_some, List.tail_cons,
      List.all_eq_true]
    refine ⟨by rw [isMetricFirst, h.1, Bool.true_or], fun v hv => ?_⟩
    have hv := h.2 v hv
    rw [isLabelUnit, Bool.or_eq_true] at hv
    rw [isMetricUnit, isMetricFirst]
    obtain hv | hv := hv <;> simp [hv]

theorem lineFeed_not_mem_sampleText {name value : JsString} {labels : List Label}
    (hname : isMetricName name = true) (hnames : ∀ l ∈ labels, isLabelName l.1 = true)
    (hprint : ∀ u ∈ value, Number.isPrinting u = true) :
    lineFeed ∉ sampleText name labels value := by
  have hlabels : lineFeed ∉ blockText labels := by
    intro hmem
    rw [blockText] at hmem
    split at hmem
    · cases hmem
    rw [List.mem_cons, List.mem_append, List.mem_singleton] at hmem
    obtain hmem | hmem | hmem := hmem
    · exact absurd hmem (by decide)
    · obtain hmem | ⟨piece, hpiece, hmem⟩ := mem_intercalate hmem
      · exact absurd hmem (by decide)
      obtain ⟨label, hlabel, rfl⟩ := List.mem_map.mp hpiece
      simp only [labelText, List.mem_append, List.mem_cons, List.not_mem_nil, or_false] at hmem
      obtain hmem | hmem | hmem | hmem | hmem := hmem
      · exact lineFeed_not_mem_name (isMetricName_of_isLabelName (hnames label hlabel)) hmem
      · exact absurd hmem (by decide)
      · exact absurd hmem (by decide)
      · exact lineFeed_not_mem_escape label.2 hmem
      · exact absurd hmem (by decide)
    · exact absurd hmem (by decide)
  rw [sampleText, List.mem_append, List.mem_append, List.mem_cons]
  rintro (hmem | hmem | hmem | hmem)
  · exact lineFeed_not_mem_name hname hmem
  · exact hlabels hmem
  · exact absurd hmem (by decide)
  · exact absurd (hprint _ hmem) (by decide)

theorem reads_sampleText {name value : JsString} {labels : List Label} {quantity : Quantity}
    (hname : isMetricName name = true) (hnames : ∀ l ∈ labels, isLabelName l.1 = true)
    (hvalue : readQuantity value = some quantity)
    (hprint : ∀ u ∈ value, Number.isPrinting u = true) :
    Reads [sampleText name labels value] [⟨name, labels, quantity⟩] :=
  .single (lineFeed_not_mem_sampleText hname hnames hprint)
    (readLine_sampleText hname hnames hvalue hprint)

end Daloy.Exposition
