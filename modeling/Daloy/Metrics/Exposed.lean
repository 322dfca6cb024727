import Daloy.Metrics.Refinement

/-! # What the exposition says

* `Account.samples`: what an account has to show, one sample for each label set, or the buckets, the
  sum and the count of a histogram.
* `Metric.samples`: what the metric that keeps the account shows. `parse_metrics`: it is what the
  text of the registry is read as.
-/

namespace Daloy.Metrics
set_option autoImplicit false

open Daloy.Unicode Daloy.Json Daloy.Tallies Daloy.Exposition

/-! ## Samples -/

def bucketLabel (bound : JsString) : Label := (js "le", bound)

def plainSample (name : JsString) (s : Series LabelSet Number) : Sample :=
  ⟨name, s.labels.entries, s.state.quantity⟩

def histogramSamples (name : JsString) (labels : LabelSet) (bounds : List Number)
    (counts : List ℕ) (sum : Number) (count : ℕ) : List Sample :=
  List.zipWith (fun bound (n : ℕ) =>
      ⟨name ++ js "_bucket", labels.entries ++ [bucketLabel bound.text], .finite n⟩) bounds counts ++
    [⟨name ++ js "_bucket", labels.entries ++ [bucketLabel (js "+Inf")], .finite count⟩,
      ⟨name ++ js "_sum", labels.entries, sum.quantity⟩,
      ⟨name ++ js "_count", labels.entries, .finite count⟩]

def keptSamples (name : JsString) (bounds : List Number) (s : Series LabelSet HistogramState) :
    List Sample :=
  histogramSamples name s.labels bounds s.state.counts s.state.sum s.state.count

def Metric.samples : Metric → List Sample
  | .counter name _ series => series.values.map (plainSample name)
  | .gauge name _ series => series.values.map (plainSample name)
  | .histogram name _ bounds series => series.values.flatMap (keptSamples name bounds)

def gathered (s : Option (List Number)) (value : Number) : List Number := s.getD [] ++ [value]

def notAbove (bound : Number) (observations : List Number) : ℕ :=
  observations.countP fun value => atMost value bound

section
variable (plus : Number → Number → Number)

def total (observations : List Number) : Number := observations.foldl plus (.zero false)

def observedSamples (name : JsString) (bounds : List Number) (s : Series LabelSet (List Number)) :
    List Sample :=
  histogramSamples name s.labels bounds (bounds.map fun b => notAbove b s.state)
    (total plus s.state) s.state.length

def Account.samples (a : Account) : List Sample :=
  match a.book with
  | .counter history => (series (summed plus) history).map (plainSample a.name)
  | .gauge history => (series (changed plus) history).map (plainSample a.name)
  | .histogram bounds history =>
    (series gathered history).flatMap (observedSamples plus a.name bounds)

def Ledger.samples (l : Ledger) : List Sample := l.accounts.values.flatMap (Account.samples plus)

end

/-! ## Reading the lines of a metric -/

theorem replaceAll_flatMap (u : UInt16) (t s : JsString) (f : UInt16 → JsString) :
    replaceAll u t (s.flatMap f) = s.flatMap fun v => replaceAll u t (f v) := by
  rw [replaceAll, List.flatMap_assoc]
  rfl

theorem escapeLabelValue_eq (value : JsString) :
    escapeLabelValue value = value.flatMap escapeUnit := by
  have hunits : ∀ u, replaceAll lineFeed (js "\\n") (replaceAll quotation (js "\\\"")
      (if u = reverseSolidus then js "\\\\" else [u])) = escapeUnit u := by
    intro u
    rw [escapeUnit]
    split
    · decide
    · next hslash =>
      by_cases hquote : u = quotation
      · rw [if_pos hquote, hquote]
        decide
      · rw [if_neg hquote]
        by_cases hline : u = lineFeed
        · rw [if_pos hline, hline]
          decide
        · rw [if_neg hline]
          simp [replaceAll, hquote, hline]
  have hfirst : replaceAll reverseSolidus (js "\\\\") value =
      value.flatMap fun u => if u = reverseSolidus then js "\\\\" else [u] := rfl
  rw [escapeLabelValue, hfirst, replaceAll_flatMap, replaceAll_flatMap]
  exact List.flatMap_congr fun u _ => hunits u

theorem renderLabelBlock_eq (entries extra : List Label) :
    renderLabelBlock entries extra = blockText (entries ++ extra) := by
  have hlabel : ∀ e : Label, e.1 ++ (js "=\"" ++ (escapeLabelValue e.2 ++ js "\"")) =
      labelText e := by
    intro e
    rw [escapeLabelValue_eq]
    rfl
  rw [renderLabelBlock, blockText]
  simp only [hlabel]

theorem sampleLine_eq (name : JsString) (entries extra : List Label) (value : JsString) :
    sampleLine name entries extra value = sampleText name (entries ++ extra) value := by
  rw [sampleLine, renderLabelBlock_eq]
  rfl

theorem lineFeed_not_mem_escapeHelp (help : JsString) : lineFeed ∉ escapeHelp help := by
  rw [escapeHelp, replaceAll, List.mem_flatMap]
  rintro ⟨u, -, hu⟩
  split at hu
  · exact absurd hu (by decide)
  · next hne => exact hne (List.mem_singleton.mp hu).symm

theorem isMetricName_append {name suffix : JsString} (hname : isMetricName name = true)
    (hsuffix : suffix.all isMetricUnit = true) : isMetricName (name ++ suffix) = true := by
  cases name with
  | nil => cases hname
  | cons u name =>
    rw [isMetricName, isName, List.head?_cons, Option.any_some, List.tail_cons,
      Bool.and_eq_true] at hname
    rw [List.cons_append, isMetricName, isName, List.head?_cons, Option.any_some, List.tail_cons,
      List.all_append, hname.1, hname.2, hsuffix]
    rfl

theorem reads_headerLines {name : JsString} (hname : isMetricName name = true)
    (help kind : JsString) (hkind : lineFeed ∉ kind) : Reads (headerLines name help kind) [] := by
  have hhelp : lineFeed ∉ js "# HELP " ++ (name ++ (js " " ++ escapeHelp help)) := by
    simp only [List.mem_append]
    rintro (hmem | hmem | hmem | hmem)
    · exact absurd hmem (by decide)
    · exact lineFeed_not_mem_name hname hmem
    · exact absurd hmem (by decide)
    · exact lineFeed_not_mem_escapeHelp help hmem
  have htype : lineFeed ∉ js "# TYPE " ++ (name ++ (js " " ++ kind)) := by
    simp only [List.mem_append]
    rintro (hmem | hmem | hmem | hmem)
    · exact absurd hmem (by decide)
    · exact lineFeed_not_mem_name hname hmem
    · exact absurd hmem (by decide)
    · exact hkind hmem
  exact .cons hhelp (readLine_comment _) (.cons htype (readLine_comment _) .nil)

theorem reads_sampleLine {name value : JsString} {labels : LabelSet} {extra : List Label}
    {quantity : Quantity} (hname : isMetricName name = true)
    (hextra : ∀ l ∈ extra, isLabelName l.1 = true) (hvalue : readQuantity value = some quantity)
    (hprint : ∀ u ∈ value, Number.isPrinting u = true) :
    Reads [sampleLine name labels.entries extra value]
      [⟨name, labels.entries ++ extra, quantity⟩] := by
  rw [sampleLine_eq]
  refine reads_sampleText hname (fun l hl => ?_) hvalue hprint
  obtain hl | hl := List.mem_append.mp hl
  · exact (labels.valid l hl).1
  · exact hextra l hl

theorem reads_plainLines {name : JsString} (hname : isMetricName name = true)
    (series : SeriesMap Number) :
    Reads (plainLines name series) (series.values.map (plainSample name)) := by
  refine .map fun s _ => ?_
  have hline := @reads_sampleLine name _ s.labels [] _ hname
    (fun _ h => absurd h List.not_mem_nil) (readQuantity_text s.state) s.state.text_printing
  rw [List.append_nil] at hline
  exact hline

theorem reads_histogramLines {name : JsString} (hname : isMetricName name = true)
    (bounds : List Number) (s : Series LabelSet HistogramState) :
    Reads (histogramLines name bounds s) (keptSamples name bounds s) := by
  have hbucket := isMetricName_append hname (show (js "_bucket").all isMetricUnit = true by decide)
  have hsum := isMetricName_append hname (show (js "_sum").all isMetricUnit = true by decide)
  have hcount := isMetricName_append hname (show (js "_count").all isMetricUnit = true by decide)
  have hle : ∀ bound, ∀ l ∈ [bucketLabel bound], isLabelName l.1 = true := by
    intro bound l hl
    obtain rfl := List.mem_singleton.mp hl
    show isLabelName (js "le") = true
    decide
  have hbuckets : ∀ counts : List ℕ, Reads
      (List.zipWith (fun bound n => sampleLine (name ++ js "_bucket") s.labels.entries
        [(js "le", bound.text)] (NumberText.write n)) bounds counts)
      (List.zipWith (fun bound (n : ℕ) => (⟨name ++ js "_bucket",
        s.labels.entries ++ [bucketLabel bound.text], .finite n⟩ : Sample)) bounds counts) := by
    induction bounds with
    | nil => exact fun _ => .nil
    | cons bound bounds ih =>
      intro counts
      cases counts with
      | nil => exact .nil
      | cons n counts =>
        exact (reads_sampleLine hbucket (hle bound.text) (readQuantity_write n)
          (Number.write_printing n)).append (ih counts)
  have hinfinite := @reads_sampleLine _ _ s.labels _ _ hbucket (hle (js "+Inf"))
    (readQuantity_write s.state.count) (Number.write_printing _)
  have htotal := @reads_sampleLine _ _ s.labels [] _ hsum (fun _ h => absurd h List.not_mem_nil)
    (readQuantity_text s.state.sum) s.state.sum.text_printing
  have hnumber := @reads_sampleLine _ _ s.labels [] _ hcount
    (fun _ h => absurd h List.not_mem_nil) (readQuantity_write s.state.count)
    (Number.write_printing _)
  rw [List.append_nil] at htotal hnumber
  exact (hbuckets s.state.counts).append (hinfinite.append (htotal.append hnumber))

def Metric.name : Metric → JsString
  | .counter name _ _ => name
  | .gauge name _ _ => name
  | .histogram name _ _ _ => name

theorem reads_lines (metric : Metric) (hname : isMetricName metric.name = true) :
    Reads metric.lines metric.samples := by
  cases metric with
  | counter name help series =>
    exact (reads_headerLines hname help _ (by decide)).append (reads_plainLines hname series)
  | gauge name help series =>
    exact (reads_headerLines hname help _ (by decide)).append (reads_plainLines hname series)
  | histogram name help bounds series =>
    exact (reads_headerLines hname help _ (by decide)).append
      (.flatMap fun s _ => reads_histogramLines hname bounds s)

theorem lines_ne_nil (metric : Metric) : metric.lines ≠ [] := by
  cases metric <;> simp [Metric.lines, headerLines]

theorem parse_metrics {metrics : List Metric}
    (hnames : ∀ metric ∈ metrics, isMetricName metric.name = true) :
    parse ([lineFeed].intercalate (metrics.map Metric.render) ++ [lineFeed]) =
      some (metrics.flatMap Metric.samples) := by
  cases metrics with
  | nil =>
    have hempty : Reads [[]] [] := .cons List.not_mem_nil rfl .nil
    exact hempty.parse_eq
  | cons metric metrics =>
    have hreads : Reads ((metric :: metrics).flatMap Metric.lines)
        ((metric :: metrics).flatMap Metric.samples) :=
      .flatMap fun m hm => reads_lines m (hnames m hm)
    have htext : [lineFeed].intercalate ((metric :: metrics).map Metric.render) ++ [lineFeed] =
        ((metric :: metrics).flatMap Metric.lines).flatMap (· ++ [lineFeed]) := by
      rw [intercalate_lines (by simp), List.flatMap_map, List.flatMap_assoc]
      exact List.flatMap_congr fun m _ => intercalate_lines (lines_ne_nil m)
    rw [htext, hreads.parse_eq]

end Daloy.Metrics
