import Daloy.Foundations.Exposition
import Daloy.Foundations.Fallible
import Daloy.Foundations.Tallies

/-! # The metrics registry

`MetricsRegistry` and its metrics, of `src/metrics.ts`.

* `LabelSet`: normalized labels. Two of them are equal when they hold the same entries.
* `touch`: what the three kinds of metrics do with the series of a label set.
* `Registry.perform`: a call of the registry or of one of its metrics. A call that throws leaves the
  registry as it was.
* `Registry.render`: the exposition.
-/

namespace Daloy.Metrics
set_option autoImplicit false

open Daloy.Unicode Daloy.Json Daloy.Tallies Daloy.Exposition

/-! ## Texts -/

inductive MetricError
  | invalidLabelName (key : JsString)
  | reservedLabelName
  | invalidMetricName (name : JsString)
  | incrementNotFinite
  | incrementNegative
  | invalidBuckets
  | observationNotFinite
  | invalidMaxSeries
  | differentType (name : JsString)
  | noHandle
  | callStack
  deriving DecidableEq

/-- The message of an error; the last two are not errors of the registry's own. -/
def MetricError.message : MetricError → JsString
  | .invalidLabelName key => js "Invalid metric label name: " ++ quote key ++ js "."
  | .reservedLabelName => js "Label name \"le\" is reserved for histogram buckets."
  | .invalidMetricName name => js "Invalid metric name: " ++ quote name ++ js "."
  | .incrementNotFinite => js "Counter increment must be a finite number."
  | .incrementNegative => js "Counter increment must be non-negative."
  | .invalidBuckets => js "Histogram buckets must be a non-empty list of finite numbers."
  | .observationNotFinite => js "Histogram observation must be a finite number."
  | .invalidMaxSeries => js "MetricsRegistry maxSeries must be a positive integer."
  | .differentType name =>
    js "Metric " ++ quote name ++ js " already registered with a different type."
  | .noHandle => []
  | .callStack => js "Maximum call stack size exceeded"

/-- `s.replace(/u/g, t)`. -/
def replaceAll (u : UInt16) (t s : JsString) : JsString := s.flatMap fun v => if v = u then t else [v]

def escapeHelp (value : JsString) : JsString :=
  replaceAll lineFeed (js "\\n") (replaceAll reverseSolidus (js "\\\\") value)

def escapeLabelValue (value : JsString) : JsString :=
  replaceAll lineFeed (js "\\n")
    (replaceAll quotation (js "\\\"") (replaceAll reverseSolidus (js "\\\\") value))

/-! ## Labels -/

inductive LabelValue
  | string (s : JsString)
  | number (x : Number)
  deriving DecidableEq

def LabelValue.text : LabelValue → JsString
  | .string s => s
  | .number x => x.text

abbrev MetricLabels := JsMap JsString LabelValue

/-- The entries of `normalizeLabels`: by distinct names, in their order, none of them reserved. -/
structure LabelSet where
  entries : List Label
  nodup : (entries.map Prod.fst).Nodup
  sorted : sortMembers entries = entries
  valid : ∀ e ∈ entries, isLabelName e.1 = true ∧ e.1 ≠ js "le"
  deriving DecidableEq

instance : EmptyCollection LabelSet :=
  ⟨⟨[], List.nodup_nil, rfl, fun _ h => absurd h List.not_mem_nil⟩⟩

theorem LabelSet.eq_of_perm {a b : LabelSet} (h : a.entries.Perm b.entries) : a = b := by
  have heq := (sortMembers_eq_iff a.nodup).mpr h
  rw [a.sorted, b.sorted] at heq
  cases a
  cases b
  simpa using heq

theorem LabelSet.eq_of_entries {a b : LabelSet} (h : a.entries = b.entries) : a = b :=
  eq_of_perm (h ▸ List.Perm.refl _)

/-- The loop of `normalizeLabels`. -/
def labelEntries : List (JsString × LabelValue) → Except MetricError (List Label)
  | [] => .ok []
  | (key, value) :: labels =>
    if isLabelName key = false then .error (.invalidLabelName key)
    else if key = js "le" then .error .reservedLabelName
    else (labelEntries labels).map ((key, value.text) :: ·)

theorem labelEntries_eq_ok {labels : List (JsString × LabelValue)} {entries : List Label} :
    labelEntries labels = .ok entries ↔
      (∀ l ∈ labels, isLabelName l.1 = true ∧ l.1 ≠ js "le") ∧
        entries = labels.map fun l => (l.1, l.2.text) := by
  induction labels generalizing entries with
  | nil =>
    simp only [labelEntries, Except.ok.injEq, List.map_nil]
    constructor
    · rintro rfl
      exact ⟨fun _ h => absurd h List.not_mem_nil, rfl⟩
    · exact fun h => h.2.symm
  | cons l labels ih =>
    obtain ⟨key, value⟩ := l
    rw [labelEntries, Fallible.check_eq_ok, Fallible.check_eq_ok, Fallible.map_eq_ok,
      List.forall_mem_cons, Bool.not_eq_false]
    constructor
    · rintro ⟨hname, hle, rest, hrest, rfl⟩
      obtain ⟨hvalid, rfl⟩ := ih.mp hrest
      exact ⟨⟨⟨hname, hle⟩, hvalid⟩, rfl⟩
    · rintro ⟨⟨⟨hname, hle⟩, hvalid⟩, rfl⟩
      exact ⟨hname, hle, _, ih.mpr ⟨hvalid, rfl⟩, rfl⟩

theorem labelEntries_names {labels : MetricLabels} {entries : List Label}
    (h : labelEntries labels.entries = .ok entries) :
    (entries.map Prod.fst).Nodup ∧ ∀ e ∈ entries, isLabelName e.1 = true ∧ e.1 ≠ js "le" := by
  obtain ⟨hvalid, rfl⟩ := labelEntries_eq_ok.mp h
  constructor
  · rw [List.map_map]
    exact labels.nodup
  · intro e he
    obtain ⟨l, hl, rfl⟩ := List.mem_map.mp he
    exact hvalid l hl

theorem perm_sortMembers {α : Type} (members : List (JsString × α)) :
    (sortMembers members).Perm members :=
  List.perm_insertionSort memberLe members

def normalizeLabels (labels : Option MetricLabels) : Except MetricError LabelSet :=
  match labels with
  | none => .ok ∅
  | some labels =>
    match h : labelEntries labels.entries with
    | .error e => .error e
    | .ok entries => .ok
      { entries := sortMembers entries
        nodup := ((perm_sortMembers entries).map _).nodup_iff.mpr (labelEntries_names h).1
        sorted := sortMembers_sortMembers entries
        valid := fun e he =>
          (labelEntries_names h).2 e ((perm_sortMembers entries).mem_iff.mp he) }

/-- `seriesKey`: the entries, each closed by separators that no name holds, but a value may. -/
def seriesKey (labels : LabelSet) : JsString :=
  labels.entries.flatMap fun e => e.1 ++ 0 :: (e.2 ++ [1])

def renderLabelBlock (entries extra : List Label) : JsString :=
  if entries ++ extra = [] then []
  else leftBrace :: ([comma].intercalate ((entries ++ extra).map fun e =>
    e.1 ++ (js "=\"" ++ (escapeLabelValue e.2 ++ js "\""))) ++ [rightBrace])

/-! ## Series -/

abbrev SeriesMap (σ : Type) := JsMap JsString (Series LabelSet σ)

/-- What the metrics have in common: the series of the label set goes on, or begins where the cap
admits it. -/
def touch {σ : Type} (maxSeries : ℕ) (series : SeriesMap σ) (labels : LabelSet)
    (apply : Option σ → σ) : Option (SeriesMap σ) :=
  match series.get? (seriesKey labels) with
  | some _ =>
    some (series.modify (seriesKey labels) fun s => { s with state := apply (some s.state) })
  | none =>
    if series.size < maxSeries then some (series.set (seriesKey labels) ⟨labels, apply none⟩)
    else none

section
variable (plus : Number → Number → Number)

/-- `existing.value += value`, and the first value of a series. -/
def added (value : Number) : Option Number → Number
  | none => value
  | some x => plus x value

def Counter.inc (maxSeries : ℕ) (series : SeriesMap Number) (labels : Option MetricLabels)
    (value : Number) : Except MetricError (Option (SeriesMap Number)) :=
  if value.isFinite = false then .error .incrementNotFinite
  else if value.isNegative = true then .error .incrementNegative
  else (normalizeLabels labels).map fun entries =>
    touch maxSeries series entries (added plus value)

def Gauge.set (maxSeries : ℕ) (series : SeriesMap Number) (labels : Option MetricLabels)
    (value : Number) : Except MetricError (Option (SeriesMap Number)) :=
  (normalizeLabels labels).map fun entries => touch maxSeries series entries fun _ => value

def Gauge.inc (maxSeries : ℕ) (series : SeriesMap Number) (labels : Option MetricLabels)
    (value : Number) : Except MetricError (Option (SeriesMap Number)) :=
  (normalizeLabels labels).map fun entries =>
    touch maxSeries series entries (added plus value)

def Gauge.dec (maxSeries : ℕ) (series : SeriesMap Number) (labels : Option MetricLabels)
    (value : Number) : Except MetricError (Option (SeriesMap Number)) :=
  Gauge.inc plus maxSeries series labels value.neg

structure HistogramState where
  counts : List ℕ
  sum : Number
  count : ℕ
  deriving DecidableEq

/-- `n += 1` of a count: the numbers above `2 ^ 53` are not all there. -/
def increment (n : ℕ) : ℕ := min (n + 1) (2 ^ 53)

/-- `a <= b`. -/
def atMost (a b : Number) : Bool := a.quantity.le b.quantity

def observed (bounds : List Number) (value : Number) (s : HistogramState) : HistogramState where
  counts := List.zipWith (fun bound n => if atMost value bound then increment n else n)
    bounds s.counts
  sum := plus s.sum value
  count := increment s.count

def HistogramState.fresh (bounds : List Number) : HistogramState :=
  ⟨List.replicate bounds.length 0, .zero false, 0⟩

def Histogram.observe (bounds : List Number) (maxSeries : ℕ) (series : SeriesMap HistogramState)
    (labels : Option MetricLabels) (value : Number) :
    Except MetricError (Option (SeriesMap HistogramState)) :=
  if value.isFinite = false then .error .observationNotFinite
  else (normalizeLabels labels).map fun entries =>
    touch maxSeries series entries fun s =>
      observed plus bounds value (s.getD (HistogramState.fresh bounds))

end

/-! ## Metrics -/

inductive Kind
  | counter | gauge | histogram
  deriving DecidableEq

inductive Metric
  | counter (name help : JsString) (series : SeriesMap Number)
  | gauge (name help : JsString) (series : SeriesMap Number)
  | histogram (name help : JsString) (bounds : List Number) (series : SeriesMap HistogramState)
  deriving DecidableEq

def Metric.kind : Metric → Kind
  | .counter .. => .counter
  | .gauge .. => .gauge
  | .histogram .. => .histogram

def headerLines (name help kind : JsString) : List JsString :=
  [js "# HELP " ++ (name ++ (js " " ++ escapeHelp help)),
    js "# TYPE " ++ (name ++ (js " " ++ kind))]

def sampleLine (name : JsString) (entries extra : List Label) (value : JsString) : JsString :=
  name ++ (renderLabelBlock entries extra ++ (js " " ++ value))

def plainLines (name : JsString) (series : SeriesMap Number) : List JsString :=
  series.values.map fun s => sampleLine name s.labels.entries [] s.state.text

def histogramLines (name : JsString) (bounds : List Number) (s : Series LabelSet HistogramState) :
    List JsString :=
  List.zipWith (fun bound n => sampleLine (name ++ js "_bucket") s.labels.entries
      [(js "le", bound.text)] (NumberText.write n)) bounds s.state.counts ++
    [sampleLine (name ++ js "_bucket") s.labels.entries [(js "le", js "+Inf")]
        (NumberText.write s.state.count),
      sampleLine (name ++ js "_sum") s.labels.entries [] s.state.sum.text,
      sampleLine (name ++ js "_count") s.labels.entries [] (NumberText.write s.state.count)]

def Metric.lines : Metric → List JsString
  | .counter name help series =>
    headerLines name help (js "counter") ++ plainLines name series
  | .gauge name help series => headerLines name help (js "gauge") ++ plainLines name series
  | .histogram name help bounds series =>
    headerLines name help (js "histogram") ++ series.values.flatMap (histogramLines name bounds)

def Metric.render (metric : Metric) : JsString := [lineFeed].intercalate metric.lines

def Metric.clear : Metric → Metric
  | .counter name help _ => .counter name help ∅
  | .gauge name help _ => .gauge name help ∅
  | .histogram name help bounds _ => .histogram name help bounds ∅

def Counter.new (name help : JsString) : Except MetricError Metric :=
  if isMetricName name = false then .error (.invalidMetricName name)
  else .ok (.counter name help ∅)

def Gauge.new (name help : JsString) : Except MetricError Metric :=
  if isMetricName name = false then .error (.invalidMetricName name)
  else .ok (.gauge name help ∅)

/-- The number that buckets are sorted by; one that is not finite is refused anyway. -/
def rational (x : Number) : ℚ :=
  match x.quantity with
  | .finite q => q
  | _ => 0

def bucketLe (a b : Number) : Prop := rational a ≤ rational b

instance (a b : Number) : Decidable (bucketLe a b) :=
  inferInstanceAs (Decidable (rational a ≤ rational b))

instance : Std.Total bucketLe := ⟨fun a b => le_total (rational a) (rational b)⟩
instance : IsTrans Number bucketLe := ⟨fun _ _ _ => le_trans⟩

/-- `[...new Set(buckets)].sort((a, b) => a - b)`. -/
def sortedBuckets (buckets : List Number) : List Number :=
  (buckets.map Number.normal).dedup.insertionSort bucketLe

def Histogram.new (name help : JsString) (buckets : List Number) : Except MetricError Metric :=
  if isMetricName name = false then .error (.invalidMetricName name)
  else if sortedBuckets buckets = [] ∨ (sortedBuckets buckets).any (fun b => !b.isFinite) = true then
    .error .invalidBuckets
  else .ok (.histogram name help (sortedBuckets buckets) ∅)

def defaultDurationBuckets : List Number :=
  [.ofDigits [5] (-2), .ofDigits [1] (-1), .ofDigits [2, 5] (-1), .ofDigits [5] (-1),
    .ofDigits [1] 0, .ofDigits [2, 5] 0, .ofDigits [5] 0, .ofDigits [1] 1, .ofDigits [2, 5] 1,
    .ofDigits [5] 1, .ofDigits [1] 2]

/-! ## The registry -/

/-- What `MetricsRegistry` holds; the drop counter by its name. -/
structure Registry where
  namePrefix : JsString
  maxSeries : ℕ
  metrics : JsMap JsString Metric
  droppedCounter : Option JsString
  deriving DecidableEq

def Registry.getOrCreate (r : Registry) (name : JsString) (make : Except MetricError Metric)
    (kind : Kind) : Except MetricError Registry :=
  match r.metrics.get? name with
  | some existing => if existing.kind ≠ kind then .error (.differentType name) else .ok r
  | none => make.map fun metric => { r with metrics := r.metrics.set name metric }

def Registry.counter (r : Registry) (name : JsString) (help : Option JsString) :
    Except MetricError Registry :=
  r.getOrCreate name (Counter.new (r.namePrefix ++ name) (help.getD name)) .counter

def Registry.gauge (r : Registry) (name : JsString) (help : Option JsString) :
    Except MetricError Registry :=
  r.getOrCreate name (Gauge.new (r.namePrefix ++ name) (help.getD name)) .gauge

def Registry.histogram (r : Registry) (name : JsString) (help : Option JsString)
    (buckets : Option (List Number)) : Except MetricError Registry :=
  r.getOrCreate name (Histogram.new (r.namePrefix ++ name) (help.getD name)
    (buckets.getD defaultDurationBuckets)) .histogram

/-- A call of the registry, or of the metric that it holds under a name. -/
inductive Call
  | counter (name : JsString) (help : Option JsString)
  | gauge (name : JsString) (help : Option JsString)
  | histogram (name : JsString) (help : Option JsString) (buckets : Option (List Number))
  | counterInc (name : JsString) (labels : Option MetricLabels) (value : Number)
  | gaugeSet (name : JsString) (labels : Option MetricLabels) (value : Number)
  | gaugeInc (name : JsString) (labels : Option MetricLabels) (value : Number)
  | gaugeDec (name : JsString) (labels : Option MetricLabels) (value : Number)
  | observe (name : JsString) (labels : Option MetricLabels) (value : Number)
  | reset
  deriving DecidableEq

/-- `1`. -/
def one : Number := .ofDigits [1] 1

section
variable (plus : Number → Number → Number)

/-- A series that the cap does not admit is counted. The counter of the dropped series admits its
own series in the same way, and where the cap is reached there it calls itself without an end. -/
def Registry.countDropped (r : Registry) : Except MetricError Registry :=
  match r.droppedCounter.bind fun name => (r.metrics.get? name).map fun metric => (name, metric) with
  | some (name, .counter full help series) =>
    match touch r.maxSeries series ∅ (added plus one) with
    | some series => .ok { r with metrics := r.metrics.set name (.counter full help series) }
    | none => .error .callStack
  | _ => .ok r

def Registry.store {σ : Type} (r : Registry) (name : JsString) (make : SeriesMap σ → Metric)
    (series : Except MetricError (Option (SeriesMap σ))) : Except MetricError Registry :=
  match series with
  | .error e => .error e
  | .ok none => r.countDropped plus
  | .ok (some series) => .ok { r with metrics := r.metrics.set name (make series) }

def Registry.perform (r : Registry) : Call → Except MetricError Registry
  | .counter name help => r.counter name help
  | .gauge name help => r.gauge name help
  | .histogram name help buckets => r.histogram name help buckets
  | .counterInc name labels value =>
    match r.metrics.get? name with
    | some (.counter full help series) =>
      r.store plus name (.counter full help) (Counter.inc plus r.maxSeries series labels value)
    | _ => .error .noHandle
  | .gaugeSet name labels value =>
    match r.metrics.get? name with
    | some (.gauge full help series) =>
      r.store plus name (.gauge full help) (Gauge.set r.maxSeries series labels value)
    | _ => .error .noHandle
  | .gaugeInc name labels value =>
    match r.metrics.get? name with
    | some (.gauge full help series) =>
      r.store plus name (.gauge full help) (Gauge.inc plus r.maxSeries series labels value)
    | _ => .error .noHandle
  | .gaugeDec name labels value =>
    match r.metrics.get? name with
    | some (.gauge full help series) =>
      r.store plus name (.gauge full help) (Gauge.dec plus r.maxSeries series labels value)
    | _ => .error .noHandle
  | .observe name labels value =>
    match r.metrics.get? name with
    | some (.histogram full help bounds series) =>
      r.store plus name (.histogram full help bounds)
        (Histogram.observe plus bounds r.maxSeries series labels value)
    | _ => .error .noHandle
  | .reset => .ok { r with metrics := r.metrics.mapValues Metric.clear }

def Registry.after (r : Registry) (call : Call) : Registry :=
  match r.perform plus call with
  | .error _ => r
  | .ok r => r

def Registry.run (r : Registry) (calls : List Call) : Registry := calls.foldl (Registry.after plus) r

/-- `registry.render()`, where the collectors make these calls. -/
def Registry.render (r : Registry) (collected : List Call) : JsString :=
  [lineFeed].intercalate ((r.run plus collected).metrics.values.map Metric.render) ++ [lineFeed]

end

/-! ## A new registry -/

structure MetricsRegistryOptions where
  namePrefix : Option JsString
  maxSeries : Option Quantity
  collectDefaultMetrics : Option Bool

/-- `Number.isInteger(x) && x > 0`. -/
def isPositiveInteger : Quantity → Bool
  | .finite q => q.den = 1 ∧ 0 < q
  | _ => false

def seriesCap (opts : MetricsRegistryOptions) : ℕ :=
  match opts.maxSeries.getD (.finite 5000) with
  | .finite q => q.num.toNat
  | _ => 0

def droppedName (namePrefix : JsString) : JsString :=
  if namePrefix = [] then js "daloy_metrics_series_dropped_total"
  else js "metrics_series_dropped_total"

def droppedHelp : JsString := js "Series dropped after hitting the per-metric cardinality cap."

def registerDefaultMetrics (r : Registry) (hasProcess : Bool) : Except MetricError Registry := do
  let dropped := droppedName r.namePrefix
  let r ← r.counter dropped (some droppedHelp)
  let r := { r with droppedCounter := some dropped }
  if hasProcess then
    let r ← r.gauge (js "process_resident_memory_bytes")
      (some (js "Resident memory size in bytes."))
    let r ← r.gauge (js "process_heap_used_bytes") (some (js "Node.js heap used in bytes."))
    r.gauge (js "process_uptime_seconds") (some (js "Process uptime in seconds."))
  else .ok r

def Registry.new (opts : MetricsRegistryOptions) (hasProcess : Bool) :
    Except MetricError Registry :=
  if isPositiveInteger (opts.maxSeries.getD (.finite 5000)) = false then .error .invalidMaxSeries
  else
    if opts.collectDefaultMetrics ≠ some false then
      registerDefaultMetrics ⟨opts.namePrefix.getD [], seriesCap opts, ∅, none⟩ hasProcess
    else .ok ⟨opts.namePrefix.getD [], seriesCap opts, ∅, none⟩

end Daloy.Metrics
