import Daloy.Foundations.DoubleArithmetic
import Daloy.Foundations.Groups
import Daloy.Foundations.Tallies
import Daloy.Otlp.LogRecords

/-! # Metric series

The data of `createOtlpMetricsExporter`, of `src/otlp.ts`: what a counter and a histogram hold, and
the payload that is made of them. Times are in milliseconds.

* `seriesKey`: the key of a series, its name and attributes in one text.
* `metricsPayload`: the payload; `Payload.sums` and `Payload.histograms` are its data points.
* `Exact`: what the payload is for, by the calls so far.
-/

namespace Daloy.Otlp
set_option autoImplicit false

open Daloy.Json Daloy.Tallies Daloy.Text Daloy.Unicode

def metricsMaxAttrLength : ℕ := 256

/-- The metric name and the attributes, sorted by key, of a series. -/
structure SeriesId where
  name : JsString
  attributes : List OtlpAttr
  deriving DecidableEq

def seriesKey (id : SeriesId) : JsString :=
  id.attributes.foldl (fun key a => key ++ js "|" ++ a.key ++ js "=" ++ a.stringValue) id.name

def sortedEntries (attributes : JsMap JsString JsString) : List OtlpAttr :=
  (sortMembers ((attributes.map fun v => truncate v metricsMaxAttrLength).entries)).map
    fun e => ⟨e.1, e.2⟩

/-! ## States -/

/-- `(BigInt(ms) * 1_000_000n).toString()`. -/
def unixNano (ms : ℤ) : JsString := integerText (ms * 1000000)

structure CounterState where
  total : Quantity
  startTimeUnixNano : JsString
  deriving DecidableEq

structure HistogramState where
  unit : JsString
  boundaries : List Quantity
  count : ℕ
  sum : Quantity
  bucketCounts : List ℕ
  startTimeUnixNano : JsString
  deriving DecidableEq

/-- A value that `count` accepts. -/
structure Increment where
  value : Quantity
  nowMs : ℤ

/-- A value that `record` accepts. -/
structure Observation where
  value : Quantity
  unit : JsString
  boundaries : List Quantity
  nowMs : ℤ

def counted (s : Option CounterState) (c : Increment) : CounterState :=
  let s := s.getD { total := .int 0, startTimeUnixNano := unixNano c.nowMs }
  { s with total := s.total.add c.value }

def bucketOf (boundaries : List Quantity) (value : Quantity) : ℕ :=
  boundaries.findIdx fun bound => value.le bound

def observed (h : Option HistogramState) (o : Observation) : HistogramState :=
  let h := h.getD
    { unit := o.unit
      boundaries := o.boundaries
      count := 0
      sum := .int 0
      bucketCounts := List.replicate (o.boundaries.length + 1) 0
      startTimeUnixNano := unixNano o.nowMs }
  { h with
    count := h.count + 1
    sum := h.sum.add o.value
    bucketCounts := h.bucketCounts.modify (bucketOf h.boundaries o.value) (· + 1) }

abbrev Counters := JsMap JsString (Series SeriesId CounterState)
abbrev Histograms := JsMap JsString (Series SeriesId HistogramState)

/-! ## Payloads -/

/-- What JSON keeps of a number: `null` stands for what is not finite. -/
def jsonNumber : Quantity → Option Quantity
  | .finite x => some (.finite x)
  | .nan | .infinity _ => none

structure SumPoint where
  attributes : List OtlpAttr
  startTimeUnixNano : JsString
  timeUnixNano : JsString
  asDouble : Option Quantity

structure HistogramPoint where
  attributes : List OtlpAttr
  startTimeUnixNano : JsString
  timeUnixNano : JsString
  count : JsString
  sum : Option Quantity
  bucketCounts : List JsString
  explicitBounds : List (Option Quantity)

inductive Metric
  | sum (name : JsString) (dataPoints : List SumPoint)
  | histogram (name unit : JsString) (dataPoints : List HistogramPoint)

structure Payload where
  resourceAttributes : List OtlpAttr
  metrics : List Metric

def sumPoint (now : JsString) (s : Series SeriesId CounterState) : SumPoint where
  attributes := s.labels.attributes
  startTimeUnixNano := s.state.startTimeUnixNano
  timeUnixNano := now
  asDouble := jsonNumber s.state.total

def histogramPoint (now : JsString) (h : Series SeriesId HistogramState) : HistogramPoint where
  attributes := h.labels.attributes
  startTimeUnixNano := h.state.startTimeUnixNano
  timeUnixNano := now
  count := integerText h.state.count
  sum := jsonNumber h.state.sum
  bucketCounts := h.state.bucketCounts.map fun n => integerText n
  explicitBounds := h.state.boundaries.map jsonNumber

def groupUnit (group : List (Series SeriesId HistogramState)) : JsString :=
  (group.head?.map fun h => h.state.unit).getD []

def metricsPayload (resourceAttributes : List OtlpAttr) (nowMs : ℤ) (counters : Counters)
    (histograms : Histograms) : Payload :=
  let now := unixNano nowMs
  let sumsByName := JsMap.group (fun s => s.labels.name) counters.values
  let histsByName := JsMap.group (fun h => h.labels.name) histograms.values
  { resourceAttributes
    metrics :=
      (sumsByName.entries.map fun e => .sum e.1 (e.2.map (sumPoint now))) ++
      histsByName.entries.map fun e => .histogram e.1 (groupUnit e.2) (e.2.map (histogramPoint now)) }

def Metric.sums : Metric → List (SeriesId × SumPoint)
  | .sum name dataPoints => dataPoints.map fun p => (⟨name, p.attributes⟩, p)
  | .histogram .. => []

def Metric.histograms : Metric → List (SeriesId × JsString × HistogramPoint)
  | .sum .. => []
  | .histogram name unit dataPoints => dataPoints.map fun p => (⟨name, p.attributes⟩, unit, p)

def Payload.sums (p : Payload) : List (SeriesId × SumPoint) := p.metrics.flatMap Metric.sums

def Payload.histograms (p : Payload) : List (SeriesId × JsString × HistogramPoint) :=
  p.metrics.flatMap Metric.histograms

/-! ## The data points -/

section Points

variable (resource : List OtlpAttr) (nowMs : ℤ) (counters : Counters) (histograms : Histograms)

theorem sums_metricsPayload :
    (metricsPayload resource nowMs counters histograms).sums.Perm
      (counters.values.map fun s => (s.labels, sumPoint (unixNano nowMs) s)) := by
  have hnone : ∀ entries : List (JsString × List (Series SeriesId HistogramState)),
      (entries.map fun e => Metric.histogram e.1 (groupUnit e.2)
        (e.2.map (histogramPoint (unixNano nowMs)))).flatMap Metric.sums = [] := by
    intro entries
    rw [List.flatMap_eq_nil_iff]
    intro metric hmetric
    obtain ⟨e, -, rfl⟩ := List.mem_map.mp hmetric
    rfl
  rw [Payload.sums, metricsPayload, List.flatMap_append, hnone, List.append_nil, List.flatMap_map]
  simp only [Metric.sums, List.map_map]
  refine JsMap.flatMap_group _ _ fun e he s hs => ?_
  rw [Function.comp_apply, ← (JsMap.mem_group _ he).2 s hs]
  rfl

def unitOf (name : JsString) : JsString :=
  groupUnit (histograms.values.filter fun h => h.labels.name = name)

theorem histograms_metricsPayload :
    (metricsPayload resource nowMs counters histograms).histograms.Perm
      (histograms.values.map fun h =>
        (h.labels, unitOf histograms h.labels.name, histogramPoint (unixNano nowMs) h)) := by
  have hnone : ∀ entries : List (JsString × List (Series SeriesId CounterState)),
      (entries.map fun e => Metric.sum e.1 (e.2.map (sumPoint (unixNano nowMs)))).flatMap
        Metric.histograms = [] := by
    intro entries
    rw [List.flatMap_eq_nil_iff]
    intro metric hmetric
    obtain ⟨e, -, rfl⟩ := List.mem_map.mp hmetric
    rfl
  rw [Payload.histograms, metricsPayload, List.flatMap_append, hnone, List.nil_append,
    List.flatMap_map]
  simp only [Metric.histograms, List.map_map]
  refine JsMap.flatMap_group _ _ fun e he h hh => ?_
  have hgroup : histograms.values.filter (fun h => h.labels.name = e.1) = e.2 := by
    have hget := JsMap.get?_eq_some.mpr he
    rw [JsMap.get?_group] at hget
    split at hget
    · simp at hget
    · exact Option.some.inj hget
  rw [Function.comp_apply, (JsMap.mem_group _ he).2 h hh, unitOf, hgroup,
    ← (JsMap.mem_group _ he).2 h hh]
  rfl

variable {histograms}

theorem unitOf_eq {h : Series SeriesId HistogramState} (hmem : h ∈ histograms.values) :
    ∃ h' ∈ histograms.values, h'.labels.name = h.labels.name ∧
      unitOf histograms h.labels.name = h'.state.unit := by
  have hne : h ∈ histograms.values.filter fun h' => h'.labels.name = h.labels.name :=
    List.mem_filter.mpr ⟨hmem, by simp⟩
  rw [unitOf, groupUnit]
  cases hfilter : histograms.values.filter fun h' => h'.labels.name = h.labels.name with
  | nil =>
    rw [hfilter] at hne
    exact absurd hne List.not_mem_nil
  | cons first rest =>
    have hfirst : first ∈ histograms.values.filter fun h' => h'.labels.name = h.labels.name := by
      rw [hfilter]
      exact List.mem_cons_self
    obtain ⟨hfirst, hname⟩ := List.mem_filter.mp hfirst
    exact ⟨first, hfirst, by simpa using hname, rfl⟩

end Points

/-! ## States after many values -/

def sumOf (values : List Quantity) : Quantity := values.foldl Quantity.add (.int 0)

theorem sumOf_append (values : List Quantity) (value : Quantity) :
    sumOf (values ++ [value]) = (sumOf values).add value := by
  rw [sumOf, List.foldl_append]
  rfl

theorem outcome_counted (c : Increment) (rest : List Increment) :
    outcome counted (c :: rest) =
      some ⟨sumOf ((c :: rest).map Increment.value), unixNano c.nowMs⟩ := by
  induction rest using List.reverseRecOn with
  | nil => rfl
  | append_singleton rest d ih =>
    rw [← List.cons_append, outcome_append, ih, counted, List.map_append, List.map_singleton,
      sumOf_append]
    rfl

def bucketCounts (boundaries values : List Quantity) : List ℕ :=
  (List.range (boundaries.length + 1)).map fun i => values.countP fun v => bucketOf boundaries v = i

theorem bucketCounts_append (boundaries values : List Quantity) (value : Quantity) :
    bucketCounts boundaries (values ++ [value]) =
      (bucketCounts boundaries values).modify (bucketOf boundaries value) (· + 1) := by
  refine List.ext_getElem? fun i => ?_
  rw [List.getElem?_modify, bucketCounts, bucketCounts, List.getElem?_map, List.getElem?_map]
  by_cases hi : i < boundaries.length + 1
  · rw [List.getElem?_range hi]
    by_cases hbucket : bucketOf boundaries value = i
    · simp [hbucket]
    · simp [hbucket]
  · rw [List.getElem?_eq_none (by simpa using hi)]
    rfl

theorem outcome_observed {unit : JsString} {boundaries : List Quantity} (o : Observation)
    (rest : List Observation)
    (hsame : ∀ p ∈ o :: rest, p.unit = unit ∧ p.boundaries = boundaries) :
    outcome observed (o :: rest) =
      some
        { unit
          boundaries
          count := (o :: rest).length
          sum := sumOf ((o :: rest).map Observation.value)
          bucketCounts := bucketCounts boundaries ((o :: rest).map Observation.value)
          startTimeUnixNano := unixNano o.nowMs } := by
  have hempty : bucketCounts boundaries [] = List.replicate (boundaries.length + 1) 0 := by
    rw [bucketCounts]
    simp
  obtain ⟨rfl, rfl⟩ := hsame o List.mem_cons_self
  induction rest using List.reverseRecOn with
  | nil =>
    have hone := bucketCounts_append o.boundaries [] o.value
    rw [List.nil_append, hempty] at hone
    rw [List.map_singleton, hone]
    rfl
  | append_singleton rest p ih =>
    rw [← List.cons_append, outcome_append,
      ih fun q hq => hsame q (by rw [← List.cons_append]; exact List.mem_append_left _ hq), observed,
      List.map_append, List.map_singleton, sumOf_append, bucketCounts_append, List.length_append]
    rfl

/-! ## Exact payloads -/

section Exact

variable (increments : List (SeriesId × Increment)) (observations : List (SeriesId × Observation))

def totalOf (id : SeriesId) : Quantity :=
  sumOf ((changesOf (fun i => i = id) increments).map Increment.value)

def valuesOf (id : SeriesId) : List Quantity :=
  (changesOf (fun i => i = id) observations).map Observation.value

/-- **One data point for every series, with the sum of the values of a counter, or with the count,
sum and bucket counts of the values of a histogram.** -/
structure Exact (payload : Payload) : Prop where
  sums_nodup : (payload.sums.map Prod.fst).Nodup
  mem_sums : ∀ id, id ∈ payload.sums.map Prod.fst ↔ id ∈ increments.map Prod.fst
  total : ∀ p ∈ payload.sums, p.2.asDouble = some (totalOf increments p.1)
  histograms_nodup : (payload.histograms.map Prod.fst).Nodup
  mem_histograms : ∀ id, id ∈ payload.histograms.map Prod.fst ↔ id ∈ observations.map Prod.fst
  observed : ∀ p ∈ payload.histograms, ∀ o, (p.1, o) ∈ observations →
    p.2.1 = o.unit ∧ p.2.2.explicitBounds = o.boundaries.map jsonNumber ∧
      p.2.2.count = integerText (valuesOf observations p.1).length ∧
      p.2.2.sum = some (sumOf (valuesOf observations p.1)) ∧
      p.2.2.bucketCounts =
        (bucketCounts o.boundaries (valuesOf observations p.1)).map fun n => integerText n

/-- Different series have different keys, and no sum exceeds the largest double. -/
structure Told : Prop where
  counters : KeysApart seriesKey increments
  histograms : KeysApart seriesKey observations
  totals : ∀ id ∈ increments.map Prod.fst, jsonNumber (totalOf increments id) ≠ none
  sums : ∀ id ∈ observations.map Prod.fst,
    jsonNumber (sumOf (valuesOf observations id)) ≠ none

def OneOptions : Prop :=
  ∀ e ∈ observations, ∀ e' ∈ observations, e.1.name = e'.1.name →
    e.2.unit = e'.2.unit ∧ e.2.boundaries = e'.2.boundaries

instance : Decidable (OneOptions observations) :=
  inferInstanceAs (Decidable (∀ e ∈ observations, ∀ e' ∈ observations, _ → _))

end Exact

theorem jsonNumber_eq {q q' : Quantity} : jsonNumber q = some q' ↔ jsonNumber q ≠ none ∧ q = q' := by
  cases q <;> simp [jsonNumber]

section Labels

variable {α σ : Type} {apply : Option σ → α → σ} {history : List (SeriesId × α)}

theorem keysApart_iff {ids : List SeriesId}
    (hperm : ids.Perm ((tally apply seriesKey history).values.map Series.labels)) :
    (ids.Nodup ∧ ∀ id, id ∈ ids ↔ id ∈ history.map Prod.fst) ↔ KeysApart seriesKey history := by
  have hsame : (ids.Nodup ∧ ∀ id, id ∈ ids ↔ id ∈ history.map Prod.fst) ↔
      ids.Perm (labelsOf history) := by
    constructor
    · intro h
      refine (List.perm_ext_iff_of_nodup h.1 (List.nodup_dedup _)).mpr fun id => ?_
      rw [h.2 id, List.mem_dedup]
    · intro h
      refine ⟨h.nodup_iff.mpr (List.nodup_dedup _), fun id => ?_⟩
      rw [h.mem_iff, mem_labelsOf]
  rw [hsame]
  constructor
  · intro h
    by_contra hmixed
    have hlt := length_values_tally_lt apply seriesKey hmixed
    have hlen := h.length_eq
    rw [hperm.length_eq, List.length_map] at hlen
    omega
  · intro h
    refine hperm.trans ?_
    rw [← labels_series apply history]
    exact (values_tally_perm h).map Series.labels

theorem state_of_mem (hapart : KeysApart seriesKey history) {s : Series SeriesId σ}
    (hmem : s ∈ (tally apply seriesKey history).values) :
    ∃ a rest, changesOf (fun i => i = s.labels) history = a :: rest ∧
      (s.labels, a) ∈ history ∧ outcome apply (a :: rest) = some s.state := by
  obtain ⟨hlabels, houtcome⟩ := mem_series.mp ((values_tally_perm hapart).mem_iff.mp hmem)
  cases hchanges : changesOf (fun i => decide (i = s.labels)) history with
  | nil =>
    rw [hchanges] at houtcome
    simp [outcome] at houtcome
  | cons a rest =>
    rw [hchanges] at houtcome
    have ha : a ∈ changesOf (fun i => decide (i = s.labels)) history := by
      rw [hchanges]
      exact List.mem_cons_self
    obtain ⟨⟨i, b⟩, he, rfl⟩ := List.mem_map.mp ha
    obtain ⟨he, hi⟩ := List.mem_filter.mp he
    obtain rfl : i = s.labels := by simpa using hi
    exact ⟨b, rest, rfl, he, houtcome⟩

end Labels

section

variable {increments : List (SeriesId × Increment)} {observations : List (SeriesId × Observation)}
  (resource : List OtlpAttr) (nowMs : ℤ)

def builtPayload (increments : List (SeriesId × Increment))
    (observations : List (SeriesId × Observation)) : Payload :=
  metricsPayload resource nowMs (tally counted seriesKey increments)
    (tally observed seriesKey observations)

theorem total_of_mem (hapart : KeysApart seriesKey increments) {p : SeriesId × SumPoint}
    (hp : p ∈ (builtPayload resource nowMs increments observations).sums) :
    p.2.asDouble = jsonNumber (totalOf increments p.1) := by
  obtain ⟨s, hs, rfl⟩ := List.mem_map.mp ((sums_metricsPayload _ _ _ _).mem_iff.mp hp)
  obtain ⟨c, rest, hchanges, -, houtcome⟩ := state_of_mem hapart hs
  rw [outcome_counted] at houtcome
  have htotal : s.state.total = totalOf increments s.labels := by
    rw [← Option.some.inj houtcome, totalOf, hchanges]
  rw [← htotal]
  rfl

theorem observed_of_mem (hone : OneOptions observations)
    (hapart : KeysApart seriesKey observations) {p : SeriesId × JsString × HistogramPoint}
    (hp : p ∈ (builtPayload resource nowMs increments observations).histograms)
    {o : Observation} (ho : (p.1, o) ∈ observations) :
    p.2.1 = o.unit ∧ p.2.2.explicitBounds = o.boundaries.map jsonNumber ∧
      p.2.2.count = integerText (valuesOf observations p.1).length ∧
      p.2.2.sum = jsonNumber (sumOf (valuesOf observations p.1)) ∧
      p.2.2.bucketCounts =
        (bucketCounts o.boundaries (valuesOf observations p.1)).map fun n => integerText n := by
  obtain ⟨h, hh, rfl⟩ := List.mem_map.mp ((histograms_metricsPayload _ _ _ _).mem_iff.mp hp)
  have hstate : ∀ s ∈ (tally observed seriesKey observations).values, s.labels.name = h.labels.name →
      ∃ start, s.state =
        { unit := o.unit
          boundaries := o.boundaries
          count := (valuesOf observations s.labels).length
          sum := sumOf (valuesOf observations s.labels)
          bucketCounts := bucketCounts o.boundaries (valuesOf observations s.labels)
          startTimeUnixNano := start } := by
    intro s hs hname
    obtain ⟨a, rest, hchanges, -, houtcome⟩ := state_of_mem hapart hs
    have hsame : ∀ p ∈ a :: rest, p.unit = o.unit ∧ p.boundaries = o.boundaries := by
      intro p hp
      rw [← hchanges] at hp
      obtain ⟨e, he, rfl⟩ := List.mem_map.mp hp
      obtain ⟨he, hlabels⟩ := List.mem_filter.mp he
      have hid : e.1 = s.labels := by simpa using hlabels
      exact hone e he _ ho (by rw [hid]; exact hname)
    rw [outcome_observed a rest hsame] at houtcome
    refine ⟨unixNano a.nowMs, ?_⟩
    rw [← Option.some.inj houtcome, valuesOf, hchanges, List.length_map]
  obtain ⟨first, hfirst, hname, hunit⟩ := unitOf_eq hh
  obtain ⟨start, hstart⟩ := hstate first hfirst hname
  obtain ⟨start', hstart'⟩ := hstate h hh rfl
  refine ⟨?_, ?_, ?_, ?_, ?_⟩
  · dsimp only
    rw [hunit, hstart]
  · dsimp only [histogramPoint]
    rw [hstart']
  · dsimp only [histogramPoint]
    rw [hstart']
  · dsimp only [histogramPoint]
    rw [hstart']
  · dsimp only [histogramPoint]
    rw [hstart']

/-- **The payload is exact if and only if different series have different keys and every sum is
finite.** -/
theorem exact_iff (hone : OneOptions observations) :
    Exact increments observations (builtPayload resource nowMs increments observations) ↔
      Told increments observations := by
  have hsums := (sums_metricsPayload resource nowMs (tally counted seriesKey increments)
    (tally observed seriesKey observations)).map Prod.fst
  have hhistograms := (histograms_metricsPayload resource nowMs (tally counted seriesKey increments)
    (tally observed seriesKey observations)).map Prod.fst
  rw [List.map_map] at hsums hhistograms
  have hcounters := @keysApart_iff _ _ counted increments _ hsums
  have hobserved := @keysApart_iff _ _ observed observations _ hhistograms
  constructor
  · intro h
    have hapart := hcounters.mp ⟨h.sums_nodup, h.mem_sums⟩
    have hapart' := hobserved.mp ⟨h.histograms_nodup, h.mem_histograms⟩
    refine ⟨hapart, hapart', fun id hid => ?_, fun id hid => ?_⟩
    · obtain ⟨p, hp, rfl⟩ := List.mem_map.mp ((h.mem_sums id).mpr hid)
      rw [← total_of_mem resource nowMs hapart hp, h.total p hp]
      simp
    · obtain ⟨p, hp, rfl⟩ := List.mem_map.mp ((h.mem_histograms id).mpr hid)
      obtain ⟨⟨i, o⟩, ho, rfl⟩ := List.mem_map.mp hid
      obtain ⟨-, -, -, hsum, -⟩ := observed_of_mem resource nowMs hone hapart' hp ho
      obtain ⟨-, -, -, hsome, -⟩ := h.observed p hp o ho
      rw [← hsum, hsome]
      simp
  · intro h
    obtain ⟨hnodup, hmem⟩ := hcounters.mpr h.counters
    obtain ⟨hnodup', hmem'⟩ := hobserved.mpr h.histograms
    refine ⟨hnodup, hmem, fun p hp => ?_, hnodup', hmem', fun p hp o ho => ?_⟩
    · rw [total_of_mem resource nowMs h.counters hp, jsonNumber_eq]
      exact ⟨h.totals p.1 ((hmem p.1).mp (List.mem_map_of_mem hp)), rfl⟩
    · obtain ⟨hunit, hbounds, hcount, hsum, hbuckets⟩ :=
        observed_of_mem resource nowMs hone h.histograms hp ho
      refine ⟨hunit, hbounds, hcount, ?_, hbuckets⟩
      rw [hsum, jsonNumber_eq]
      exact ⟨h.sums p.1 (List.mem_map_of_mem ho), rfl⟩

end

end Daloy.Otlp
