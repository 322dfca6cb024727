import Daloy.Otlp.MetricSeries
import Daloy.Otlp.SingleFlight

/-! # The metrics exporter

`createOtlpMetricsExporter`, of `src/otlp.ts`. A call carries the time that it reads; a tick of the
clock is an input too, for the time of the next payload.

* `metricsExporter`: `count`, `record` and an export.
* `Totals`: what every step keeps. The series are those of the calls, a payload is built from the
  series, and what is not sent is marked as dirty.
* `Since`: what every step keeps of a call of `flush`.
-/

namespace Daloy.Otlp
set_option autoImplicit false

open Daloy.Json Daloy.Runs Daloy.Tallies Daloy.Unicode

def metricsMaxSeries : ℕ := 2000

inductive MetricCall
  | tick (nowMs : ℤ)
  | count (name : JsString) (attributes : JsMap JsString JsString) (value : Option Quantity)
      (nowMs : ℤ)
  | record (name : JsString) (attributes : JsMap JsString JsString) (value : Quantity)
      (unit : JsString) (boundaries : List Quantity) (nowMs : ℤ)

def isFinite : Quantity → Bool
  | .finite _ => true
  | .nan | .infinity _ => false

/-- What `count` adds, and to which series. -/
def MetricCall.increment? : MetricCall → Option (SeriesId × Increment)
  | .count name attributes value nowMs =>
    let value := value.getD (.int 1)
    if ¬ isFinite value ∨ value.lt (.int 0) then none
    else some (⟨name, sortedEntries attributes⟩, ⟨value, nowMs⟩)
  | _ => none

/-- What `record` adds, and to which series. -/
def MetricCall.observation? : MetricCall → Option (SeriesId × Observation)
  | .record name attributes value unit boundaries nowMs =>
    if ¬ isFinite value then none
    else some (⟨name, sortedEntries attributes⟩, ⟨value, unit, boundaries, nowMs⟩)
  | _ => none

/-! ## The exporter -/

structure MetricsData where
  counters : Counters := ∅
  histograms : Histograms := ∅
  dropped : ℕ := 0
  dirty : Bool := false
  nowMs : ℤ := 0

def MetricsData.atCapacity (d : MetricsData) : Bool :=
  ¬ d.counters.size + d.histograms.size < metricsMaxSeries

def MetricsData.count (d : MetricsData) (e : SeriesId × Increment) : MetricsData :=
  if (d.counters.get? (seriesKey e.1)).isNone ∧ d.atCapacity then
    { d with dropped := d.dropped + 1 }
  else { d with counters := record counted seriesKey d.counters e, dirty := true }

def MetricsData.record (d : MetricsData) (e : SeriesId × Observation) : MetricsData :=
  if (d.histograms.get? (seriesKey e.1)).isNone ∧ d.atCapacity then
    { d with dropped := d.dropped + 1 }
  else { d with histograms := Tallies.record observed seriesKey d.histograms e, dirty := true }

def metricCall (d : MetricsData) (call : MetricCall) : MetricsData :=
  match call with
  | .tick nowMs => { d with nowMs }
  | .count .. => (call.increment?.map d.count).getD d
  | .record .. => (call.observation?.map d.record).getD d

/-- An export up to the `await` of its POST. -/
def startExport (resourceAttributes : List OtlpAttr) (d : MetricsData) :
    MetricsData × Progress Payload :=
  if ¬ d.dirty then (d, .returned)
  else
    -- cleared before the POST, so that a call meanwhile sets it again
    ({ d with dirty := false },
      .post (metricsPayload resourceAttributes d.nowMs d.counters d.histograms))

def resumeExport (d : MetricsData) (outcome : PostOutcome) : MetricsData × Progress Payload :=
  if outcome = .status true then (d, .returned)
  else ({ d with dropped := d.dropped + 1, dirty := true }, .returned)

def metricsExporter (resourceAttributes : List OtlpAttr) :
    Exporter MetricsData MetricCall Payload where
  call := metricCall
  start := startExport resourceAttributes
  resume := resumeExport

/-! ## Calls -/

def increments (calls : List MetricCall) : List (SeriesId × Increment) :=
  calls.filterMap MetricCall.increment?

def observations (calls : List MetricCall) : List (SeriesId × Observation) :=
  calls.filterMap MetricCall.observation?

def Within (calls : List MetricCall) : Prop :=
  (labelsOf (increments calls)).length + (labelsOf (observations calls)).length ≤ metricsMaxSeries

instance (calls : List MetricCall) : Decidable (Within calls) :=
  inferInstanceAs (Decidable (_ ≤ _))

/-- Nothing is added after the first `n` calls. -/
def Still (calls : List MetricCall) (n : ℕ) : Prop :=
  ∀ call ∈ calls.drop n, call.increment? = none ∧ call.observation? = none

instance (calls : List MetricCall) (n : ℕ) : Decidable (Still calls n) :=
  inferInstanceAs (Decidable (∀ call ∈ calls.drop n, _ ∧ _))

theorem length_labelsOf_append {ι α : Type} [DecidableEq ι] (history more : List (ι × α)) :
    (labelsOf history).length ≤ (labelsOf (history ++ more)).length := by
  refine (List.subperm_of_subset (List.nodup_dedup _) fun i hi => ?_).length_le
  rw [List.mem_dedup] at hi
  rw [mem_labelsOf, List.map_append]
  exact List.mem_append_left _ hi

theorem Within.of_append {calls more : List MetricCall} (h : Within (calls ++ more)) :
    Within calls := by
  rw [Within, increments, observations, List.filterMap_append, List.filterMap_append] at h
  have hcounts := length_labelsOf_append (increments calls) (more.filterMap MetricCall.increment?)
  have hrecords :=
    length_labelsOf_append (observations calls) (more.filterMap MetricCall.observation?)
  rw [increments] at hcounts
  rw [observations] at hrecords
  rw [Within, increments, observations]
  omega

theorem still_length (calls : List MetricCall) : Still calls calls.length := by
  rw [Still, List.drop_length]
  exact fun call hcall => absurd hcall List.not_mem_nil

theorem Still.mono {calls : List MetricCall} {m n : ℕ} (h : Still calls m) (hle : m ≤ n) :
    Still calls n := by
  intro call hcall
  refine h call ?_
  rw [← Nat.add_sub_cancel' hle, ← List.drop_drop] at hcall
  exact List.mem_of_mem_drop hcall

theorem Still.of_append {calls more : List MetricCall} {n : ℕ} (h : Still (calls ++ more) n) :
    Still calls n := by
  intro call hcall
  refine h call ?_
  rw [List.drop_append]
  exact List.mem_append_left _ hcall

theorem Still.append {calls more : List MetricCall} {n : ℕ} (h : Still calls n)
    (hmore : ∀ call ∈ more, call.increment? = none ∧ call.observation? = none) :
    Still (calls ++ more) n := by
  intro call hcall
  rw [List.drop_append] at hcall
  obtain hcall | hcall := List.mem_append.mp hcall
  · exact h call hcall
  · exact hmore call (List.mem_of_mem_drop hcall)

theorem Still.more {calls more : List MetricCall} {n : ℕ} (h : Still (calls ++ more) n)
    (hle : n ≤ calls.length) :
    ∀ call ∈ more, call.increment? = none ∧ call.observation? = none := by
  intro call hcall
  refine h call ?_
  rw [List.drop_append_of_le_length hle]
  exact List.mem_append_right _ hcall

theorem Still.take_eq {calls : List MetricCall} {n : ℕ} (h : Still calls n) :
    increments (calls.take n) = increments calls ∧
      observations (calls.take n) = observations calls := by
  have hcounts : (calls.drop n).filterMap MetricCall.increment? = [] :=
    List.filterMap_eq_nil_iff.mpr fun call hcall => (h call hcall).1
  have hrecords : (calls.drop n).filterMap MetricCall.observation? = [] :=
    List.filterMap_eq_nil_iff.mpr fun call hcall => (h call hcall).2
  have hsplit := List.take_append_drop n calls
  constructor
  · conv_rhs => rw [← hsplit]
    rw [increments, increments, List.filterMap_append, hcounts, List.append_nil]
  · conv_rhs => rw [← hsplit]
    rw [observations, observations, List.filterMap_append, hrecords, List.append_nil]

/-! ## One call -/

section Room

variable {α σ : Type} {apply : Option σ → α → σ}

theorem size_tally_le (history : List (SeriesId × α)) :
    (tally apply seriesKey history).size ≤ (labelsOf history).length := by
  have hle := length_values_tally_le apply seriesKey history
  rw [JsMap.values, List.length_map] at hle
  exact hle

theorem length_labelsOf_new {history : List (SeriesId × α)} {e : SeriesId × α}
    (h : (tally apply seriesKey history).get? (seriesKey e.1) = none) :
    (labelsOf (history ++ [e])).length = (labelsOf history).length + 1 := by
  have hnew : e.1 ∉ labelsOf history := by
    intro hmem
    rw [JsMap.get?_eq_none, mem_keys_tally] at h
    exact h (List.mem_map_of_mem (mem_labelsOf.mp hmem))
  have hperm : (labelsOf (history ++ [e])).Perm (e.1 :: labelsOf history) := by
    refine (List.perm_ext_iff_of_nodup (List.nodup_dedup _)
      (List.nodup_cons.mpr ⟨hnew, List.nodup_dedup _⟩)).mpr fun i => ?_
    rw [List.mem_cons, mem_labelsOf, List.mem_dedup, List.map_append, List.mem_append]
    simp [or_comm]
  rw [hperm.length_eq, List.length_cons]

end Room

/-- The data are those of some calls. -/
structure MetricsData.Holds (d : MetricsData) (calls : List MetricCall) : Prop where
  counters : d.counters = tally counted seriesKey (increments calls)
  histograms : d.histograms = tally observed seriesKey (observations calls)

variable {d : MetricsData} {calls : List MetricCall} {call : MetricCall}

theorem count_holds {e : SeriesId × Increment} (h : d.Holds calls)
    (hcall : call.increment? = some e) (hother : call.observation? = none)
    (hwithin : Within (calls ++ [call])) :
    (d.count e).Holds (calls ++ [call]) ∧ (d.count e).dirty = true := by
  have hincrements : increments (calls ++ [call]) = increments calls ++ [e] := by
    rw [increments, List.filterMap_append, List.filterMap_cons, hcall]
    rfl
  have hobservations : observations (calls ++ [call]) = observations calls := by
    rw [observations, List.filterMap_append, List.filterMap_cons, hother]
    exact List.append_nil _
  have hroom : ¬ ((d.counters.get? (seriesKey e.1)).isNone ∧ d.atCapacity) := by
    rintro ⟨hnone, hfull⟩
    rw [h.counters, Option.isNone_iff_eq_none] at hnone
    have hnew := length_labelsOf_new hnone
    have hcounters := @size_tally_le _ _ counted (increments calls)
    have hhistograms := @size_tally_le _ _ observed (observations calls)
    rw [Within, hincrements, hobservations] at hwithin
    simp only [MetricsData.atCapacity, h.counters, h.histograms, decide_eq_true_eq] at hfull
    omega
  rw [MetricsData.count, if_neg hroom]
  refine ⟨⟨?_, ?_⟩, rfl⟩
  · rw [hincrements, tally_append, h.counters]
  · rw [hobservations]
    exact h.histograms

theorem record_holds {e : SeriesId × Observation} (h : d.Holds calls)
    (hcall : call.observation? = some e) (hother : call.increment? = none)
    (hwithin : Within (calls ++ [call])) :
    (d.record e).Holds (calls ++ [call]) ∧ (d.record e).dirty = true := by
  have hobservations : observations (calls ++ [call]) = observations calls ++ [e] := by
    rw [observations, List.filterMap_append, List.filterMap_cons, hcall]
    rfl
  have hincrements : increments (calls ++ [call]) = increments calls := by
    rw [increments, List.filterMap_append, List.filterMap_cons, hother]
    exact List.append_nil _
  have hroom : ¬ ((d.histograms.get? (seriesKey e.1)).isNone ∧ d.atCapacity) := by
    rintro ⟨hnone, hfull⟩
    rw [h.histograms, Option.isNone_iff_eq_none] at hnone
    have hnew := length_labelsOf_new hnone
    have hcounters := @size_tally_le _ _ counted (increments calls)
    have hhistograms := @size_tally_le _ _ observed (observations calls)
    rw [Within, hincrements, hobservations] at hwithin
    simp only [MetricsData.atCapacity, h.counters, h.histograms, decide_eq_true_eq] at hfull
    omega
  rw [MetricsData.record, if_neg hroom]
  refine ⟨⟨?_, ?_⟩, rfl⟩
  · rw [hincrements]
    exact h.counters
  · rw [hobservations, tally_append, h.histograms]

theorem holds_still (h : d.Holds calls)
    (hstill : call.increment? = none ∧ call.observation? = none) :
    (metricCall d call).Holds (calls ++ [call]) ∧ (metricCall d call).dirty = d.dirty := by
  have hcalls : increments (calls ++ [call]) = increments calls ∧
      observations (calls ++ [call]) = observations calls := by
    rw [increments, observations, List.filterMap_append, List.filterMap_append,
      List.filterMap_cons, List.filterMap_cons, hstill.1, hstill.2]
    exact ⟨List.append_nil _, List.append_nil _⟩
  have hsame : (metricCall d call).counters = d.counters ∧
      (metricCall d call).histograms = d.histograms ∧ (metricCall d call).dirty = d.dirty := by
    cases call with
    | tick nowMs => exact ⟨rfl, rfl, rfl⟩
    | count name attributes value nowMs =>
      rw [metricCall, hstill.1]
      exact ⟨rfl, rfl, rfl⟩
    | record name attributes value unit boundaries nowMs =>
      rw [metricCall, hstill.2]
      exact ⟨rfl, rfl, rfl⟩
  refine ⟨⟨?_, ?_⟩, hsame.2.2⟩
  · rw [hsame.1, hcalls.1, h.counters]
  · rw [hsame.2.1, hcalls.2, h.histograms]

theorem holds_call (h : d.Holds calls) (hwithin : Within (calls ++ [call])) :
    (metricCall d call).Holds (calls ++ [call]) ∧
      ((metricCall d call).dirty = true ∨ (metricCall d call).dirty = d.dirty ∧
        call.increment? = none ∧ call.observation? = none) := by
  by_cases hstill : call.increment? = none ∧ call.observation? = none
  · obtain ⟨hholds, hdirty⟩ := holds_still h hstill
    exact ⟨hholds, .inr ⟨hdirty, hstill⟩⟩
  · cases call with
    | tick nowMs => exact absurd ⟨rfl, rfl⟩ hstill
    | count name attributes value nowMs =>
      obtain ⟨e, he⟩ : ∃ e, (MetricCall.count name attributes value nowMs).increment? = some e :=
        Option.ne_none_iff_exists'.mp fun hnone => hstill ⟨hnone, rfl⟩
      obtain ⟨hholds, hdirty⟩ := count_holds h he rfl hwithin
      rw [metricCall, he]
      exact ⟨hholds, .inl hdirty⟩
    | record name attributes value unit boundaries nowMs =>
      obtain ⟨e, he⟩ : ∃ e, (MetricCall.record name attributes value unit boundaries
          nowMs).observation? = some e :=
        Option.ne_none_iff_exists'.mp fun hnone => hstill ⟨rfl, hnone⟩
      obtain ⟨hholds, hdirty⟩ := record_holds h he rfl hwithin
      rw [metricCall, he]
      exact ⟨hholds, .inl hdirty⟩

/-! ## What every step keeps -/

abbrev MetricsFlusher := Flusher MetricsData MetricCall Payload

variable (resource : List OtlpAttr)

structure Totals (s : MetricsFlusher) : Prop where
  holds : s.data.Holds s.calls
  posts : ∀ post ∈ s.posts, ∃ nowMs, post.payload =
    builtPayload resource nowMs (increments (s.calls.take post.calls))
      (observations (s.calls.take post.calls))
  flag : s.data.dirty = true ∨ Still s.calls 0 ∨ ∃ post ∈ s.posts, Still s.calls post.calls ∧
    ∀ outcome, post.outcome = some outcome →
      outcome = .status true ∨ ∃ run ∈ s.runs, run.stage = .answered outcome

variable {resource} {s s' : MetricsFlusher}

theorem start_dirty (h : d.dirty = true) :
    (metricsExporter resource).start d = ({ d with dirty := false },
      .post (metricsPayload resource d.nowMs d.counters d.histograms)) :=
  if_neg (not_not.mpr h)

theorem start_clean (h : ¬ d.dirty = true) :
    (metricsExporter resource).start d = (d, .returned) :=
  if_pos h

theorem resume_returned (outcome : PostOutcome) :
    ((metricsExporter resource).resume d outcome).2 = .returned := by
  simp only [metricsExporter, resumeExport]
  split
  · rfl
  · rfl

theorem totals_initial : Totals resource { data := {} } where
  holds := ⟨rfl, rfl⟩
  posts := by simp
  flag := .inr (.inl fun call hcall => absurd hcall List.not_mem_nil)

theorem Totals.input (h : Totals resource s) (hsingle : Single s)
    (hwithin : Within (s.calls ++ [call])) :
    Totals resource { s with data := metricCall s.data call, calls := s.calls ++ [call] } := by
  obtain ⟨hholds, hflag⟩ := holds_call h.holds hwithin
  refine ⟨hholds, fun post hpost => ?_, ?_⟩
  · have hle := hsingle.marks post hpost
    dsimp only
    rw [List.take_append_of_le_length hle]
    exact h.posts post hpost
  · obtain hdirty | ⟨hdirty, hstill⟩ := hflag
    · exact .inl hdirty
    · have hmore : ∀ c ∈ [call], c.increment? = none ∧ c.observation? = none := by
        simpa using hstill
      obtain hold | hold | ⟨post, hpost, hold, houtcome⟩ := h.flag
      · exact .inl (hdirty.trans hold)
      · exact .inr (.inl (hold.append hmore))
      · exact .inr (.inr ⟨post, hpost, hold.append hmore, houtcome⟩)

theorem Totals.flush (h : Totals resource s) :
    Totals resource (s.flush (metricsExporter resource)).1 := by
  obtain ⟨r, -, hflush⟩ | ⟨-, hflush⟩ := s.flush_cases (metricsExporter resource)
  · rw [hflush]
    exact h
  · rw [hflush]
    by_cases hdirty : s.data.dirty = true
    · rw [start_dirty hdirty]
      refine ⟨⟨h.holds.counters, h.holds.histograms⟩, fun post hpost => ?_, .inr (.inr ?_)⟩
      · obtain hpost | hpost := List.mem_append.mp hpost
        · exact h.posts post hpost
        · rw [List.mem_singleton.mp hpost]
          refine ⟨s.data.nowMs, ?_⟩
          dsimp only
          rw [List.take_length, h.holds.counters, h.holds.histograms]
          rfl
      · refine ⟨_, List.mem_append_right _ List.mem_cons_self, still_length _, fun outcome h => ?_⟩
        simp at h
    · rw [start_clean hdirty]
      refine ⟨h.holds, fun post hpost => ?_, .inr ?_⟩
      · rw [Progress.posts, List.append_nil] at hpost
        exact h.posts post hpost
      · obtain hold | hold | ⟨post, hpost, hold, houtcome⟩ := h.flag
        · exact absurd hold hdirty
        · exact .inl hold
        · refine .inr ⟨post, List.mem_append_left _ hpost, hold, fun outcome hsome => ?_⟩
          obtain hok | ⟨run, hrun, hstage⟩ := houtcome outcome hsome
          · exact .inl hok
          · exact .inr ⟨run, List.mem_append_left _ hrun, hstage⟩

theorem Totals.settle (h : Totals resource s) (hsingle : Single s) {r c p : ℕ}
    {outcome : PostOutcome} (hrun : s.runs[r]? = some ⟨c, .posting p⟩) :
    Totals resource { s.setRun r (.answered outcome) with
      posts := s.posts.modify p fun post => { post with outcome := some outcome } } := by
  have hback : ∀ post ∈ s.posts.modify p fun post => { post with outcome := some outcome },
      ∃ old ∈ s.posts, post.payload = old.payload ∧ post.calls = old.calls := by
    intro post hmem
    obtain ⟨i, hi⟩ := List.getElem?_of_mem hmem
    rw [List.getElem?_modify] at hi
    obtain ⟨old, hold, rfl⟩ := Option.map_eq_some_iff.mp hi
    refine ⟨old, List.mem_of_getElem? hold, ?_⟩
    split
    · exact ⟨rfl, rfl⟩
    · exact ⟨rfl, rfl⟩
  refine ⟨h.holds, fun post hpost => ?_, ?_⟩
  · obtain ⟨old, hold, hpayload, hcalls⟩ := hback post hpost
    rw [hpayload, hcalls]
    exact h.posts old hold
  · obtain hold | hold | ⟨post, hpost, hold, houtcome⟩ := h.flag
    · exact .inl hold
    · exact .inr (.inl hold)
    · obtain ⟨i, hi⟩ := List.getElem?_of_mem hpost
      have hnew : (s.posts.modify p fun post => { post with outcome := some outcome })[i]? =
          some (if p = i then { post with outcome := some outcome } else post) := by
        rw [List.getElem?_modify, hi]
        rfl
      refine .inr (.inr ⟨_, List.mem_of_getElem? hnew, ?_, fun other hother => ?_⟩)
      · split
        · exact hold
        · exact hold
      · split at hother
        · obtain rfl := Option.some.inj hother
          have hanswered := Flusher.getElem?_setRun hrun (.answered outcome) r
          rw [if_pos rfl] at hanswered
          exact .inr ⟨_, List.mem_of_getElem? hanswered, rfl⟩
        · obtain hok | ⟨run, hmem, hstage⟩ := houtcome other hother
          · exact .inl hok
          · -- the export that awaits its POST is the only one that is open
            obtain ⟨q, hq⟩ := List.getElem?_of_mem hmem
            obtain rfl := hsingle.unique hq hrun (by simp [hstage]) (by simp)
            rw [hrun] at hq
            rw [← Option.some.inj hq] at hstage
            simp at hstage

theorem Totals.resume (h : Totals resource s) (hsingle : Single s) {r c : ℕ}
    {outcome : PostOutcome} (hrun : s.runs[r]? = some ⟨c, .answered outcome⟩) :
    Totals resource { s.setRun r (.ended true) with
      data := (resumeExport s.data outcome).1 } := by
  rw [resumeExport]
  by_cases hok : outcome = .status true
  · rw [if_pos hok]
    refine ⟨h.holds, h.posts, ?_⟩
    obtain hold | hold | ⟨post, hpost, hold, houtcome⟩ := h.flag
    · exact .inl hold
    · exact .inr (.inl hold)
    · refine .inr (.inr ⟨post, hpost, hold, fun other hother => .inl ?_⟩)
      obtain hother | ⟨run, hmem, hstage⟩ := houtcome other hother
      · exact hother
      · obtain ⟨q, hq⟩ := List.getElem?_of_mem hmem
        obtain rfl := hsingle.unique hq hrun (by simp [hstage]) (by simp)
        rw [hrun] at hq
        rw [← Option.some.inj hq] at hstage
        rw [← RunStage.answered.inj hstage, hok]
  · rw [if_neg hok]
    exact ⟨⟨h.holds.counters, h.holds.histograms⟩, h.posts, .inl rfl⟩

theorem Totals.setRun (h : Totals resource s) {r c : ℕ} {old stage : RunStage}
    (hrun : s.runs[r]? = some ⟨c, old⟩) (hold : ∀ outcome, old ≠ .answered outcome) :
    Totals resource (s.setRun r stage) := by
  refine ⟨h.holds, h.posts, ?_⟩
  obtain hdirty | hstill | ⟨post, hpost, hstill, houtcome⟩ := h.flag
  · exact .inl hdirty
  · exact .inr (.inl hstill)
  · refine .inr (.inr ⟨post, hpost, hstill, fun outcome hsome => ?_⟩)
    obtain hok | ⟨run, hmem, hstage⟩ := houtcome outcome hsome
    · exact .inl hok
    · obtain ⟨q, hq⟩ := List.getElem?_of_mem hmem
      have hne : q ≠ r := by
        rintro rfl
        rw [hrun] at hq
        rw [← Option.some.inj hq] at hstage
        exact hold outcome hstage
      have hkept := Flusher.getElem?_setRun hrun stage q
      rw [if_neg hne, hq] at hkept
      exact .inr ⟨run, List.mem_of_getElem? hkept, hstage⟩

theorem totals_step {event : Event MetricCall} (hsingle : Single s) (h : Totals resource s)
    (hstep : s.step (metricsExporter resource) event = some s') (hwithin : Within s'.calls) :
    Totals resource s' := by
  cases event with
  | call input =>
    obtain rfl := Option.some.inj hstep
    exact h.input hsingle hwithin
  | flush =>
    obtain rfl := Option.some.inj hstep
    exact ⟨h.flush.holds, h.flush.posts, h.flush.flag⟩
  | settle r outcome =>
    rw [Flusher.step] at hstep
    split at hstep
    · rename_i hrun
      obtain rfl := Option.some.inj hstep
      exact h.settle hsingle hrun
    · simp at hstep
  | resume r =>
    rw [Flusher.step] at hstep
    split at hstep
    · rename_i c outcome hrun
      obtain rfl := Option.some.inj hstep
      rw [resume_returned]
      have hresumed := h.resume hsingle hrun
      refine ⟨hresumed.holds, fun post hpost => ?_, ?_⟩
      · rw [Progress.posts, List.append_nil] at hpost
        exact hresumed.posts post hpost
      · rw [Progress.posts, List.append_nil]
        exact hresumed.flag
    · simp at hstep
  | finish r =>
    rw [Flusher.step] at hstep
    split at hstep
    · rename_i c ok hrun
      obtain rfl := Option.some.inj hstep
      have hfinished : Totals resource (s.setRun r (.finished ok)) := h.setRun hrun (by simp)
      exact ⟨hfinished.holds, hfinished.posts, hfinished.flag⟩
    · simp at hstep
  | react f =>
    rw [Flusher.step] at hstep
    split at hstep
    · split at hstep
      · obtain rfl := Option.some.inj hstep
        exact ⟨h.flush.holds, h.flush.posts, h.flush.flag⟩
      · obtain rfl := Option.some.inj hstep
        exact ⟨h.holds, h.posts, h.flag⟩
      · simp at hstep
    · simp at hstep
  | resolve f =>
    rw [Flusher.step] at hstep
    split at hstep
    · split at hstep
      · obtain rfl := Option.some.inj hstep
        exact ⟨h.holds, h.posts, h.flag⟩
      · obtain rfl := Option.some.inj hstep
        exact ⟨h.holds, h.posts, h.flag⟩
      · simp at hstep
    · simp at hstep

theorem totals_run {events : List (Event MetricCall)}
    (hrun : run (Flusher.step (metricsExporter resource)) { data := {} } events = some s) :
    Single s ∧ (Within s.calls → Totals resource s) := by
  have hkeeps : ∀ (s : MetricsFlusher) (event : Event MetricCall) (s' : MetricsFlusher),
      (Single s ∧ (Within s.calls → Totals resource s)) →
        s.step (metricsExporter resource) event = some s' →
          Single s' ∧ (Within s'.calls → Totals resource s') := by
    intro s event s' h hstep
    refine ⟨single_step h.1 hstep, fun hwithin => ?_⟩
    have hcalls := calls_step hstep
    refine totals_step h.1 (h.2 ?_) hstep hwithin
    rw [hcalls] at hwithin
    exact hwithin.of_append
  exact run_invariant_all hkeeps ⟨single_initial _, fun _ => totals_initial⟩ hrun

/-! ## One flush -/

/-- What was added has arrived, or a POST has failed that is not one of the first `n`. -/
def Sent (n : ℕ) (s : MetricsFlusher) : Prop :=
  Still s.calls 0 ∨
    (∃ post ∈ s.posts, Still s.calls post.calls ∧ post.outcome = some (.status true)) ∨
    ∃ i post outcome, n ≤ i ∧ s.posts[i]? = some post ∧ post.outcome = some outcome ∧
      outcome ≠ .status true

def RunSince (n : ℕ) (s : MetricsFlusher) (run : Run) : Prop :=
  match run.stage with
  | .posting p => n ≤ p
  | .answered outcome => ∃ i post, n ≤ i ∧ s.posts[i]? = some post ∧ post.outcome = some outcome
  | .ended _ | .finished _ => Sent n s

structure Since (s₀ s : MetricsFlusher) : Prop where
  calls : s₀.calls.length ≤ s.calls.length
  posts : s₀.posts.length ≤ s.posts.length
  runs : s₀.runs.length ≤ s.runs.length
  later : ∀ (i : ℕ) (post : Post Payload), s₀.posts.length ≤ i → s.posts[i]? = some post →
    s₀.calls.length ≤ post.calls
  progress : ∀ (q : ℕ) (run : Run), s₀.runs.length ≤ q → s.runs[q]? = some run →
    RunSince s₀.posts.length s run

/-- What is known of the promise of a call of `flush` after the state `s₀`. -/
def FlushSince (s₀ s : MetricsFlusher) (stage : FlushStage) : Prop :=
  match stage with
  | .exporting r => s₀.runs.length ≤ r
  | .resolved => Sent s₀.posts.length s
  | .waiting _ | .rejected => True

structure Carries (s s' : MetricsFlusher) : Prop where
  posts : ∀ (i : ℕ) (post : Post Payload), s.posts[i]? = some post → post.outcome ≠ none →
    s'.posts[i]? = some post
  still : ∀ n ≤ s.calls.length, Still s.calls n → Still s'.calls n

theorem Sent.carry {n : ℕ} (h : Sent n s) (hsingle : Single s) (hcarry : Carries s s') :
    Sent n s' := by
  obtain hnone | ⟨post, hpost, hstill, hok⟩ | ⟨i, post, outcome, hle, hpost, hsome, hbad⟩ := h
  · exact .inl (hcarry.still 0 (Nat.zero_le _) hnone)
  · obtain ⟨i, hi⟩ := List.getElem?_of_mem hpost
    refine .inr (.inl ⟨post, List.mem_of_getElem? (hcarry.posts i post hi (by simp [hok])), ?_, hok⟩)
    exact hcarry.still _ (hsingle.marks post hpost) hstill
  · exact .inr (.inr ⟨i, post, outcome, hle, hcarry.posts i post hpost (by simp [hsome]), hsome, hbad⟩)

theorem RunSince.carry {n : ℕ} {run : Run} (h : RunSince n s run) (hsingle : Single s)
    (hcarry : Carries s s') : RunSince n s' run := by
  rw [RunSince] at h ⊢
  cases hstage : run.stage with
  | posting p =>
    rw [hstage] at h
    exact h
  | answered outcome =>
    rw [hstage] at h
    obtain ⟨i, post, hle, hpost, hsome⟩ := h
    exact ⟨i, post, hle, hcarry.posts i post hpost (by simp [hsome]), hsome⟩
  | ended ok =>
    rw [hstage] at h
    exact h.carry hsingle hcarry
  | finished ok =>
    rw [hstage] at h
    exact h.carry hsingle hcarry

theorem FlushSince.carry {s₀ : MetricsFlusher} {stage : FlushStage} (h : FlushSince s₀ s stage)
    (hsingle : Single s) (hcarry : Carries s s') : FlushSince s₀ s' stage := by
  cases stage with
  | waiting r => trivial
  | exporting r => exact h
  | resolved => exact Sent.carry h hsingle hcarry
  | rejected => trivial

variable {s₀ : MetricsFlusher}

theorem since_refl (s : MetricsFlusher) : Since s s where
  calls := le_rfl
  posts := le_rfl
  runs := le_rfl
  later := by
    intro i post hle hpost
    have hlt := (List.getElem?_eq_some_iff.mp hpost).1
    omega
  progress := by
    intro q run hle hrun
    have hlt := (List.getElem?_eq_some_iff.mp hrun).1
    omega

theorem sent_of_clean (hsingle : Single s) (h : Totals resource s) (hidle : s.inFlight = none)
    (hclean : ¬ s.data.dirty = true) (n : ℕ) : Sent n s := by
  obtain hdirty | hnone | ⟨post, hpost, hstill, houtcome⟩ := h.flag
  · exact absurd hdirty hclean
  · exact .inl hnone
  · obtain ⟨outcome, hsome⟩ := Option.ne_none_iff_exists'.mp (hsingle.settled_idle hidle post hpost)
    obtain rfl | ⟨run, hmem, hstage⟩ := houtcome outcome hsome
    · exact .inr (.inl ⟨post, hpost, hstill, hsome⟩)
    · obtain ⟨q, hq⟩ := List.getElem?_of_mem hmem
      obtain ⟨ok, hok⟩ := (hsingle.flying q run hq).mpr (by simp [hidle])
      rw [hok] at hstage
      simp at hstage

theorem Since.flush (h : Since s₀ s) (hsingle : Single s) (htotals : Totals resource s)
    (hcarry : Carries s (s.flush (metricsExporter resource)).1) :
    Since s₀ (s.flush (metricsExporter resource)).1 ∧
      FlushSince s₀ (s.flush (metricsExporter resource)).1
        (s.flush (metricsExporter resource)).2 := by
  obtain ⟨r, -, hflush⟩ | ⟨hidle, hflush⟩ := s.flush_cases (metricsExporter resource)
  · rw [hflush]
    exact ⟨h, trivial⟩
  · have hruns := h.runs
    rw [hflush] at hcarry ⊢
    refine ⟨⟨h.calls, ?_, ?_, fun i post hle hpost => ?_, fun q run hle hrun => ?_⟩, hruns⟩
    · rw [List.length_append]
      exact Nat.le_add_right_of_le h.posts
    · rw [List.length_append]
      exact Nat.le_add_right_of_le hruns
    · rw [List.getElem?_append] at hpost
      split at hpost
      · exact h.later i post hle hpost
      · rw [calls_of_posts (List.mem_of_getElem? hpost)]
        exact h.calls
    · obtain hold | ⟨-, rfl⟩ := getElem?_concat.mp hrun
      · exact (h.progress q run hle hold).carry hsingle hcarry
      · by_cases hdirty : s.data.dirty = true
        · rw [start_dirty hdirty]
          exact h.posts
        · have hsent := (sent_of_clean hsingle htotals hidle hdirty s₀.posts.length).carry hsingle hcarry
          rw [start_clean hdirty] at hsent ⊢
          exact hsent

theorem carries_step {event : Event MetricCall} (h : Since s₀ s) (hsingle : Single s)
    (hstep : s.step (metricsExporter resource) event = some s')
    (hstill : Still s'.calls s₀.calls.length) : Carries s s' := by
  refine ⟨fun i post hpost hsettled => settled_step hsingle hstep hpost hsettled,
    fun n _ hn => ?_⟩
  have hcalls := calls_step hstep
  rw [hcalls] at hstill ⊢
  exact hn.append (hstill.more h.calls)

theorem Since.setRun (h : Since s₀ s) (hsingle : Single s) {r c : ℕ} {old stage : RunStage}
    (hrun : s.runs[r]? = some ⟨c, old⟩) (hcarry : Carries s s') (hcalls : s'.calls = s.calls)
    (hruns : s'.runs = (s.setRun r stage).runs)
    (hposts : s₀.posts.length ≤ s'.posts.length)
    (hlater : ∀ (i : ℕ) (post : Post Payload), s₀.posts.length ≤ i → s'.posts[i]? = some post →
      s₀.calls.length ≤ post.calls)
    (hstage : s₀.runs.length ≤ r → RunSince s₀.posts.length s' ⟨c, stage⟩) : Since s₀ s' := by
  refine ⟨by rw [hcalls]; exact h.calls, hposts, ?_, hlater, fun q run hle hq => ?_⟩
  · rw [hruns, Flusher.setRun]
    dsimp only
    rw [List.length_modify]
    exact h.runs
  · rw [hruns, Flusher.getElem?_setRun hrun] at hq
    split at hq
    · rename_i hqr
      rw [← Option.some.inj hq]
      exact hstage (hqr ▸ hle)
    · exact (h.progress q run hle hq).carry hsingle hcarry

theorem sent_of_answered (h : Since s₀ s) (hstill : Still s.calls s₀.calls.length)
    {outcome : PostOutcome} {i : ℕ} {post : Post Payload} (hle : s₀.posts.length ≤ i)
    (hpost : s.posts[i]? = some post) (hsome : post.outcome = some outcome) :
    Sent s₀.posts.length s := by
  by_cases hok : outcome = .status true
  · refine .inr (.inl ⟨post, List.mem_of_getElem? hpost, ?_, by rw [hsome, hok]⟩)
    exact hstill.mono (h.later i post hle hpost)
  · exact .inr (.inr ⟨i, post, outcome, hle, hpost, hsome, hok⟩)

theorem since_step {event : Event MetricCall} (h : Since s₀ s) (hsingle : Single s)
    (htotals : Totals resource s) (hstep : s.step (metricsExporter resource) event = some s')
    (hstill : Still s'.calls s₀.calls.length) : Since s₀ s' := by
  have hcarry := carries_step h hsingle hstep hstill
  cases event with
  | call input =>
    obtain rfl := Option.some.inj hstep
    refine ⟨?_, h.posts, h.runs, h.later, fun q run hle hq =>
      (h.progress q run hle hq).carry hsingle hcarry⟩
    rw [List.length_append]
    exact Nat.le_add_right_of_le h.calls
  | flush =>
    obtain rfl := Option.some.inj hstep
    obtain ⟨hsince, -⟩ := h.flush hsingle htotals ⟨hcarry.posts, hcarry.still⟩
    exact ⟨hsince.calls, hsince.posts, hsince.runs, hsince.later, hsince.progress⟩
  | settle r outcome =>
    rw [Flusher.step] at hstep
    split at hstep
    · rename_i c p hrun
      obtain rfl := Option.some.inj hstep
      refine h.setRun hsingle hrun hcarry rfl rfl ?_ (fun i post hle hpost => ?_) fun hle => ?_
      · dsimp only
        rw [List.length_modify]
        exact h.posts
      · dsimp only at hpost
        rw [List.getElem?_modify] at hpost
        obtain ⟨old, hold, rfl⟩ := Option.map_eq_some_iff.mp hpost
        have hlater := h.later i old hle hold
        split
        · exact hlater
        · exact hlater
      · have hp : s₀.posts.length ≤ p := h.progress r _ hle hrun
        obtain ⟨post, hpost, -⟩ := hsingle.open_post r _ p hrun rfl
        refine ⟨p, { post with outcome := some outcome }, hp, ?_, rfl⟩
        dsimp only
        rw [List.getElem?_modify, hpost]
        simp
    · simp at hstep
  | resume r =>
    rw [Flusher.step] at hstep
    split at hstep
    · rename_i c outcome hrun
      obtain rfl := Option.some.inj hstep
      rw [resume_returned] at hcarry ⊢
      have hposts : s.posts ++ Progress.posts s.calls.length (.returned : Progress Payload) =
          s.posts := List.append_nil _
      rw [hposts] at hcarry ⊢
      refine h.setRun hsingle hrun hcarry rfl rfl h.posts h.later fun hle => ?_
      obtain ⟨i, post, hle, hpost, hsome⟩ := h.progress r _ hle hrun
      exact (sent_of_answered h hstill hle hpost hsome).carry hsingle hcarry
    · simp at hstep
  | finish r =>
    rw [Flusher.step] at hstep
    split at hstep
    · rename_i c ok hrun
      obtain rfl := Option.some.inj hstep
      refine h.setRun hsingle hrun hcarry rfl rfl h.posts h.later fun hle => ?_
      have hsent : Sent s₀.posts.length s := h.progress r _ hle hrun
      exact hsent.carry hsingle hcarry
    · simp at hstep
  | react f =>
    rw [Flusher.step] at hstep
    split at hstep
    · split at hstep
      · obtain rfl := Option.some.inj hstep
        obtain ⟨hsince, -⟩ := h.flush hsingle htotals ⟨hcarry.posts, hcarry.still⟩
        exact ⟨hsince.calls, hsince.posts, hsince.runs, hsince.later, hsince.progress⟩
      · obtain rfl := Option.some.inj hstep
        exact ⟨h.calls, h.posts, h.runs, h.later, h.progress⟩
      · simp at hstep
    · simp at hstep
  | resolve f =>
    rw [Flusher.step] at hstep
    split at hstep
    · split at hstep
      · obtain rfl := Option.some.inj hstep
        exact ⟨h.calls, h.posts, h.runs, h.later, h.progress⟩
      · obtain rfl := Option.some.inj hstep
        exact ⟨h.calls, h.posts, h.runs, h.later, h.progress⟩
      · simp at hstep
    · simp at hstep

theorem flushSince_setFlush {f g : ℕ} {stage : FlushStage}
    (hflushes : s'.flushes = (s.setFlush g stage).flushes)
    (hold : ∀ call, s.flushes[f]? = some call → FlushSince s₀ s' call.stage)
    (hnew : ∀ call, s.flushes[g]? = some call → f = g → FlushSince s₀ s' stage) :
    ∀ call, s'.flushes[f]? = some call → FlushSince s₀ s' call.stage := by
  intro call hcall
  rw [hflushes, Flusher.setFlush, List.getElem?_modify] at hcall
  obtain ⟨old, hget, rfl⟩ := Option.map_eq_some_iff.mp hcall
  split
  · rename_i hgf
    exact hnew old (by rw [hgf]; exact hget) hgf.symm
  · exact hold old hget

theorem flushSince_step {event : Event MetricCall} (h : Since s₀ s) (hsingle : Single s)
    (htotals : Totals resource s) (hstep : s.step (metricsExporter resource) event = some s')
    (hstill : Still s'.calls s₀.calls.length) {f : ℕ}
    (hf : ∀ call, s.flushes[f]? = some call → FlushSince s₀ s call.stage) :
    ∀ call, s'.flushes[f]? = some call → FlushSince s₀ s' call.stage := by
  have hcarry := carries_step h hsingle hstep hstill
  have hsame : ∀ call, s.flushes[f]? = some call → FlushSince s₀ s' call.stage :=
    fun call hcall => (hf call hcall).carry hsingle hcarry
  have hflushes : (s.flush (metricsExporter resource)).1.flushes = s.flushes := by
    obtain ⟨r, -, hflush⟩ | ⟨-, hflush⟩ := s.flush_cases (metricsExporter resource)
    · rw [hflush]
    · rw [hflush]
  cases event with
  | call input =>
    obtain rfl := Option.some.inj hstep
    exact hsame
  | flush =>
    obtain rfl := Option.some.inj hstep
    obtain ⟨-, hpromise⟩ := h.flush hsingle htotals ⟨hcarry.posts, hcarry.still⟩
    intro call hcall
    dsimp only at hcall
    obtain hold | ⟨-, rfl⟩ := getElem?_concat.mp hcall
    · exact hsame call hold
    · exact hpromise
  | settle r outcome | resume r | finish r =>
    rw [Flusher.step] at hstep
    split at hstep
    · obtain rfl := Option.some.inj hstep
      exact hsame
    · simp at hstep
  | react g =>
    rw [Flusher.step] at hstep
    split at hstep
    · split at hstep
      · obtain rfl := Option.some.inj hstep
        obtain ⟨-, hpromise⟩ := h.flush hsingle htotals ⟨hcarry.posts, hcarry.still⟩
        refine flushSince_setFlush (s := (s.flush (metricsExporter resource)).1) rfl ?_
          fun _ _ _ => hpromise
        rw [hflushes]
        exact hsame
      · obtain rfl := Option.some.inj hstep
        exact flushSince_setFlush rfl hsame fun _ _ _ => trivial
      · simp at hstep
    · simp at hstep
  | resolve g =>
    rw [Flusher.step] at hstep
    split at hstep
    · rename_i c r hg
      split at hstep
      · rename_i started hrun
        obtain rfl := Option.some.inj hstep
        refine flushSince_setFlush rfl hsame fun call hcall hfg => ?_
        -- the export of this promise began after the call, and has finished
        have hbegan : s₀.runs.length ≤ r := hf ⟨c, .exporting r⟩ (by rw [hfg]; exact hg)
        have hsent : Sent s₀.posts.length s := h.progress r _ hbegan hrun
        exact hsent.carry hsingle hcarry
      · obtain rfl := Option.some.inj hstep
        exact flushSince_setFlush rfl hsame fun _ _ _ => trivial
      · simp at hstep
    · simp at hstep

/-- **A flush that has resolved**, where nothing is added after its call: what was added before has
arrived, or a POST has failed since. -/
theorem flush_run {events : List (Event MetricCall)} (hsince : Since s₀ s) (hsingle : Single s)
    (htotals : Within s.calls → Totals resource s) {f : ℕ}
    (hf : ∀ call, s.flushes[f]? = some call → FlushSince s₀ s call.stage)
    (hrun : run (Flusher.step (metricsExporter resource)) s events = some s')
    (hwithin : Within s'.calls) (hstill : Still s'.calls s₀.calls.length) :
    ∀ call, s'.flushes[f]? = some call → FlushSince s₀ s' call.stage := by
  induction events generalizing s with
  | nil =>
    obtain rfl : s = s' := by simpa using hrun
    exact hf
  | cons event events ih =>
    obtain ⟨next, hstep, hrest⟩ := run_cons_eq_some.mp hrun
    have hcalls := calls_run hrest
    have hstill' : Still next.calls s₀.calls.length := by
      rw [hcalls] at hstill
      exact hstill.of_append
    have hnext : Within next.calls := by
      rw [hcalls] at hwithin
      exact hwithin.of_append
    have hnow : Within s.calls := by
      rw [calls_step hstep] at hnext
      exact hnext.of_append
    exact ih (since_step hsince hsingle (htotals hnow) hstep hstill') (single_step hsingle hstep)
      (fun hwithin => totals_step hsingle (htotals hnow) hstep hwithin)
      (flushSince_step hsince hsingle (htotals hnow) hstep hstill' hf) hrest

/-! ## Every run -/

def Post.ExactFor (calls : List MetricCall) (post : Post Payload) : Prop :=
  Exact (increments calls) (observations calls) post.payload

/-- Different series have different keys, and no sum exceeds the largest double. -/
def AllTold (calls : List MetricCall) : Prop := Told (increments calls) (observations calls)

/-- **Every payload is exact if and only if the series before it are told apart by their keys and
have finite sums.** A call of `flush` that resolves, with nothing added after it, leaves nothing
unsent, unless a POST since has failed. -/
theorem metrics_totals {before after : List (Event MetricCall)}
    (hbefore : run (Flusher.step (metricsExporter resource)) { data := {} } before = some s₀)
    (hafter : run (Flusher.step (metricsExporter resource)) s₀ (.flush :: after) = some s)
    (hwithin : Within s.calls) (hone : OneOptions (observations s.calls)) :
    (∀ post ∈ s.posts, post.ExactFor (s.calls.take post.calls) ↔
      AllTold (s.calls.take post.calls)) ∧
    ∀ call, s.flushes[s₀.flushes.length]? = some call → call.stage = .resolved →
      Still s.calls s₀.calls.length →
        Still s.calls 0 ∨
        (∃ post ∈ s.posts, post.outcome = some (.status true) ∧
          (post.ExactFor s.calls ↔ AllTold s.calls)) ∨
        ∃ i post outcome, s₀.posts.length ≤ i ∧ s.posts[i]? = some post ∧
          post.outcome = some outcome ∧ outcome ≠ .status true := by
  have hrun : run (Flusher.step (metricsExporter resource)) { data := {} }
      (before ++ .flush :: after) = some s := by
    rw [run_append, hbefore]
    exact hafter
  have htotals := (totals_run hrun).2 hwithin
  have hexact : ∀ post ∈ s.posts, post.ExactFor (s.calls.take post.calls) ↔
      AllTold (s.calls.take post.calls) := by
    intro post hpost
    obtain ⟨nowMs, hpayload⟩ := htotals.posts post hpost
    rw [Post.ExactFor, hpayload]
    refine exact_iff resource nowMs fun e he e' he' => hone e ?_ e' ?_
    · exact ((List.take_sublist _ _).filterMap _).subset he
    · exact ((List.take_sublist _ _).filterMap _).subset he'
  refine ⟨hexact, fun call hcall hresolved hstill => ?_⟩
  obtain ⟨hsingle₀, htotals₀⟩ := totals_run hbefore
  have hflush : FlushSince s₀ s call.stage := by
    refine flush_run (since_refl s₀) hsingle₀ htotals₀ (fun old hold => ?_) hafter hwithin hstill
      call hcall
    have hlt := (List.getElem?_eq_some_iff.mp hold).1
    omega
  rw [hresolved] at hflush
  obtain hnone | ⟨post, hpost, hcovers, hok⟩ | hfailed := hflush
  · exact .inl hnone
  · refine .inr (.inl ⟨post, hpost, hok, ?_⟩)
    have hiff := hexact post hpost
    rw [Post.ExactFor, AllTold, hcovers.take_eq.1, hcovers.take_eq.2] at hiff
    exact hiff
  · exact .inr (.inr hfailed)

def oneValue : List (Event MetricCall) := [.call (.count (js "a") ∅ none 1)]

def oneFlush : List (Event MetricCall) :=
  [.flush, .settle 0 (.status true), .resume 0, .finish 0, .resolve 0]

theorem metrics_totals_one : ∃ s : MetricsFlusher,
    run (Flusher.step (metricsExporter [])) { data := {} } (oneValue ++ oneFlush) = some s ∧
    ∃ post ∈ s.posts, post.outcome = some (.status true) ∧
      (post.ExactFor s.calls ↔ AllTold s.calls) := by
  obtain ⟨s, hs⟩ : ∃ s, run (Flusher.step (metricsExporter [])) { data := {} }
      (oneValue ++ oneFlush) = some s :=
    Option.isSome_iff_exists.mp (by decide)
  have hsplit := hs
  rw [run_append] at hsplit
  obtain ⟨s₀, hs₀, hafter⟩ := Option.bind_eq_some_iff.mp hsplit
  have hflushes : (run (Flusher.step (metricsExporter [])) { data := {} } oneValue).map
      (fun s => (s.flushes.length, s.calls.length)) = some (0, 1) := by decide
  have hended : (run (Flusher.step (metricsExporter [])) { data := {} } (oneValue ++ oneFlush)).map
      (fun s => (s.flushes, s.posts.map Post.outcome)) =
        some ([⟨1, .resolved⟩], [some (.status true)]) := by decide
  rw [hs₀, Option.map_some, Option.some.injEq, Prod.mk.injEq] at hflushes
  rw [hs, Option.map_some, Option.some.injEq, Prod.mk.injEq] at hended
  have hcalls : s.calls = [.count (js "a") ∅ none 1] := calls_run hs
  obtain ⟨-, hflush⟩ := metrics_totals hs₀ hafter (by rw [hcalls]; decide) (by rw [hcalls]; decide)
  refine ⟨s, hs, ?_⟩
  obtain hnone | hsent | ⟨i, post, outcome, -, hpost, hsome, hbad⟩ :=
    hflush ⟨1, .resolved⟩ (by rw [hflushes.1, hended.1]; rfl) rfl
      (by rw [hcalls, hflushes.2]; decide)
  · rw [hcalls] at hnone
    exact absurd hnone (by decide)
  · exact hsent
  · have hmem : some outcome ∈ s.posts.map Post.outcome :=
      List.mem_map.mpr ⟨post, List.mem_of_getElem? hpost, hsome⟩
    rw [hended.2, List.mem_singleton] at hmem
    exact absurd (Option.some.inj hmem) hbad

def twoSeries : List MetricCall :=
  [.count (js "a|b=c") ∅ none 1, .count (js "a") (JsMap.set ∅ (js "b") (js "c")) none 2]

theorem series_collide : ∃ s : MetricsFlusher,
    run (Flusher.step (metricsExporter [])) { data := {} }
      (twoSeries.map Event.call ++ [.flush]) = some s ∧
    ∃ post ∈ s.posts, ¬ post.ExactFor (s.calls.take post.calls) := by
  obtain ⟨s, hs⟩ : ∃ s, run (Flusher.step (metricsExporter [])) { data := {} }
      (twoSeries.map Event.call ++ [.flush]) = some s :=
    Option.isSome_iff_exists.mp (by decide)
  have hposts : (run (Flusher.step (metricsExporter [])) { data := {} }
      (twoSeries.map Event.call ++ [.flush])).map (fun s => s.posts.map Post.calls) = some [2] := by
    decide
  have hcalls : s.calls = twoSeries := calls_run hs
  rw [hs, Option.map_some, Option.some.injEq] at hposts
  obtain ⟨post, hpost, hcount⟩ : ∃ post ∈ s.posts, post.calls = 2 :=
    List.mem_map.mp (by rw [hposts]; exact List.mem_cons_self)
  have hwithin : Within s.calls := by
    rw [hcalls]
    decide
  obtain ⟨nowMs, hpayload⟩ := ((totals_run hs).2 hwithin).posts post hpost
  refine ⟨s, hs, post, hpost, fun hexact => ?_⟩
  rw [Post.ExactFor, hpayload, hcount, hcalls] at hexact
  have htold := (exact_iff [] nowMs (by decide)).mp hexact
  have hapart := htold.counters ⟨js "a|b=c", []⟩ (by decide) ⟨js "a", [⟨js "b", js "c"⟩]⟩ (by decide)
    (by decide)
  revert hapart
  decide

end Daloy.Otlp
