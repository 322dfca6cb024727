import Daloy.Metrics.Ledger

/-! # The registry keeps the ledger

* `touch_tally`: below the cap, a metric goes on as the tally of its history.
* `Refines.after`, `Refines.run`: every call keeps the registry the one that the ledger gives.
* `refines_new`: so does the constructor.
-/

namespace Daloy.Metrics
set_option autoImplicit false

open Daloy.Unicode Daloy.Json Daloy.Tallies Daloy.Exposition

theorem touch_tally {α σ : Type} {apply : Option σ → α → σ} {history : List (LabelSet × α)}
    {labels : LabelSet} {change : α} {maxSeries : ℕ}
    (hcap : (labelsOf (history ++ [(labels, change)])).length ≤ maxSeries) :
    touch maxSeries (tally apply seriesKey history) labels (fun s => apply s change) =
      some (tally apply seriesKey (history ++ [(labels, change)])) := by
  have hle := length_values_tally_le apply seriesKey
    (history ++ [(labels, change)])
  rw [tally_append, record] at hle
  rw [tally_append, record, touch]
  cases hget : (tally apply seriesKey history).get? (seriesKey labels) with
  | some s => rfl
  | none =>
    rw [hget] at hle
    have hsize : (tally apply seriesKey history).size < maxSeries := by
      have hnew := JsMap.get?_eq_none.mp hget
      dsimp only at hle
      rw [JsMap.values, List.length_map, JsMap.entries_set_of_not_mem hnew, List.length_append,
        List.length_singleton] at hle
      rw [JsMap.size]
      omega
    exact if_pos hsize

structure Refines (plus : Number → Number → Number) (r : Registry) (l : Ledger) : Prop where
  namePrefix : r.namePrefix = l.namePrefix
  maxSeries : r.maxSeries = l.maxSeries
  metrics : r.metrics = l.accounts.map (Account.metric plus)

section
variable {plus : Number → Number → Number} {r : Registry} {l : Ledger}

theorem Refines.get? (h : Refines plus r l) (name : JsString) :
    r.metrics.get? name = (l.accounts.get? name).map (Account.metric plus) := by
  rw [h.metrics, JsMap.get?_map]

theorem Refines.set (h : Refines plus r l) (name : JsString) (account : Account) :
    Refines plus { r with metrics := r.metrics.set name (account.metric plus) }
      { l with accounts := l.accounts.set name account } := by
  refine ⟨h.namePrefix, h.maxSeries, ?_⟩
  dsimp only
  rw [h.metrics, JsMap.map_set]

theorem Account.metric_kind (plus : Number → Number → Number) (a : Account) : (a.metric plus).kind = a.book.kind := by
  cases hbook : a.book <;> simp [Account.metric, hbook, Metric.kind, Book.kind]

/-! ## Declarations -/

theorem after_of_error {call : Call} {e : MetricError} (h : r.perform plus call = .error e) :
    r.after plus call = r := by
  rw [Registry.after, h]

theorem after_of_ok {call : Call} {r' : Registry} (h : r.perform plus call = .ok r') :
    r.after plus call = r' := by
  rw [Registry.after, h]

theorem Refines.declare (h : Refines plus r l) {call : Call} {name : JsString}
    {help : Option JsString} (book : Book) {make : Except MetricError Metric}
    (hperform : r.perform plus call = r.getOrCreate name make book.kind)
    (hmake : make = if isMetricName (l.namePrefix ++ name) = false then
        .error (.invalidMetricName (l.namePrefix ++ name))
      else .ok ((Account.mk (l.namePrefix ++ name) (help.getD name) book).metric plus)) :
    Refines plus (r.after plus call) (l.declare name help book) := by
  rw [Registry.after, hperform, Registry.getOrCreate, h.get?, Ledger.declare, hmake]
  cases hget : l.accounts.get? name with
  | some account =>
    have htaken : ¬ ((some account).isNone = true ∧
        isMetricName (l.namePrefix ++ name) = true) := by
      rintro ⟨hnone, -⟩
      cases hnone
    rw [Option.map_some, if_neg htaken]
    dsimp only
    by_cases hkind : (account.metric plus).kind ≠ book.kind
    · rw [if_pos hkind]
      exact h
    · rw [if_neg hkind]
      exact h
  | none =>
    rw [Option.map_none]
    by_cases hname : isMetricName (l.namePrefix ++ name) = true
    · rw [if_neg (by simp [hname]), if_pos ⟨rfl, hname⟩]
      exact h.set name _
    · rw [if_pos (by simpa using hname), if_neg fun hnew => hname hnew.2]
      exact h

theorem Refines.counter (h : Refines plus r l) (name : JsString) (help : Option JsString) :
    Refines plus (r.after plus (.counter name help)) (l.after (.counter name help)) := by
  refine h.declare (.counter []) rfl ?_
  rw [Counter.new, h.namePrefix]
  rfl

theorem Refines.gauge (h : Refines plus r l) (name : JsString) (help : Option JsString) :
    Refines plus (r.after plus (.gauge name help)) (l.after (.gauge name help)) := by
  refine h.declare (.gauge []) rfl ?_
  rw [Gauge.new, h.namePrefix]
  rfl

theorem after_not_made {call : Call} {name : JsString} {kind : Kind} {e : MetricError}
    (hperform : r.perform plus call = r.getOrCreate name (.error e) kind) :
    r.after plus call = r := by
  rw [Registry.after, hperform, Registry.getOrCreate]
  cases r.metrics.get? name with
  | none => rfl
  | some existing =>
    dsimp only
    by_cases hkind : existing.kind ≠ kind
    · rw [if_pos hkind]
    · rw [if_neg hkind]

/-! ## Recordings -/

theorem within_of_set {name : JsString} {account : Account}
    (hcap : Ledger.WithinCap { l with accounts := l.accounts.set name account }) :
    account.book.labelSets.length ≤ l.maxSeries :=
  hcap account (JsMap.mem_values.mpr ⟨name, by rw [JsMap.get?_set, if_pos rfl]⟩)

theorem Refines.refused (h : Refines plus r l) {call : Call} {name : JsString}
    {labels : Option MetricLabels} {write : LabelSet → Book → Option Book} {e : MetricError}
    (hperform : r.perform plus call = .error e)
    (hwrite : ∀ account, l.accounts.get? name = some account →
      ∀ entries, write entries account.book = none) :
    Refines plus (r.after plus call) (l.write name labels write) := by
  have hstay : l.write name labels write = l := by
    rw [Ledger.write]
    split
    · next account entries haccount hlabels => rw [hwrite account haccount entries]
    · rfl
  rw [after_of_error hperform, hstay]
  exact h

theorem Refines.recorded (h : Refines plus r l) {α σ : Type} {apply : Option σ → α → σ}
    {call : Call} {name : JsString} {labels : Option MetricLabels}
    {write : LabelSet → Book → Option Book} {account : Account} {make : SeriesMap σ → Metric}
    (book : List (LabelSet × α) → Book) (history : List (LabelSet × α)) (change : α)
    (haccount : l.accounts.get? name = some account)
    (hmetric : ∀ history, ({ account with book := book history } : Account).metric plus =
      make (tally apply seriesKey history))
    (hlabels : ∀ history, (book history).labelSets = labelsOf history)
    (hperform : r.perform plus call = r.store plus name make
      ((normalizeLabels labels).map fun entries =>
        touch r.maxSeries (tally apply seriesKey history) entries fun s => apply s change))
    (hwrite : ∀ entries, write entries account.book = some (book (history ++ [(entries, change)])))
    (hcap : (l.write name labels write).WithinCap) :
    Refines plus (r.after plus call) (l.write name labels write) := by
  rw [Ledger.write, haccount] at hcap ⊢
  cases hentries : normalizeLabels labels with
  | error e =>
    rw [hentries] at hperform
    rw [after_of_error hperform]
    exact h
  | ok entries =>
    rw [hentries] at hperform hcap
    dsimp only at hcap ⊢
    rw [hwrite] at hcap ⊢
    dsimp only at hcap ⊢
    have hwithin := within_of_set hcap
    dsimp only at hwithin
    rw [hlabels, ← h.maxSeries] at hwithin
    rw [Except.map, touch_tally hwithin, Registry.store, ← hmetric] at hperform
    rw [after_of_ok hperform]
    exact h.set name _

def Finds (r : Registry) (name : JsString) (kind : Kind) : Prop :=
  ∃ metric, r.metrics.get? name = some metric ∧ metric.kind = kind

theorem Refines.another (h : Refines plus r l) {call : Call} {name : JsString} (kind : Kind)
    {labels : Option MetricLabels} {write : LabelSet → Book → Option Book}
    (hperform : ¬ Finds r name kind → r.perform plus call = .error .noHandle)
    (hwrite : ∀ entries book, book.kind ≠ kind → write entries book = none)
    (hkind : ∀ account, l.accounts.get? name = some account → account.book.kind ≠ kind) :
    Refines plus (r.after plus call) (l.write name labels write) := by
  refine h.refused (hperform ?_) fun account haccount entries => hwrite _ _ (hkind _ haccount)
  rintro ⟨metric, hget, rfl⟩
  rw [h.get?] at hget
  obtain ⟨account, haccount, rfl⟩ := Option.map_eq_some_iff.mp hget
  exact hkind account haccount (account.metric_kind plus).symm

theorem Refines.counterInc (h : Refines plus r l) (name : JsString) (labels : Option MetricLabels)
    (value : Number) (hcap : (l.after (.counterInc name labels value)).WithinCap) :
    Refines plus (r.after plus (.counterInc name labels value))
      (l.after (.counterInc name labels value)) := by
  rw [Ledger.after] at hcap ⊢
  by_cases hkind : ∃ account, l.accounts.get? name = some account ∧ account.book.kind = .counter
  · obtain ⟨account, haccount, hcounter⟩ := hkind
    have hget := h.get? name
    obtain ⟨history, hbook⟩ : ∃ history, account.book = .counter history := by
      cases hbook : account.book with
      | counter history => exact ⟨history, rfl⟩
      | gauge history => simp [hbook, Book.kind] at hcounter
      | histogram bounds history => simp [hbook, Book.kind] at hcounter
    rw [haccount, Option.map_some, Account.metric, hbook] at hget
    dsimp only at hget
    have hperform : r.perform plus (.counterInc name labels value) = r.store plus name
        (.counter account.name account.help)
        (Counter.inc plus r.maxSeries (tally (summed plus) seriesKey history) labels value) := by
      rw [Registry.perform, hget]
    by_cases hvalue : value.isFinite = true ∧ value.isNegative = false
    · rw [Counter.inc, if_neg (by simp [hvalue.1]), if_neg (by simp [hvalue.2])] at hperform
      refine h.recorded Book.counter history value haccount (fun _ => rfl) (fun _ => rfl) hperform ?_ hcap
      intro entries
      rw [hbook, Book.increment, if_pos hvalue]
    · have hrefused : ∃ e, Counter.inc plus r.maxSeries (tally (summed plus) seriesKey history)
          labels value = .error e := by
        rw [Counter.inc]
        by_cases hfinite : value.isFinite = true
        · rw [if_neg (by simp [hfinite]), if_pos (by simpa [hfinite] using hvalue)]
          exact ⟨_, rfl⟩
        · rw [if_pos (by simpa using hfinite)]
          exact ⟨_, rfl⟩
      obtain ⟨e, hrefused⟩ := hrefused
      rw [hrefused] at hperform
      refine h.refused hperform fun account' hsome entries => ?_
      obtain rfl := Option.some.inj (haccount.symm.trans hsome)
      rw [hbook, Book.increment, if_neg hvalue]
  · refine h.another .counter ?_ ?_ fun account haccount hcounter =>
      hkind ⟨account, haccount, hcounter⟩
    · intro hfinds
      rw [Registry.perform]
      split
      · next hget => exact absurd ⟨_, hget, rfl⟩ hfinds
      · rfl
    · intro entries book hne
      cases book with
      | counter history => exact absurd rfl hne
      | gauge history => rfl
      | histogram bounds history => rfl

theorem Refines.onGauge (h : Refines plus r l) {call : Call} {name : JsString}
    {labels : Option MetricLabels} (change : Change)
    (hperform : ∀ full help series, r.metrics.get? name = some (.gauge full help series) →
      r.perform plus call = r.store plus name (.gauge full help)
        ((normalizeLabels labels).map fun entries =>
          touch r.maxSeries series entries fun s => changed plus s change))
    (hother : ¬ Finds r name .gauge → r.perform plus call = .error .noHandle)
    (hcap : (l.write name labels (Book.change change)).WithinCap) :
    Refines plus (r.after plus call) (l.write name labels (Book.change change)) := by
  by_cases hkind : ∃ account, l.accounts.get? name = some account ∧ account.book.kind = .gauge
  · obtain ⟨account, haccount, hgauge⟩ := hkind
    have hget := h.get? name
    obtain ⟨history, hbook⟩ : ∃ history, account.book = .gauge history := by
      cases hbook : account.book with
      | counter history => simp [hbook, Book.kind] at hgauge
      | gauge history => exact ⟨history, rfl⟩
      | histogram bounds history => simp [hbook, Book.kind] at hgauge
    rw [haccount, Option.map_some, Account.metric, hbook] at hget
    refine h.recorded Book.gauge history change haccount (fun _ => rfl) (fun _ => rfl)
      (hperform _ _ _ hget) ?_ hcap
    intro entries
    rw [hbook]
    rfl
  · refine h.another .gauge hother ?_ fun account haccount hgauge => hkind ⟨account, haccount, hgauge⟩
    intro entries book hne
    cases book with
    | counter history => rfl
    | gauge history => exact absurd rfl hne
    | histogram bounds history => rfl

theorem Refines.observe (h : Refines plus r l) (name : JsString) (labels : Option MetricLabels)
    (value : Number) (hcap : (l.after (.observe name labels value)).WithinCap) :
    Refines plus (r.after plus (.observe name labels value))
      (l.after (.observe name labels value)) := by
  rw [Ledger.after] at hcap ⊢
  by_cases hkind : ∃ account, l.accounts.get? name = some account ∧ account.book.kind = .histogram
  · obtain ⟨account, haccount, hhistogram⟩ := hkind
    have hget := h.get? name
    obtain ⟨bounds, history, hbook⟩ : ∃ bounds history, account.book = .histogram bounds history := by
      cases hbook : account.book with
      | counter history => simp [hbook, Book.kind] at hhistogram
      | gauge history => simp [hbook, Book.kind] at hhistogram
      | histogram bounds history => exact ⟨bounds, history, rfl⟩
    rw [haccount, Option.map_some, Account.metric, hbook] at hget
    dsimp only at hget
    have hperform : r.perform plus (.observe name labels value) = r.store plus name
        (.histogram account.name account.help bounds) (Histogram.observe plus bounds r.maxSeries
          (tally (counted plus bounds) seriesKey history) labels value) := by
      rw [Registry.perform, hget]
    by_cases hfinite : value.isFinite = true
    · rw [Histogram.observe, if_neg (by simp [hfinite])] at hperform
      refine h.recorded (Book.histogram bounds) history value haccount (fun _ => rfl)
        (fun _ => rfl) hperform ?_ hcap
      intro entries
      rw [hbook, Book.observation, if_pos hfinite]
    · rw [Histogram.observe, if_pos (by simpa using hfinite)] at hperform
      refine h.refused hperform fun account' hsome entries => ?_
      obtain rfl := Option.some.inj (haccount.symm.trans hsome)
      rw [hbook, Book.observation, if_neg hfinite]
  · refine h.another .histogram ?_ ?_ fun account haccount hhistogram =>
      hkind ⟨account, haccount, hhistogram⟩
    · intro hfinds
      rw [Registry.perform]
      split
      · next hget => exact absurd ⟨_, hget, rfl⟩ hfinds
      · rfl
    · intro entries book hne
      cases book with
      | counter history => rfl
      | gauge history => rfl
      | histogram bounds history => exact absurd rfl hne

/-! ## Runs -/

theorem Refines.after (h : Refines plus r l) (call : Call) (hcap : (l.after call).WithinCap) :
    Refines plus (r.after plus call) (l.after call) := by
  cases call with
  | counter name help => exact h.counter name help
  | gauge name help => exact h.gauge name help
  | histogram name help buckets =>
    rw [Ledger.after]
    by_cases hvalid : validBuckets (buckets.getD defaultDurationBuckets) = true
    · rw [if_pos hvalid]
      refine h.declare (.histogram _ []) rfl ?_
      have hnot : ¬ (sortedBuckets (buckets.getD defaultDurationBuckets) = [] ∨
          (sortedBuckets (buckets.getD defaultDurationBuckets)).any
            (fun b => !b.isFinite) = true) := by
        rw [sortedBuckets_refused, hvalid]
        exact Bool.noConfusion
      rw [Histogram.new, h.namePrefix, if_neg hnot]
      rfl
    · have hrefused : ∃ e, Histogram.new (r.namePrefix ++ name) (help.getD name)
          (buckets.getD defaultDurationBuckets) = .error e := by
        rw [Histogram.new, if_pos ((sortedBuckets_refused _).mpr (by simpa using hvalid))]
        split
        · exact ⟨_, rfl⟩
        · exact ⟨_, rfl⟩
      obtain ⟨e, hrefused⟩ := hrefused
      have hperform : r.perform plus (.histogram name help buckets) =
          r.getOrCreate name (.error e) .histogram := by
        rw [Registry.perform, Registry.histogram, hrefused]
      rw [if_neg hvalid, after_not_made hperform]
      exact h
  | counterInc name labels value => exact h.counterInc name labels value hcap
  | gaugeSet name labels value =>
    refine h.onGauge (.set value) (fun full help series hget => ?_) (fun hfinds => ?_) hcap
    · rw [Registry.perform, hget]
      rfl
    · rw [Registry.perform]
      split
      · next hget => exact absurd ⟨_, hget, rfl⟩ hfinds
      · rfl
  | gaugeInc name labels value =>
    refine h.onGauge (.add value) (fun full help series hget => ?_) (fun hfinds => ?_) hcap
    · rw [Registry.perform, hget]
      rfl
    · rw [Registry.perform]
      split
      · next hget => exact absurd ⟨_, hget, rfl⟩ hfinds
      · rfl
  | gaugeDec name labels value =>
    refine h.onGauge (.add value.neg) (fun full help series hget => ?_) (fun hfinds => ?_) hcap
    · rw [Registry.perform, hget]
      rfl
    · rw [Registry.perform]
      split
      · next hget => exact absurd ⟨_, hget, rfl⟩ hfinds
      · rfl
  | observe name labels value => exact h.observe name labels value hcap
  | reset =>
    refine ⟨h.namePrefix, h.maxSeries, ?_⟩
    show r.metrics.mapValues Metric.clear = _
    rw [h.metrics]
    refine (JsMap.map_mapValues _ fun account => ?_).symm
    cases hbook : account.book <;>
      simp [Account.metric, Account.cleared, Book.cleared, Metric.clear, hbook, tally]

theorem Refines.run (h : Refines plus r l) {calls : List Call} (hcap : l.RunsWithinCap calls) :
    Refines plus (r.run plus calls) (l.run calls) := by
  induction calls generalizing r l with
  | nil => exact h
  | cons call calls ih => exact ih (h.after call hcap.1) hcap.2

/-! ## A new registry -/

theorem Refines.counter_ok (h : Refines plus r l) {name : JsString} {help : Option JsString}
    {r' : Registry} (hok : r.counter name help = .ok r') :
    Refines plus r' (l.after (.counter name help)) := by
  have hafter := h.counter name help
  rw [after_of_ok (show r.perform plus (.counter name help) = .ok r' from hok)] at hafter
  exact hafter

theorem Refines.gauge_ok (h : Refines plus r l) {name : JsString} {help : Option JsString}
    {r' : Registry} (hok : r.gauge name help = .ok r') :
    Refines plus r' (l.after (.gauge name help)) := by
  have hafter := h.gauge name help
  rw [after_of_ok (show r.perform plus (.gauge name help) = .ok r' from hok)] at hafter
  exact hafter

theorem refines_registerDefaultMetrics (h : Refines plus r l) {hasProcess : Bool} {r' : Registry}
    (hok : registerDefaultMetrics r hasProcess = .ok r') :
    Refines plus r' (l.run (defaultCalls r.namePrefix hasProcess)) := by
  rw [registerDefaultMetrics] at hok
  obtain ⟨r₁, hdropped, hok⟩ := Fallible.bind_eq_ok.mp hok
  have h₁ := h.counter_ok hdropped
  have h₂ : Refines plus { r₁ with droppedCounter := some (droppedName r.namePrefix) } _ :=
    ⟨h₁.namePrefix, h₁.maxSeries, h₁.metrics⟩
  cases hasProcess with
  | false =>
    obtain rfl := Except.ok.inj hok
    exact h₂
  | true =>
    dsimp only at hok
    rw [if_pos rfl] at hok
    obtain ⟨r₃, hmemory, hok⟩ := Fallible.bind_eq_ok.mp hok
    obtain ⟨r₄, hheap, huptime⟩ := Fallible.bind_eq_ok.mp hok
    exact ((h₂.gauge_ok hmemory).gauge_ok hheap).gauge_ok huptime

theorem refines_new {opts : MetricsRegistryOptions} {hasProcess : Bool}
    (hok : Registry.new opts hasProcess = .ok r) : Refines plus r (Ledger.new opts hasProcess) := by
  rw [Registry.new, Fallible.check_eq_ok] at hok
  have hempty : Refines plus ⟨opts.namePrefix.getD [], seriesCap opts, ∅, none⟩
      ⟨opts.namePrefix.getD [], seriesCap opts, ∅⟩ := ⟨rfl, rfl, rfl⟩
  rw [Ledger.new]
  by_cases hcollect : opts.collectDefaultMetrics ≠ some false
  · rw [if_pos hcollect] at hok ⊢
    exact refines_registerDefaultMetrics hempty hok.2
  · rw [if_neg hcollect] at hok ⊢
    obtain rfl := Except.ok.inj hok.2
    exact hempty

theorem wellFormed_new (opts : MetricsRegistryOptions) (hasProcess : Bool) :
    (Ledger.new opts hasProcess).WellFormed := by
  have hempty : Ledger.WellFormed ⟨opts.namePrefix.getD [], seriesCap opts, ∅⟩ :=
    fun _ he => absurd he List.not_mem_nil
  rw [Ledger.new]
  split
  · exact hempty.run _
  · exact hempty

end

end Daloy.Metrics
