import Daloy.Metrics.Registry

/-! # What was recorded

A ledger says what metrics are for: under every name, what was recorded for which label set, in
order. The registry keeps it, a state in place of a history, as long as the cap admits every label
set.

* `Ledger.after`: a call writes into the ledger what it records.
* `Ledger.WellFormed`: names and buckets are as the exposition needs them.
* `Ledger.WellFormed.run`: so they are after any calls.
-/

namespace Daloy.Metrics
set_option autoImplicit false

open Daloy.Unicode Daloy.Json Daloy.Tallies Daloy.Exposition

/-! ## Accounts -/

/-- What is recorded on a gauge. -/
inductive Change
  | set (value : Number)
  | add (value : Number)
  deriving DecidableEq

/-- What was recorded on a metric, for each label set. -/
inductive Book
  | counter (history : List (LabelSet × Number))
  | gauge (history : List (LabelSet × Change))
  | histogram (bounds : List Number) (history : List (LabelSet × Number))
  deriving DecidableEq

structure Account where
  name : JsString
  help : JsString
  book : Book
  deriving DecidableEq

def Book.labelSets : Book → List LabelSet
  | .counter history => labelsOf history
  | .gauge history => labelsOf history
  | .histogram _ history => labelsOf history

def Book.kind : Book → Kind
  | .counter _ => .counter
  | .gauge _ => .gauge
  | .histogram .. => .histogram

def Book.cleared : Book → Book
  | .counter _ => .counter []
  | .gauge _ => .gauge []
  | .histogram bounds _ => .histogram bounds []

def Account.cleared (a : Account) : Account := { a with book := a.book.cleared }

section
variable (plus : Number → Number → Number)

def summed (s : Option Number) (value : Number) : Number := added plus value s

def changed (s : Option Number) : Change → Number
  | .set value => value
  | .add value => added plus value s

def counted (bounds : List Number) (s : Option HistogramState) (value : Number) : HistogramState :=
  observed plus bounds value (s.getD (HistogramState.fresh bounds))

def Account.metric (a : Account) : Metric :=
  match a.book with
  | .counter history => .counter a.name a.help (tally (summed plus) seriesKey history)
  | .gauge history => .gauge a.name a.help (tally (changed plus) seriesKey history)
  | .histogram bounds history =>
    .histogram a.name a.help bounds (tally (counted plus bounds) seriesKey history)

end

/-! ## Ledgers -/

structure Ledger where
  namePrefix : JsString
  maxSeries : ℕ
  accounts : JsMap JsString Account
  deriving DecidableEq

def Ledger.declare (l : Ledger) (name : JsString) (help : Option JsString) (book : Book) : Ledger :=
  if (l.accounts.get? name).isNone = true ∧ isMetricName (l.namePrefix ++ name) = true then
    { l with accounts := l.accounts.set name ⟨l.namePrefix ++ name, help.getD name, book⟩ }
  else l

/-- Something is written into the book of an account, where the labels are valid. -/
def Ledger.write (l : Ledger) (name : JsString) (labels : Option MetricLabels)
    (write : LabelSet → Book → Option Book) : Ledger :=
  match l.accounts.get? name, normalizeLabels labels with
  | some account, .ok labels =>
    match write labels account.book with
    | some book => { l with accounts := l.accounts.set name { account with book := book } }
    | none => l
  | _, _ => l

def Book.increment (value : Number) (labels : LabelSet) : Book → Option Book
  | .counter history =>
    if value.isFinite = true ∧ value.isNegative = false then
      some (.counter (history ++ [(labels, value)]))
    else none
  | _ => none

def Book.change (change : Change) (labels : LabelSet) : Book → Option Book
  | .gauge history => some (.gauge (history ++ [(labels, change)]))
  | _ => none

def Book.observation (value : Number) (labels : LabelSet) : Book → Option Book
  | .histogram bounds history =>
    if value.isFinite = true then some (.histogram bounds (history ++ [(labels, value)])) else none
  | _ => none

def validBuckets (buckets : List Number) : Bool :=
  buckets ≠ [] ∧ buckets.all Number.isFinite = true

def Ledger.after (l : Ledger) : Call → Ledger
  | .counter name help => l.declare name help (.counter [])
  | .gauge name help => l.declare name help (.gauge [])
  | .histogram name help buckets =>
    if validBuckets (buckets.getD defaultDurationBuckets) = true then
      l.declare name help (.histogram (sortedBuckets (buckets.getD defaultDurationBuckets)) [])
    else l
  | .counterInc name labels value => l.write name labels (Book.increment value)
  | .gaugeSet name labels value => l.write name labels (Book.change (.set value))
  | .gaugeInc name labels value => l.write name labels (Book.change (.add value))
  | .gaugeDec name labels value => l.write name labels (Book.change (.add value.neg))
  | .observe name labels value => l.write name labels (Book.observation value)
  | .reset => { l with accounts := l.accounts.mapValues Account.cleared }

def Ledger.run (l : Ledger) (calls : List Call) : Ledger := calls.foldl Ledger.after l

def defaultCalls (namePrefix : JsString) (hasProcess : Bool) : List Call :=
  .counter (droppedName namePrefix) (some droppedHelp) ::
    if hasProcess then
      [.gauge (js "process_resident_memory_bytes") (some (js "Resident memory size in bytes.")),
        .gauge (js "process_heap_used_bytes") (some (js "Node.js heap used in bytes.")),
        .gauge (js "process_uptime_seconds") (some (js "Process uptime in seconds."))]
    else []

def Ledger.new (opts : MetricsRegistryOptions) (hasProcess : Bool) : Ledger :=
  if opts.collectDefaultMetrics ≠ some false then
    Ledger.run ⟨opts.namePrefix.getD [], seriesCap opts, ∅⟩
      (defaultCalls (opts.namePrefix.getD []) hasProcess)
  else ⟨opts.namePrefix.getD [], seriesCap opts, ∅⟩

def Ledger.WithinCap (l : Ledger) : Prop :=
  ∀ account ∈ l.accounts.values, account.book.labelSets.length ≤ l.maxSeries

def Ledger.RunsWithinCap (l : Ledger) : List Call → Prop
  | [] => True
  | call :: calls => (l.after call).WithinCap ∧ (l.after call).RunsWithinCap calls

/-! ## Well-formed ledgers -/

/-- The buckets of a histogram: finite, in order, with different texts. -/
structure BoundsSorted (bounds : List Number) : Prop where
  finite : ∀ b ∈ bounds, b.isFinite = true
  texts : (bounds.map Number.text).Nodup
  sorted : bounds.Pairwise bucketLe

def Book.Sorted : Book → Prop
  | .histogram bounds _ => BoundsSorted bounds
  | _ => True

def Ledger.WellFormed (l : Ledger) : Prop :=
  ∀ e ∈ l.accounts.entries, e.2.name = l.namePrefix ++ e.1 ∧ isMetricName e.2.name = true ∧
    e.2.book.Sorted

theorem mem_sortedBuckets {buckets : List Number} {b : Number} :
    b ∈ sortedBuckets buckets ↔ b ∈ buckets.map Number.normal := by
  rw [sortedBuckets, List.mem_insertionSort, List.mem_dedup]

theorem isFinite_normal (b : Number) : b.normal.isFinite = b.isFinite := by
  cases b <;> rfl

theorem boundsSorted {buckets : List Number} (h : validBuckets buckets = true) :
    BoundsSorted (sortedBuckets buckets) := by
  have hall : buckets.all Number.isFinite = true := by
    rw [validBuckets, decide_eq_true_eq] at h
    exact h.2
  have hnormal : ∀ b ∈ sortedBuckets buckets, b.isFinite = true ∧ b.normal = b := by
    intro b hb
    obtain ⟨a, ha, rfl⟩ := List.mem_map.mp (mem_sortedBuckets.mp hb)
    refine ⟨(isFinite_normal a).trans (List.all_eq_true.mp hall a ha), ?_⟩
    cases a <;> rfl
  refine ⟨fun b hb => (hnormal b hb).1, ?_, List.pairwise_insertionSort bucketLe _⟩
  refine List.Nodup.map_on ?_ ?_
  · intro a ha b hb htext
    have heq := Number.normal_eq_of_text (hnormal a ha).1 (hnormal b hb).1 htext
    rw [(hnormal a ha).2, (hnormal b hb).2] at heq
    exact heq
  · exact (List.perm_insertionSort bucketLe _).nodup_iff.mpr (List.nodup_dedup _)

theorem sortedBuckets_refused (buckets : List Number) :
    (sortedBuckets buckets = [] ∨ (sortedBuckets buckets).any (fun b => !b.isFinite) = true) ↔
      validBuckets buckets = false := by
  have hnil : sortedBuckets buckets = [] ↔ buckets = [] := by
    rw [List.eq_nil_iff_forall_not_mem, List.eq_nil_iff_forall_not_mem]
    constructor
    · intro h b hb
      exact h b.normal (mem_sortedBuckets.mpr (List.mem_map_of_mem hb))
    · intro h b hb
      obtain ⟨a, ha, -⟩ := List.mem_map.mp (mem_sortedBuckets.mp hb)
      exact h a ha
  have hany : (sortedBuckets buckets).any (fun b => !b.isFinite) = true ↔
      ¬ buckets.all Number.isFinite = true := by
    rw [List.any_eq_true, List.all_eq_true]
    constructor
    · rintro ⟨b, hb, hfinite⟩ hall
      obtain ⟨a, ha, rfl⟩ := List.mem_map.mp (mem_sortedBuckets.mp hb)
      rw [isFinite_normal, hall a ha] at hfinite
      cases hfinite
    · intro h
      by_contra hnone
      refine h fun a ha => ?_
      by_contra hfinite
      refine hnone ⟨a.normal, mem_sortedBuckets.mpr (List.mem_map_of_mem ha), ?_⟩
      rw [isFinite_normal, Bool.not_eq_true] at *
      rw [hfinite]
      rfl
  rw [hnil, hany, validBuckets, decide_eq_false_iff_not]
  tauto

theorem mem_entries_set {m : JsMap JsString Account} {name : JsString} {a : Account}
    {e : JsString × Account} (h : e ∈ (m.set name a).entries) :
    e = (name, a) ∨ e ∈ m.entries := by
  have hget := JsMap.get?_eq_some.mpr (show (e.1, e.2) ∈ (m.set name a).entries from h)
  rw [JsMap.get?_set] at hget
  split at hget
  · next heq => exact .inl (Prod.ext heq (Option.some.inj hget).symm)
  · exact .inr (JsMap.get?_eq_some.mp hget)

theorem Ledger.WellFormed.declare {l : Ledger} (h : l.WellFormed) (name : JsString)
    (help : Option JsString) {book : Book} (hbook : book.Sorted) :
    (l.declare name help book).WellFormed := by
  rw [Ledger.declare]
  split
  · next hnew =>
    intro e he
    obtain rfl | he := mem_entries_set he
    · exact ⟨rfl, hnew.2, hbook⟩
    · exact h e he
  · exact h

theorem Ledger.WellFormed.write {l : Ledger} (h : l.WellFormed) (name : JsString)
    (labels : Option MetricLabels) {write : LabelSet → Book → Option Book}
    (hwrite : ∀ labels book book', write labels book = some book' → book.Sorted → book'.Sorted) :
    (l.write name labels write).WellFormed := by
  rw [Ledger.write]
  split
  · next account labels haccount hlabels =>
    split
    · next book hbook =>
      intro e he
      obtain ⟨hname, hvalid, hsorted⟩ := h (name, account) (JsMap.get?_eq_some.mp haccount)
      obtain rfl | he := mem_entries_set he
      · exact ⟨hname, hvalid, hwrite labels account.book book hbook hsorted⟩
      · exact h e he
    · exact h
  · exact h

theorem Ledger.WellFormed.after {l : Ledger} (h : l.WellFormed) (call : Call) :
    (l.after call).WellFormed := by
  cases call with
  | counter name help => exact h.declare name help trivial
  | gauge name help => exact h.declare name help trivial
  | histogram name help buckets =>
    rw [Ledger.after]
    split
    · next hvalid => exact h.declare name help (boundsSorted hvalid)
    · exact h
  | counterInc name labels value =>
    refine h.write name labels fun labels book book' hbook hsorted => ?_
    cases book with
    | counter history =>
      rw [Book.increment] at hbook
      split at hbook
      · obtain rfl := Option.some.inj hbook
        trivial
      · cases hbook
    | gauge history => cases hbook
    | histogram bounds history => cases hbook
  | gaugeSet name labels value =>
    refine h.write name labels fun labels book book' hbook hsorted => ?_
    cases book <;> cases hbook
    trivial
  | gaugeInc name labels value =>
    refine h.write name labels fun labels book book' hbook hsorted => ?_
    cases book <;> cases hbook
    trivial
  | gaugeDec name labels value =>
    refine h.write name labels fun labels book book' hbook hsorted => ?_
    cases book <;> cases hbook
    trivial
  | observe name labels value =>
    refine h.write name labels fun labels book book' hbook hsorted => ?_
    cases book with
    | counter history => cases hbook
    | gauge history => cases hbook
    | histogram bounds history =>
      rw [Book.observation] at hbook
      split at hbook
      · obtain rfl := Option.some.inj hbook
        exact hsorted
      · cases hbook
  | reset =>
    intro e he
    obtain ⟨f, hf, rfl⟩ := List.mem_map.mp he
    obtain ⟨hname, hvalid, hsorted⟩ := h f hf
    refine ⟨hname, hvalid, ?_⟩
    show f.2.book.cleared.Sorted
    cases hbook : f.2.book with
    | counter history => trivial
    | gauge history => trivial
    | histogram bounds history =>
      rw [hbook] at hsorted
      exact hsorted

theorem Ledger.WellFormed.run {l : Ledger} (h : l.WellFormed) (calls : List Call) :
    (l.run calls).WellFormed := by
  induction calls generalizing l with
  | nil => exact h
  | cons call calls ih => exact ih (h.after call)

end Daloy.Metrics
