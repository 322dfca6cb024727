import Daloy.Metrics.Exposed
import Mathlib.Algebra.Order.BigOperators.Group.List
import Mathlib.Data.List.Pairwise

/-! # When the exposition is faithful

* `samples_perm`, `length_metric_samples`: a metric shows the samples of its account where no two label
  sets share a key, and fewer of them where two do.
* `nodup_keys_iff`: when no two samples are for the same name and labels.
-/

namespace Daloy.Metrics
set_option autoImplicit false

open Daloy.Unicode Daloy.Json Daloy.Tallies Daloy.Exposition

/-! ## The states of a histogram -/

theorem outcome_gathered (observations : List Number) :
    outcome gathered observations = if observations = [] then none else some observations := by
  induction observations using List.reverseRecOn with
  | nil => rfl
  | append_singleton observations value ih =>
    have hne : observations ++ [value] ≠ [] := by simp
    rw [outcome_append, ih, if_neg hne, gathered]
    by_cases h : observations = []
    · rw [if_pos h, Option.getD_none, h]
    · rw [if_neg h, Option.getD_some]

/-- The state of a histogram after some observations; its counts stop at `2 ^ 53`. -/
def stateOf (plus : Number → Number → Number) (bounds : List Number)
    (observations : List Number) : HistogramState where
  counts := bounds.map fun b => min (notAbove b observations) (2 ^ 53)
  sum := total plus observations
  count := min observations.length (2 ^ 53)

theorem increment_min (n : ℕ) : increment (min n (2 ^ 53)) = min (n + 1) (2 ^ 53) := by
  rw [increment]
  omega

section
variable {plus : Number → Number → Number}

theorem stateOf_nil (bounds : List Number) :
    stateOf plus bounds [] = HistogramState.fresh bounds := by
  rw [stateOf, HistogramState.fresh]
  simp [notAbove, total]

theorem observed_stateOf (bounds observations : List Number) (value : Number) :
    observed plus bounds value (stateOf plus bounds observations) =
      stateOf plus bounds (observations ++ [value]) := by
  have hcount : ∀ b, (if atMost value b then increment (min (notAbove b observations) (2 ^ 53))
      else min (notAbove b observations) (2 ^ 53)) =
        min (notAbove b (observations ++ [value])) (2 ^ 53) := by
    intro b
    rw [notAbove, notAbove, List.countP_append, List.countP_singleton, increment_min]
    split <;> rfl
  rw [observed, stateOf, stateOf, List.length_append, List.length_singleton, increment_min, total,
    total, List.foldl_append, List.zipWith_map_right, List.zipWith_self]
  simp only [hcount]
  rfl

theorem outcome_counted (bounds observations : List Number) :
    outcome (counted plus bounds) observations =
      (outcome gathered observations).map (stateOf plus bounds) := by
  have hgetD : ∀ observations : List Number,
      ((outcome gathered observations).map (stateOf plus bounds)).getD
        (HistogramState.fresh bounds) = stateOf plus bounds observations := by
    intro observations
    rw [outcome_gathered]
    split
    · next h => rw [h, Option.map_none, Option.getD_none, stateOf_nil]
    · rw [Option.map_some, Option.getD_some]
  induction observations using List.reverseRecOn with
  | nil => rfl
  | append_singleton observations value ih =>
    rw [outcome_append, ih, counted, hgetD, observed_stateOf, outcome_gathered, if_neg (by simp),
      Option.map_some]

/-! ## One account -/

def Book.KeysApart : Book → Prop
  | .counter history => Tallies.KeysApart seriesKey history
  | .gauge history => Tallies.KeysApart seriesKey history
  | .histogram _ history => Tallies.KeysApart seriesKey history

def Book.Counted : Book → Prop
  | .histogram _ history =>
    ∀ labels ∈ labelsOf history, (changesOf (fun j => j = labels) history).length ≤ 2 ^ 53
  | _ => True

theorem keptSamples_stateOf {name : JsString} {bounds : List Number}
    {s : Series LabelSet (List Number)} (h : s.state.length ≤ 2 ^ 53) :
    keptSamples name bounds ⟨s.labels, stateOf plus bounds s.state⟩ =
      observedSamples plus name bounds s := by
  have hcounts : (bounds.map fun b => min (notAbove b s.state) (2 ^ 53)) =
      bounds.map fun b => notAbove b s.state := by
    refine List.map_congr_left fun b _ => ?_
    exact Nat.min_eq_left (le_trans List.countP_le_length h)
  rw [keptSamples, observedSamples, stateOf, hcounts, Nat.min_eq_left h]

theorem state_of_mem_series {history : List (LabelSet × Number)}
    {s : Series LabelSet (List Number)} (h : s ∈ series gathered history) :
    s.labels ∈ labelsOf history ∧
      s.state = changesOf (fun j => j = s.labels) history := by
  obtain ⟨hmem, houtcome⟩ := mem_series.mp h
  rw [outcome_gathered] at houtcome
  split at houtcome
  · cases houtcome
  · exact ⟨hmem, (Option.some.inj houtcome).symm⟩

theorem samples_perm {a : Account} (hkeys : a.book.KeysApart) (hcounted : a.book.Counted) :
    (a.metric plus).samples.Perm (a.samples plus) := by
  rw [Account.metric, Account.samples]
  cases hbook : a.book with
  | counter history =>
    rw [hbook] at hkeys
    exact (values_tally_perm hkeys).map _
  | gauge history =>
    rw [hbook] at hkeys
    exact (values_tally_perm hkeys).map _
  | histogram bounds history =>
    rw [hbook] at hkeys hcounted
    refine ((values_tally_perm hkeys).flatMap_right _).trans ?_
    rw [series_map (outcome_counted bounds), List.flatMap_map]
    refine List.Perm.of_eq (List.flatMap_congr fun s hs => ?_)
    obtain ⟨hmem, hstate⟩ := state_of_mem_series hs
    exact keptSamples_stateOf (hstate ▸ hcounted s.labels hmem)

def Book.width : Book → ℕ
  | .histogram bounds _ => bounds.length + 3
  | _ => 1

theorem length_flatMap_of_const {α β : Type} {l : List α} {f : α → List β} {n : ℕ}
    (h : ∀ a ∈ l, (f a).length = n) : (l.flatMap f).length = l.length * n := by
  induction l with
  | nil => simp
  | cons a l ih =>
    rw [List.flatMap_cons, List.length_append, h a List.mem_cons_self,
      ih fun b hb => h b (List.mem_cons_of_mem _ hb), List.length_cons, Nat.succ_mul]
    omega

theorem length_observedSamples (name : JsString) (bounds : List Number)
    (s : Series LabelSet (List Number)) :
    (observedSamples plus name bounds s).length = bounds.length + 3 := by
  simp [observedSamples, histogramSamples]

theorem length_counts {bounds : List Number} {history : List (LabelSet × Number)}
    {s : Series LabelSet HistogramState}
    (h : s ∈ (tally (counted plus bounds) seriesKey history).values) :
    s.state.counts.length = bounds.length := by
  obtain ⟨k, hget⟩ := JsMap.mem_values.mp h
  rw [get?_tally] at hget
  obtain ⟨e, -, hs⟩ := Option.bind_eq_some_iff.mp hget
  obtain ⟨state, houtcome, rfl⟩ := Option.map_eq_some_iff.mp hs
  rw [outcome_counted] at houtcome
  obtain ⟨observations, -, rfl⟩ := Option.map_eq_some_iff.mp houtcome
  simp [stateOf]

theorem length_keptSamples {name : JsString} {bounds : List Number}
    {s : Series LabelSet HistogramState} (h : s.state.counts.length = bounds.length) :
    (keptSamples name bounds s).length = bounds.length + 3 := by
  simp [keptSamples, histogramSamples, h]

theorem length_samples (a : Account) :
    (a.samples plus).length = a.book.labelSets.length * a.book.width := by
  rw [Account.samples]
  cases hbook : a.book with
  | counter history => simp [length_series, Book.labelSets, Book.width]
  | gauge history => simp [length_series, Book.labelSets, Book.width]
  | histogram bounds history =>
    dsimp only
    rw [length_flatMap_of_const fun s _ => length_observedSamples a.name bounds s, length_series]
    rfl

def Metric.size : Metric → ℕ
  | .counter _ _ series => series.values.length
  | .gauge _ _ series => series.values.length
  | .histogram _ _ _ series => series.values.length

theorem length_metric_samples (a : Account) :
    (a.metric plus).samples.length = (a.metric plus).size * a.book.width := by
  rw [Account.metric]
  cases hbook : a.book with
  | counter history => simp [Metric.samples, Metric.size, Book.width]
  | gauge history => simp [Metric.samples, Metric.size, Book.width]
  | histogram bounds history =>
    exact length_flatMap_of_const fun s hs => length_keptSamples (length_counts hs)

theorem size_le (a : Account) : (a.metric plus).size ≤ a.book.labelSets.length := by
  rw [Account.metric]
  cases hbook : a.book with
  | counter history => exact length_values_tally_le (summed plus) seriesKey history
  | gauge history => exact length_values_tally_le (changed plus) seriesKey history
  | histogram bounds history => exact length_values_tally_le (counted plus bounds) seriesKey history

theorem size_lt {a : Account} (h : ¬ a.book.KeysApart) :
    (a.metric plus).size < a.book.labelSets.length := by
  rw [Account.metric]
  cases hbook : a.book with
  | counter history =>
    rw [hbook] at h
    exact length_values_tally_lt (summed plus) seriesKey h
  | gauge history =>
    rw [hbook] at h
    exact length_values_tally_lt (changed plus) seriesKey h
  | histogram bounds history =>
    rw [hbook] at h
    exact length_values_tally_lt (counted plus bounds) seriesKey h

theorem width_pos (book : Book) : 0 < book.width := by
  cases book <;> simp [Book.width]

theorem keysApart_of_length {accounts : List Account}
    (h : (accounts.flatMap fun a => (a.metric plus).samples).length =
      (accounts.flatMap (Account.samples plus)).length) :
    ∀ a ∈ accounts, a.book.KeysApart := by
  rw [List.length_flatMap, List.length_flatMap] at h
  intro a ha
  by_contra hkeys
  refine absurd h (Nat.ne_of_lt (List.sum_lt_sum _ _ (fun b _ => ?_) ⟨a, ha, ?_⟩))
  · rw [length_metric_samples, length_samples]
    exact Nat.mul_le_mul_right _ (size_le b)
  · rw [length_metric_samples, length_samples]
    exact Nat.mul_lt_mul_of_pos_right (size_lt hkeys) (width_pos a.book)

end

/-! ## The keys of the samples -/

def histogramKeys (name : JsString) (bounds : List Number) (labels : LabelSet) :
    List (JsString × List Label) :=
  (bounds.map Number.text ++ [js "+Inf"]).map
      (fun t => (name ++ js "_bucket", labels.entries ++ [bucketLabel t])) ++
    [(name ++ js "_sum", labels.entries), (name ++ js "_count", labels.entries)]

def Account.keys (a : Account) : List (JsString × List Label) :=
  match a.book with
  | .counter history => (labelsOf history).map fun labels => (a.name, labels.entries)
  | .gauge history => (labelsOf history).map fun labels => (a.name, labels.entries)
  | .histogram bounds history => (labelsOf history).flatMap (histogramKeys a.name bounds)

theorem keys_observedSamples (plus : Number → Number → Number) (name : JsString)
    (bounds : List Number) (s : Series LabelSet (List Number)) :
    (observedSamples plus name bounds s).map Sample.key = histogramKeys name bounds s.labels := by
  rw [observedSamples, histogramSamples, List.zipWith_map_right, List.zipWith_self, histogramKeys]
  simp [Sample.key, Function.comp_def]

theorem keys_samples (plus : Number → Number → Number) (a : Account) :
    (a.samples plus).map Sample.key = a.keys := by
  rw [Account.samples, Account.keys]
  cases hbook : a.book with
  | counter history =>
    dsimp only
    rw [← labels_series (summed plus) history, List.map_map, List.map_map]
    rfl
  | gauge history =>
    dsimp only
    rw [← labels_series (changed plus) history, List.map_map, List.map_map]
    rfl
  | histogram bounds history =>
    dsimp only
    rw [← labels_series gathered history, List.map_flatMap, List.flatMap_map]
    exact List.flatMap_congr fun s _ => keys_observedSamples plus a.name bounds s

theorem append_ne {n n' s t : JsString} (hs : 2 ≤ s.length) (ht : 2 ≤ t.length)
    (h : s.reverse.take 2 ≠ t.reverse.take 2) : n ++ s ≠ n' ++ t := by
  intro heq
  have hreverse := congrArg (fun s => s.reverse.take 2) heq
  simp only [List.reverse_append] at hreverse
  rw [List.take_append_of_le_length (by simpa using hs),
    List.take_append_of_le_length (by simpa using ht)] at hreverse
  exact h hreverse

theorem mem_histogramKeys {name : JsString} {bounds : List Number} {labels : LabelSet}
    {k : JsString × List Label} : k ∈ histogramKeys name bounds labels ↔
      (∃ t ∈ bounds.map Number.text ++ [js "+Inf"],
        k = (name ++ js "_bucket", labels.entries ++ [bucketLabel t])) ∨
      k = (name ++ js "_sum", labels.entries) ∨ k = (name ++ js "_count", labels.entries) := by
  rw [histogramKeys, List.mem_append, List.mem_map]
  simp only [List.mem_cons, List.not_mem_nil, or_false, eq_comm]

theorem bucket_ne_sum (n n' : JsString) : n ++ js "_bucket" ≠ n' ++ js "_sum" :=
  append_ne (by decide) (by decide) (by decide)

theorem bucket_ne_count (n n' : JsString) : n ++ js "_bucket" ≠ n' ++ js "_count" :=
  append_ne (by decide) (by decide) (by decide)

theorem sum_ne_count (n n' : JsString) : n ++ js "_sum" ≠ n' ++ js "_count" :=
  append_ne (by decide) (by decide) (by decide)

theorem histogramKeys_disjoint {name name' : JsString} {bounds bounds' : List Number}
    {labels labels' : LabelSet} (h : name ≠ name' ∨ labels ≠ labels') :
    List.Disjoint (histogramKeys name bounds labels) (histogramKeys name' bounds' labels') := by
  have hsame : name = name' → labels.entries = labels'.entries → False := by
    intro hname hentries
    obtain h | h := h
    · exact h hname
    · exact h (LabelSet.eq_of_entries hentries)
  intro k hk hk'
  obtain ⟨t, -, rfl⟩ | rfl | rfl := mem_histogramKeys.mp hk
  · obtain ⟨t', -, heq⟩ | heq | heq := mem_histogramKeys.mp hk'
    · obtain ⟨hname, hentries⟩ := Prod.mk.inj heq
      exact hsame (List.append_cancel_right hname) (List.append_inj' hentries rfl).1
    · exact bucket_ne_sum _ _ (Prod.mk.inj heq).1
    · exact bucket_ne_count _ _ (Prod.mk.inj heq).1
  · obtain ⟨t', -, heq⟩ | heq | heq := mem_histogramKeys.mp hk'
    · exact bucket_ne_sum _ _ (Prod.mk.inj heq).1.symm
    · obtain ⟨hname, hentries⟩ := Prod.mk.inj heq
      exact hsame (List.append_cancel_right hname) hentries
    · exact sum_ne_count _ _ (Prod.mk.inj heq).1
  · obtain ⟨t', -, heq⟩ | heq | heq := mem_histogramKeys.mp hk'
    · exact bucket_ne_count _ _ (Prod.mk.inj heq).1.symm
    · exact sum_ne_count _ _ (Prod.mk.inj heq).1.symm
    · obtain ⟨hname, hentries⟩ := Prod.mk.inj heq
      exact hsame (List.append_cancel_right hname) hentries

theorem nodup_boundTexts {bounds : List Number} (h : BoundsSorted bounds) :
    (bounds.map Number.text ++ [js "+Inf"]).Nodup := by
  refine List.nodup_append.mpr ⟨h.texts, List.nodup_singleton _, ?_⟩
  intro t ht t' ht' heq
  obtain rfl := List.mem_singleton.mp ht'
  obtain ⟨b, hb, rfl⟩ := List.mem_map.mp ht
  obtain ⟨u, rest, htext, hu⟩ := Number.text_head (h.finite b hb)
  have hplus : u = 0x2B := by
    have hhead := congrArg List.head? (htext.symm.trans heq)
    rw [List.head?_cons] at hhead
    exact Option.some.inj hhead
  obtain hu | hu := hu <;> rw [hplus] at hu <;> exact absurd hu (by decide)

theorem nodup_histogramKeys {bounds : List Number} (h : BoundsSorted bounds) (name : JsString)
    (labels : LabelSet) : (histogramKeys name bounds labels).Nodup := by
  rw [histogramKeys]
  refine List.nodup_append.mpr ⟨?_, ?_, ?_⟩
  · refine (nodup_boundTexts h).map fun t t' heq => ?_
    have hlabel := List.append_cancel_left (Prod.mk.inj heq).2
    exact (Prod.mk.inj (List.cons.inj hlabel).1).2
  · rw [List.nodup_cons, List.mem_singleton]
    exact ⟨fun heq => sum_ne_count _ _ (Prod.mk.inj heq).1, List.nodup_singleton _⟩
  · intro k hk k' hk' heq
    obtain ⟨t, -, rfl⟩ := List.mem_map.mp hk
    obtain rfl | hk' := List.mem_cons.mp hk'
    · exact bucket_ne_sum _ _ (Prod.mk.inj heq).1
    · obtain rfl := List.mem_singleton.mp hk'
      exact bucket_ne_count _ _ (Prod.mk.inj heq).1

theorem nodup_plainKeys (name : JsString) {α : Type} (history : List (LabelSet × α)) :
    ((labelsOf history).map fun labels => (name, labels.entries)).Nodup :=
  (List.nodup_dedup _).map fun _ _ heq => LabelSet.eq_of_entries (Prod.mk.inj heq).2

theorem nodup_account_keys {a : Account} (h : a.book.Sorted) : a.keys.Nodup := by
  rw [Account.keys]
  cases hbook : a.book with
  | counter history => exact nodup_plainKeys a.name history
  | gauge history => exact nodup_plainKeys a.name history
  | histogram bounds history =>
    rw [hbook] at h
    refine List.nodup_flatMap.mpr ⟨fun labels _ => nodup_histogramKeys h a.name labels, ?_⟩
    exact (List.nodup_dedup _).imp fun hne => histogramKeys_disjoint (.inr hne)

/-! ## Whole ledgers -/

/-- No counter or gauge has the name of a histogram's sum or count, with a label set in common. -/
def Account.Apart (a b : Account) : Prop :=
  a.book.kind ≠ .histogram → b.book.kind = .histogram →
    (a.name = b.name ++ js "_sum" ∨ a.name = b.name ++ js "_count") →
      ∀ labels ∈ a.book.labelSets, labels ∉ b.book.labelSets

theorem mem_plain_keys {a : Account} (h : a.book.kind ≠ .histogram)
    {k : JsString × List Label} :
    k ∈ a.keys ↔ ∃ labels ∈ a.book.labelSets, k = (a.name, labels.entries) := by
  rw [Account.keys]
  cases hbook : a.book with
  | counter history => simp only [List.mem_map, Book.labelSets, eq_comm]
  | gauge history => simp only [List.mem_map, Book.labelSets, eq_comm]
  | histogram bounds history =>
    rw [hbook] at h
    exact absurd rfl h

theorem mem_histogram_keys {a : Account} (h : a.book.kind = .histogram) :
    ∃ bounds, ∀ k, k ∈ a.keys ↔
      ∃ labels ∈ a.book.labelSets, k ∈ histogramKeys a.name bounds labels := by
  cases hbook : a.book with
  | counter history =>
    rw [hbook] at h
    cases h
  | gauge history =>
    rw [hbook] at h
    cases h
  | histogram bounds history =>
    refine ⟨bounds, fun k => ?_⟩
    rw [Account.keys, hbook]
    exact List.mem_flatMap

theorem bucket_ne_plain (labels labels' : LabelSet) (t : JsString) :
    labels.entries ++ [bucketLabel t] ≠ labels'.entries := by
  intro heq
  have hmem : bucketLabel t ∈ labels'.entries := heq ▸ List.mem_append_right _ List.mem_cons_self
  exact (labels'.valid _ hmem).2 rfl

theorem plain_histogram_disjoint {a b : Account} (ha : a.book.kind ≠ .histogram)
    (hb : b.book.kind = .histogram) (h : a.Apart b) : List.Disjoint a.keys b.keys := by
  obtain ⟨bounds, hkeys⟩ := mem_histogram_keys hb
  intro k hk hk'
  obtain ⟨labels, hlabels, rfl⟩ := (mem_plain_keys ha).mp hk
  obtain ⟨labels', hlabels', hmem⟩ := (hkeys _).mp hk'
  have hcommon : labels.entries = labels'.entries →
      a.name = b.name ++ js "_sum" ∨ a.name = b.name ++ js "_count" → False := by
    intro hentries hname
    obtain rfl := LabelSet.eq_of_entries hentries
    exact h ha hb hname labels hlabels hlabels'
  obtain ⟨t, -, heq⟩ | heq | heq := mem_histogramKeys.mp hmem
  · exact bucket_ne_plain labels' labels t (Prod.mk.inj heq).2.symm
  · exact hcommon (Prod.mk.inj heq).2 (.inl (Prod.mk.inj heq).1)
  · exact hcommon (Prod.mk.inj heq).2 (.inr (Prod.mk.inj heq).1)

theorem keys_disjoint {a b : Account} (hne : a.name ≠ b.name) (hab : a.Apart b)
    (hba : b.Apart a) : List.Disjoint a.keys b.keys := by
  by_cases ha : a.book.kind = .histogram
  · by_cases hb : b.book.kind = .histogram
    · obtain ⟨bounds, hkeys⟩ := mem_histogram_keys ha
      obtain ⟨bounds', hkeys'⟩ := mem_histogram_keys hb
      intro k hk hk'
      obtain ⟨labels, -, hmem⟩ := (hkeys k).mp hk
      obtain ⟨labels', -, hmem'⟩ := (hkeys' k).mp hk'
      exact histogramKeys_disjoint (.inl hne) hmem hmem'
    · exact (plain_histogram_disjoint hb ha hba).symm
  · by_cases hb : b.book.kind = .histogram
    · exact plain_histogram_disjoint ha hb hab
    · intro k hk hk'
      obtain ⟨labels, -, rfl⟩ := (mem_plain_keys ha).mp hk
      obtain ⟨labels', -, heq⟩ := (mem_plain_keys hb).mp hk'
      exact hne (Prod.mk.inj heq).1

theorem not_disjoint {a b : Account} (h : ¬ a.Apart b) : ¬ List.Disjoint a.keys b.keys := by
  simp only [Account.Apart, not_forall, not_not] at h
  obtain ⟨ha, hb, hname, labels, hlabels, hlabels'⟩ := h
  obtain ⟨bounds, hkeys⟩ := mem_histogram_keys hb
  intro hdisjoint
  refine hdisjoint ((mem_plain_keys ha).mpr ⟨labels, hlabels, rfl⟩)
    ((hkeys _).mpr ⟨labels, hlabels', mem_histogramKeys.mpr (.inr ?_)⟩)
  obtain hname | hname := hname
  · exact .inl (by rw [hname])
  · exact .inr (by rw [hname])

theorem Ledger.WellFormed.names {l : Ledger} (h : l.WellFormed) :
    (l.accounts.values.map Account.name).Nodup := by
  have hnames : l.accounts.values.map Account.name =
      (l.accounts.entries.map Prod.fst).map (l.namePrefix ++ ·) := by
    rw [JsMap.values, List.map_map, List.map_map]
    exact List.map_congr_left fun e he => (h e he).1
  rw [hnames]
  exact l.accounts.nodup.map fun _ _ heq => List.append_cancel_left heq

theorem Ledger.WellFormed.mem_values {l : Ledger} (h : l.WellFormed) {a : Account}
    (ha : a ∈ l.accounts.values) : isMetricName a.name = true ∧ a.book.Sorted := by
  obtain ⟨e, he, rfl⟩ := List.mem_map.mp ha
  exact (h e he).2

theorem nodup_keys_iff {l : Ledger} (h : l.WellFormed) :
    (l.accounts.values.flatMap Account.keys).Nodup ↔
      ∀ a ∈ l.accounts.values, ∀ b ∈ l.accounts.values, a.Apart b := by
  have hnames := List.pairwise_map.mp h.names
  rw [List.nodup_flatMap]
  constructor
  · rintro ⟨-, hdisjoint⟩ a ha b hb
    by_contra hapart
    have hne : a ≠ b := by
      rintro rfl
      exact hapart fun hkind hkind' => absurd hkind' hkind
    have : Std.Symm (Function.onFun List.Disjoint Account.keys) := ⟨fun _ _ hab => hab.symm⟩
    exact not_disjoint hapart (hdisjoint.forall ha hb hne)
  · intro hapart
    refine ⟨fun a ha => nodup_account_keys (h.mem_values ha).2, ?_⟩
    refine hnames.imp_of_mem fun {a b} ha hb hne => ?_
    exact keys_disjoint hne (hapart a ha b hb) (hapart b hb a ha)

/-- The counts of the buckets of a histogram, the last one of all observations. -/
def bucketCounts (bounds : List Number) (observations : List Number) : List ℕ :=
  (bounds.map fun b => notAbove b observations) ++ [observations.length]

theorem atMost_trans {value b c : Number} (hb : b.isFinite = true) (hc : c.isFinite = true)
    (hle : bucketLe b c) (h : atMost value b = true) : atMost value c = true := by
  have hquantity : ∀ x : Number, x.isFinite = true → x.quantity = .finite (rational x) := by
    intro x hx
    cases x with
    | nan => cases hx
    | infinity negative => cases hx
    | zero negative => rfl
    | finite negative magnitude => rfl
  rw [atMost, hquantity b hb] at h
  rw [atMost, hquantity c hc]
  cases hvalue : value.quantity with
  | nan =>
    rw [hvalue] at h
    cases h
  | infinity negative =>
    rw [hvalue] at h
    cases negative with
    | false => cases h
    | true => rfl
  | finite q =>
    rw [hvalue] at h
    exact decide_eq_true (le_trans (of_decide_eq_true h) hle)

theorem bucketCounts_sorted {bounds : List Number} (h : BoundsSorted bounds)
    (observations : List Number) : (bucketCounts bounds observations).Pairwise (· ≤ ·) := by
  rw [bucketCounts, List.pairwise_append]
  refine ⟨?_, List.pairwise_singleton _ _, ?_⟩
  · rw [List.pairwise_map]
    refine h.sorted.imp_of_mem fun {b c} hb hc hle => ?_
    refine List.countP_mono_left fun value _ hvalue => ?_
    exact atMost_trans (h.finite b hb) (h.finite c hc) hle hvalue
  · intro n hn m hm
    obtain rfl := List.mem_singleton.mp hm
    obtain ⟨b, -, rfl⟩ := List.mem_map.mp hn
    exact List.countP_le_length

/-- What a text has to be, to be read as what was recorded. -/
structure Faithful (plus : Number → Number → Number) (l : Ledger) (text : JsString) : Prop where
  samples : ∃ samples, parse text = some samples ∧ samples.Perm (l.samples plus) ∧
    (samples.map Sample.key).Nodup
  cumulative : ∀ a ∈ l.accounts.values, ∀ bounds history, a.book = .histogram bounds history →
    ∀ labels ∈ labelsOf history,
      (bucketCounts bounds (changesOf (fun j => j = labels) history)).Pairwise (· ≤ ·)

/-- When it is so: no two label sets of a metric share a series key, no histogram's sum or count has
the name and labels of another metric, and the counts are small enough to be exact. -/
structure Distinct (l : Ledger) : Prop where
  keysApart : ∀ a ∈ l.accounts.values, a.book.KeysApart
  namesApart : ∀ a ∈ l.accounts.values, ∀ b ∈ l.accounts.values, a.Apart b
  counted : ∀ a ∈ l.accounts.values, a.book.Counted

theorem keys_ledger (plus : Number → Number → Number) (l : Ledger) :
    (l.samples plus).map Sample.key = l.accounts.values.flatMap Account.keys := by
  rw [Ledger.samples, List.map_flatMap]
  exact List.flatMap_congr fun a _ => keys_samples plus a

theorem parse_ledger {plus : Number → Number → Number} {r : Registry} {l : Ledger}
    (h : Refines plus r l) (hl : l.WellFormed) :
    parse ([lineFeed].intercalate (r.metrics.values.map Metric.render) ++ [lineFeed]) =
      some (l.accounts.values.flatMap fun a => (a.metric plus).samples) := by
  have hname : ∀ a : Account, (a.metric plus).name = a.name := by
    intro a
    rw [Account.metric]
    cases a.book <;> rfl
  rw [h.metrics, JsMap.values_map, parse_metrics, List.flatMap_map]
  intro metric hmetric
  obtain ⟨a, ha, rfl⟩ := List.mem_map.mp hmetric
  rw [hname]
  exact (hl.mem_values ha).1

theorem count_mem_samples {plus : Number → Number → Number} {a : Account} {bounds : List Number}
    {history : List (LabelSet × Number)} (hbook : a.book = .histogram bounds history)
    {labels : LabelSet} (hlabels : labels ∈ labelsOf history) :
    ⟨a.name ++ js "_count", labels.entries,
      .finite (changesOf (fun j => j = labels) history).length⟩ ∈ a.samples plus := by
  have hne : changesOf (fun j => j = labels) history ≠ [] := by
    obtain ⟨e, he, rfl⟩ := List.mem_map.mp (mem_labelsOf.mp hlabels)
    exact changesOf_ne_nil he (by simp)
  have hseries : (⟨labels, changesOf (fun j => j = labels) history⟩ : Series LabelSet (List Number)) ∈
      series gathered history := by
    refine mem_series.mpr ⟨hlabels, ?_⟩
    rw [outcome_gathered, if_neg hne]
  rw [Account.samples, hbook]
  refine List.mem_flatMap.mpr ⟨_, hseries, ?_⟩
  simp [observedSamples, histogramSamples]

theorem count_mem_kept {plus : Number → Number → Number} {a : Account} {bounds : List Number}
    {history : List (LabelSet × Number)} (hbook : a.book = .histogram bounds history)
    (hkeys : a.book.KeysApart) {labels : LabelSet} (hlabels : labels ∈ labelsOf history) :
    ⟨a.name ++ js "_count", labels.entries,
      .finite (min (changesOf (fun j => j = labels) history).length (2 ^ 53) : ℕ)⟩ ∈
        (a.metric plus).samples := by
  have hne : changesOf (fun j => j = labels) history ≠ [] := by
    obtain ⟨e, he, rfl⟩ := List.mem_map.mp (mem_labelsOf.mp hlabels)
    exact changesOf_ne_nil he (by simp)
  rw [hbook] at hkeys
  have hseries : (⟨labels, stateOf plus bounds (changesOf (fun j => j = labels) history)⟩ :
      Series LabelSet HistogramState) ∈ series (counted plus bounds) history := by
    refine mem_series.mpr ⟨hlabels, ?_⟩
    rw [outcome_counted, outcome_gathered, if_neg hne, Option.map_some]
  have hvalues := (values_tally_perm hkeys).mem_iff.mpr hseries
  rw [Account.metric, hbook]
  refine List.mem_flatMap.mpr ⟨_, hvalues, ?_⟩
  simp [keptSamples, histogramSamples, stateOf]

theorem faithful_ledger_iff {plus : Number → Number → Number} {r : Registry} {l : Ledger}
    (h : Refines plus r l) (hl : l.WellFormed) :
    Faithful plus l ([lineFeed].intercalate (r.metrics.values.map Metric.render) ++ [lineFeed]) ↔
      Distinct l := by
  have hparse := parse_ledger h hl
  constructor
  · rintro ⟨⟨samples, hsamples, hperm, hnodup⟩, -⟩
    obtain rfl := Option.some.inj (hparse.symm.trans hsamples)
    have hkeys : ∀ a ∈ l.accounts.values, a.book.KeysApart := keysApart_of_length hperm.length_eq
    have hexpected : ((l.samples plus).map Sample.key).Nodup :=
      (hperm.map Sample.key).nodup_iff.mp hnodup
    refine ⟨hkeys, (nodup_keys_iff hl).mp (keys_ledger plus l ▸ hexpected), fun a ha => ?_⟩
    -- one of the two counts is in the text, the other one is to be there
    cases hbook : a.book with
    | counter history => trivial
    | gauge history => trivial
    | histogram bounds history =>
      intro labels hlabels
      have hkept := @count_mem_kept plus _ _ _ hbook (hkeys a ha) _ hlabels
      have hshown := @count_mem_samples plus _ _ _ hbook _ hlabels
      have hmem := hperm.mem_iff.mp (List.mem_flatMap.mpr ⟨a, ha, hkept⟩)
      have heq := List.inj_on_of_nodup_map hexpected hmem (List.mem_flatMap.mpr ⟨a, ha, hshown⟩) rfl
      have hcount : min (changesOf (fun j => j = labels) history).length (2 ^ 53) =
          (changesOf (fun j => j = labels) history).length := by
        have hvalue := congrArg Sample.value heq
        simp only [Quantity.finite.injEq, Nat.cast_inj] at hvalue
        exact hvalue
      omega
  · rintro ⟨hkeys, hnames, hcounted⟩
    have hperm : (l.accounts.values.flatMap fun a => (a.metric plus).samples).Perm
        (l.samples plus) := by
      rw [Ledger.samples]
      have hall : ∀ accounts : List Account, (∀ a ∈ accounts, a ∈ l.accounts.values) →
          (accounts.flatMap fun a => (a.metric plus).samples).Perm
            (accounts.flatMap (Account.samples plus)) := by
        intro accounts
        induction accounts with
        | nil => exact fun _ => .refl _
        | cons a accounts ih =>
          intro hsub
          have ha := hsub a List.mem_cons_self
          rw [List.flatMap_cons, List.flatMap_cons]
          exact (samples_perm (hkeys a ha) (hcounted a ha)).append
            (ih fun b hb => hsub b (List.mem_cons_of_mem _ hb))
      exact hall _ fun _ ha => ha
    refine ⟨⟨_, hparse, hperm, ?_⟩, fun a ha bounds history hbook labels _ => ?_⟩
    · rw [(hperm.map Sample.key).nodup_iff, keys_ledger]
      exact (nodup_keys_iff hl).mpr hnames
    · have hsorted := (hl.mem_values ha).2
      rw [hbook] at hsorted
      exact bucketCounts_sorted hsorted _

/-! ## Runs of the registry -/

instance (l : Ledger) : Decidable l.WithinCap :=
  inferInstanceAs (Decidable (∀ account ∈ l.accounts.values, _))

instance runsWithinCapDecidable : ∀ (calls : List Call) (l : Ledger),
    Decidable (l.RunsWithinCap calls)
  | [], _ => isTrue trivial
  | call :: calls, l =>
    have := runsWithinCapDecidable calls (l.after call)
    inferInstanceAs (Decidable (_ ∧ _))

instance : ∀ book : Book, Decidable book.KeysApart
  | .counter history => inferInstanceAs (Decidable (∀ i ∈ history.map Prod.fst, _))
  | .gauge history => inferInstanceAs (Decidable (∀ i ∈ history.map Prod.fst, _))
  | .histogram _ history => inferInstanceAs (Decidable (∀ i ∈ history.map Prod.fst, _))

instance : ∀ book : Book, Decidable book.Counted
  | .counter _ => isTrue trivial
  | .gauge _ => isTrue trivial
  | .histogram _ history => inferInstanceAs (Decidable (∀ labels ∈ labelsOf history, _))

instance (a b : Account) : Decidable (a.Apart b) :=
  inferInstanceAs (Decidable (a.book.kind ≠ .histogram → _))

/-- **The exposition is faithful exactly where the recorded ledger is distinct**: after any calls of a
registry and its metrics, which stay below the cap, and whatever the collectors record. -/
theorem exposition_faithful_iff (plus : Number → Number → Number) {opts : MetricsRegistryOptions}
    {hasProcess : Bool} {r : Registry} (hnew : Registry.new opts hasProcess = .ok r)
    (calls collected : List Call)
    (hcap : (Ledger.new opts hasProcess).RunsWithinCap (calls ++ collected)) :
    Faithful plus ((Ledger.new opts hasProcess).run (calls ++ collected))
        ((r.run plus calls).render plus collected) ↔
      Distinct ((Ledger.new opts hasProcess).run (calls ++ collected)) := by
  have hrefines := (@refines_new plus _ _ _ hnew).run hcap
  have hwell := (wellFormed_new opts hasProcess).run (calls ++ collected)
  have hrun : r.run plus (calls ++ collected) = (r.run plus calls).run plus collected :=
    List.foldl_append
  rw [Registry.render, ← hrun]
  exact faithful_ledger_iff hrefines hwell

def oneLabel (name value : JsString) : MetricLabels :=
  ⟨[(name, .string value)], List.nodup_singleton _⟩

def twoLabels : MetricLabels :=
  ⟨[(js "a", .string (js "x")), (js "b", .string (js "y"))], by decide⟩

/-- The label `{a: "x\x01b\x00y"}`, whose value holds the separators of a series key. -/
def separatorLabel : MetricLabels := oneLabel (js "a") (js "x" ++ 1 :: (js "b" ++ 0 :: js "y"))

def mergingCalls : List Call :=
  [.counter (js "c") none, .counterInc (js "c") (some separatorLabel) one,
    .counterInc (js "c") (some twoLabels) one]

def bareOptions : MetricsRegistryOptions := ⟨none, none, some false⟩

def plainCalls : List Call :=
  [.counter (js "c") none, .counterInc (js "c") (some (oneLabel (js "a") (js "x"))) one]

theorem exposition_faithful_one_label :
    Faithful (fun x _ => x) ((Ledger.new bareOptions false).run (plainCalls ++ []))
      ((Registry.run (fun x _ => x) ⟨[], 5000, ∅, none⟩ plainCalls).render (fun x _ => x) []) :=
  (exposition_faithful_iff (fun x _ => x) (by decide) plainCalls [] (by decide)).mpr
    ⟨by decide, by decide, by decide⟩

theorem exposition_merges :
    ¬ Faithful (fun x _ => x) ((Ledger.new bareOptions false).run (mergingCalls ++ []))
      ((Registry.run (fun x _ => x) ⟨[], 5000, ∅, none⟩ mergingCalls).render (fun x _ => x) []) := by
  have hnew : Registry.new bareOptions false = .ok ⟨[], 5000, ∅, none⟩ := by decide
  have hrefines := (@refines_new (fun x _ => x) _ _ _ hnew).run
    (show (Ledger.new bareOptions false).RunsWithinCap (mergingCalls ++ []) by decide)
  intro hfaithful
  have hdistinct := (faithful_ledger_iff hrefines
    ((wellFormed_new bareOptions false).run (mergingCalls ++ []))).mp hfaithful
  exact absurd hdistinct.keysApart (by decide)

end Daloy.Metrics
