import Daloy.Foundations.JsMap
import Daloy.Foundations.Runs
import Daloy.Foundations.Unicode
import Mathlib.Data.List.DropRight
import Mathlib.Data.Rat.Floor

/-! # The limiter of the probe routes

`probeRateLimitHit` of `src/app.ts`: a fixed window for each identity, in a map of bounded size.

* `probeRateLimitHit`: one hit.
* `Bounded`: the size of the map, and its insertion order as the order of expiry.
-/

namespace Daloy.App.ProbeLimits
set_option autoImplicit false

open Daloy.Unicode Daloy.Runs

/-! ## One hit -/

structure ProbeBucket where
  count : ℕ
  resetMs : ℚ
  deriving DecidableEq

structure Config where
  windowMs : ℚ
  limit : ℚ

/-- `PROBE_BUCKET_MAX_ENTRIES`. -/
def maxEntries : ℕ := 10000

abbrev Buckets := JsMap JsString ProbeBucket

def sweep (now : ℚ) : List (JsString × ProbeBucket) → List (JsString × ProbeBucket)
  | [] => []
  | e :: rest => if now < e.2.resetMs then e :: rest else sweep now rest

def evict : List (JsString × ProbeBucket) → List (JsString × ProbeBucket)
  | [] => []
  | oldest :: rest => if maxEntries ≤ (oldest :: rest).length then evict rest else oldest :: rest

theorem sweep_suffix (now : ℚ) (entries : List (JsString × ProbeBucket)) :
    sweep now entries <:+ entries := by
  induction entries with
  | nil => exact List.suffix_rfl
  | cons e rest ih =>
    rw [sweep]
    split
    · exact List.suffix_rfl
    · exact ih.trans (List.suffix_cons e rest)

theorem evict_suffix (entries : List (JsString × ProbeBucket)) : evict entries <:+ entries := by
  induction entries with
  | nil => exact List.suffix_rfl
  | cons e rest ih =>
    rw [evict]
    split
    · exact ih.trans (List.suffix_cons e rest)
    · exact List.suffix_rfl

def makeRoom (buckets : Buckets) (now : ℚ) : Buckets :=
  if maxEntries ≤ buckets.size then
    ⟨evict (sweep now buckets.entries), buckets.nodup.sublist
      (((evict_suffix _).trans (sweep_suffix _ _)).sublist.map Prod.fst)⟩
  else buckets

def probeRateLimitHit (buckets : Buckets) (key : JsString) (now : ℚ) (config : Config) :
    Buckets × ℤ :=
  match (buckets.get? key).filter fun entry => now < entry.resetMs with
  | some entry =>
    (buckets.modify key fun entry => { entry with count := entry.count + 1 },
      if config.limit < entry.count + 1 then ⌈(entry.resetMs - now) / 1000⌉ else 0)
  | none =>
    ((makeRoom (buckets.delete key) now).set key { count := 1, resetMs := now + config.windowMs }, 0)

/-! ## Runs -/

structure Hit where
  key : JsString
  now : ℚ

def step (config : Config) (buckets : Buckets) (hit : Hit) : Buckets × ℤ :=
  probeRateLimitHit buckets hit.key hit.now config

def after (config : Config) (hits : List Hit) : Buckets := (feed (step config) ∅ hits).1

def Clocked (hits : List Hit) : Prop := (hits.map Hit.now).Pairwise (· ≤ ·)

structure Bounded (buckets : Buckets) : Prop where
  size : buckets.size ≤ maxEntries
  ordered : buckets.entries.Pairwise fun e e' => e.2.resetMs ≤ e'.2.resetMs
  swept : ∀ now, sweep now buckets.entries =
    buckets.entries.filter fun e => decide (now < e.2.resetMs)

/-- A window: a hit that finds no live entry of its key, and what comes before the entry expires,
with the entry never evicted. -/
structure Window (config : Config) (before : List Hit) (opening : Hit) (within : List Hit) :
    Prop where
  clocked : Clocked (before ++ opening :: within)
  opens : ∀ entry, (after config before).get? opening.key = some entry → entry.resetMs ≤ opening.now
  live : ∀ hit ∈ within, hit.now < opening.now + config.windowMs
  unevicted : ∀ pre, pre <+: within →
    ((after config (before ++ opening :: pre)).get? opening.key).isSome = true

def admissions (config : Config) (key : JsString) (buckets : Buckets) (hits : List Hit) :
    List Bool :=
  ((hits.zip (feed (step config) buckets hits).2).filter fun e => e.1.key = key).map
    fun e => decide (e.2 = 0)

def Exact (config : Config) (before : List Hit) (opening : Hit) (within : List Hit) : Prop :=
  admissions config opening.key (after config before) (opening :: within) =
    (List.range ((opening :: within).filter fun hit => hit.key = opening.key).length).map
      fun (i : ℕ) => decide ((i + 1 : ℚ) ≤ config.limit)

/-! ## Order -/

theorem swept_of_ordered {entries : List (JsString × ProbeBucket)}
    (h : entries.Pairwise fun e e' => e.2.resetMs ≤ e'.2.resetMs) (now : ℚ) :
    sweep now entries = entries.filter fun e => decide (now < e.2.resetMs) := by
  induction entries with
  | nil => rfl
  | cons e rest ih =>
    rw [List.pairwise_cons] at h
    rw [sweep]
    by_cases hlive : now < e.2.resetMs
    · have hall : ∀ e' ∈ e :: rest, decide (now < e'.2.resetMs) = true := by
        intro e' he'
        rw [decide_eq_true_eq]
        obtain rfl | he' := List.mem_cons.mp he'
        · exact hlive
        · exact lt_of_lt_of_le hlive (h.1 e' he')
      rw [if_pos hlive, List.filter_eq_self.mpr hall]
    · rw [if_neg hlive, List.filter_cons_of_neg (by simpa using hlive), ih h.2]

theorem length_evict (entries : List (JsString × ProbeBucket)) :
    (evict entries).length < maxEntries := by
  induction entries with
  | nil => decide
  | cons e rest ih =>
    rw [evict]
    split
    · exact ih
    · omega

/-- What a hit at a time finds: few entries, in the order of expiry, none of which expires later than
one that is inserted now. -/
structure Inv (config : Config) (now : ℚ) (buckets : Buckets) : Prop where
  size : buckets.size ≤ maxEntries
  ordered : buckets.entries.Pairwise fun e e' => e.2.resetMs ≤ e'.2.resetMs
  latest : ∀ e ∈ buckets.entries, e.2.resetMs ≤ now + config.windowMs

theorem Inv.later {config : Config} {now later : ℚ} {buckets : Buckets}
    (h : Inv config now buckets) (hle : now ≤ later) : Inv config later buckets where
  size := h.size
  ordered := h.ordered
  latest := fun e he => (h.latest e he).trans (by linarith)

theorem Inv.sublist {config : Config} {now : ℚ} {buckets buckets' : Buckets}
    (h : Inv config now buckets) (hsub : buckets'.entries.Sublist buckets.entries) :
    Inv config now buckets' where
  size := hsub.length_le.trans h.size
  ordered := h.ordered.sublist hsub
  latest := fun e he => h.latest e (hsub.subset he)

theorem makeRoom_sublist (buckets : Buckets) (now : ℚ) :
    (makeRoom buckets now).entries.Sublist buckets.entries := by
  rw [makeRoom]
  split
  · exact ((evict_suffix _).trans (sweep_suffix _ _)).sublist
  · exact List.Sublist.refl _

theorem makeRoom_size (buckets : Buckets) (now : ℚ) : (makeRoom buckets now).size < maxEntries := by
  rw [makeRoom]
  split
  · exact length_evict _
  · omega

theorem delete_sublist (buckets : Buckets) (key : JsString) :
    (buckets.delete key).entries.Sublist buckets.entries := List.filter_sublist

theorem not_mem_makeRoom (buckets : Buckets) (key : JsString) (now : ℚ) :
    key ∉ (makeRoom (buckets.delete key) now).entries.map Prod.fst := by
  intro hmem
  obtain ⟨e, he, hkey⟩ := List.mem_map.mp hmem
  have hdeleted := (makeRoom_sublist _ _).subset he
  have hkept := (List.mem_filter.mp hdeleted).2
  simp [hkey] at hkept

theorem inv_hit {config : Config} {now : ℚ} {buckets : Buckets} (h : Inv config now buckets)
    (key : JsString) : Inv config now (probeRateLimitHit buckets key now config).1 := by
  rw [probeRateLimitHit]
  split
  · refine ⟨?_, ?_, ?_⟩
    · have hsize := h.size
      rwa [JsMap.size, JsMap.modify, List.length_map]
    · rw [JsMap.modify, List.pairwise_map]
      refine h.ordered.imp fun hle => ?_
      dsimp only
      split <;> split <;> exact hle
    · intro e he
      obtain ⟨e', he', rfl⟩ := List.mem_map.mp he
      have hle := h.latest e' he'
      dsimp only
      split <;> exact hle
  · have hroom := h.sublist ((makeRoom_sublist (buckets.delete key) now).trans
      (delete_sublist buckets key))
    have hentries := JsMap.entries_set_of_not_mem (not_mem_makeRoom buckets key now)
      { count := 1, resetMs := now + config.windowMs }
    refine ⟨?_, ?_, ?_⟩
    · have hsize := makeRoom_size (buckets.delete key) now
      rw [JsMap.size] at hsize
      rw [JsMap.size, hentries, List.length_append, List.length_singleton]
      omega
    · rw [hentries, List.pairwise_append]
      refine ⟨hroom.ordered, List.pairwise_singleton _ _, fun e he e' he' => ?_⟩
      rw [List.mem_singleton.mp he']
      exact hroom.latest e he
    · intro e he
      rw [hentries] at he
      obtain he | he := List.mem_append.mp he
      · exact hroom.latest e he
      · rw [List.mem_singleton.mp he]

theorem inv_empty (config : Config) (now : ℚ) : Inv config now ∅ :=
  ⟨Nat.zero_le _, List.Pairwise.nil, fun _ he => absurd he List.not_mem_nil⟩

theorem after_append (config : Config) (hits hits' : List Hit) :
    after config (hits ++ hits') = (feed (step config) (after config hits) hits').1 := by
  rw [after, feed_append]
  rfl

theorem after_concat (config : Config) (hits : List Hit) (hit : Hit) :
    after config (hits ++ [hit]) = (step config (after config hits) hit).1 := after_append _ _ _

theorem inv_after {config : Config} {hits : List Hit} (h : Clocked hits) (now : ℚ)
    (hnow : ∀ hit ∈ hits, hit.now ≤ now) : Inv config now (after config hits) := by
  induction hits using List.reverseRecOn generalizing now with
  | nil => exact inv_empty config now
  | append_singleton hits hit ih =>
    rw [Clocked, List.map_append, List.pairwise_append] at h
    have hlast : ∀ hit' ∈ hits, hit'.now ≤ hit.now := fun hit' hmem =>
      h.2.2 _ (List.mem_map_of_mem hmem) _ (List.mem_singleton.mpr rfl)
    rw [after_concat]
    exact (inv_hit (ih h.1 hit.now hlast) hit.key).later (hnow hit (by simp))

theorem Inv.bounded {config : Config} {now : ℚ} {buckets : Buckets}
    (h : Inv config now buckets) : Bounded buckets :=
  ⟨h.size, h.ordered, swept_of_ordered h.ordered⟩

theorem bounded_after {config : Config} {hits : List Hit} (h : Clocked hits) :
    Bounded (after config hits) := by
  obtain rfl | ⟨front, last, rfl⟩ := List.eq_nil_or_concat' hits
  · exact (inv_empty config 0).bounded
  · refine (inv_after h last.now fun hit hmem => ?_).bounded
    obtain hmem | hmem := List.mem_append.mp hmem
    · rw [Clocked, List.map_append, List.pairwise_append] at h
      exact h.2.2 _ (List.mem_map_of_mem hmem) _ (List.mem_singleton.mpr rfl)
    · rw [List.mem_singleton.mp hmem]

/-! ## Windows -/

theorem step_other (config : Config) (buckets : Buckets) {hit : Hit} {key : JsString}
    (hkey : hit.key ≠ key) {entry : ProbeBucket}
    (h : (step config buckets hit).1.get? key = some entry) : buckets.get? key = some entry := by
  rw [step, probeRateLimitHit] at h
  split at h
  · rwa [JsMap.get?_modify, if_neg hkey.symm] at h
  · rw [JsMap.get?_set, if_neg hkey.symm, JsMap.get?_eq_some] at h
    rw [JsMap.get?_eq_some]
    exact (delete_sublist _ _).subset ((makeRoom_sublist _ _).subset h)

theorem step_live (config : Config) {buckets : Buckets} {hit : Hit} {entry : ProbeBucket}
    (h : buckets.get? hit.key = some entry) (hlive : hit.now < entry.resetMs) :
    (step config buckets hit).1.get? hit.key = some { entry with count := entry.count + 1 } ∧
      ((step config buckets hit).2 = 0 ↔ ((entry.count + 1 : ℕ) : ℚ) ≤ config.limit) := by
  have hpos : 0 < ⌈(entry.resetMs - hit.now) / 1000⌉ := by
    rw [Int.ceil_pos]
    exact div_pos (by linarith) (by norm_num)
  have hfilter : (buckets.get? hit.key).filter (fun entry => decide (hit.now < entry.resetMs)) =
      some entry := by
    rw [h]
    simp [hlive]
  rw [step, probeRateLimitHit]
  simp only [hfilter]
  refine ⟨by rw [JsMap.get?_modify, if_pos rfl, h, Option.map_some], ?_⟩
  push_cast
  split
  · rename_i hover
    constructor
    · intro hzero
      omega
    · intro hle
      exact absurd hover (by linarith)
  · rename_i hunder
    exact ⟨fun _ => by linarith, fun _ => rfl⟩

theorem step_open (config : Config) {buckets : Buckets} {hit : Hit}
    (h : ∀ entry, buckets.get? hit.key = some entry → entry.resetMs ≤ hit.now) :
    (step config buckets hit).1.get? hit.key =
      some { count := 1, resetMs := hit.now + config.windowMs } ∧
    (step config buckets hit).2 = 0 := by
  have hfilter : (buckets.get? hit.key).filter (fun entry => decide (hit.now < entry.resetMs)) =
      none := by
    rw [Option.filter_eq_none_iff]
    intro entry hentry
    simpa using h entry hentry
  rw [step, probeRateLimitHit]
  simp only [hfilter]
  exact ⟨by rw [JsMap.get?_set, if_pos rfl], trivial⟩

theorem admissions_cons (config : Config) (key : JsString) (buckets : Buckets) (hit : Hit)
    (hits : List Hit) : admissions config key buckets (hit :: hits) =
      (if hit.key = key then [decide ((step config buckets hit).2 = 0)] else []) ++
        admissions config key (step config buckets hit).1 hits := by
  rw [admissions, feed_cons, List.zip_cons_cons, List.filter_cons]
  split
  · rename_i hkey
    rw [if_pos (by simpa using hkey)]
    rfl
  · rename_i hkey
    rw [if_neg (by simpa using hkey)]
    rfl

theorem admissions_live {config : Config} {key : JsString} {buckets : Buckets}
    {entry : ProbeBucket} (hentry : buckets.get? key = some entry) (hits : List Hit)
    (hlive : ∀ hit ∈ hits, hit.now < entry.resetMs)
    (hthere : ∀ pre, pre <+: hits → ((feed (step config) buckets pre).1.get? key).isSome = true) :
    admissions config key buckets hits =
      (List.range' entry.count (hits.filter fun hit => hit.key = key).length).map
        fun i => decide (((i + 1 : ℕ) : ℚ) ≤ config.limit) := by
  induction hits generalizing buckets entry with
  | nil => rfl
  | cons hit hits ih =>
    rw [List.forall_mem_cons] at hlive
    have hrest : ∀ pre, pre <+: hits →
        ((feed (step config) (step config buckets hit).1 pre).1.get? key).isSome = true := by
      intro pre hpre
      have hmore := hthere (hit :: pre) (List.cons_prefix_cons.mpr ⟨rfl, hpre⟩)
      rwa [feed_cons] at hmore
    rw [admissions_cons, List.filter_cons]
    by_cases hkey : hit.key = key
    · subst hkey
      obtain ⟨hnext, hanswer⟩ := step_live config hentry hlive.1
      rw [if_pos rfl, if_pos (by simp), List.length_cons, List.range'_succ, List.map_cons,
        ih hnext hlive.2 hrest, List.singleton_append]
      congr 1
      exact decide_eq_decide.mpr hanswer
    · obtain ⟨entry', hnext⟩ := Option.isSome_iff_exists.mp (hrest [] (List.nil_prefix))
      have hsame := step_other config buckets hkey hnext
      obtain rfl : entry = entry' := Option.some.inj (hentry.symm.trans hsame)
      rw [if_neg hkey, if_neg (by simpa using hkey), List.nil_append]
      exact ih hnext hlive.2 hrest

theorem admissions_window {config : Config} {before within : List Hit} {opening : Hit}
    (h : Window config before opening within) :
    admissions config opening.key (after config before) (opening :: within) =
      true :: (List.range' 1 (within.filter fun hit => hit.key = opening.key).length).map
        fun i => decide (((i + 1 : ℕ) : ℚ) ≤ config.limit) := by
  obtain ⟨hentry, hanswer⟩ := step_open config h.opens
  rw [admissions_cons, if_pos rfl, hanswer, decide_eq_true rfl, List.singleton_append]
  congr 1
  refine admissions_live hentry within h.live fun pre hpre => ?_
  have hthere := h.unevicted pre hpre
  rwa [after_append, feed_cons] at hthere

theorem exact_iff {config : Config} {before within : List Hit} {opening : Hit}
    (h : Window config before opening within) :
    Exact config before opening within ↔ 1 ≤ config.limit := by
  have hrange : ∀ n, List.range (n + 1) = 0 :: List.range' 1 n := fun n => by
    rw [List.range_eq_range', List.range'_succ]
  rw [Exact, admissions_window h, List.filter_cons_of_pos (by simp), List.length_cons, hrange,
    List.map_cons, List.cons.injEq]
  push_cast
  simp [eq_comm]

/-- **The limiter of the probe routes**: after every run the map is small and in the order of expiry;
and the hits of every window are admitted up to the limit and no further, exactly where the limit
is at least one. -/
theorem probe_limits (config : Config) :
    (∀ hits, Clocked hits → Bounded (after config hits)) ∧
    ((∀ before opening within, Window config before opening within →
      Exact config before opening within) ↔ 1 ≤ config.limit) := by
  refine ⟨fun hits h => bounded_after h, fun h => ?_, fun hlimit before opening within hwindow =>
    (exact_iff hwindow).mpr hlimit⟩
  have hwindow : Window config [] { key := [], now := 0 } [] := by
    have hopens : ∀ entry, (∅ : Buckets).get? [] = some entry → entry.resetMs ≤ 0 :=
      fun entry hentry => by cases hentry
    refine ⟨List.pairwise_singleton _ _, hopens, fun hit hhit => (by cases hhit), fun pre hpre => ?_⟩
    have hopen := (@step_open config _ { key := [], now := 0 } hopens).1
    rw [List.prefix_nil.mp hpre, List.nil_append, after, feed_cons, feed_nil, hopen]
    rfl
  exact (exact_iff hwindow).mp (h _ _ _ hwindow)

theorem zero_admits :
    (probeRateLimitHit ∅ (js "203.0.113.9") 0 { windowMs := 60000, limit := 0 }).2 = 0 ∧
      ¬ Exact { windowMs := 60000, limit := 0 } [] { key := js "203.0.113.9", now := 0 } [] := by
  refine ⟨rfl, ?_⟩
  rw [Exact]
  decide +kernel

end Daloy.App.ProbeLimits
