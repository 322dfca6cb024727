import Daloy.ResponseCache.Cache
import Mathlib.Algebra.BigOperators.Group.List.Basic
import Mathlib.Data.Rat.Defs
import Mathlib.Tactic.NormNum

/-! # `MemoryResponseCacheStore`

The store in memory of `src/response-cache.ts`. It counts the bytes it retains beside the map and
evicts when an entry too many or a byte too many is retained.

* `MemoryResponseCacheStore.step`: the calls, each with the time it reads.
* `dropAll`: what an eviction comes to.
-/

namespace Daloy.ResponseCache
set_option autoImplicit false

open Daloy.Runs Daloy.Unicode

def entryFootprintBytes (entry : CachedResponse) : ℕ :=
  entry.headers.foldl (fun total pair => total + (pair.1.length + pair.2.length)) entry.body.length

structure MemoryResponseCacheStoreOptions where
  maxEntries : Option ℚ := none
  maxBytes : Option ℚ := none

structure MemoryResponseCacheStore where
  map : JsMap JsString CachedResponse := ∅
  maxEntries : ℤ
  maxBytes : ℤ
  bytes : ℤ := 0
  deriving DecidableEq

namespace MemoryResponseCacheStore

def create (opts : MemoryResponseCacheStoreOptions) : Except String MemoryResponseCacheStore :=
  let maxEntries := opts.maxEntries.getD 10000
  let maxBytes := opts.maxBytes.getD (64 * 1024 * 1024)
  if maxEntries.isInt = false ∨ maxEntries ≤ 0 then
    .error "MemoryResponseCacheStore: maxEntries must be a positive integer."
  else if maxBytes.isInt = false ∨ maxBytes ≤ 0 then
    .error "MemoryResponseCacheStore: maxBytes must be a positive integer."
  else .ok { maxEntries := maxEntries.num, maxBytes := maxBytes.num }

def Fits (s : MemoryResponseCacheStore) : Prop :=
  s.map.size ≤ s.maxEntries ∧ s.bytes ≤ s.maxBytes

instance (s : MemoryResponseCacheStore) : Decidable s.Fits :=
  inferInstanceAs (Decidable (_ ∧ _))

def drop (s : MemoryResponseCacheStore) (key : JsString) (entry : CachedResponse) :
    MemoryResponseCacheStore :=
  { s with map := s.map.delete key, bytes := s.bytes - entryFootprintBytes entry }

/-- One of the loops of `evict`, over what is left of the map. -/
def evictLoop (drops : CachedResponse → Bool) :
    List (JsString × CachedResponse) → MemoryResponseCacheStore → MemoryResponseCacheStore
  | [], s => s
  | (k, v) :: rest, s =>
    if s.Fits then s else evictLoop drops rest (if drops v then s.drop k v else s)

def evict (s : MemoryResponseCacheStore) (now : ℤ) : MemoryResponseCacheStore :=
  let s := evictLoop (fun v => v.staleUntil ≤ now) s.map.entries s
  evictLoop (fun _ => true) s.map.entries s

def get (s : MemoryResponseCacheStore) (key : JsString) (now : ℤ) :
    MemoryResponseCacheStore × Option CachedResponse :=
  match s.map.get? key with
  | none => (s, none)
  | some entry => if entry.staleUntil ≤ now then (s.drop key entry, none) else (s, some entry)

/-- `set`, before the limits are looked at. -/
def put (s : MemoryResponseCacheStore) (key : JsString) (entry : CachedResponse) :
    MemoryResponseCacheStore :=
  let bytes := match s.map.get? key with
    | some existing => s.bytes - entryFootprintBytes existing
    | none => s.bytes
  { s with map := s.map.set key entry, bytes := bytes + entryFootprintBytes entry }

def set (s : MemoryResponseCacheStore) (key : JsString) (entry : CachedResponse) (now : ℤ) :
    MemoryResponseCacheStore :=
  let s := s.put key entry
  if s.map.size > s.maxEntries ∨ s.bytes > s.maxBytes then s.evict now else s

def delete (s : MemoryResponseCacheStore) (key : JsString) : MemoryResponseCacheStore :=
  match s.map.get? key with
  | some entry => s.drop key entry
  | none => s

def clear (s : MemoryResponseCacheStore) : MemoryResponseCacheStore :=
  { s with map := ∅, bytes := 0 }

/-- A call, and what `Date.now()` says in it. -/
inductive Call
  | get (key : JsString) (now : ℤ)
  | set (key : JsString) (entry : CachedResponse) (now : ℤ)
  | delete (key : JsString)
  | clear

def step (s : MemoryResponseCacheStore) : Call → MemoryResponseCacheStore × Option CachedResponse
  | .get key now => s.get key now
  | .set key entry now => (s.set key entry now, none)
  | .delete key => (s.delete key, none)
  | .clear => (s.clear, none)

/-! ## The count of bytes -/

def footprints (entries : List (JsString × CachedResponse)) : ℤ :=
  (entries.map fun e => (entryFootprintBytes e.2 : ℤ)).sum

@[simp] theorem footprints_nil : footprints [] = 0 := rfl

@[simp] theorem footprints_cons (e : JsString × CachedResponse)
    (entries : List (JsString × CachedResponse)) :
    footprints (e :: entries) = entryFootprintBytes e.2 + footprints entries := by
  simp [footprints]

@[simp] theorem footprints_append (entries more : List (JsString × CachedResponse)) :
    footprints (entries ++ more) = footprints entries + footprints more := by
  simp [footprints]

def Exact (s : MemoryResponseCacheStore) : Prop := s.bytes = footprints s.map.entries

variable {s : MemoryResponseCacheStore} {key : JsString} {entry : CachedResponse}

theorem around (hget : s.map.get? key = some entry) :
    ∃ before after, s.map.entries = before ++ (key, entry) :: after ∧
      (∀ e ∈ before ++ after, e.1 ≠ key) := by
  obtain ⟨before, after, hentries⟩ := List.append_of_mem (JsMap.get?_eq_some.mp hget)
  refine ⟨before, after, hentries, ?_⟩
  have hnodup := s.map.nodup
  rw [hentries, List.map_append, List.map_cons, List.nodup_middle, List.nodup_cons] at hnodup
  rintro e he rfl
  rw [← List.map_append] at hnodup
  have hmem : e.1 ∈ (before ++ after).map Prod.fst := List.mem_map_of_mem he
  exact hnodup.1 hmem

theorem Exact.drop (h : Exact s) (hget : s.map.get? key = some entry) :
    Exact (s.drop key entry) := by
  obtain ⟨before, after, hentries, hother⟩ := around hget
  have hkept : (s.map.delete key).entries = before ++ after := by
    have hfilter : (before ++ after).filter (fun e => decide (e.1 ≠ key)) = before ++ after := by
      rw [List.filter_eq_self]
      intro e he
      simp [hother e he]
    rw [JsMap.delete, JsMap.keep]
    dsimp only
    rw [hentries, List.filter_append, List.filter_cons, ← hfilter, List.filter_append]
    simp
  rw [Exact] at h ⊢
  rw [hentries] at h
  simp only [MemoryResponseCacheStore.drop, hkept, h, footprints_append, footprints_cons]
  omega

theorem Exact.put (h : Exact s) (key : JsString) (entry : CachedResponse) :
    Exact (s.put key entry) := by
  rw [Exact] at h ⊢
  cases hget : s.map.get? key with
  | none =>
    have hnot := JsMap.get?_eq_none.mp hget
    simp only [MemoryResponseCacheStore.put, hget, h, JsMap.entries_set_of_not_mem hnot,
      footprints_append, footprints_cons, footprints_nil]
    omega
  | some existing =>
    obtain ⟨before, after, hentries, hother⟩ := around hget
    have hset : (s.map.set key entry).entries = before ++ (key, entry) :: after := by
      have hmem : key ∈ s.map.entries.map Prod.fst :=
        List.mem_map.mpr ⟨(key, existing), JsMap.get?_eq_some.mp hget, rfl⟩
      have hsame : (before ++ after).map (fun e => if e.1 = key then (key, entry) else e) =
          before ++ after := by
        refine (List.map_congr_left fun e he => ?_).trans (List.map_id _)
        rw [if_neg (hother e he), id]
      rw [JsMap.set, dif_pos hmem]
      dsimp only
      rw [List.map_append] at hsame
      obtain ⟨hbefore, hafter⟩ := List.append_inj hsame (by simp)
      rw [hentries, List.map_append, List.map_cons, if_pos rfl, hbefore, hafter]
    have hbytes : (s.put key entry).bytes =
        s.bytes - entryFootprintBytes existing + entryFootprintBytes entry := by
      simp only [MemoryResponseCacheStore.put, hget]
    have hmap : (s.put key entry).map = s.map.set key entry := rfl
    rw [hentries, footprints_append, footprints_cons] at h
    rw [hbytes, hmap, hset, footprints_append, footprints_cons, h]
    dsimp only
    omega

/-! ## Evictions -/

/-- The entries `gone` are dropped one by one. -/
def dropAll (gone : List (JsString × CachedResponse)) (s : MemoryResponseCacheStore) :
    MemoryResponseCacheStore :=
  gone.foldl (fun s e => s.drop e.1 e.2) s

variable {gone todo : List (JsString × CachedResponse)} {drops : CachedResponse → Bool}

theorem entries_drop (hmem : (key, entry) ∈ s.map.entries) :
    (s.drop key entry).map.entries = s.map.entries.filter fun e => e ≠ (key, entry) := by
  rw [drop, JsMap.delete, JsMap.keep]
  apply List.filter_congr
  intro e he
  have hsame : e.1 = key ↔ e = (key, entry) := by
    constructor
    · intro heq
      exact List.inj_on_of_nodup_map s.map.nodup he hmem heq
    · rintro rfl
      rfl
  simp [hsame]

theorem entries_dropAll (hsub : ∀ e ∈ gone, e ∈ s.map.entries) (hnodup : gone.Nodup) :
    (dropAll gone s).map.entries = s.map.entries.filter fun e => e ∉ gone := by
  induction gone generalizing s with
  | nil => simp [dropAll]
  | cons e gone ih =>
    have hhead := entries_drop (hsub e List.mem_cons_self)
    rw [List.nodup_cons] at hnodup
    have hrest : ∀ e' ∈ gone, e' ∈ (s.drop e.1 e.2).map.entries := by
      intro e' he'
      rw [hhead, List.mem_filter]
      refine ⟨hsub e' (List.mem_cons_of_mem _ he'), ?_⟩
      have hne : e' ≠ e := by
        rintro rfl
        exact hnodup.1 he'
      simpa using hne
    have htail := ih hrest hnodup.2
    rw [dropAll, List.foldl_cons]
    rw [dropAll] at htail
    rw [htail, hhead, List.filter_filter]
    apply List.filter_congr
    intro e' _
    simp [Bool.and_comm]

theorem Exact.dropAll (h : Exact s) (hsub : ∀ e ∈ gone, e ∈ s.map.entries) (hnodup : gone.Nodup) :
    Exact (dropAll gone s) := by
  induction gone generalizing s with
  | nil => exact h
  | cons e gone ih =>
    have hhead := entries_drop (hsub e List.mem_cons_self)
    rw [List.nodup_cons] at hnodup
    refine ih (h.drop (JsMap.get?_eq_some.mpr (hsub e List.mem_cons_self))) ?_ hnodup.2
    intro e' he'
    rw [hhead, List.mem_filter]
    refine ⟨hsub e' (List.mem_cons_of_mem _ he'), ?_⟩
    have hne : e' ≠ e := by
      rintro rfl
      exact hnodup.1 he'
    simpa using hne

theorem evictLoop_eq (drops : CachedResponse → Bool) (todo : List (JsString × CachedResponse))
    (s : MemoryResponseCacheStore) :
    ∃ n ≤ (todo.filter fun e => drops e.2).length,
      evictLoop drops todo s = dropAll ((todo.filter fun e => drops e.2).take n) s ∧
      (∀ m < n, ¬ (dropAll ((todo.filter fun e => drops e.2).take m) s).Fits) ∧
      ((evictLoop drops todo s).Fits ∨ n = (todo.filter fun e => drops e.2).length) := by
  induction todo generalizing s with
  | nil => exact ⟨0, Nat.zero_le _, rfl, by simp, .inr rfl⟩
  | cons e todo ih =>
    rw [evictLoop]
    by_cases hfits : s.Fits
    · rw [if_pos hfits]
      exact ⟨0, Nat.zero_le _, rfl, by simp, .inl hfits⟩
    · rw [if_neg hfits]
      cases hdrops : drops e.2 with
      | false =>
        obtain ⟨n, hle, heq, hleast, hend⟩ := ih s
        rw [List.filter_cons_of_neg (by simp [hdrops])]
        exact ⟨n, hle, heq, hleast, hend⟩
      | true =>
        obtain ⟨n, hle, heq, hleast, hend⟩ := ih (s.drop e.1 e.2)
        rw [List.filter_cons_of_pos (by simp [hdrops])]
        refine ⟨n + 1, by simpa using hle, ?_, ?_, ?_⟩
        · rw [if_pos rfl, heq, List.take_succ_cons, dropAll, dropAll, List.foldl_cons]
        · intro m hm
          cases m with
          | zero => exact hfits
          | succ m =>
            rw [List.take_succ_cons, dropAll, List.foldl_cons]
            exact hleast m (by omega)
        · rw [if_pos rfl]
          exact hend.imp id fun hn => by rw [List.length_cons, hn]

/-- The order of eviction: what has expired, then what is live, each as it was inserted. -/
def evictionOrder (entries : List (JsString × CachedResponse)) (now : ℤ) :
    List (JsString × CachedResponse) :=
  entries.filter (fun e => e.2.staleUntil ≤ now) ++ entries.filter fun e => ¬ e.2.staleUntil ≤ now

theorem mem_evictionOrder {entries : List (JsString × CachedResponse)} {now : ℤ}
    {e : JsString × CachedResponse} : e ∈ evictionOrder entries now ↔ e ∈ entries := by
  rw [evictionOrder, List.mem_append, List.mem_filter, List.mem_filter]
  by_cases hold : e.2.staleUntil ≤ now <;> simp [hold]

theorem nodup_entries (s : MemoryResponseCacheStore) : s.map.entries.Nodup :=
  List.Nodup.of_map _ s.map.nodup

theorem nodup_evictionOrder (s : MemoryResponseCacheStore) (now : ℤ) :
    (evictionOrder s.map.entries now).Nodup := by
  rw [evictionOrder, List.nodup_append]
  refine ⟨(nodup_entries s).filter _, (nodup_entries s).filter _, ?_⟩
  intro e he e' he' heq
  have hold := (List.mem_filter.mp he).2
  have hlive := (List.mem_filter.mp he').2
  rw [← heq] at hlive
  simp only [decide_eq_true_eq] at hold hlive
  exact hlive hold

theorem limits_dropAll (gone : List (JsString × CachedResponse)) (s : MemoryResponseCacheStore) :
    (dropAll gone s).maxEntries = s.maxEntries ∧ (dropAll gone s).maxBytes = s.maxBytes := by
  induction gone generalizing s with
  | nil => exact ⟨rfl, rfl⟩
  | cons e gone ih => exact ih (s.drop e.1 e.2)

theorem Exact.fits_of_entries_eq_nil (h : Exact s) (hentries : s.map.entries = [])
    (hlimits : 0 < s.maxEntries ∧ 0 < s.maxBytes) : s.Fits := by
  rw [Exact, hentries, footprints_nil] at h
  rw [Fits, JsMap.size, hentries, h, List.length_nil]
  omega

theorem evict_eq (hexact : Exact s) (hlimits : 0 < s.maxEntries ∧ 0 < s.maxBytes) (now : ℤ) :
    ∃ n, s.evict now = dropAll ((evictionOrder s.map.entries now).take n) s ∧
      (s.evict now).Fits ∧
      ∀ m < n, ¬ (dropAll ((evictionOrder s.map.entries now).take m) s).Fits := by
  obtain ⟨n, hle, heq, hleast, hend⟩ :=
    evictLoop_eq (fun v => decide (v.staleUntil ≤ now)) s.map.entries s
  have hfirst : ∀ m ≤ n, (evictionOrder s.map.entries now).take m =
      (s.map.entries.filter fun e => decide (e.2.staleUntil ≤ now)).take m := by
    intro m hm
    rw [evictionOrder, List.take_append_of_le_length (by omega)]
  by_cases hfits : (evictLoop (fun v => decide (v.staleUntil ≤ now)) s.map.entries s).Fits
  · -- the first loop is enough
    have hevict : s.evict now =
        evictLoop (fun v => decide (v.staleUntil ≤ now)) s.map.entries s := by
      rw [evict]
      cases (evictLoop (fun v => decide (v.staleUntil ≤ now)) s.map.entries s).map.entries with
      | nil => rfl
      | cons e rest => rw [evictLoop, if_pos hfits]
    refine ⟨n, by rw [hevict, heq, hfirst n (Nat.le_refl n)], by rwa [hevict], ?_⟩
    intro m hm
    rw [hfirst m (by omega)]
    exact hleast m hm
  · -- all that has expired is dropped, and live ones follow
    have hall := hend.resolve_left hfits
    rw [hall, List.take_length] at heq
    obtain ⟨k, hk, hlive, hleast', hend'⟩ := evictLoop_eq (fun _ => true)
      (evictLoop (fun v => decide (v.staleUntil ≤ now)) s.map.entries s).map.entries
      (evictLoop (fun v => decide (v.staleUntil ≤ now)) s.map.entries s)
    have hsub : ∀ e ∈ s.map.entries.filter (fun e => decide (e.2.staleUntil ≤ now)),
        e ∈ s.map.entries := fun e he => List.mem_of_mem_filter he
    have hentries : (evictLoop (fun v => decide (v.staleUntil ≤ now)) s.map.entries s).map.entries =
        s.map.entries.filter fun e => ¬ e.2.staleUntil ≤ now := by
      rw [heq, entries_dropAll hsub ((nodup_entries s).filter _)]
      apply List.filter_congr
      intro e he
      simp [he]
    have hkept : ∀ l : List (JsString × CachedResponse), l.filter (fun _ => true) = l :=
      fun l => List.filter_eq_self.mpr fun _ _ => rfl
    rw [hkept] at hk hlive hend' hleast'
    have hevict : s.evict now = evictLoop (fun _ => true)
        (evictLoop (fun v => decide (v.staleUntil ≤ now)) s.map.entries s).map.entries
        (evictLoop (fun v => decide (v.staleUntil ≤ now)) s.map.entries s) := rfl
    have hjoin : ∀ m, dropAll ((s.map.entries.filter fun e => ¬ e.2.staleUntil ≤ now).take m)
        (evictLoop (fun v => decide (v.staleUntil ≤ now)) s.map.entries s) =
          dropAll ((evictionOrder s.map.entries now).take (n + m)) s := by
      intro m
      rw [evictionOrder, hall, List.take_length_add_append, heq, dropAll, dropAll, dropAll,
        List.foldl_append]
    rw [hentries] at hlive hleast' hend' hevict
    rw [hjoin] at hlive
    refine ⟨n + k, by rw [hevict, hlive], ?_, ?_⟩
    · rw [hevict]
      refine hend'.elim id fun hlast => ?_
      have hgone : (evictionOrder s.map.entries now).take (n + k) =
          evictionOrder s.map.entries now := by
        rw [List.take_of_length_le]
        rw [evictionOrder, List.length_append, hall, hlast]
      rw [hlive, hgone]
      have hin : ∀ e ∈ evictionOrder s.map.entries now, e ∈ s.map.entries :=
        fun e he => mem_evictionOrder.mp he
      obtain ⟨hentries', hbytes'⟩ := limits_dropAll (evictionOrder s.map.entries now) s
      refine (hexact.dropAll hin (nodup_evictionOrder s now)).fits_of_entries_eq_nil ?_ ?_
      · rw [entries_dropAll hin (nodup_evictionOrder s now), List.filter_eq_nil_iff]
        intro e he
        simp [mem_evictionOrder, he]
      · rwa [hentries', hbytes']
    · intro m hm
      by_cases hmn : m < n
      · rw [hfirst m (by omega)]
        exact hleast m hmn
      · obtain ⟨d, rfl⟩ := Nat.exists_eq_add_of_le (Nat.not_lt.mp hmn)
        rw [← hjoin]
        exact hleast' d (by omega)

/-! ## Calls -/

structure Kept (s : MemoryResponseCacheStore) : Prop where
  exact : Exact s
  fits : s.Fits
  limits : 0 < s.maxEntries ∧ 0 < s.maxBytes

theorem kept_create {opts : MemoryResponseCacheStoreOptions} (h : create opts = .ok s) :
    Kept s := by
  unfold create at h
  dsimp only at h
  split at h
  · cases h
  · rename_i hentries
    split at h
    · cases h
    · rename_i hbytes
      obtain rfl := Except.ok.inj h
      have hlimits : 0 < (opts.maxEntries.getD 10000).num ∧
          0 < (opts.maxBytes.getD (64 * 1024 * 1024)).num := by
        rw [Rat.num_pos, Rat.num_pos]
        exact ⟨not_le.mp fun hle => hentries (.inr hle), not_le.mp fun hle => hbytes (.inr hle)⟩
      exact ⟨rfl, Exact.fits_of_entries_eq_nil rfl rfl hlimits, hlimits⟩

theorem Kept.drop (h : Kept s) (hget : s.map.get? key = some entry) : Kept (s.drop key entry) := by
  have hexact := h.exact.drop hget
  obtain ⟨hentries, hbytes⟩ := h.fits
  refine ⟨hexact, ⟨?_, ?_⟩, h.limits⟩
  · have hle : (s.map.delete key).size ≤ s.map.size := List.length_filter_le _ _
    have hmap : (s.drop key entry).map.size = (s.map.delete key).size := rfl
    have hmax : (s.drop key entry).maxEntries = s.maxEntries := rfl
    omega
  · have hdrop : (s.drop key entry).bytes = s.bytes - entryFootprintBytes entry := rfl
    have hmax : (s.drop key entry).maxBytes = s.maxBytes := rfl
    omega

theorem limits_put (key : JsString) (entry : CachedResponse) :
    (s.put key entry).maxEntries = s.maxEntries ∧ (s.put key entry).maxBytes = s.maxBytes :=
  ⟨rfl, rfl⟩

/-- What `set` leaves behind: no more is dropped than must be, and in the order of eviction. -/
theorem Kept.set_eq (h : Kept s) (key : JsString) (entry : CachedResponse) (now : ℤ) :
    ∃ n, s.set key entry now =
        dropAll ((evictionOrder (s.put key entry).map.entries now).take n) (s.put key entry) ∧
      (s.set key entry now).Fits ∧
      ∀ m < n, ¬ (dropAll ((evictionOrder (s.put key entry).map.entries now).take m)
        (s.put key entry)).Fits := by
  rw [MemoryResponseCacheStore.set]
  split
  · exact evict_eq (h.exact.put key entry) h.limits now
  · rename_i hfits
    refine ⟨0, rfl, ?_, by simp⟩
    rw [Fits]
    omega

theorem Kept.step (h : Kept s) (call : Call) : Kept (s.step call).1 := by
  cases call with
  | get key now =>
    rw [MemoryResponseCacheStore.step, MemoryResponseCacheStore.get]
    split
    · exact h
    · rename_i entry hget
      split
      · exact h.drop hget
      · exact h
  | set key entry now =>
    obtain ⟨n, heq, hfits, -⟩ := h.set_eq key entry now
    rw [MemoryResponseCacheStore.step]
    refine ⟨?_, hfits, ?_⟩
    · rw [heq]
      refine (h.exact.put key entry).dropAll ?_ ?_
      · exact fun e he => mem_evictionOrder.mp (List.mem_of_mem_take he)
      · exact (nodup_evictionOrder _ now).sublist (List.take_sublist _ _)
    · rw [heq, (limits_dropAll _ _).1, (limits_dropAll _ _).2]
      exact h.limits
  | delete key =>
    rw [MemoryResponseCacheStore.step, MemoryResponseCacheStore.delete]
    split
    · rename_i entry hget
      exact h.drop hget
    · exact h
  | clear => exact ⟨rfl, Exact.fits_of_entries_eq_nil rfl rfl h.limits, h.limits⟩

theorem limits_step (s : MemoryResponseCacheStore) (h : Kept s) (call : Call) :
    (s.step call).1.maxEntries = s.maxEntries ∧ (s.step call).1.maxBytes = s.maxBytes := by
  cases call with
  | get key now =>
    rw [MemoryResponseCacheStore.step, MemoryResponseCacheStore.get]
    split
    · exact ⟨rfl, rfl⟩
    · split <;> exact ⟨rfl, rfl⟩
  | set key entry now =>
    obtain ⟨n, heq, -⟩ := h.set_eq key entry now
    rw [MemoryResponseCacheStore.step, heq]
    exact limits_dropAll _ _
  | delete key =>
    rw [MemoryResponseCacheStore.step, MemoryResponseCacheStore.delete]
    split <;> exact ⟨rfl, rfl⟩
  | clear => exact ⟨rfl, rfl⟩

/-- `entries` keep the limits of the store. -/
def Within (s : MemoryResponseCacheStore) (entries : List (JsString × CachedResponse)) : Prop :=
  entries.length ≤ s.maxEntries ∧ footprints entries ≤ s.maxBytes

/-- **The count of bytes is what is retained, and the limits are kept**, after every sequence of
calls. A `set` drops the first entries of what has expired and then of what is live, each in the
order of insertion, and stops as soon as the limits are kept. -/
theorem store_accounting {opts : MemoryResponseCacheStoreOptions}
    {store : MemoryResponseCacheStore} (hcreate : create opts = .ok store) (calls : List Call) :
    (feed step store calls).1.bytes = footprints (feed step store calls).1.map.entries ∧
      (feed step store calls).1.Fits ∧
      ∀ (key : JsString) (entry : CachedResponse) (now : ℤ),
        ((feed step store calls).1.set key entry now).Fits ∧
        ∃ n, ((feed step store calls).1.set key entry now).map.entries =
            ((feed step store calls).1.map.set key entry).entries.filter (fun e => e ∉
              (evictionOrder ((feed step store calls).1.map.set key entry).entries now).take n) ∧
          ∀ m < n, ¬ Within store
            (((feed step store calls).1.map.set key entry).entries.filter fun e => e ∉
              (evictionOrder ((feed step store calls).1.map.set key entry).entries now).take m) := by
  have hinv : Kept (feed step store calls).1 ∧
      (feed step store calls).1.maxEntries = store.maxEntries ∧
      (feed step store calls).1.maxBytes = store.maxBytes := by
    refine @feed_invariant _ _ _ step (fun s => Kept s ∧ s.maxEntries = store.maxEntries ∧
      s.maxBytes = store.maxBytes) ?_ _ ⟨kept_create hcreate, rfl, rfl⟩ calls
    intro s call h
    obtain ⟨hkept, hentries, hbytes⟩ := h
    obtain ⟨hentries', hbytes'⟩ := limits_step s hkept call
    exact ⟨hkept.step call, hentries'.trans hentries, hbytes'.trans hbytes⟩
  obtain ⟨hkept, hentries, hbytes⟩ := hinv
  refine ⟨hkept.exact, hkept.fits, fun key entry now => ?_⟩
  obtain ⟨n, heq, hfits, hleast⟩ := hkept.set_eq key entry now
  have hsub : ∀ k, ∀ e ∈ (evictionOrder
      ((feed step store calls).1.put key entry).map.entries now).take k,
      e ∈ ((feed step store calls).1.put key entry).map.entries :=
    fun k e he => mem_evictionOrder.mp (List.mem_of_mem_take he)
  have hnodup : ∀ k, ((evictionOrder
      ((feed step store calls).1.put key entry).map.entries now).take k).Nodup :=
    fun k => (nodup_evictionOrder _ now).sublist (List.take_sublist _ _)
  refine ⟨hfits, n, ?_, ?_⟩
  · rw [heq, entries_dropAll (hsub n) (hnodup n)]
    rfl
  · intro m hm hwithin
    refine hleast m hm ?_
    have hexact := (hkept.exact.put key entry).dropAll (hsub m) (hnodup m)
    obtain ⟨hmax, hmaxBytes⟩ := limits_dropAll ((evictionOrder
      ((feed step store calls).1.put key entry).map.entries now).take m)
      ((feed step store calls).1.put key entry)
    rw [Exact, entries_dropAll (hsub m) (hnodup m)] at hexact
    rw [Fits, JsMap.size, hexact, entries_dropAll (hsub m) (hnodup m), hmax, hmaxBytes,
      (limits_put key entry).1, (limits_put key entry).2, hentries, hbytes]
    exact hwithin

/-- An entry that is stale from `staleUntil` on. -/
def smallEntry (staleUntil : ℤ) : CachedResponse :=
  { status := 200, headers := [(js "a", js "bc")], body := js "AA==", storedAt := 0,
    freshUntil := 0, staleUntil }

def smallCalls : List Call :=
  [.set (js "live") (smallEntry 100) 1, .set (js "stale") (smallEntry 5) 2,
    .set (js "late") (smallEntry 100) 9]

theorem store_accounting_small :
    (feed step { maxEntries := 2, maxBytes := 67108864 } smallCalls).1.map.entries.map Prod.fst =
        [js "live", js "late"] ∧
      (feed step { maxEntries := 2, maxBytes := 67108864 } smallCalls).1.bytes = 14 ∧
      (feed step { maxEntries := 2, maxBytes := 67108864 } smallCalls).1.bytes =
        footprints (feed step { maxEntries := 2, maxBytes := 67108864 } smallCalls).1.map.entries := by
  have hcreate : create { maxEntries := some 2 } =
      .ok { maxEntries := 2, maxBytes := 67108864 } := by
    norm_num [create, Rat.isInt]
  exact ⟨by decide, by decide, (store_accounting hcreate smallCalls).1⟩

end MemoryResponseCacheStore

end Daloy.ResponseCache
