import Daloy.A2a.Tasks
import Daloy.Foundations.JsMap
import Daloy.Foundations.JsonParse
import Daloy.Foundations.Radix

/-! # The task store

`memoryTaskStore`, of `src/a2a.ts`. Times are in milliseconds; what `Date.parse` reads is a
parameter.

* `get`, `set`, `list`: the operations. `list` walks the entries in order of insertion, and throws
  where an array would be too long.
* `Kept`: what every call keeps. An entry is what was last set under its owner and id.
* `follow`: the pages from the first on, at any times, with reads in between.
-/

namespace Daloy.A2a.MemoryTaskStore
set_option autoImplicit false

open Daloy.Json Daloy.Radix Daloy.Unicode

structure TaskListQuery where
  contextId : Option JsString := none
  state : Option JsString := none
  pageSize : ℕ
  pageToken : Option JsString := none
  statusTimestampAfter : Option ℤ := none

structure TaskListPage (π μ : Type) where
  tasks : List (A2aTask π μ)
  nextPageToken : JsString
  totalSize : ℕ

/-- The options, which are checked when the store is made. -/
structure MemoryTaskStoreOptions where
  maxTasks : ℕ := 1000
  ttlMs : ℕ := 3600000
  maxTasks_pos : 1 ≤ maxTasks := by decide
  ttlMs_pos : 1 ≤ ttlMs := by decide

structure StoredTask (π μ : Type) where
  owner : JsString
  task : A2aTask π μ
  expiresAt : ℤ

abbrev TaskStore (π μ : Type) := JsMap JsString (StoredTask π μ)

/-- `JSON.stringify([owner, id])`. -/
def keyOf (owner id : JsString) : JsString := stringify (.arr [.str owner, .str id] : Value ℕ)

theorem keyOf_injective {owner owner' id id' : JsString} (h : keyOf owner id = keyOf owner' id') :
    owner = owner' ∧ id = id' := by
  have hwell : ∀ o i : JsString, (.arr [.str o, .str i] : Value ℕ).WellFormed := by
    simp [Value.WellFormed, WellFormedItems]
  have hvalue := stringify_injective (hwell owner id) (hwell owner' id') h
  simpa using hvalue

/-! ## Page tokens -/

def encodePageToken (offset : ℕ) : JsString := js "o" ++ radixText 36 offset

/-- The offset of a token that matches `/^o[0-9a-z]{1,10}$/`. -/
def decodePageToken : JsString → Option ℕ
  | [] => none
  | u :: digits =>
    if u = 0x6F ∧ 1 ≤ digits.length ∧ digits.length ≤ 10 ∧ digits.all isDigitUnit then
      some (parseRadix 36 digits)
    else none

theorem decodePageToken_encodePageToken {offset : ℕ} (h : offset < 36 ^ 10) :
    decodePageToken (encodePageToken offset) = some offset := by
  obtain ⟨hdigits, hne⟩ := isDigitUnit_radixText (b := 36) (by omega) (by omega) offset
  have hlen := length_radixText_le (b := 36) (by omega) (k := 10) (by omega) h
  have hpos := List.length_pos_iff.mpr hne
  have htoken : encodePageToken offset = 0x6F :: radixText 36 offset := rfl
  rw [htoken, decodePageToken, if_pos ⟨rfl, hpos, hlen, hdigits⟩,
    parseRadix_radixText (by omega) (by omega)]

theorem encodePageToken_ne_nil (offset : ℕ) : encodePageToken offset ≠ [] := by
  exact List.cons_ne_nil 0x6F (radixText 36 offset)

/-! ## Operations -/

def invalidPageToken : Failure := .rpc (-32602) (js "Invalid pageToken.")

/-- What `push` throws on an array that is full. -/
def invalidArrayLength : Failure := .internal (js "Invalid array length")

def maxArrayLength : ℕ := 2 ^ 32 - 1

section Operations

variable {π μ : Type} (parseDate : JsString → Option ℤ)

def statusTime (task : A2aTask π μ) : ℤ := (task.status.timestamp.bind parseDate).getD 0

def isMatch (owner : JsString) (query : TaskListQuery) (e : StoredTask π μ) : Bool :=
  e.owner = owner ∧ (∀ contextId ∈ query.contextId, e.task.contextId = contextId) ∧
    (∀ state ∈ query.state, e.task.status.state = .text state) ∧
    ∀ after ∈ query.statusTimestampAfter, ¬ statusTime parseDate e.task < after

/-- The loop of `list`: the entries that it leaves, and the tasks that it finds. -/
def scan (now : ℤ) (owner : JsString) (query : TaskListQuery) :
    List (JsString × StoredTask π μ) → List (A2aTask π μ) →
      List (JsString × StoredTask π μ) × Option (List (A2aTask π μ))
  | [], found => ([], some found)
  | e :: rest, found =>
    if e.2.expiresAt ≤ now then scan now owner query rest found
    else if ¬ isMatch parseDate owner query e.2 then
      (e :: (scan now owner query rest found).1, (scan now owner query rest found).2)
    else if found.length = maxArrayLength then (e :: rest, none)
    else
      (e :: (scan now owner query rest (found ++ [e.2.task])).1,
        (scan now owner query rest (found ++ [e.2.task])).2)

theorem scan_sublist (now : ℤ) (owner : JsString) (query : TaskListQuery)
    (entries : List (JsString × StoredTask π μ)) (found : List (A2aTask π μ)) :
    (scan parseDate now owner query entries found).1.Sublist entries := by
  induction entries generalizing found with
  | nil => exact List.Sublist.refl _
  | cons e rest ih =>
    rw [scan]
    split
    · exact (ih found).cons e
    · split
      · exact (ih found).cons_cons e
      · split
        · exact List.Sublist.refl _
        · exact (ih _).cons_cons e

/-- `matches.sort((a, b) => statusTime(b) - statusTime(a))`, which is stable. -/
def sortTasks (tasks : List (A2aTask π μ)) : List (A2aTask π μ) :=
  tasks.mergeSort fun a b => statusTime parseDate b ≤ statusTime parseDate a

/-- `matches.slice(offset, offset + query.pageSize)`, and where it ends. -/
def pageAt (sorted : List (A2aTask π μ)) (offset pageSize : ℕ) : TaskListPage π μ :=
  let page := (sorted.drop offset).take pageSize
  let next := offset + page.length
  { tasks := page
    nextPageToken := if next < sorted.length then encodePageToken next else []
    totalSize := sorted.length }

/-- `query.pageToken === undefined ? 0 : decodePageToken(query.pageToken)`. -/
def offsetOf (query : TaskListQuery) : Option ℕ :=
  match query.pageToken with
  | none => some 0
  | some token => decodePageToken token

namespace TaskStore

/-- `entries.delete(oldest)`, until no more than `maxTasks` are left. -/
def evict {α : Type} (maxTasks : ℕ) : List α → List α
  | [] => []
  | oldest :: rest =>
    if (oldest :: rest).length > maxTasks then evict maxTasks rest else oldest :: rest

theorem evict_sublist {α : Type} (maxTasks : ℕ) (entries : List α) :
    (evict maxTasks entries).Sublist entries := by
  induction entries with
  | nil => exact List.Sublist.refl _
  | cons oldest rest ih =>
    rw [evict]
    split
    · exact ih.cons oldest
    · exact List.Sublist.refl _

theorem length_evict_le {α : Type} (maxTasks : ℕ) (entries : List α) :
    (evict maxTasks entries).length ≤ maxTasks := by
  induction entries with
  | nil => exact Nat.zero_le _
  | cons oldest rest ih =>
    rw [evict]
    split
    · exact ih
    · omega

def get (s : TaskStore π μ) (now : ℤ) (owner taskId : JsString) :
    TaskStore π μ × Option (A2aTask π μ) :=
  match s.get? (keyOf owner taskId) with
  | none => (s, none)
  | some entry =>
    if entry.expiresAt ≤ now then (s.delete (keyOf owner taskId), none) else (s, some entry.task)

def set (options : MemoryTaskStoreOptions) (s : TaskStore π μ) (now : ℤ) (owner : JsString)
    (task : A2aTask π μ) : TaskStore π μ :=
  let key := keyOf owner task.id
  let written := JsMap.set (s.delete key) key ⟨owner, task, now + options.ttlMs⟩
  ⟨evict options.maxTasks written.entries,
    written.nodup.sublist ((evict_sublist _ _).map Prod.fst)⟩

def list (s : TaskStore π μ) (now : ℤ) (owner : JsString) (query : TaskListQuery) :
    TaskStore π μ × Except Failure (TaskListPage π μ) :=
  (⟨(scan parseDate now owner query s.entries []).1,
      s.nodup.sublist ((scan_sublist parseDate now owner query s.entries []).map Prod.fst)⟩,
    match (scan parseDate now owner query s.entries []).2 with
    | none => .error invalidArrayLength
    | some found =>
      match offsetOf query with
      | none => .error invalidPageToken
      | some offset => .ok (pageAt (sortTasks parseDate found) offset query.pageSize))

end TaskStore

/-! ## What a call does -/

/-- The tasks that `list` is for: live, of the owner, and as the filters say. -/
def tasksFor (now : ℤ) (owner : JsString) (query : TaskListQuery)
    (entries : List (JsString × StoredTask π μ)) : List (A2aTask π μ) :=
  (entries.filter fun e => now < e.2.expiresAt ∧ isMatch parseDate owner query e.2).map
    fun e => e.2.task

section

variable {parseDate} {s : TaskStore π μ} {now : ℤ} {owner : JsString} {query : TaskListQuery}
  {e : JsString × StoredTask π μ} {entries : List (JsString × StoredTask π μ)}
  {found : List (A2aTask π μ)}

theorem tasksFor_skip (h : ¬ (now < e.2.expiresAt ∧ isMatch parseDate owner query e.2 = true)) :
    tasksFor parseDate now owner query (e :: entries) =
      tasksFor parseDate now owner query entries := by
  rw [tasksFor, List.filter_cons_of_neg (by simpa using h)]
  rfl

theorem tasksFor_take (h : now < e.2.expiresAt ∧ isMatch parseDate owner query e.2 = true) :
    tasksFor parseDate now owner query (e :: entries) =
      e.2.task :: tasksFor parseDate now owner query entries := by
  rw [tasksFor, List.filter_cons_of_pos (by simpa using h)]
  rfl

theorem scan_eq (h : found.length + (tasksFor parseDate now owner query entries).length ≤
    maxArrayLength) :
    scan parseDate now owner query entries found =
      (entries.filter fun e => now < e.2.expiresAt,
        some (found ++ tasksFor parseDate now owner query entries)) := by
  induction entries generalizing found with
  | nil => simp [scan, tasksFor]
  | cons e rest ih =>
    rw [scan, List.filter_cons]
    by_cases hlive : now < e.2.expiresAt
    · rw [if_neg (by omega), if_pos (decide_eq_true hlive)]
      by_cases hmatch : isMatch parseDate owner query e.2 = true
      · rw [tasksFor_take ⟨hlive, hmatch⟩, List.length_cons] at h
        rw [if_neg (not_not.mpr hmatch), if_neg (by omega), tasksFor_take ⟨hlive, hmatch⟩, ih]
        · simp
        · rw [List.length_append, List.length_singleton]
          omega
      · rw [tasksFor_skip fun hboth => hmatch hboth.2] at h ⊢
        rw [if_pos hmatch, ih h]
    · rw [tasksFor_skip fun hboth => hlive hboth.1] at h ⊢
      rw [if_pos (by omega), if_neg (by simpa using hlive), ih h]

theorem scan_eq_none (h : found.length ≤ maxArrayLength)
    (hlong : maxArrayLength < found.length + (tasksFor parseDate now owner query entries).length) :
    (scan parseDate now owner query entries found).2 = none := by
  induction entries generalizing found with
  | nil =>
    rw [tasksFor, List.filter_nil, List.map_nil, List.length_nil] at hlong
    omega
  | cons e rest ih =>
    rw [scan]
    by_cases hlive : now < e.2.expiresAt
    · rw [if_neg (by omega)]
      by_cases hmatch : isMatch parseDate owner query e.2 = true
      · rw [tasksFor_take ⟨hlive, hmatch⟩, List.length_cons] at hlong
        rw [if_neg (not_not.mpr hmatch)]
        by_cases hfull : found.length = maxArrayLength
        · rw [if_pos hfull]
        · rw [if_neg hfull]
          refine ih ?_ ?_
          · rw [List.length_append, List.length_singleton]
            omega
          · rw [List.length_append, List.length_singleton]
            omega
      · rw [tasksFor_skip fun hboth => hmatch hboth.2] at hlong
        rw [if_pos hmatch]
        exact ih h hlong
    · rw [tasksFor_skip fun hboth => hlive hboth.1] at hlong
      rw [if_pos (by omega)]
      exact ih h hlong

theorem list_eq : (s.list parseDate now owner query).2 =
    if maxArrayLength < (tasksFor parseDate now owner query s.entries).length then
      .error invalidArrayLength
    else
      match offsetOf query with
      | none => .error invalidPageToken
      | some offset => .ok (pageAt
          (sortTasks parseDate (tasksFor parseDate now owner query s.entries)) offset
          query.pageSize) := by
  rw [TaskStore.list]
  dsimp only
  by_cases hlong : maxArrayLength < (tasksFor parseDate now owner query s.entries).length
  · have hscan : (scan parseDate now owner query s.entries []).2 = none :=
      scan_eq_none (Nat.zero_le _) (by simpa using hlong)
    rw [hscan, if_pos hlong]
  · have hscan : (scan parseDate now owner query s.entries []).2 = some ([] ++ _) :=
      congrArg Prod.snd (scan_eq (by simpa using hlong))
    rw [hscan, if_neg hlong]
    rfl

theorem scan_live (h : ∀ e ∈ entries, now < e.2.expiresAt) :
    (scan parseDate now owner query entries found).1 = entries := by
  induction entries generalizing found with
  | nil => rfl
  | cons e rest ih =>
    have hlive := h e List.mem_cons_self
    have hrest : ∀ found, (scan parseDate now owner query rest found).1 = rest :=
      fun found => ih fun e he => h e (List.mem_cons_of_mem _ he)
    rw [scan, if_neg (by omega)]
    split
    · rw [hrest]
    · split
      · rfl
      · rw [hrest]

theorem entries_list (h : (tasksFor parseDate now owner query s.entries).length ≤ maxArrayLength) :
    (s.list parseDate now owner query).1.entries =
      s.entries.filter fun e => now < e.2.expiresAt :=
  congrArg Prod.fst (scan_eq (by simpa using h))

end

/-! ## Calls -/

inductive StoreCall (π μ : Type)
  | get (owner taskId : JsString)
  | set (owner : JsString) (task : A2aTask π μ)
  | list (owner : JsString) (query : TaskListQuery)

def TaskStore.after (options : MemoryTaskStoreOptions) (s : TaskStore π μ)
    (call : StoreCall π μ × ℤ) : TaskStore π μ :=
  match call.1 with
  | .get owner taskId => (s.get call.2 owner taskId).1
  | .set owner task => s.set options call.2 owner task
  | .list owner query => (s.list parseDate call.2 owner query).1

def storeAfter (options : MemoryTaskStoreOptions) (calls : List (StoreCall π μ × ℤ)) :
    TaskStore π μ :=
  calls.foldl (TaskStore.after parseDate options) ∅

def StoreCall.setFor (owner id : JsString) (call : StoreCall π μ × ℤ) : Option (A2aTask π μ) :=
  match call.1 with
  | .set owner' task => if owner' = owner ∧ task.id = id then some task else none
  | .get .. | .list .. => none

def lastSet (calls : List (StoreCall π μ × ℤ)) (owner id : JsString) : Option (A2aTask π μ) :=
  (calls.filterMap (StoreCall.setFor owner id)).getLast?

structure Kept (options : MemoryTaskStoreOptions) (calls : List (StoreCall π μ × ℤ))
    (s : TaskStore π μ) : Prop where
  bounded : s.size ≤ options.maxTasks
  written : ∀ e ∈ s.entries, e.1 = keyOf e.2.owner e.2.task.id ∧
    lastSet calls e.2.owner e.2.task.id = some e.2.task

variable {parseDate} {options : MemoryTaskStoreOptions} {calls : List (StoreCall π μ × ℤ)}
  {s s' : TaskStore π μ}

theorem lastSet_append_none {call : StoreCall π μ × ℤ} {owner id : JsString}
    (h : StoreCall.setFor owner id call = none) :
    lastSet (calls ++ [call]) owner id = lastSet calls owner id := by
  rw [lastSet, lastSet, List.filterMap_append, List.filterMap_cons, h]
  exact congrArg List.getLast? (List.append_nil _)

theorem lastSet_append_some {call : StoreCall π μ × ℤ} {owner id : JsString} {task : A2aTask π μ}
    (h : StoreCall.setFor owner id call = some task) :
    lastSet (calls ++ [call]) owner id = some task := by
  rw [lastSet, List.filterMap_append, List.filterMap_cons, h, List.filterMap_nil,
    List.getLast?_concat]

theorem Kept.read {call : StoreCall π μ × ℤ} (h : Kept options calls s)
    (hsub : s'.entries.Sublist s.entries)
    (hread : ∀ owner id, StoreCall.setFor owner id call = none) :
    Kept options (calls ++ [call]) s' where
  bounded := hsub.length_le.trans h.bounded
  written := by
    intro e he
    obtain ⟨hkey, hlast⟩ := h.written e (hsub.subset he)
    exact ⟨hkey, (lastSet_append_none (hread _ _)).trans hlast⟩

theorem get_sublist (now : ℤ) (owner taskId : JsString) :
    (s.get now owner taskId).1.entries.Sublist s.entries := by
  rw [TaskStore.get]
  split
  · exact List.Sublist.refl _
  · split
    · exact List.filter_sublist
    · exact List.Sublist.refl _

theorem Kept.set (h : Kept options calls s) (now : ℤ) (owner : JsString) (task : A2aTask π μ) :
    Kept options (calls ++ [(.set owner task, now)]) (s.set options now owner task) := by
  refine ⟨TaskStore.length_evict_le _ _, fun e he => ?_⟩
  have hwritten := (TaskStore.evict_sublist _ _).subset he
  have hget := JsMap.get?_eq_some.mpr hwritten
  rw [JsMap.get?_set, JsMap.get?_delete] at hget
  by_cases hkey : e.1 = keyOf owner task.id
  · rw [if_pos hkey, Option.some.injEq] at hget
    rw [← hget]
    exact ⟨hkey, lastSet_append_some (by simp [StoreCall.setFor])⟩
  · rw [if_neg hkey, if_neg hkey] at hget
    obtain ⟨hold, hlast⟩ := h.written e (JsMap.get?_eq_some.mp hget)
    refine ⟨hold, (lastSet_append_none ?_).trans hlast⟩
    rw [StoreCall.setFor]
    dsimp only
    rw [if_neg]
    rintro ⟨howner, hid⟩
    exact hkey (by rw [hold, howner, hid])

theorem kept_after (h : Kept options calls s) (call : StoreCall π μ × ℤ) :
    Kept options (calls ++ [call]) (s.after parseDate options call) := by
  obtain ⟨call, now⟩ := call
  cases call with
  | get owner taskId => exact h.read (get_sublist _ _ _) fun _ _ => rfl
  | set owner task => exact h.set now owner task
  | list owner query => exact h.read (scan_sublist _ _ _ _ _ _) fun _ _ => rfl

theorem kept_run (calls : List (StoreCall π μ × ℤ)) :
    Kept options calls (storeAfter parseDate options calls) := by
  induction calls using List.reverseRecOn with
  | nil => exact ⟨Nat.zero_le _, fun e he => absurd he List.not_mem_nil⟩
  | append_singleton calls call ih =>
    rw [storeAfter, List.foldl_append]
    exact kept_after ih call

/-! ## Pages -/

def StoreCall.isRead : StoreCall π μ → Bool
  | .get .. | .list .. => true
  | .set .. => false

/-- The pages from a token on. The `i`-th is asked for at the time `clock i`, and followed by the
calls `between i`. -/
def follow (parseDate : JsString → Option ℤ) (options : MemoryTaskStoreOptions) (owner : JsString)
    (query : TaskListQuery) (clock : ℕ → ℤ) (between : ℕ → List (StoreCall π μ × ℤ)) :
    ℕ → ℕ → TaskStore π μ → Option JsString → Option (List (A2aTask π μ))
  | 0, _, _, _ => none
  | fuel + 1, i, s, pageToken =>
    match s.list parseDate (clock i) owner { query with pageToken } with
    | (_, .error _) => none
    | (s, .ok page) =>
      if page.nextPageToken = [] then some page.tasks
      else
        (follow parseDate options owner query clock between fuel (i + 1)
          ((between i).foldl (TaskStore.after parseDate options) s) (some page.nextPageToken)).map
            fun rest => page.tasks ++ rest

/-- Nothing is written and nothing expires while the pages are asked for. -/
structure Undisturbed (s : TaskStore π μ) (clock : ℕ → ℤ)
    (between : ℕ → List (StoreCall π μ × ℤ)) : Prop where
  reads : ∀ i, ∀ call ∈ between i, call.1.isRead = true
  asked : ∀ e ∈ s.entries, clock 0 < e.2.expiresAt → ∀ i, clock i < e.2.expiresAt
  meanwhile : ∀ e ∈ s.entries, clock 0 < e.2.expiresAt → ∀ i, ∀ call ∈ between i,
    call.2 < e.2.expiresAt

theorem ext_entries {s s' : TaskStore π μ} (h : s.entries = s'.entries) : s = s' := by
  cases s
  cases s'
  simpa using h

theorem after_read {call : StoreCall π μ × ℤ} (hread : call.1.isRead = true)
    (h : ∀ e ∈ s.entries, call.2 < e.2.expiresAt) : s.after parseDate options call = s := by
  obtain ⟨call, now⟩ := call
  cases call with
  | get owner taskId =>
    rw [TaskStore.after]
    dsimp only
    rw [TaskStore.get]
    split
    · rfl
    · rename_i entry hget
      have hlive := h _ (JsMap.get?_eq_some.mp hget)
      dsimp only at hlive
      rw [if_neg (by omega)]
  | set owner task => simp [StoreCall.isRead] at hread
  | list owner query => exact ext_entries (scan_live h)

theorem after_reads {calls : List (StoreCall π μ × ℤ)} (hread : ∀ call ∈ calls, call.1.isRead = true)
    (h : ∀ e ∈ s.entries, ∀ call ∈ calls, call.2 < e.2.expiresAt) :
    calls.foldl (TaskStore.after parseDate options) s = s := by
  induction calls with
  | nil => rfl
  | cons call calls ih =>
    rw [List.foldl_cons, after_read (hread call List.mem_cons_self) fun e he =>
      h e he call List.mem_cons_self]
    exact ih (fun c hc => hread c (List.mem_cons_of_mem _ hc)) fun e he c hc =>
      h e he c (List.mem_cons_of_mem _ hc)

theorem tasksFor_live {now now' : ℤ} {owner : JsString} {query : TaskListQuery}
    {entries : List (JsString × StoredTask π μ)} (pageToken : Option JsString)
    (h : ∀ e ∈ entries, now < e.2.expiresAt → now' < e.2.expiresAt) :
    tasksFor parseDate now' owner { query with pageToken }
        (entries.filter fun e => now < e.2.expiresAt) =
      tasksFor parseDate now owner query entries := by
  rw [tasksFor, tasksFor, List.filter_filter]
  congr 1
  refine List.filter_congr fun e he => ?_
  by_cases hnow : now < e.2.expiresAt
  · have hnow' := h e he hnow
    simp [hnow, hnow']
    rfl
  · simp [hnow]

/-! ## Paging runs -/

section Paging

variable {owner : JsString} {query : TaskListQuery} {clock : ℕ → ℤ}
  {between : ℕ → List (StoreCall π μ × ℤ)}

theorem list_page {now : ℤ} {sorted : List (A2aTask π μ)} {pageToken : Option JsString} {offset : ℕ}
    (hsorted : sortTasks parseDate (tasksFor parseDate now owner { query with pageToken } s.entries)
      = sorted)
    (hfits : sorted.length ≤ maxArrayLength)
    (hoffset : offsetOf { query with pageToken } = some offset) :
    (s.list parseDate now owner { query with pageToken }).2 =
      .ok (pageAt sorted offset query.pageSize) := by
  have hlen : (tasksFor parseDate now owner { query with pageToken } s.entries).length =
      sorted.length := by
    rw [← hsorted, sortTasks, List.length_mergeSort]
  rw [list_eq, if_neg (by omega), hoffset, hsorted]

theorem live_list {now : ℤ} {query : TaskListQuery} (h : ∀ e ∈ s.entries, now < e.2.expiresAt) :
    (s.list parseDate now owner query).1 = s := ext_entries (scan_live h)

theorem follow_from {sorted : List (A2aTask π μ)} (hsize : 1 ≤ query.pageSize)
    (hfits : sorted.length ≤ maxArrayLength)
    (hreads : ∀ i, ∀ call ∈ between i, call.1.isRead = true)
    (hasked : ∀ e ∈ s.entries, ∀ i, clock i < e.2.expiresAt)
    (hmeanwhile : ∀ e ∈ s.entries, ∀ i, ∀ call ∈ between i, call.2 < e.2.expiresAt)
    (hsorted : ∀ i pageToken, sortTasks parseDate
      (tasksFor parseDate (clock i) owner { query with pageToken } s.entries) = sorted)
    (fuel : ℕ) : ∀ (i offset : ℕ) (pageToken : Option JsString),
      offsetOf { query with pageToken } = some offset → sorted.length < offset + fuel →
      0 < fuel →
        follow parseDate options owner query clock between fuel i s pageToken =
          some (sorted.drop offset) := by
  induction fuel with
  | zero =>
    intro i offset pageToken _ _ hpos
    omega
  | succ fuel ih =>
    intro i offset pageToken hoffset hfuel _
    have hpage := list_page (hsorted i pageToken) hfits hoffset
    have hlist : s.list parseDate (clock i) owner { query with pageToken } =
        (s, .ok (pageAt sorted offset query.pageSize)) :=
      Prod.ext (live_list fun e he => hasked e he i) hpage
    have hlen : ((sorted.drop offset).take query.pageSize).length =
        min query.pageSize (sorted.length - offset) := by
      rw [List.length_take, List.length_drop]
    rw [follow, hlist]
    dsimp only [pageAt]
    by_cases hmore : offset + ((sorted.drop offset).take query.pageSize).length < sorted.length
    · have hnext : offset + ((sorted.drop offset).take query.pageSize).length =
          offset + query.pageSize := by omega
      have hbound : offset + query.pageSize < 36 ^ 10 := by
        have hmax : maxArrayLength < 36 ^ 10 := by decide
        omega
      rw [if_pos hmore, if_neg (encodePageToken_ne_nil _),
        after_reads (hreads i) fun e he => hmeanwhile e he i, hnext,
        ih (i + 1) (offset + query.pageSize) (some (encodePageToken (offset + query.pageSize)))
          (decodePageToken_encodePageToken hbound) (by omega) (by omega), Option.map_some,
        ← List.drop_drop, List.take_append_drop]
    · rw [if_neg hmore, if_pos rfl, List.take_of_length_le]
      rw [List.length_drop]
      omega

theorem sorted_sortTasks (tasks : List (A2aTask π μ)) :
    (sortTasks parseDate tasks).Pairwise fun a b =>
      statusTime parseDate b ≤ statusTime parseDate a := by
  have htrans : ∀ a b c : A2aTask π μ,
      decide (statusTime parseDate b ≤ statusTime parseDate a) = true →
        decide (statusTime parseDate c ≤ statusTime parseDate b) = true →
          decide (statusTime parseDate c ≤ statusTime parseDate a) = true := by
    intro a b c hab hbc
    simp only [decide_eq_true_eq] at hab hbc ⊢
    omega
  have htotal : ∀ a b : A2aTask π μ,
      (decide (statusTime parseDate b ≤ statusTime parseDate a) ||
        decide (statusTime parseDate a ≤ statusTime parseDate b)) = true := by
    intro a b
    simp only [Bool.or_eq_true, decide_eq_true_eq]
    omega
  exact (List.pairwise_mergeSort htrans htotal tasks).imp fun h => of_decide_eq_true h

theorem pages_of_fits (options : MemoryTaskStoreOptions) (hsize : 1 ≤ query.pageSize) (hfirst : query.pageToken = none)
    (hstill : Undisturbed s clock between)
    (hfits : (tasksFor parseDate (clock 0) owner query s.entries).length ≤ maxArrayLength) :
    (∃ fuel, follow parseDate options owner query clock between fuel 0 s none =
      some (sortTasks parseDate (tasksFor parseDate (clock 0) owner query s.entries))) ∧
    ∀ i pageToken, ((s.list parseDate (clock 0) owner query).1.list parseDate (clock i) owner
        { query with pageToken }).2 =
      match offsetOf { query with pageToken } with
      | none => .error invalidPageToken
      | some offset => .ok (pageAt
          (sortTasks parseDate (tasksFor parseDate (clock 0) owner query s.entries)) offset
          query.pageSize) := by
  have hentries : (s.list parseDate (clock 0) owner query).1.entries =
      s.entries.filter fun e => clock 0 < e.2.expiresAt := entries_list hfits
  have hlive : ∀ e ∈ (s.list parseDate (clock 0) owner query).1.entries,
      e ∈ s.entries ∧ clock 0 < e.2.expiresAt := by
    intro e he
    rw [hentries, List.mem_filter] at he
    exact ⟨he.1, of_decide_eq_true he.2⟩
  have hsame : ∀ i pageToken, tasksFor parseDate (clock i) owner { query with pageToken }
      (s.list parseDate (clock 0) owner query).1.entries =
        tasksFor parseDate (clock 0) owner query s.entries := by
    intro i pageToken
    rw [hentries]
    exact tasksFor_live pageToken fun e he hnow => hstill.asked e he hnow i
  refine ⟨?_, fun i pageToken => ?_⟩
  · have hquery : { query with pageToken := none } = query := by
      rw [← hfirst]
    generalize hsorted : sortTasks parseDate (tasksFor parseDate (clock 0) owner query s.entries) =
      sorted at *
    have hlen : sorted.length ≤ maxArrayLength := by
      rw [← hsorted, sortTasks, List.length_mergeSort]
      exact hfits
    -- the first page may remove entries; after it nothing does
    have hafter : follow parseDate options owner query clock between (sorted.length + 1) 0
        (s.list parseDate (clock 0) owner query).1 none = some (sorted.drop 0) :=
      follow_from hsize hlen hstill.reads
        (fun e he => hstill.asked e (hlive e he).1 (hlive e he).2)
        (fun e he => hstill.meanwhile e (hlive e he).1 (hlive e he).2)
        (fun i pageToken => by rw [hsame, hsorted]) (sorted.length + 1) 0 0 none rfl (by omega)
        (by omega)
    have hboth : s.list parseDate (clock 0) owner query =
        (s.list parseDate (clock 0) owner query).1.list parseDate (clock 0) owner query := by
      refine Prod.ext (live_list fun e he => (hlive e he).2).symm ?_
      have hfirstPage := hsame 0 none
      rw [hquery] at hfirstPage
      rw [list_eq, list_eq, hfirstPage]
    refine ⟨sorted.length + 1, ?_⟩
    rw [follow, hquery] at hafter ⊢
    rw [hboth]
    exact hafter
  · rw [list_eq, hsame, if_neg (by omega)]

end Paging

/-! ## Every run -/

/-- **After any calls**, the store is bounded, what it returns was last set under exactly the owner
that is asked for, and the pages of `list`, one after the other, are the live tasks that the query
is for, each once and the latest first. Any other token is rejected or begins somewhere among them.
`list` throws only for a token, or for more tasks than an array holds. -/
theorem task_store_pages (parseDate : JsString → Option ℤ) (options : MemoryTaskStoreOptions)
    (calls : List (StoreCall π μ × ℤ)) :
    (storeAfter parseDate options calls).size ≤ options.maxTasks ∧
    (∀ owner owner' id id', keyOf owner id = keyOf owner' id' → owner = owner' ∧ id = id') ∧
    (∀ now owner id task, ((storeAfter parseDate options calls).get now owner id).2 = some task →
      lastSet calls owner id = some task) ∧
    (∀ now owner query page,
      ((storeAfter parseDate options calls).list parseDate now owner query).2 = .ok page →
        ∀ task ∈ page.tasks, lastSet calls owner task.id = some task) ∧
    ∀ owner query clock between, 1 ≤ query.pageSize → query.pageToken = none →
      Undisturbed (storeAfter parseDate options calls) clock between →
        ∃ tasks : List (A2aTask π μ),
          tasks.Perm
            (tasksFor parseDate (clock 0) owner query (storeAfter parseDate options calls).entries) ∧
          (tasks.Pairwise fun a b => statusTime parseDate b ≤ statusTime parseDate a) ∧
          if maxArrayLength < tasks.length then
            ((storeAfter parseDate options calls).list parseDate (clock 0) owner query).2 =
              .error invalidArrayLength
          else
            (∃ fuel, follow parseDate options owner query clock between fuel 0
              (storeAfter parseDate options calls) none = some tasks) ∧
            ∀ i token,
              ((((storeAfter parseDate options calls).list parseDate (clock 0) owner query).1.list
                  parseDate (clock i) owner { query with pageToken := some token }).2 =
                .error invalidPageToken) ∨
              ∃ offset, (((storeAfter parseDate options calls).list parseDate (clock 0) owner
                  query).1.list parseDate (clock i) owner { query with pageToken := some token }).2 =
                .ok (pageAt tasks offset query.pageSize) := by
  have hkept : Kept options calls (storeAfter parseDate options calls) := kept_run calls
  generalize storeAfter parseDate options calls = s at hkept
  refine ⟨hkept.bounded, fun _ _ _ _ => keyOf_injective, ?_, ?_, ?_⟩
  · intro now owner id task hget
    rw [TaskStore.get] at hget
    split at hget
    · simp at hget
    · rename_i entry hentry
      split at hget
      · simp at hget
      · obtain rfl := Option.some.inj hget
        obtain ⟨hkey, hlast⟩ := hkept.written _ (JsMap.get?_eq_some.mp hentry)
        obtain ⟨howner, hid⟩ := keyOf_injective hkey
        dsimp only at howner hid
        rw [howner, hid]
        exact hlast
  · intro now owner query page hpage task htask
    rw [list_eq] at hpage
    split at hpage
    · simp at hpage
    · split at hpage
      · simp at hpage
      · obtain rfl := Except.ok.inj hpage
        have hmem := List.mem_mergeSort.mp
          (List.mem_of_mem_drop (List.mem_of_mem_take htask))
        obtain ⟨e, he, rfl⟩ := List.mem_map.mp hmem
        obtain ⟨he, hlive⟩ := List.mem_filter.mp he
        obtain ⟨-, hmatch⟩ := of_decide_eq_true hlive
        rw [isMatch, decide_eq_true_eq] at hmatch
        rw [← hmatch.1]
        exact (hkept.written e he).2
  · intro owner query clock between hsize hfirst hstill
    refine ⟨_, List.mergeSort_perm _ _, sorted_sortTasks _, ?_⟩
    rw [List.length_mergeSort]
    split
    · rename_i hlong
      rw [list_eq, if_pos hlong]
    · rename_i hfits
      obtain ⟨hfollow, hpages⟩ := pages_of_fits options hsize hfirst hstill (Nat.le_of_not_lt hfits)
      refine ⟨hfollow, fun i token => ?_⟩
      rw [hpages]
      cases offsetOf { query with pageToken := some token } with
      | none => exact .inl rfl
      | some offset => exact .inr ⟨offset, rfl⟩

end Operations

end Daloy.A2a.MemoryTaskStore
