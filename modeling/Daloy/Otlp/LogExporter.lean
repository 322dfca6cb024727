import Daloy.Otlp.LogRecords
import Daloy.Otlp.SingleFlight

/-! # The log exporter

`createOtlpLogExporter`, of `src/otlp.ts`. A line has a number, that of its call of `pushLine`; what
became of it is written down beside the queue.

* `pushLine`, `drain`, `logExporter`: the exporter.
* `LogQueue.Kept`: what every step keeps.
* `FailSafe`, `log_exporter_fail_safe`: every run is as the exporter promises, if and only if no
  line has the name of a property of `Object.prototype` as its level.
-/

namespace Daloy.Otlp
set_option autoImplicit false

open Daloy.Json Daloy.Runs Daloy.Text Daloy.Unicode

def logMaxBatch : ℕ := 100
def logMaxQueue : ℕ := 1000

abbrev Line := JsString × ℤ

abbrev Batch := List (ℕ × OtlpLogRecord)

/-- The queue, and the numbers of the lines that are not in it any more, but in no POST. -/
structure LogQueue where
  queue : Batch := []
  dropped : ℕ := 0
  pushes : ℕ := 0
  shifted : List ℕ := []
  discarded : List ℕ := []
  threw : List ℕ := []

def trimEnd (s : JsString) : JsString := s.rdropWhile isWhitespace

/-- `line.endsWith("\n") ? line.trimEnd() : line`. -/
def shipped (line : JsString) : JsString :=
  if line.getLast? = some 0x0A then trimEnd line else line

section Exporter

variable (ν : Type) [NumberText ν]

def LogQueue.room (d : LogQueue) : LogQueue :=
  if d.queue.length ≥ logMaxQueue then
    { d with
      queue := d.queue.drop 1
      dropped := d.dropped + 1
      shifted := d.shifted ++ (d.queue.take 1).map Prod.fst }
  else d

def pushLine (d : LogQueue) (line : Line) : LogQueue :=
  match toLogRecord ν (shipped line.1) line.2 with
  | some record =>
    { d.room with pushes := d.pushes + 1, queue := d.room.queue ++ [(d.pushes, record)] }
  | none => { d.room with pushes := d.pushes + 1, threw := d.room.threw ++ [d.pushes] }

def drain (d : LogQueue) : LogQueue × Progress Batch :=
  if d.queue.length > 0 then
    ({ d with queue := d.queue.drop logMaxBatch }, .post (d.queue.take logMaxBatch))
  else (d, .returned)

def logExporter : Exporter LogQueue Line Batch where
  call := pushLine ν
  start := drain
  resume d outcome :=
    match outcome with
    | .status ok => drain (if ok then d else { d with dropped := d.dropped + 1 })
    | .failed =>
      ({ d with
          queue := []
          dropped := d.dropped + 1
          discarded := d.discarded ++ d.queue.map Prod.fst }, .returned)

theorem logExporter_quiet : (logExporter ν).Quiet := by
  have hdrain : ∀ d, (drain d).2 ≠ .rejected := by
    intro d
    rw [drain]
    split
    · simp
    · simp
  refine ⟨hdrain, fun d outcome => ?_⟩
  cases outcome with
  | status ok => exact hdrain _
  | failed => simp [logExporter]

end Exporter

/-! ## The invariant -/

abbrev LogFlusher := Flusher LogQueue Line Batch

def posted (posts : List (Post Batch)) : Batch := posts.flatMap Post.payload

def Done (d : LogQueue) (posts : List (Post Batch)) (n : ℕ) : Prop :=
  n ∈ d.threw ∨ n ∈ d.shifted ∨ n ∈ d.discarded ∨
    ∃ post ∈ posts, n ∈ post.payload.map Prod.fst ∧ post.outcome ≠ none

def RunStage.isOver : RunStage → Bool
  | .ended _ | .finished _ => true
  | .posting _ | .answered _ => false

section Invariant

variable (ν : Type) [NumberText ν]

/-- **What every step keeps.** -/
structure Kept (s : LogFlusher) : Prop where
  pushes : s.data.pushes = s.calls.length
  bounded : s.data.queue.length ≤ logMaxQueue
  sorted : ((posted s.posts ++ s.data.queue).map Prod.fst).Pairwise (· < ·)
  records : ∀ entry ∈ posted s.posts ++ s.data.queue, ∃ line : Line,
    s.calls[entry.1]? = some line ∧ toLogRecord ν (shipped line.1) line.2 = some entry.2
  threw : ∀ n, n ∈ s.data.threw ↔ ∃ line : Line, s.calls[n]? = some line ∧
    toLogRecord ν (shipped line.1) line.2 = none
  covered : ∀ n < s.calls.length, n ∈ s.data.threw ∨ n ∈ s.data.shifted ∨ n ∈ s.data.discarded ∨
    n ∈ (posted s.posts ++ s.data.queue).map Prod.fst
  marks : ∀ run ∈ s.runs, run.calls ≤ s.calls.length
  ended : ∀ run ∈ s.runs, run.stage.isOver = true → ∀ n < run.calls, Done s.data s.posts n

variable {ν} {s s' : LogFlusher}

theorem kept_initial : Kept ν ({ data := {} } : LogFlusher) where
  pushes := rfl
  bounded := Nat.zero_le _
  sorted := List.Pairwise.nil
  records := by simp [posted]
  threw := by simp
  covered := by simp
  marks := by simp
  ended := by simp

theorem Kept.lt (h : Kept ν s) {n : ℕ} (hn : n ∈ (posted s.posts ++ s.data.queue).map Prod.fst) :
    n < s.calls.length := by
  obtain ⟨entry, hentry, rfl⟩ := List.mem_map.mp hn
  obtain ⟨line, hline, -⟩ := h.records entry hentry
  exact (List.getElem?_eq_some_iff.mp hline).1

theorem Kept.done (h : Kept ν s) (hqueue : s.data.queue = [])
    (hsettled : ∀ post ∈ s.posts, post.outcome ≠ none) {n : ℕ} (hn : n < s.calls.length) :
    Done s.data s.posts n := by
  obtain hthrew | hshifted | hdiscarded | hposted := h.covered n hn
  · exact .inl hthrew
  · exact .inr (.inl hshifted)
  · exact .inr (.inr (.inl hdiscarded))
  · rw [hqueue, List.append_nil] at hposted
    obtain ⟨entry, hentry, rfl⟩ := List.mem_map.mp hposted
    obtain ⟨post, hpost, hmem⟩ := List.mem_flatMap.mp hentry
    exact .inr (.inr (.inr ⟨post, hpost, List.mem_map_of_mem hmem, hsettled post hpost⟩))

theorem Done.mono {d d' : LogQueue} {posts posts' : List (Post Batch)} {n : ℕ}
    (h : Done d posts n) (hthrew : d.threw ⊆ d'.threw) (hshifted : d.shifted ⊆ d'.shifted)
    (hdiscarded : d.discarded ⊆ d'.discarded)
    (hposts : ∀ post ∈ posts, post.outcome ≠ none →
      ∃ post' ∈ posts', post'.payload = post.payload ∧ post'.outcome ≠ none) :
    Done d' posts' n := by
  obtain hn | hn | hn | ⟨post, hpost, hn, houtcome⟩ := h
  · exact .inl (hthrew hn)
  · exact .inr (.inl (hshifted hn))
  · exact .inr (.inr (.inl (hdiscarded hn)))
  · obtain ⟨post', hpost', hpayload, houtcome'⟩ := hposts post hpost houtcome
    exact .inr (.inr (.inr ⟨post', hpost', by rwa [hpayload], houtcome'⟩))

theorem room_spec (d : LogQueue) :
    d.room.queue <:+ d.queue ∧ d.room.discarded = d.discarded ∧
      d.room.threw = d.threw ∧ d.shifted ⊆ d.room.shifted ∧
      (d.queue.length ≤ logMaxQueue → d.room.queue.length < logMaxQueue) ∧
      ∀ n, n ∈ d.queue.map Prod.fst → n ∈ d.room.shifted ∨ n ∈ d.room.queue.map Prod.fst := by
  rw [LogQueue.room]
  by_cases h : d.queue.length ≥ logMaxQueue
  · rw [if_pos h]
    refine ⟨List.drop_suffix _ _, rfl, rfl, List.subset_append_left _ _, ?_, ?_⟩
    · intro hle
      simp only [List.length_drop, logMaxQueue] at h hle ⊢
      omega
    · intro n hn
      dsimp only
      rw [← List.take_append_drop 1 d.queue, List.map_append] at hn
      obtain hn | hn := List.mem_append.mp hn
      · exact .inl (List.mem_append_right _ hn)
      · exact .inr hn
  · rw [if_neg h]
    exact ⟨List.suffix_rfl, rfl, rfl, List.Subset.refl _, fun _ => Nat.lt_of_not_le h,
      fun n hn => .inr hn⟩

theorem Kept.push (h : Kept ν s) (line : Line) :
    Kept ν { s with data := pushLine ν s.data line, calls := s.calls ++ [line] } := by
  obtain ⟨hsuffix, hdiscarded, hthrew, hshifted, hroom, hgone⟩ := room_spec s.data
  have hsub : (posted s.posts ++ s.data.room.queue).Sublist (posted s.posts ++ s.data.queue) :=
    (List.Sublist.refl _).append hsuffix.sublist
  have hcovered : ∀ n < s.calls.length, n ∈ s.data.threw ∨ n ∈ s.data.room.shifted ∨
      n ∈ s.data.discarded ∨ n ∈ (posted s.posts ++ s.data.room.queue).map Prod.fst := by
    intro n hn
    obtain hn | hn | hn | hn := h.covered n hn
    · exact .inl hn
    · exact .inr (.inl (hshifted hn))
    · exact .inr (.inr (.inl hn))
    · rw [List.map_append] at hn
      obtain hn | hn := List.mem_append.mp hn
      · exact .inr (.inr (.inr (by rw [List.map_append]; exact List.mem_append_left _ hn)))
      · obtain hn | hn := hgone n hn
        · exact .inr (.inl hn)
        · exact .inr (.inr (.inr (by rw [List.map_append]; exact List.mem_append_right _ hn)))
  have hmarks : ∀ run ∈ s.runs, run.calls ≤ (s.calls ++ [line]).length := by
    intro run hrun
    have hle := h.marks run hrun
    rw [List.length_append]
    omega
  rw [pushLine]
  cases hrecord : toLogRecord ν (shipped line.1) line.2 with
  | some record =>
    dsimp only
    rw [h.pushes]
    refine ⟨by simp, ?_, ?_, ?_, ?_, ?_, hmarks, ?_⟩
    · have hlt := hroom h.bounded
      rw [List.length_append, List.length_singleton]
      omega
    · dsimp only
      rw [← List.append_assoc, List.map_append]
      refine List.pairwise_append.mpr ⟨h.sorted.sublist (hsub.map _), List.pairwise_singleton _ _, ?_⟩
      intro n hn m hm
      rw [List.mem_singleton.mp hm]
      exact h.lt ((hsub.map Prod.fst).subset hn)
    · intro entry hentry
      dsimp only at hentry ⊢
      rw [← List.append_assoc] at hentry
      obtain hentry | hentry := List.mem_append.mp hentry
      · obtain ⟨old, hn, hold'⟩ := h.records entry (hsub.subset hentry)
        exact ⟨old, getElem?_concat.mpr (.inl hn), hold'⟩
      · rw [List.mem_singleton.mp hentry]
        exact ⟨line, List.getElem?_concat_length, hrecord⟩
    · intro n
      dsimp only
      rw [hthrew, h.threw n]
      constructor
      · rintro ⟨old, hn, hnone⟩
        exact ⟨old, getElem?_concat.mpr (.inl hn), hnone⟩
      · rintro ⟨old, hn, hnone⟩
        obtain hn | ⟨-, rfl⟩ := getElem?_concat.mp hn
        · exact ⟨old, hn, hnone⟩
        · rw [hrecord] at hnone
          simp at hnone
    · intro n hn
      dsimp only at hn ⊢
      rw [List.length_append, List.length_singleton] at hn
      rw [hthrew, hdiscarded, ← List.append_assoc, List.map_append]
      by_cases hlt : n < s.calls.length
      · obtain hn | hn | hn | hn := hcovered n hlt
        · exact .inl hn
        · exact .inr (.inl hn)
        · exact .inr (.inr (.inl hn))
        · exact .inr (.inr (.inr (List.mem_append_left _ hn)))
      · have hn' : n = s.calls.length := by omega
        exact .inr (.inr (.inr (List.mem_append_right _ (by simp [hn']))))
    · intro run hrun hover n hn
      exact (h.ended run hrun hover n hn).mono (by dsimp only; rw [hthrew]; exact List.Subset.refl _)
        hshifted (by dsimp only; rw [hdiscarded]; exact List.Subset.refl _)
        fun post hpost houtcome => ⟨post, hpost, rfl, houtcome⟩
  | none =>
    dsimp only
    rw [h.pushes]
    refine ⟨by simp, (hroom h.bounded).le, h.sorted.sublist (hsub.map _), ?_, ?_,
      ?_, hmarks, ?_⟩
    · intro entry hentry
      obtain ⟨old, hn, hold'⟩ := h.records entry (hsub.subset hentry)
      exact ⟨old, getElem?_concat.mpr (.inl hn), hold'⟩
    · intro n
      dsimp only
      rw [hthrew, List.mem_append, h.threw n, List.mem_singleton]
      constructor
      · rintro (⟨old, hn, hnone⟩ | rfl)
        · exact ⟨old, getElem?_concat.mpr (.inl hn), hnone⟩
        · exact ⟨line, List.getElem?_concat_length, hrecord⟩
      · rintro ⟨old, hn, hnone⟩
        obtain hn | ⟨hn, -⟩ := getElem?_concat.mp hn
        · exact .inl ⟨old, hn, hnone⟩
        · exact .inr hn
    · intro n hn
      dsimp only at hn ⊢
      rw [List.length_append, List.length_singleton] at hn
      rw [hthrew, hdiscarded, List.mem_append]
      by_cases hlt : n < s.calls.length
      · obtain hn | hn | hn | hn := hcovered n hlt
        · exact .inl (.inl hn)
        · exact .inr (.inl hn)
        · exact .inr (.inr (.inl hn))
        · exact .inr (.inr (.inr hn))
      · have hn' : n = s.calls.length := by omega
        exact .inl (.inr (by simp [hn']))
    · intro run hrun hover n hn
      refine (h.ended run hrun hover n hn).mono ?_ hshifted
        (by dsimp only; rw [hdiscarded]; exact List.Subset.refl _)
        fun post hpost houtcome => ⟨post, hpost, rfl, houtcome⟩
      dsimp only
      rw [hthrew]
      exact List.subset_append_left _ _

def RunsFrom (runs runs' : List Run) : Prop :=
  ∀ run ∈ runs', ∃ old ∈ runs, old.calls = run.calls ∧
    (run.stage.isOver = true → old.stage.isOver = true)

theorem runsFrom_setRun {r : ℕ} {old : Run} (hrun : s.runs[r]? = some old) {stage : RunStage}
    (hover : stage.isOver = true → old.stage.isOver = true) :
    RunsFrom s.runs (s.setRun r stage).runs := by
  intro run hmem
  obtain ⟨q, hq⟩ := List.getElem?_of_mem hmem
  rw [Flusher.runs_setRun] at hq
  split at hq
  · rename_i hqr
    rw [hqr, hrun] at hq
    obtain rfl := Option.some.inj hq
    exact ⟨old, List.mem_of_getElem? hrun, rfl, hover⟩
  · exact ⟨run, List.mem_of_getElem? hq, rfl, id⟩

theorem RunsFrom.refl (runs : List Run) : RunsFrom runs runs := fun run h => ⟨run, h, rfl, id⟩

theorem Kept.frame (h : Kept ν s) (hdata : s'.data = s.data) (hcalls : s'.calls = s.calls)
    (hpayloads : s'.posts.map Post.payload = s.posts.map Post.payload)
    (hposts : ∀ post ∈ s.posts, post.outcome ≠ none →
      ∃ post' ∈ s'.posts, post'.payload = post.payload ∧ post'.outcome ≠ none)
    (hruns : RunsFrom s.runs s'.runs) : Kept ν s' := by
  have hposted : posted s'.posts = posted s.posts := by
    rw [posted, posted, List.flatMap_def, List.flatMap_def, hpayloads]
  refine ⟨?_, ?_, ?_, ?_, ?_, ?_, ?_, ?_⟩
  · rw [hdata, hcalls, h.pushes]
  · rw [hdata]
    exact h.bounded
  · rw [hdata, hposted]
    exact h.sorted
  · rw [hdata, hposted, hcalls]
    exact h.records
  · rw [hdata, hcalls]
    exact h.threw
  · rw [hdata, hposted, hcalls]
    exact h.covered
  · intro run hrun
    obtain ⟨old, hold, hmark, -⟩ := hruns run hrun
    rw [hcalls, ← hmark]
    exact h.marks old hold
  · intro run hrun hover n hn
    obtain ⟨old, hold, hmark, hwas⟩ := hruns run hrun
    rw [hdata]
    exact (h.ended old hold (hwas hover) n (by omega)).mono (List.Subset.refl _)
      (List.Subset.refl _) (List.Subset.refl _) hposts

/-- Two queues with the same lines, whatever was counted. -/
structure SameLines (d d' : LogQueue) : Prop where
  queue : d'.queue = d.queue
  pushes : d'.pushes = d.pushes
  shifted : d'.shifted = d.shifted
  discarded : d'.discarded = d.discarded
  threw : d'.threw = d.threw

theorem SameLines.refl (d : LogQueue) : SameLines d d := ⟨rfl, rfl, rfl, rfl, rfl⟩

theorem drain_spec (d : LogQueue) (calls : ℕ) :
    SameLines { d with queue := (drain d).1.queue } (drain d).1 ∧
      posted ((drain d).2.posts calls) ++ (drain d).1.queue = d.queue ∧
      (∀ p, ((drain d).2.stage p).isOver = true → (drain d).1.queue = [] ∧
        (drain d).2.posts calls = []) ∧
      (drain d).1.queue.length ≤ d.queue.length := by
  rw [drain]
  by_cases h : d.queue.length > 0
  · rw [if_pos h]
    refine ⟨SameLines.refl _, ?_, ?_, by simp⟩
    · simp [Progress.posts, posted]
    · intro p hover
      simp [Progress.stage, RunStage.isOver] at hover
  · rw [if_neg h]
    have hnil : d.queue = [] := List.length_eq_zero_iff.mp (by omega)
    exact ⟨SameLines.refl _, rfl, fun _ _ => ⟨hnil, rfl⟩, le_rfl⟩

theorem Kept.goes_on (h : Kept ν s) (hsettled : ∀ post ∈ s.posts, post.outcome ≠ none)
    {d : LogQueue} (hd : SameLines s.data d) (hdata : s'.data = (drain d).1)
    (hcalls : s'.calls = s.calls)
    (hposts : s'.posts = s.posts ++ (drain d).2.posts s.calls.length)
    (hruns : ∀ run ∈ s'.runs, (∃ old ∈ s.runs, old.calls = run.calls ∧
      (run.stage.isOver = true → old.stage.isOver = true)) ∨
        (run.calls ≤ s.calls.length ∧ ∃ p, run.stage = (drain d).2.stage p)) : Kept ν s' := by
  obtain ⟨hsame, hqueue, hover, hle⟩ := drain_spec d s.calls.length
  have hall : posted s'.posts ++ s'.data.queue = posted s.posts ++ s.data.queue := by
    rw [hposts, hdata, posted, List.flatMap_append, List.append_assoc, ← posted, ← posted, hqueue,
      hd.queue]
  have hthrew : s'.data.threw = s.data.threw := by rw [hdata, hsame.threw, ← hd.threw]
  have hshifted : s'.data.shifted = s.data.shifted := by rw [hdata, hsame.shifted, ← hd.shifted]
  have hdiscarded : s'.data.discarded = s.data.discarded := by
    rw [hdata, hsame.discarded, ← hd.discarded]
  have hmore : ∀ post ∈ s.posts, post.outcome ≠ none →
      ∃ post' ∈ s'.posts, post'.payload = post.payload ∧ post'.outcome ≠ none := by
    intro post hpost houtcome
    exact ⟨post, by rw [hposts]; exact List.mem_append_left _ hpost, rfl, houtcome⟩
  refine ⟨?_, ?_, ?_, ?_, ?_, ?_, ?_, ?_⟩
  · rw [hdata, hcalls, hsame.pushes, ← h.pushes, ← hd.pushes]
  · rw [hdata]
    have hbounded := h.bounded
    rw [← hd.queue] at hbounded
    omega
  · rw [hall]
    exact h.sorted
  · rw [hall, hcalls]
    exact h.records
  · rw [hthrew, hcalls]
    exact h.threw
  · rw [hthrew, hshifted, hdiscarded, hall, hcalls]
    exact h.covered
  · intro run hrun
    rw [hcalls]
    obtain ⟨old, hold, hmark, -⟩ | ⟨hmark, -⟩ := hruns run hrun
    · rw [← hmark]
      exact h.marks old hold
    · exact hmark
  · intro run hrun hisOver n hn
    have hdone : Done s.data s.posts n := by
      obtain ⟨old, hold, hmark, hwas⟩ | ⟨hmark, p, hstage⟩ := hruns run hrun
      · exact h.ended old hold (hwas hisOver) n (by omega)
      · rw [hstage] at hisOver
        obtain ⟨hempty, hnone⟩ := hover p hisOver
        rw [hempty, hnone] at hqueue
        exact h.done (hd.queue.symm.trans hqueue.symm) hsettled (by omega)
    exact hdone.mono (by rw [hthrew]; exact List.Subset.refl _)
      (by rw [hshifted]; exact List.Subset.refl _) (by rw [hdiscarded]; exact List.Subset.refl _)
      hmore

theorem Kept.discard (h : Kept ν s) (hsettled : ∀ post ∈ s.posts, post.outcome ≠ none)
    {r calls : ℕ} (hmark : calls ≤ s.calls.length)
    (hruns : ∀ run ∈ (s.setRun r (.ended true)).runs,
      run ∈ s.runs ∨ (run.calls = calls ∧ run.stage = .ended true)) :
    Kept ν { s.setRun r (.ended true) with
      data := { s.data with
        queue := []
        dropped := s.data.dropped + 1
        discarded := s.data.discarded ++ s.data.queue.map Prod.fst }
      posts := s.posts ++ [] } := by
  have hsub : (posted (s.posts ++ []) ++ []).Sublist (posted s.posts ++ s.data.queue) := by
    rw [List.append_nil, List.append_nil]
    exact List.sublist_append_left _ _
  have hcovered : ∀ n < s.calls.length, n ∈ s.data.threw ∨ n ∈ s.data.shifted ∨
      n ∈ s.data.discarded ++ s.data.queue.map Prod.fst ∨ n ∈ (posted s.posts).map Prod.fst := by
    intro n hn
    obtain hn | hn | hn | hn := h.covered n hn
    · exact .inl hn
    · exact .inr (.inl hn)
    · exact .inr (.inr (.inl (List.mem_append_left _ hn)))
    · rw [List.map_append] at hn
      obtain hn | hn := List.mem_append.mp hn
      · exact .inr (.inr (.inr hn))
      · exact .inr (.inr (.inl (List.mem_append_right _ hn)))
  refine ⟨h.pushes, Nat.zero_le _, h.sorted.sublist (hsub.map _), ?_, h.threw, ?_, ?_, ?_⟩
  · intro entry hentry
    exact h.records entry (hsub.subset hentry)
  · intro n hn
    dsimp only
    rw [List.append_nil, List.append_nil]
    exact hcovered n hn
  · intro run hrun
    obtain hold | ⟨hcalls, -⟩ := hruns run hrun
    · exact h.marks run hold
    · rw [hcalls]
      exact hmark
  · intro run hrun hover n hn
    dsimp only
    rw [List.append_nil]
    obtain hold | ⟨hcalls, -⟩ := hruns run hrun
    · exact (h.ended run hold hover n hn).mono (List.Subset.refl _) (List.Subset.refl _)
        (List.subset_append_left _ _) fun post hpost houtcome => ⟨post, hpost, rfl, houtcome⟩
    · obtain hn | hn | hn | hn := hcovered n (by omega)
      · exact .inl hn
      · exact .inr (.inl hn)
      · exact .inr (.inr (.inl hn))
      · obtain ⟨entry, hentry, rfl⟩ := List.mem_map.mp hn
        obtain ⟨post, hpost, hmem⟩ := List.mem_flatMap.mp hentry
        exact .inr (.inr (.inr ⟨post, hpost, List.mem_map_of_mem hmem, hsettled post hpost⟩))

theorem Kept.flush (h : Kept ν s) (hsingle : Single s) (hcalls : s'.calls = s.calls)
    (hdata : s'.data = (s.flush (logExporter ν)).1.data)
    (hposts : s'.posts = (s.flush (logExporter ν)).1.posts)
    (hruns : s'.runs = (s.flush (logExporter ν)).1.runs) : Kept ν s' := by
  obtain ⟨r, -, hflush⟩ | ⟨hidle, hflush⟩ := s.flush_cases (logExporter ν)
  · rw [hflush] at hdata hposts hruns
    exact h.frame hdata hcalls (by rw [hposts])
      (fun post hpost houtcome => ⟨post, by rw [hposts]; exact hpost, rfl, houtcome⟩)
      (by rw [hruns]; exact RunsFrom.refl _)
  · rw [hflush] at hdata hposts hruns
    refine h.goes_on (hsingle.settled_idle hidle) (SameLines.refl _) hdata hcalls hposts ?_
    intro run hrun
    rw [hruns] at hrun
    obtain hrun | hrun := List.mem_append.mp hrun
    · exact .inl ⟨run, hrun, rfl, id⟩
    · rw [List.mem_singleton.mp hrun]
      exact .inr ⟨le_rfl, s.posts.length, rfl⟩

theorem kept_step {event : Event Line} (h : Kept ν s) (hsingle : Single s)
    (hstep : s.step (logExporter ν) event = some s') : Kept ν s' := by
  have hsame : ∀ post ∈ s.posts, post.outcome ≠ none →
      ∃ post' ∈ s.posts, post'.payload = post.payload ∧ post'.outcome ≠ none :=
    fun post hpost houtcome => ⟨post, hpost, rfl, houtcome⟩
  cases event with
  | call line =>
    obtain rfl := Option.some.inj hstep
    exact h.push line
  | flush =>
    obtain rfl := Option.some.inj hstep
    obtain ⟨-, -, hcalls, -⟩ := @Single.flush _ _ _ (logExporter ν) s hsingle
    exact h.flush hsingle hcalls rfl rfl rfl
  | settle r outcome =>
    rw [Flusher.step] at hstep
    split at hstep
    · rename_i calls p hrun
      obtain rfl := Option.some.inj hstep
      refine h.frame rfl rfl ?_ ?_ (runsFrom_setRun hrun (by simp [RunStage.isOver]))
      · apply List.ext_getElem?
        intro q
        dsimp only
        rw [List.getElem?_map, List.getElem?_map, List.getElem?_modify]
        cases s.posts[q]? with
        | none => rfl
        | some post =>
          rw [Option.map_some, Option.map_eq_map, Option.map_some, Option.map_some]
          split <;> rfl
      · intro post hpost houtcome
        obtain ⟨q, hq⟩ := List.getElem?_of_mem hpost
        have hmodify : (s.posts.modify p fun post =>
            { post with outcome := some outcome })[q]? = some (if p = q then
              { post with outcome := some outcome } else post) := by
          rw [List.getElem?_modify, hq]
          rfl
        refine ⟨_, List.mem_of_getElem? hmodify, ?_, ?_⟩
        · split <;> rfl
        · split
          · simp
          · exact houtcome
    · simp at hstep
  | resume r =>
    rw [Flusher.step] at hstep
    split at hstep
    · rename_i calls outcome hrun
      obtain rfl := Option.some.inj hstep
      have hsettled := hsingle.settled_answered hrun
      have hrunOf : ∀ stage, ∀ run ∈ (s.setRun r stage).runs,
          (run ∈ s.runs) ∨ (run.calls = calls ∧ run.stage = stage) := by
        intro stage run hmem
        obtain ⟨q, hq⟩ := List.getElem?_of_mem hmem
        rw [Flusher.runs_setRun] at hq
        split at hq
        · rename_i hqr
          rw [hqr, hrun] at hq
          obtain rfl := Option.some.inj hq
          exact .inr ⟨rfl, rfl⟩
        · exact .inl (List.mem_of_getElem? hq)
      have hmark := h.marks _ (List.mem_of_getElem? hrun)
      cases outcome with
      | status ok =>
        have hlines : SameLines s.data (if ok then s.data else
            { s.data with dropped := s.data.dropped + 1 }) := by
          cases ok with
          | true => exact SameLines.refl _
          | false => exact ⟨rfl, rfl, rfl, rfl, rfl⟩
        refine h.goes_on hsettled hlines rfl rfl rfl fun run hmem => ?_
        obtain hold | ⟨rfl, hstage⟩ := hrunOf _ run hmem
        · exact .inl ⟨run, hold, rfl, id⟩
        · exact .inr ⟨hmark, _, hstage⟩
      | failed => exact h.discard hsettled hmark (hrunOf _)
    · simp at hstep
  | finish r =>
    rw [Flusher.step] at hstep
    split at hstep
    · rename_i calls ok hrun
      obtain rfl := Option.some.inj hstep
      exact h.frame rfl rfl rfl hsame (runsFrom_setRun hrun fun _ => rfl)
    · simp at hstep
  | react f =>
    rw [Flusher.step] at hstep
    split at hstep
    · split at hstep
      · obtain rfl := Option.some.inj hstep
        obtain ⟨-, -, hcalls, -⟩ := @Single.flush _ _ _ (logExporter ν) s hsingle
        exact h.flush hsingle hcalls rfl rfl rfl
      · obtain rfl := Option.some.inj hstep
        exact h.frame rfl rfl rfl hsame (RunsFrom.refl _)
      · simp at hstep
    · simp at hstep
  | resolve f =>
    rw [Flusher.step] at hstep
    split at hstep
    · split at hstep
      · obtain rfl := Option.some.inj hstep
        exact h.frame rfl rfl rfl hsame (RunsFrom.refl _)
      · obtain rfl := Option.some.inj hstep
        exact h.frame rfl rfl rfl hsame (RunsFrom.refl _)
      · simp at hstep
    · simp at hstep

theorem kept_run {events : List (Event Line)}
    (hrun : run (Flusher.step (logExporter ν)) { data := {} } events = some s) :
    Single s ∧ Kept ν s := by
  have hstep : ∀ (t : LogFlusher) (event : Event Line) (t' : LogFlusher), Single t ∧ Kept ν t →
      t.step (logExporter ν) event = some t' → Single t' ∧ Kept ν t' :=
    fun t event t' h hstep => ⟨single_step h.1 hstep, kept_step h.2 h.1 hstep⟩
  exact run_invariant_all hstep ⟨single_initial _, kept_initial⟩ hrun

end Invariant

/-! ## Every run -/

structure FailSafe (ν : Type) [NumberText ν] (s : LogFlusher) : Prop where
  /-- `pushLine` has not thrown. -/
  pushes : s.data.threw = []
  /-- `flush` has not rejected. -/
  flushes : ∀ call ∈ s.flushes, call.stage ≠ .rejected
  bounded : s.data.queue.length ≤ logMaxQueue
  /-- One POST is in flight. -/
  single : ∀ (p q : ℕ) (post other : Post Batch), s.posts[p]? = some post →
    s.posts[q]? = some other → post.outcome = none → other.outcome = none → p = q
  /-- A line is one record in one POST at most, and the lines are in the order they came. -/
  ordered : ((posted s.posts).map Prod.fst).Pairwise (· < ·)
  records : ∀ entry ∈ posted s.posts, ∃ line : Line,
    s.calls[entry.1]? = some line ∧ toLogRecord ν (shipped line.1) line.2 = some entry.2
  /-- When a promise of `flush` is resolved, all that was pushed before the call was in a POST that
  has settled, or was shifted out, or was discarded. -/
  covered : ∀ call ∈ s.flushes, call.stage = .resolved → ∀ n < call.calls,
    n ∈ s.data.shifted ∨ n ∈ s.data.discarded ∨
      ∃ post ∈ s.posts, n ∈ post.payload.map Prod.fst ∧ post.outcome ≠ none

/-- **The log exporter is as it promises**, in a run, if and only if no line that is pushed has the
name of a property of `Object.prototype` as its level. -/
theorem log_exporter_fail_safe (ν : Type) [NumberText ν] (events : List (Event Line))
    (s : LogFlusher)
    (hrun : run (Flusher.step (logExporter ν)) { data := {} } events = some s) :
    FailSafe ν s ↔ ∀ line nowMs, .call (line, nowMs) ∈ events →
      (lineFields ν (shipped line)).level ∉ prototypeNames := by
  obtain ⟨hsingle, hkept⟩ := kept_run hrun
  have hcalls : s.calls = events.filterMap Event.input? := calls_run hrun
  have hmem : ∀ line : Line, line ∈ s.calls ↔ .call line ∈ events := by
    intro line
    rw [hcalls, List.mem_filterMap]
    constructor
    · rintro ⟨event, hevent, hinput⟩
      cases event with
      | call input =>
        obtain rfl := Option.some.inj hinput
        exact hevent
      | flush | settle _ _ | resume _ | finish _ | react _ | resolve _ => simp [Event.input?] at hinput
    · intro hevent
      exact ⟨_, hevent, rfl⟩
  constructor
  · intro h line nowMs hevent hlevel
    obtain ⟨n, hn⟩ := List.getElem?_of_mem ((hmem (line, nowMs)).mpr hevent)
    have hthrew := (hkept.threw n).mpr ⟨_, hn, toLogRecord_eq_none.mpr hlevel⟩
    rw [h.pushes] at hthrew
    simp at hthrew
  · intro h
    have hthrew : s.data.threw = [] := by
      rw [List.eq_nil_iff_forall_not_mem]
      intro n hn
      obtain ⟨line, hline, hnone⟩ := (hkept.threw n).mp hn
      exact h line.1 line.2 ((hmem line).mp (List.mem_of_getElem? hline))
        (toLogRecord_eq_none.mp hnone)
    refine ⟨hthrew, (calm_run (logExporter_quiet ν) hrun).flushes, hkept.bounded, ?_, ?_, ?_, ?_⟩
    · intro p q post other hpost hother hopen hopen'
      exact hsingle.one_post hpost hother hopen hopen'
    · exact hkept.sorted.sublist ((List.sublist_append_left _ _).map _)
    · intro entry hentry
      exact hkept.records entry (List.mem_append_left _ hentry)
    · intro call hcall hresolved n hn
      have hsound := (hsingle.flushes call hcall).2
      rw [FlushCall.Sound, hresolved] at hsound
      obtain ⟨flown, hflown, hfinished, hle⟩ := hsound
      have hdone := hkept.ended flown hflown (by rw [hfinished]; rfl) n (by omega)
      rw [Done, hthrew] at hdone
      simpa using hdone

def twoLines : List (Event Line) :=
  [.call (js "a", 1), .flush, .call (js "b", 2), .flush, .settle 0 (.status true), .resume 0,
    .settle 0 (.status false), .resume 0, .finish 0, .resolve 0, .react 1, .finish 1, .resolve 1]

theorem log_exporter_fail_safe_two :
    ∃ s, run (Flusher.step (logExporter ℕ)) { data := {} } twoLines = some s ∧ FailSafe ℕ s ∧
      (posted s.posts).map Prod.fst = [0, 1] := by
  obtain ⟨s, hs⟩ : ∃ s, run (Flusher.step (logExporter ℕ)) { data := {} } twoLines = some s :=
    Option.isSome_iff_exists.mp (by decide)
  refine ⟨s, hs, (log_exporter_fail_safe ℕ twoLines s hs).mpr ?_, ?_⟩
  · intro line nowMs hevent
    have hline : line = js "a" ∨ line = js "b" := by
      simp only [twoLines, List.mem_cons, Event.call.injEq, Prod.mk.injEq, reduceCtorEq, false_or,
        List.not_mem_nil, or_false] at hevent
      obtain ⟨hline, -⟩ | ⟨hline, -⟩ := hevent
      · exact .inl hline
      · exact .inr hline
    obtain rfl | rfl := hline
    · decide
    · decide
  · have hposted : (run (Flusher.step (logExporter ℕ)) { data := {} } twoLines).map
        (fun s => (posted s.posts).map Prod.fst) = some [0, 1] := by decide
    rw [hs] at hposted
    exact Option.some.inj hposted

/-- A line with the level `constructor`. -/
theorem push_throws :
    ∃ s, run (Flusher.step (logExporter ℕ)) { data := {} }
        [.call (js "\x7b\"level\":\"constructor\"\x7d", 1)] = some s ∧ ¬ FailSafe ℕ s := by
  obtain ⟨s, hs⟩ : ∃ s, run (Flusher.step (logExporter ℕ)) { data := {} }
      [.call (js "\x7b\"level\":\"constructor\"\x7d", 1)] = some s :=
    Option.isSome_iff_exists.mp (by decide +kernel)
  refine ⟨s, hs, fun h => ?_⟩
  have hthrew : (run (Flusher.step (logExporter ℕ)) { data := {} }
      [.call (js "\x7b\"level\":\"constructor\"\x7d", 1)]).map
        (fun s => s.data.threw) = some [0] := by decide +kernel
  rw [hs, Option.map_some, h.pushes] at hthrew
  simp at hthrew

end Daloy.Otlp
