import Daloy.Foundations.Runs

/-! # One export at a time

`singleFlightFlush`, of `src/otlp.ts`, for any exporter. An export is an async function that POSTs and
awaits the answer, once or more; a step is what happens next, to any of the promises in progress.

* `Exporter`: what the calls of the exporter do to its data, and an export between two `await`s.
* `Flusher`: the data, the exports that began, the promises that `flush` gave, and the POSTs.
* `Single`: what every step keeps. One export is in flight, and so is one POST; a promise that is
  resolved belongs to an export that began after the call.
* `Calm`: nothing rejects, when the exporter is `Quiet`.
* `calm_run`: every run.
-/

namespace Daloy.Otlp
set_option autoImplicit false

open Daloy.Runs

/-- How a POST settles: with `res.ok`, or with a rejection. -/
inductive PostOutcome
  | status (ok : Bool)
  | failed
  deriving DecidableEq

/-- How far an export comes: to the next POST that it awaits, or to its end. -/
inductive Progress (β : Type)
  | post (payload : β)
  | returned
  | rejected
  deriving DecidableEq

structure Exporter (σ ι β : Type) where
  call : σ → ι → σ
  start : σ → σ × Progress β
  resume : σ → PostOutcome → σ × Progress β

/-- An export awaits a POST, the POST has settled, the export has ended, and so has `finally`. -/
inductive RunStage
  | posting (p : ℕ)
  | answered (outcome : PostOutcome)
  | ended (ok : Bool)
  | finished (ok : Bool)
  deriving DecidableEq

/-- An export, with the number of calls before it began. -/
structure Run where
  calls : ℕ
  stage : RunStage
  deriving DecidableEq

/-- A POST, with the number of calls before it was made. -/
structure Post (β : Type) where
  payload : β
  calls : ℕ
  outcome : Option PostOutcome := none
  deriving DecidableEq

/-- The promise of a call of `flush`: `inFlight.then(flush)`, or that of an export. -/
inductive FlushStage
  | waiting (run : ℕ)
  | exporting (run : ℕ)
  | resolved
  | rejected
  deriving DecidableEq

structure FlushCall where
  calls : ℕ
  stage : FlushStage
  deriving DecidableEq

structure Flusher (σ ι β : Type) where
  data : σ
  calls : List ι := []
  runs : List Run := []
  inFlight : Option ℕ := none
  flushes : List FlushCall := []
  posts : List (Post β) := []

/-- What may happen next. The numbers are those of exports, or of calls of `flush`. -/
inductive Event (ι : Type)
  | call (input : ι)
  | flush
  | settle (r : ℕ) (outcome : PostOutcome)
  | resume (r : ℕ)
  | finish (r : ℕ)
  | react (f : ℕ)
  | resolve (f : ℕ)
  deriving DecidableEq

variable {σ ι β : Type}

/-- Where an export stands, when `p` is the number of its next POST. -/
def Progress.stage (p : ℕ) : Progress β → RunStage
  | .post _ => .posting p
  | .returned => .ended true
  | .rejected => .ended false

def Progress.posts (calls : ℕ) : Progress β → List (Post β)
  | .post payload => [{ payload, calls }]
  | .returned | .rejected => []

namespace Flusher

def setRun (s : Flusher σ ι β) (r : ℕ) (stage : RunStage) : Flusher σ ι β :=
  { s with runs := s.runs.modify r fun run => { run with stage } }

def setFlush (s : Flusher σ ι β) (f : ℕ) (stage : FlushStage) : Flusher σ ι β :=
  { s with flushes := s.flushes.modify f fun call => { call with stage } }

variable (exporter : Exporter σ ι β)

/-- `flush()`: what it does at once, and where its promise stands then. -/
def flush (s : Flusher σ ι β) : Flusher σ ι β × FlushStage :=
  match s.inFlight with
  | some r => (s, .waiting r)
  | none =>
    let (data, progress) := exporter.start s.data
    ({ s with
        data
        runs := s.runs ++ [⟨s.calls.length, progress.stage s.posts.length⟩]
        inFlight := some s.runs.length
        posts := s.posts ++ progress.posts s.calls.length },
      .exporting s.runs.length)

def step (s : Flusher σ ι β) : Event ι → Option (Flusher σ ι β)
  | .call input =>
    some { s with data := exporter.call s.data input, calls := s.calls ++ [input] }
  | .flush =>
    some { (s.flush exporter).1 with
      flushes := s.flushes ++ [⟨s.calls.length, (s.flush exporter).2⟩] }
  | .settle r outcome =>
    match s.runs[r]? with
    | some ⟨_, .posting p⟩ =>
      some { s.setRun r (.answered outcome) with
        posts := s.posts.modify p fun post => { post with outcome := some outcome } }
    | _ => none
  | .resume r =>
    match s.runs[r]? with
    | some ⟨_, .answered outcome⟩ =>
      let (data, progress) := exporter.resume s.data outcome
      some { s.setRun r (progress.stage s.posts.length) with
        data
        posts := s.posts ++ progress.posts s.calls.length }
    | _ => none
  | .finish r =>
    match s.runs[r]? with
    | some ⟨_, .ended ok⟩ =>
      some { s.setRun r (.finished ok) with
        inFlight := if s.inFlight = some r then none else s.inFlight }
    | _ => none
  | .react f =>
    match s.flushes[f]? with
    | some ⟨_, .waiting r⟩ =>
      match s.runs[r]? with
      | some ⟨_, .finished true⟩ => some ((s.flush exporter).1.setFlush f (s.flush exporter).2)
      | some ⟨_, .finished false⟩ => some (s.setFlush f .rejected)
      | _ => none
    | _ => none
  | .resolve f =>
    match s.flushes[f]? with
    | some ⟨_, .exporting r⟩ =>
      match s.runs[r]? with
      | some ⟨_, .finished true⟩ => some (s.setFlush f .resolved)
      | some ⟨_, .finished false⟩ => some (s.setFlush f .rejected)
      | _ => none
    | _ => none

/-! ## Lists of exports -/

theorem runs_setRun (s : Flusher σ ι β) (r : ℕ) (stage : RunStage) (q : ℕ) :
    (s.setRun r stage).runs[q]? =
      if q = r then (s.runs[q]?).map fun run => { run with stage } else s.runs[q]? := by
  rw [setRun, List.getElem?_modify]
  by_cases h : q = r
  · rw [if_pos h, h]
    cases s.runs[r]? <;> simp
  · rw [if_neg h]
    have hne : ¬ r = q := fun heq => h heq.symm
    cases s.runs[q]? <;> simp [hne]

theorem getElem?_setRun {s : Flusher σ ι β} {r calls : ℕ} {old : RunStage}
    (hrun : s.runs[r]? = some ⟨calls, old⟩) (stage : RunStage) (q : ℕ) :
    (s.setRun r stage).runs[q]? = if q = r then some ⟨calls, stage⟩ else s.runs[q]? := by
  rw [runs_setRun]
  split
  · rename_i hq
    rw [hq, hrun]
    rfl
  · rfl

theorem flush_cases (s : Flusher σ ι β) :
    (∃ r, s.inFlight = some r ∧ s.flush exporter = (s, .waiting r)) ∨
    (s.inFlight = none ∧ s.flush exporter =
      ({ s with
          data := (exporter.start s.data).1
          runs := s.runs ++ [⟨s.calls.length, (exporter.start s.data).2.stage s.posts.length⟩]
          inFlight := some s.runs.length
          posts := s.posts ++ (exporter.start s.data).2.posts s.calls.length },
        .exporting s.runs.length)) := by
  rw [flush]
  cases s.inFlight with
  | some r => exact .inl ⟨r, rfl, rfl⟩
  | none => exact .inr ⟨rfl, rfl⟩

end Flusher

theorem calls_of_posts {progress : Progress β} {calls : ℕ} {post : Post β}
    (h : post ∈ progress.posts calls) : post.calls = calls := by
  cases progress with
  | post payload =>
    rw [List.mem_singleton.mp h]
  | returned | rejected => simp [Progress.posts] at h

/-! ## The invariant -/

/-- What is known of the promise of a call of `flush`. -/
def FlushCall.Sound (runs : List Run) (call : FlushCall) : Prop :=
  match call.stage with
  | .waiting r => r < runs.length
  | .exporting r => ∃ run, runs[r]? = some run ∧ call.calls ≤ run.calls
  | .resolved => ∃ run ∈ runs, run.stage = .finished true ∧ call.calls ≤ run.calls
  | .rejected => True

def RunsGrow (runs runs' : List Run) : Prop :=
  ∀ (q : ℕ) (run : Run), runs[q]? = some run → ∃ run', runs'[q]? = some run' ∧
    run'.calls = run.calls ∧ (∀ ok, run.stage = .finished ok → run'.stage = .finished ok)

theorem RunsGrow.refl (runs : List Run) : RunsGrow runs runs :=
  fun _ run h => ⟨run, h, rfl, fun _ => id⟩

theorem runsGrow_append (runs more : List Run) : RunsGrow runs (runs ++ more) := by
  intro q run h
  have hlt := (List.getElem?_eq_some_iff.mp h).1
  exact ⟨run, by rw [List.getElem?_append_left hlt, h], rfl, fun _ => id⟩

theorem runsGrow_setRun {s : Flusher σ ι β} {r : ℕ} {run : Run} (hrun : s.runs[r]? = some run)
    (hopen : ∀ ok, run.stage ≠ .finished ok) (stage : RunStage) :
    RunsGrow s.runs (s.setRun r stage).runs := by
  intro q other hother
  rw [Flusher.runs_setRun, hother]
  by_cases hq : q = r
  · rw [hq, hrun] at hother
    obtain rfl := Option.some.inj hother
    rw [if_pos hq]
    exact ⟨_, rfl, rfl, fun ok hok => absurd hok (hopen ok)⟩
  · rw [if_neg hq]
    exact ⟨other, rfl, rfl, fun _ => id⟩

theorem FlushCall.Sound.grow {runs runs' : List Run} {call : FlushCall} (h : call.Sound runs)
    (hgrow : RunsGrow runs runs') : call.Sound runs' := by
  rw [FlushCall.Sound] at h ⊢
  cases hstage : call.stage with
  | waiting r =>
    rw [hstage] at h
    obtain ⟨run', hrun', -⟩ := hgrow r runs[r] (List.getElem?_eq_getElem h)
    exact (List.getElem?_eq_some_iff.mp hrun').1
  | exporting r =>
    rw [hstage] at h
    obtain ⟨run, hrun, hle⟩ := h
    obtain ⟨run', hrun', hcalls, -⟩ := hgrow r run hrun
    exact ⟨run', hrun', by omega⟩
  | resolved =>
    rw [hstage] at h
    obtain ⟨run, hmem, hfinished, hle⟩ := h
    obtain ⟨q, hq⟩ := List.getElem?_of_mem hmem
    obtain ⟨run', hrun', hcalls, hstays⟩ := hgrow q run hq
    exact ⟨run', List.mem_of_getElem? hrun', hstays true hfinished, by omega⟩
  | rejected => trivial

structure Single (s : Flusher σ ι β) : Prop where
  flying : ∀ (q : ℕ) (run : Run), s.runs[q]? = some run →
    ((∃ ok, run.stage = .finished ok) ↔ s.inFlight ≠ some q)
  known : ∀ r, s.inFlight = some r → r < s.runs.length
  awaited : ∀ (p : ℕ) (post : Post β), s.posts[p]? = some post → post.outcome = none →
    ∃ (q : ℕ) (run : Run), s.runs[q]? = some run ∧ run.stage = .posting p
  open_post : ∀ (q : ℕ) (run : Run) (p : ℕ), s.runs[q]? = some run → run.stage = .posting p →
    ∃ post, s.posts[p]? = some post ∧ post.outcome = none
  marks : ∀ post ∈ s.posts, post.calls ≤ s.calls.length
  flushes : ∀ call ∈ s.flushes, call.calls ≤ s.calls.length ∧ call.Sound s.runs

variable {exporter : Exporter σ ι β} {s s' : Flusher σ ι β}

theorem single_initial (data : σ) : Single ({ data } : Flusher σ ι β) where
  flying := by simp
  known := by simp
  awaited := by simp
  open_post := by simp
  marks := by simp
  flushes := by simp

theorem Single.unique (h : Single s) {q r : ℕ} {run other : Run} (hrun : s.runs[q]? = some run)
    (hother : s.runs[r]? = some other) (hopen : ∀ ok, run.stage ≠ .finished ok)
    (hopen' : ∀ ok, other.stage ≠ .finished ok) : q = r := by
  have hflying : s.inFlight = some q := by
    by_contra hne
    obtain ⟨ok, hok⟩ := (h.flying q run hrun).mpr hne
    exact hopen ok hok
  have hflying' : s.inFlight = some r := by
    by_contra hne
    obtain ⟨ok, hok⟩ := (h.flying r other hother).mpr hne
    exact hopen' ok hok
  exact Option.some.inj (hflying.symm.trans hflying')

theorem Single.one_post (h : Single s) {p p' : ℕ} {post post' : Post β}
    (hpost : s.posts[p]? = some post) (hpost' : s.posts[p']? = some post')
    (hopen : post.outcome = none) (hopen' : post'.outcome = none) : p = p' := by
  obtain ⟨q, run, hrun, hstage⟩ := h.awaited p post hpost hopen
  obtain ⟨r, other, hother, hstage'⟩ := h.awaited p' post' hpost' hopen'
  obtain rfl := h.unique hrun hother (by simp [hstage]) (by simp [hstage'])
  rw [hrun] at hother
  obtain rfl := Option.some.inj hother
  exact RunStage.posting.inj (hstage.symm.trans hstage')

theorem Single.settled (h : Single s) (hnone : ∀ (q : ℕ) (run : Run) (p : ℕ),
    s.runs[q]? = some run → run.stage ≠ .posting p) : ∀ post ∈ s.posts, post.outcome ≠ none := by
  intro post hpost hopen
  obtain ⟨p, hp⟩ := List.getElem?_of_mem hpost
  obtain ⟨q, run, hrun, hstage⟩ := h.awaited p post hp hopen
  exact hnone q run p hrun hstage

theorem Single.settled_answered (h : Single s) {r calls : ℕ} {outcome : PostOutcome}
    (hrun : s.runs[r]? = some ⟨calls, .answered outcome⟩) :
    ∀ post ∈ s.posts, post.outcome ≠ none := by
  refine h.settled fun q run p hq hstage => ?_
  obtain rfl := h.unique hq hrun (by simp [hstage]) (by simp)
  rw [hrun] at hq
  rw [← Option.some.inj hq] at hstage
  simp at hstage

theorem Single.settled_idle (h : Single s) (hidle : s.inFlight = none) :
    ∀ post ∈ s.posts, post.outcome ≠ none := by
  refine h.settled fun q run p hq hstage => ?_
  obtain ⟨ok, hok⟩ := (h.flying q run hq).mpr (by simp [hidle])
  rw [hok] at hstage
  simp at hstage

theorem Single.progress (h : Single s) {r : ℕ} {calls : ℕ} {outcome : PostOutcome}
    (hrun : s.runs[r]? = some ⟨calls, .answered outcome⟩) (data : σ) (progress : Progress β) :
    Single { s.setRun r (progress.stage s.posts.length) with
      data
      posts := s.posts ++ progress.posts s.calls.length } := by
  have hnew : ∀ ok, progress.stage s.posts.length ≠ .finished ok := by
    cases progress <;> simp [Progress.stage]
  have hget := Flusher.getElem?_setRun hrun (progress.stage s.posts.length)
  refine ⟨?_, ?_, ?_, ?_, ?_, ?_⟩
  · intro q run hq
    dsimp only at hq
    rw [hget] at hq
    split at hq
    · rename_i hqr
      obtain rfl := Option.some.inj hq
      have hflying : s.inFlight = some r := by
        simpa using h.flying r _ hrun
      simp only [hnew, exists_false, false_iff, not_not]
      rw [hqr]
      exact hflying
    · exact h.flying q run hq
  · intro q hq
    rw [Flusher.setRun]
    dsimp only
    rw [List.length_modify]
    exact h.known q hq
  · intro p post hpost hopen
    dsimp only at hpost
    rw [List.getElem?_append] at hpost
    split at hpost
    · obtain ⟨q, run, hq, hstage⟩ := h.awaited p post hpost hopen
      have hqr : q ≠ r := by
        rintro rfl
        rw [hrun] at hq
        rw [← Option.some.inj hq] at hstage
        simp at hstage
      exact ⟨q, run, by dsimp only; rw [hget, if_neg hqr]; exact hq, hstage⟩
    · rename_i hlt
      cases progress with
      | post payload =>
        have hp : p = s.posts.length := by
          have hlen := (List.getElem?_eq_some_iff.mp hpost).1
          simp only [Progress.posts, List.length_singleton] at hlen
          omega
        exact ⟨r, _, by dsimp only; rw [hget, if_pos rfl], by rw [hp]; rfl⟩
      | returned => simp [Progress.posts] at hpost
      | rejected => simp [Progress.posts] at hpost
  · intro q run p hq hstage
    dsimp only at hq ⊢
    rw [hget] at hq
    split at hq
    · obtain rfl := Option.some.inj hq
      cases progress with
      | post payload =>
        obtain rfl : s.posts.length = p := RunStage.posting.inj hstage
        exact ⟨{ payload, calls := s.calls.length }, by simp [Progress.posts], rfl⟩
      | returned => simp [Progress.stage] at hstage
      | rejected => simp [Progress.stage] at hstage
    · obtain ⟨post, hpost, hopen⟩ := h.open_post q run p hq hstage
      have hlt := (List.getElem?_eq_some_iff.mp hpost).1
      exact ⟨post, by rw [List.getElem?_append_left hlt, hpost], hopen⟩
  · intro post hpost
    obtain hpost | hpost := List.mem_append.mp hpost
    · exact h.marks post hpost
    · exact Nat.le_of_eq (calls_of_posts hpost)
  · intro call hcall
    obtain ⟨hle, hsound⟩ := h.flushes call hcall
    exact ⟨hle, hsound.grow (runsGrow_setRun hrun (by simp) _)⟩

theorem Single.flush (h : Single s) : Single (s.flush exporter).1 ∧
    RunsGrow s.runs (s.flush exporter).1.runs ∧ (s.flush exporter).1.calls = s.calls ∧
    (s.flush exporter).1.flushes = s.flushes ∧
    ∀ calls ≤ s.calls.length,
      FlushCall.Sound (s.flush exporter).1.runs ⟨calls, (s.flush exporter).2⟩ := by
  obtain ⟨r, hflying, hflush⟩ | ⟨hidle, hflush⟩ := s.flush_cases exporter
  · rw [hflush]
    exact ⟨h, RunsGrow.refl _, rfl, rfl, fun calls _ => h.known r hflying⟩
  · rw [hflush]
    have hnew : ∀ ok, (exporter.start s.data).2.stage s.posts.length ≠ .finished ok := by
      cases (exporter.start s.data).2 <;> simp [Progress.stage]
    have hfinished : ∀ (q : ℕ) (run : Run), s.runs[q]? = some run →
        ∃ ok, run.stage = .finished ok :=
      fun q run hrun => (h.flying q run hrun).mpr (by simp [hidle])
    refine ⟨⟨?_, ?_, ?_, ?_, ?_, ?_⟩, runsGrow_append _ _, rfl, rfl, ?_⟩
    · intro q run hrun
      obtain hold | ⟨rfl, rfl⟩ := getElem?_concat.mp hrun
      · have hlt := (List.getElem?_eq_some_iff.mp hold).1
        have hne : some s.runs.length ≠ some q := by
          intro heq
          have hq := Option.some.inj heq
          omega
        exact ⟨fun _ => hne, fun _ => hfinished q run hold⟩
      · simp [hnew]
    · intro q hq
      obtain rfl := Option.some.inj hq
      simp
    · intro p post hpost hopen
      dsimp only at hpost
      rw [List.getElem?_append] at hpost
      split at hpost
      · obtain ⟨q, run, hq, hstage⟩ := h.awaited p post hpost hopen
        obtain ⟨ok, hok⟩ := hfinished q run hq
        rw [hok] at hstage
        simp at hstage
      · rename_i hlt
        cases hprogress : (exporter.start s.data).2 with
        | post payload =>
          rw [hprogress] at hpost
          have hp : p = s.posts.length := by
            have hlen := (List.getElem?_eq_some_iff.mp hpost).1
            simp only [Progress.posts, List.length_singleton] at hlen
            omega
          refine ⟨s.runs.length, ⟨s.calls.length, .posting s.posts.length⟩, ?_, by rw [hp]⟩
          simp [Progress.stage]
        | returned =>
          rw [hprogress] at hpost
          simp [Progress.posts] at hpost
        | rejected =>
          rw [hprogress] at hpost
          simp [Progress.posts] at hpost
    · intro q run p hrun hstage
      obtain hold | ⟨rfl, rfl⟩ := getElem?_concat.mp hrun
      · obtain ⟨ok, hok⟩ := hfinished q run hold
        rw [hok] at hstage
        simp at hstage
      · dsimp only at hstage ⊢
        cases hprogress : (exporter.start s.data).2 with
        | post payload =>
          rw [hprogress] at hstage
          have hp : p = s.posts.length := (RunStage.posting.inj hstage).symm
          refine ⟨{ payload, calls := s.calls.length }, ?_, rfl⟩
          rw [hp, List.getElem?_append_right (Nat.le_refl _), Nat.sub_self]
          rfl
        | returned =>
          rw [hprogress] at hstage
          simp [Progress.stage] at hstage
        | rejected =>
          rw [hprogress] at hstage
          simp [Progress.stage] at hstage
    · intro post hpost
      obtain hpost | hpost := List.mem_append.mp hpost
      · exact h.marks post hpost
      · exact Nat.le_of_eq (calls_of_posts hpost)
    · intro call hcall
      obtain ⟨hle, hsound⟩ := h.flushes call hcall
      exact ⟨hle, hsound.grow (runsGrow_append _ _)⟩
    · intro calls hle
      refine ⟨⟨s.calls.length, (exporter.start s.data).2.stage s.posts.length⟩, ?_, hle⟩
      exact List.getElem?_concat_length

theorem Single.setFlush (h : Single s) {f : ℕ} {stage : FlushStage}
    (hsound : ∀ call, s.flushes[f]? = some call → FlushCall.Sound s.runs { call with stage }) :
    Single (s.setFlush f stage) := by
  refine ⟨h.flying, h.known, h.awaited, h.open_post, h.marks, fun call hcall => ?_⟩
  obtain ⟨g, hg⟩ := List.getElem?_of_mem hcall
  rw [Flusher.setFlush, List.getElem?_modify] at hg
  obtain ⟨old, hold, rfl⟩ := Option.map_eq_some_iff.mp hg
  obtain ⟨hle, holdSound⟩ := h.flushes old (List.mem_of_getElem? hold)
  split
  · rename_i hfg
    exact ⟨hle, hsound old (by rw [hfg]; exact hold)⟩
  · exact ⟨hle, holdSound⟩

theorem Single.settle (h : Single s) {r calls p : ℕ} {outcome : PostOutcome}
    (hrun : s.runs[r]? = some ⟨calls, .posting p⟩) :
    Single { s.setRun r (.answered outcome) with
      posts := s.posts.modify p fun post => { post with outcome := some outcome } } := by
  have hget := Flusher.getElem?_setRun hrun (.answered outcome)
  have hpost : ∀ (q : ℕ) (post : Post β), (s.posts.modify p fun post =>
      { post with outcome := some outcome })[q]? = some post → post.outcome = none →
        q ≠ p ∧ s.posts[q]? = some post := by
    intro q post hq hopen
    rw [List.getElem?_modify] at hq
    obtain ⟨old, hold, rfl⟩ := Option.map_eq_some_iff.mp hq
    split at hopen
    · simp at hopen
    · rename_i hne
      rw [if_neg hne]
      exact ⟨fun heq => hne heq.symm, hold⟩
  refine ⟨?_, ?_, ?_, ?_, ?_, ?_⟩
  · intro q run hq
    dsimp only at hq
    rw [hget] at hq
    split at hq
    · rename_i hqr
      obtain rfl := Option.some.inj hq
      have hflying : s.inFlight = some r := by
        simpa using h.flying r _ hrun
      simp only [reduceCtorEq, exists_false, false_iff, not_not]
      rw [hqr]
      exact hflying
    · exact h.flying q run hq
  · intro q hq
    rw [Flusher.setRun]
    dsimp only
    rw [List.length_modify]
    exact h.known q hq
  · intro q post hq hopen
    obtain ⟨hne, hold⟩ := hpost q post hq hopen
    obtain ⟨q', run, hq', hstage⟩ := h.awaited q post hold hopen
    have hqr : q' ≠ r := by
      rintro rfl
      rw [hrun] at hq'
      rw [← Option.some.inj hq'] at hstage
      exact hne (RunStage.posting.inj hstage).symm
    exact ⟨q', run, by dsimp only; rw [hget, if_neg hqr]; exact hq', hstage⟩
  · intro q run p' hq hstage
    dsimp only at hq ⊢
    rw [hget] at hq
    split at hq
    · obtain rfl := Option.some.inj hq
      simp at hstage
    · rename_i hqr
      exact absurd (h.unique hq hrun (by simp [hstage]) (by simp)) hqr
  · intro post hmem
    obtain ⟨q, hq⟩ := List.getElem?_of_mem hmem
    rw [List.getElem?_modify] at hq
    obtain ⟨old, hold, rfl⟩ := Option.map_eq_some_iff.mp hq
    have hle := h.marks old (List.mem_of_getElem? hold)
    split <;> exact hle
  · intro call hcall
    obtain ⟨hle, hsound⟩ := h.flushes call hcall
    exact ⟨hle, hsound.grow (runsGrow_setRun hrun (by simp) _)⟩

theorem Single.finish (h : Single s) {r calls : ℕ} {ok : Bool}
    (hrun : s.runs[r]? = some ⟨calls, .ended ok⟩) :
    Single { s.setRun r (.finished ok) with
      inFlight := if s.inFlight = some r then none else s.inFlight } := by
  have hget := Flusher.getElem?_setRun hrun (.finished ok)
  have hflying : s.inFlight = some r := by
    simpa using h.flying r _ hrun
  rw [if_pos hflying]
  refine ⟨?_, ?_, ?_, ?_, h.marks, ?_⟩
  · intro q run hq
    dsimp only at hq
    rw [hget] at hq
    split at hq
    · obtain rfl := Option.some.inj hq
      simp
    · rename_i hqr
      have hfinished := (h.flying q run hq).mpr (by
        rw [hflying]
        exact fun heq => hqr (Option.some.inj heq).symm)
      exact ⟨fun _ => by simp, fun _ => hfinished⟩
  · simp
  · intro p post hpost hopen
    obtain ⟨q, run, hq, hstage⟩ := h.awaited p post hpost hopen
    have hqr : q ≠ r := by
      rintro rfl
      rw [hrun] at hq
      rw [← Option.some.inj hq] at hstage
      simp at hstage
    exact ⟨q, run, by dsimp only; rw [hget, if_neg hqr]; exact hq, hstage⟩
  · intro q run p hq hstage
    dsimp only at hq ⊢
    rw [hget] at hq
    split at hq
    · obtain rfl := Option.some.inj hq
      simp at hstage
    · exact h.open_post q run p hq hstage
  · intro call hcall
    obtain ⟨hle, hsound⟩ := h.flushes call hcall
    exact ⟨hle, hsound.grow (runsGrow_setRun hrun (by simp) _)⟩

theorem single_step {event : Event ι} (h : Single s) (hstep : s.step exporter event = some s') :
    Single s' := by
  cases event with
  | call input =>
    obtain rfl := Option.some.inj hstep
    have hgrow : s.calls.length ≤ (s.calls ++ [input]).length := by
      rw [List.length_append]
      omega
    refine ⟨h.flying, h.known, h.awaited, h.open_post,
      fun post hmem => Nat.le_trans (h.marks post hmem) hgrow, fun call hcall => ?_⟩
    obtain ⟨hle, hsound⟩ := h.flushes call hcall
    exact ⟨Nat.le_trans hle hgrow, hsound⟩
  | flush =>
    obtain rfl := Option.some.inj hstep
    obtain ⟨hsingle, hgrow, hcalls, hflushes, hsound⟩ := @Single.flush _ _ _ exporter _ h
    refine ⟨hsingle.flying, hsingle.known, hsingle.awaited, hsingle.open_post, hsingle.marks,
      fun call hcall => ?_⟩
    dsimp only at hcall ⊢
    rw [hcalls]
    obtain hcall | hcall := List.mem_append.mp hcall
    · exact ⟨(h.flushes call hcall).1, (h.flushes call hcall).2.grow hgrow⟩
    · rw [List.mem_singleton.mp hcall]
      exact ⟨Nat.le_refl _, hsound _ (Nat.le_refl _)⟩
  | settle r outcome =>
    rw [Flusher.step] at hstep
    split at hstep
    · rename_i calls p hrun
      obtain rfl := Option.some.inj hstep
      exact h.settle hrun
    · simp at hstep
  | resume r =>
    rw [Flusher.step] at hstep
    split at hstep
    · rename_i calls outcome hrun
      obtain rfl := Option.some.inj hstep
      exact h.progress hrun _ _
    · simp at hstep
  | finish r =>
    rw [Flusher.step] at hstep
    split at hstep
    · rename_i calls ok hrun
      obtain rfl := Option.some.inj hstep
      exact h.finish hrun
    · simp at hstep
  | react f =>
    rw [Flusher.step] at hstep
    split at hstep
    · rename_i calls r hf
      split at hstep
      · obtain rfl := Option.some.inj hstep
        obtain ⟨hsingle, hgrow, hcalls, hflushes, hsound⟩ := @Single.flush _ _ _ exporter _ h
        refine hsingle.setFlush fun call hcall => ?_
        rw [hflushes] at hcall
        exact hsound call.calls (h.flushes call (List.mem_of_getElem? hcall)).1
      · obtain rfl := Option.some.inj hstep
        exact h.setFlush fun _ _ => trivial
      · simp at hstep
    · simp at hstep
  | resolve f =>
    rw [Flusher.step] at hstep
    split at hstep
    · rename_i calls r hf
      split at hstep
      · rename_i started hrun
        obtain rfl := Option.some.inj hstep
        refine h.setFlush fun call hcall => ?_
        rw [hf] at hcall
        obtain rfl := Option.some.inj hcall
        obtain ⟨run, hrun', hle⟩ := (h.flushes _ (List.mem_of_getElem? hf)).2
        rw [hrun] at hrun'
        obtain rfl := Option.some.inj hrun'
        exact ⟨_, List.mem_of_getElem? hrun, rfl, hle⟩
      · obtain rfl := Option.some.inj hstep
        exact h.setFlush fun _ _ => trivial
      · simp at hstep
    · simp at hstep

/-! ## The calls -/

def Event.input? : Event ι → Option ι
  | .call input => some input
  | _ => none

theorem calls_step {event : Event ι} (hstep : s.step exporter event = some s') :
    s'.calls = s.calls ++ event.input?.toList := by
  have hflush : (s.flush exporter).1.calls = s.calls := by
    obtain ⟨r, -, hflush⟩ | ⟨-, hflush⟩ := s.flush_cases exporter
    · rw [hflush]
    · rw [hflush]
  cases event with
  | call input =>
    obtain rfl := Option.some.inj hstep
    rfl
  | flush =>
    obtain rfl := Option.some.inj hstep
    exact hflush.trans (List.append_nil _).symm
  | settle r outcome | resume r | finish r =>
    rw [Flusher.step] at hstep
    split at hstep
    · obtain rfl := Option.some.inj hstep
      exact (List.append_nil _).symm
    · simp at hstep
  | react f =>
    rw [Flusher.step] at hstep
    split at hstep
    · split at hstep
      · obtain rfl := Option.some.inj hstep
        exact hflush.trans (List.append_nil _).symm
      · obtain rfl := Option.some.inj hstep
        exact (List.append_nil _).symm
      · simp at hstep
    · simp at hstep
  | resolve f =>
    rw [Flusher.step] at hstep
    split at hstep
    · split at hstep
      · obtain rfl := Option.some.inj hstep
        exact (List.append_nil _).symm
      · obtain rfl := Option.some.inj hstep
        exact (List.append_nil _).symm
      · simp at hstep
    · simp at hstep

theorem calls_run {events : List (Event ι)} (hrun : run (Flusher.step exporter) s events = some s') :
    s'.calls = s.calls ++ events.filterMap Event.input? := by
  induction events generalizing s with
  | nil =>
    obtain rfl : s = s' := by simpa using hrun
    simp
  | cons event events ih =>
    obtain ⟨next, hstep, hrest⟩ := run_cons_eq_some.mp hrun
    rw [ih hrest, calls_step hstep, List.append_assoc]
    cases event <;> rfl

theorem settled_step {event : Event ι} (h : Single s) (hstep : s.step exporter event = some s')
    {i : ℕ} {post : Post β} (hpost : s.posts[i]? = some post) (hsettled : post.outcome ≠ none) :
    s'.posts[i]? = some post := by
  have hgrow : ∀ more : List (Post β), (s.posts ++ more)[i]? = some post := by
    intro more
    rw [List.getElem?_append_left (List.getElem?_eq_some_iff.mp hpost).1, hpost]
  have hflush : (s.flush exporter).1.posts[i]? = some post := by
    obtain ⟨r, -, hflush⟩ | ⟨-, hflush⟩ := s.flush_cases exporter
    · rw [hflush]
      exact hpost
    · rw [hflush]
      exact hgrow _
  cases event with
  | call input =>
    obtain rfl := Option.some.inj hstep
    exact hpost
  | flush =>
    obtain rfl := Option.some.inj hstep
    exact hflush
  | settle r outcome =>
    rw [Flusher.step] at hstep
    split at hstep
    · rename_i calls p hrun
      obtain rfl := Option.some.inj hstep
      obtain ⟨old, hold, hopen⟩ := h.open_post r _ p hrun rfl
      have hne : ¬ p = i := by
        rintro rfl
        rw [hpost] at hold
        rw [Option.some.inj hold] at hsettled
        exact hsettled hopen
      rw [List.getElem?_modify, hpost]
      simp [hne]
    · simp at hstep
  | resume r =>
    rw [Flusher.step] at hstep
    split at hstep
    · obtain rfl := Option.some.inj hstep
      exact hgrow _
    · simp at hstep
  | finish r =>
    rw [Flusher.step] at hstep
    split at hstep
    · obtain rfl := Option.some.inj hstep
      exact hpost
    · simp at hstep
  | react f =>
    rw [Flusher.step] at hstep
    split at hstep
    · split at hstep
      · obtain rfl := Option.some.inj hstep
        exact hflush
      · obtain rfl := Option.some.inj hstep
        exact hpost
      · simp at hstep
    · simp at hstep
  | resolve f =>
    rw [Flusher.step] at hstep
    split at hstep
    · split at hstep
      · obtain rfl := Option.some.inj hstep
        exact hpost
      · obtain rfl := Option.some.inj hstep
        exact hpost
      · simp at hstep
    · simp at hstep

/-! ## Exports that do not reject -/

def Exporter.Quiet (exporter : Exporter σ ι β) : Prop :=
  (∀ data, (exporter.start data).2 ≠ .rejected) ∧
    ∀ data outcome, (exporter.resume data outcome).2 ≠ .rejected

structure Calm (s : Flusher σ ι β) : Prop where
  runs : ∀ run ∈ s.runs, run.stage ≠ .ended false ∧ run.stage ≠ .finished false
  flushes : ∀ call ∈ s.flushes, call.stage ≠ .rejected

theorem stage_calm {progress : Progress β} (h : progress ≠ .rejected) (p : ℕ) :
    progress.stage p ≠ .ended false ∧ progress.stage p ≠ .finished false := by
  cases progress with
  | post payload => simp [Progress.stage]
  | returned => simp [Progress.stage]
  | rejected => exact absurd rfl h

theorem Calm.setRun (h : Calm s) {r : ℕ} {stage : RunStage}
    (hstage : stage ≠ .ended false ∧ stage ≠ .finished false) :
    ∀ run ∈ (s.setRun r stage).runs, run.stage ≠ .ended false ∧ run.stage ≠ .finished false := by
  intro run hrun
  obtain ⟨q, hq⟩ := List.getElem?_of_mem hrun
  rw [Flusher.runs_setRun] at hq
  split at hq
  · obtain ⟨old, -, rfl⟩ := Option.map_eq_some_iff.mp hq
    exact hstage
  · exact h.runs run (List.mem_of_getElem? hq)

theorem Calm.setFlush (h : Calm s) {f : ℕ} {stage : FlushStage} (hstage : stage ≠ .rejected) :
    Calm (s.setFlush f stage) := by
  refine ⟨h.runs, fun call hcall => ?_⟩
  obtain ⟨g, hg⟩ := List.getElem?_of_mem hcall
  rw [Flusher.setFlush, List.getElem?_modify] at hg
  obtain ⟨old, hold, rfl⟩ := Option.map_eq_some_iff.mp hg
  split
  · exact hstage
  · exact h.flushes old (List.mem_of_getElem? hold)

theorem Calm.flush (h : Calm s) (hquiet : exporter.Quiet) :
    Calm (s.flush exporter).1 ∧ (s.flush exporter).2 ≠ .rejected := by
  obtain ⟨r, -, hflush⟩ | ⟨-, hflush⟩ := s.flush_cases exporter
  · rw [hflush]
    exact ⟨h, by simp⟩
  · rw [hflush]
    refine ⟨⟨fun run hrun => ?_, h.flushes⟩, by simp⟩
    obtain hrun | hrun := List.mem_append.mp hrun
    · exact h.runs run hrun
    · rw [List.mem_singleton.mp hrun]
      exact stage_calm (hquiet.1 s.data) _

theorem calm_step {event : Event ι} (hquiet : exporter.Quiet) (h : Calm s)
    (hstep : s.step exporter event = some s') : Calm s' := by
  cases event with
  | call input =>
    obtain rfl := Option.some.inj hstep
    exact ⟨h.runs, h.flushes⟩
  | flush =>
    obtain rfl := Option.some.inj hstep
    obtain ⟨hcalm, hstage⟩ := h.flush hquiet
    refine ⟨hcalm.runs, fun call hcall => ?_⟩
    obtain hcall | hcall := List.mem_append.mp hcall
    · exact h.flushes call hcall
    · rw [List.mem_singleton.mp hcall]
      exact hstage
  | settle r outcome =>
    rw [Flusher.step] at hstep
    split at hstep
    · obtain rfl := Option.some.inj hstep
      exact ⟨h.setRun (by simp), h.flushes⟩
    · simp at hstep
  | resume r =>
    rw [Flusher.step] at hstep
    split at hstep
    · obtain rfl := Option.some.inj hstep
      exact ⟨h.setRun (stage_calm (hquiet.2 _ _) _), h.flushes⟩
    · simp at hstep
  | finish r =>
    rw [Flusher.step] at hstep
    split at hstep
    · rename_i calls ok hrun
      obtain rfl := Option.some.inj hstep
      have hok : ok = true := by
        have hended := (h.runs _ (List.mem_of_getElem? hrun)).1
        cases ok with
        | true => rfl
        | false => exact absurd rfl hended
      rw [hok]
      exact ⟨h.setRun (by simp), h.flushes⟩
    · simp at hstep
  | react f =>
    rw [Flusher.step] at hstep
    split at hstep
    · split at hstep
      · obtain rfl := Option.some.inj hstep
        obtain ⟨hcalm, hstage⟩ := h.flush hquiet
        exact hcalm.setFlush hstage
      · rename_i calls hrun
        exact absurd rfl (h.runs _ (List.mem_of_getElem? hrun)).2
      · simp at hstep
    · simp at hstep
  | resolve f =>
    rw [Flusher.step] at hstep
    split at hstep
    · split at hstep
      · obtain rfl := Option.some.inj hstep
        exact h.setFlush (by simp)
      · rename_i calls hrun
        exact absurd rfl (h.runs _ (List.mem_of_getElem? hrun)).2
      · simp at hstep
    · simp at hstep

theorem calm_run (hquiet : exporter.Quiet) {data : σ} {events : List (Event ι)}
    (hrun : run (Flusher.step exporter) { data } events = some s) : Calm s :=
  run_invariant_all (fun _ _ _ h hstep => calm_step hquiet h hstep)
    (⟨by simp, by simp⟩ : Calm ({ data } : Flusher σ ι β)) hrun

end Daloy.Otlp
