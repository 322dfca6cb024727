import Daloy.Foundations.JsMap

/-! # Locks as chains of promises

Nothing here mentions a program. A map holds, for each key that is locked, the last job that asked
for it. A job waits for the one that was last when it came, and takes itself out of the map when it
is done and nobody came after it.

* `Chain`: `enter`, `start`, `advance`, `settle`, `release`.
* `Chain.Ordered`: what every operation keeps.
* `Ordered.exclusive`, `Ordered.waits`: one job at a time runs for a key, those that came later
  wait.
* `Ordered.tails_empty`: when every job is released, the map is empty.
* `Chain.came`: what the jobs before a place came to, in the order of their places.
* `Ordered.came_next`: what the running job comes to is last among those of its key.
-/

namespace Daloy
set_option autoImplicit false

/-- How far a job is; `ω` is what is left of its work, `ρ` what it came to. -/
inductive Stage (ω ρ : Type)
  | waiting
  | running (work : ω)
  | settled (result : ρ)
  | released (result : ρ)
  deriving DecidableEq

namespace Stage

variable {ω ρ : Type}

def isDone : Stage ω ρ → Bool
  | waiting | running _ => false
  | settled _ | released _ => true

def isReleased : Stage ω ρ → Bool
  | released _ => true
  | _ => false

def result? : Stage ω ρ → Option ρ
  | waiting | running _ => none
  | settled result | released result => some result

end Stage

structure Link (α ω ρ : Type) where
  job : α
  previous : Option ℕ
  stage : Stage ω ρ
  deriving DecidableEq

structure Chain (α κ ω ρ : Type) where
  links : List (Link α ω ρ) := []
  tails : JsMap κ ℕ := ∅

namespace Chain

variable {α κ ω ρ : Type} [DecidableEq κ] (key : α → κ)

def enter (c : Chain α κ ω ρ) (job : α) : Chain α κ ω ρ where
  links := c.links ++ [⟨job, c.tails.get? (key job), .waiting⟩]
  tails := c.tails.set (key job) c.links.length

def isFree (c : Chain α κ ω ρ) (link : Link α ω ρ) : Bool :=
  match link.previous with
  | none => true
  | some p => (c.links[p]?).any fun l => l.stage.isDone

def setStage (c : Chain α κ ω ρ) (r : ℕ) (stage : Stage ω ρ) : Chain α κ ω ρ :=
  { c with links := c.links.modify r fun link => { link with stage } }

def start (c : Chain α κ ω ρ) (r : ℕ) (work : ω) : Option (Chain α κ ω ρ) :=
  match c.links[r]? with
  | some ⟨job, previous, .waiting⟩ =>
    if c.isFree ⟨job, previous, .waiting⟩ then some (c.setStage r (.running work)) else none
  | _ => none

def release (c : Chain α κ ω ρ) (r : ℕ) : Option (Chain α κ ω ρ) :=
  match c.links[r]? with
  | some ⟨job, _, .settled result⟩ =>
    let c := c.setStage r (.released result)
    some (if c.tails.get? (key job) = some r then { c with tails := c.tails.delete (key job) } else c)
  | _ => none

/-! ## The links -/

variable {c : Chain α κ ω ρ} {r q : ℕ} {link : Link α ω ρ}

omit [DecidableEq κ] in
theorem links_setStage (stage : Stage ω ρ) :
    (c.setStage r stage).links[q]? =
      if q = r then (c.links[q]?).map fun link => { link with stage } else c.links[q]? := by
  rw [setStage, List.getElem?_modify]
  by_cases h : q = r
  · rw [if_pos h, h]
    cases c.links[r]? <;> simp
  · rw [if_neg h]
    have hne : ¬ r = q := fun heq => h heq.symm
    cases c.links[q]? <;> simp [hne]

theorem links_enter (job : α) (q : ℕ) : (c.enter key job).links[q]? =
    if q = c.links.length then some ⟨job, c.tails.get? (key job), .waiting⟩ else c.links[q]? := by
  rw [enter]
  by_cases h : q = c.links.length
  · rw [if_pos h, h]
    simp
  · rw [if_neg h]
    by_cases hlt : q < c.links.length
    · exact List.getElem?_append_left hlt
    · rw [List.getElem?_append_right (by omega), List.getElem?_eq_none (by simp; omega),
        List.getElem?_eq_none (by omega)]

omit [DecidableEq κ] in
theorem start_eq_some {c' : Chain α κ ω ρ} {work : ω} (h : c.start r work = some c') :
    ∃ link : Link α ω ρ, c.links[r]? = some link ∧ link.stage = .waiting ∧
      c' = c.setStage r (.running work) := by
  rw [start] at h
  split at h
  · rename_i job previous hlink
    split at h
    · exact ⟨_, hlink, rfl, (Option.some.inj h).symm⟩
    · simp at h
  · simp at h

theorem release_eq_some {c' : Chain α κ ω ρ} (h : c.release key r = some c') :
    ∃ (link : Link α ω ρ) (result : ρ), c.links[r]? = some link ∧ link.stage = .settled result ∧
      c'.links = (c.setStage r (.released result)).links := by
  rw [release] at h
  split at h
  · rename_i job previous result hlink
    refine ⟨_, result, hlink, rfl, ?_⟩
    rw [← Option.some.inj h]
    split <;> rfl
  · simp at h

/-! ## The invariant -/

structure Ordered (c : Chain α κ ω ρ) : Prop where
  previous : ∀ (r p : ℕ) (link : Link α ω ρ), c.links[r]? = some link → link.previous = some p →
    p < r ∧ ∃ before : Link α ω ρ, c.links[p]? = some before ∧ key before.job = key link.job ∧
      ∀ q, p < q → q < r → ∀ other : Link α ω ρ, c.links[q]? = some other →
        key other.job ≠ key link.job
  first : ∀ (r : ℕ) (link : Link α ω ρ), c.links[r]? = some link → link.previous = none →
    ∀ q < r, ∀ other : Link α ω ρ, c.links[q]? = some other → key other.job = key link.job →
      other.stage.isDone = true
  entered : ∀ (r : ℕ) (link : Link α ω ρ), c.links[r]? = some link → link.stage ≠ .waiting →
    ∀ q < r, ∀ other : Link α ω ρ, c.links[q]? = some other → key other.job = key link.job →
      other.stage.isDone = true
  tail : ∀ (k : κ) (r : ℕ), c.tails.get? k = some r →
    ∃ link : Link α ω ρ, c.links[r]? = some link ∧ key link.job = k ∧
      link.stage.isReleased = false ∧
      ∀ q, r < q → ∀ other : Link α ω ρ, c.links[q]? = some other → key other.job ≠ k
  free : ∀ k : κ, c.tails.get? k = none → ∀ (q : ℕ) (other : Link α ω ρ),
    c.links[q]? = some other → key other.job = k → other.stage.isDone = true

variable {key}

theorem ordered_empty : Ordered key ({} : Chain α κ ω ρ) where
  previous := by simp
  first := by simp
  entered := by simp
  tail := by simp
  free := by simp

theorem Ordered.setStage (h : Ordered key c) (hlink : c.links[r]? = some link) {stage : Stage ω ρ}
    (hdone : link.stage.isDone = true → stage.isDone = true)
    (hentered : stage ≠ .waiting → ∀ q < r, ∀ other, c.links[q]? = some other →
      key other.job = key link.job → other.stage.isDone = true)
    (htail : stage.isReleased = true → ∀ k, c.tails.get? k ≠ some r) :
    Ordered key (c.setStage r stage) := by
  have hback : ∀ (q : ℕ) (other : Link α ω ρ), (c.setStage r stage).links[q]? = some other →
      ∃ old, c.links[q]? = some old ∧ old.job = other.job ∧ old.previous = other.previous ∧
        (old.stage.isDone = true → other.stage.isDone = true) ∧
        (q ≠ r → old = other) ∧ (q = r → other.stage = stage) := by
    intro q other hother
    rw [links_setStage] at hother
    split at hother
    · rename_i hq
      obtain ⟨old, hold, rfl⟩ := Option.map_eq_some_iff.mp hother
      refine ⟨old, hold, rfl, rfl, ?_, fun hne => absurd hq hne, fun _ => rfl⟩
      rw [hq, hlink] at hold
      obtain rfl := Option.some.inj hold
      exact hdone
    · rename_i hq
      exact ⟨other, hother, rfl, rfl, id, fun _ => rfl, fun heq => absurd heq hq⟩
  have hforth : ∀ (q : ℕ) (old : Link α ω ρ), c.links[q]? = some old → ∃ other,
      (c.setStage r stage).links[q]? = some other ∧ other.job = old.job ∧
        (q ≠ r → other = old) ∧ (q = r → other.stage = stage) := by
    intro q old hold
    rw [links_setStage, hold]
    split
    · rename_i hq
      exact ⟨_, rfl, rfl, fun hne => absurd hq hne, fun _ => rfl⟩
    · rename_i hq
      exact ⟨old, rfl, rfl, fun _ => rfl, fun heq => absurd heq hq⟩
  refine ⟨?_, ?_, ?_, ?_, ?_⟩
  · intro q p other hother hprevious
    obtain ⟨old, hold, hjob, hprev, -, -, -⟩ := hback q other hother
    obtain ⟨hlt, before, hbefore, hkey, hbetween⟩ := h.previous q p old hold (hprev.trans hprevious)
    obtain ⟨before', hbefore', hjob', -, -⟩ := hforth p before hbefore
    refine ⟨hlt, before', hbefore', by rw [hjob', hkey, hjob], ?_⟩
    intro q' hgt hlt' other' hother'
    obtain ⟨old', hold', hjob'', -, -, -, -⟩ := hback q' other' hother'
    rw [← hjob'', ← hjob]
    exact hbetween q' hgt hlt' old' hold'
  · intro q other hother hnone q' hlt other' hother' hkey
    obtain ⟨old, hold, hjob, hprev, -, -, -⟩ := hback q other hother
    obtain ⟨old', hold', hjob', -, hmono, -, -⟩ := hback q' other' hother'
    refine hmono (h.first q old hold (hprev.trans hnone) q' hlt old' hold' ?_)
    rw [hjob', hjob, hkey]
  · intro q other hother hstage q' hlt other' hother' hkey
    obtain ⟨old, hold, hjob, -, -, hsame, hnew⟩ := hback q other hother
    obtain ⟨old', hold', hjob', -, hmono, -, -⟩ := hback q' other' hother'
    have hkeys : key old'.job = key old.job := by rw [hjob', hjob, hkey]
    apply hmono
    by_cases hq : q = r
    · rw [hnew hq] at hstage
      rw [hq, hlink] at hold
      obtain rfl := Option.some.inj hold
      exact hentered hstage q' (hq ▸ hlt) old' hold' hkeys
    · rw [← hsame hq] at hstage
      exact h.entered q old hold hstage q' hlt old' hold' hkeys
  · intro k q hq
    obtain ⟨old, hold, hkey, hreleased, hlast⟩ := h.tail k q hq
    obtain ⟨other, hother, hjob, hsame, hnew⟩ := hforth q old hold
    refine ⟨other, hother, by rw [hjob, hkey], ?_, ?_⟩
    · by_cases hr : q = r
      · rw [hnew hr, ← Bool.not_eq_true]
        intro hrel
        exact htail hrel k (hr ▸ hq)
      · rw [hsame hr, hreleased]
    · intro q' hlt other' hother'
      obtain ⟨old', hold', hjob', -, -, -, -⟩ := hback q' other' hother'
      rw [← hjob']
      exact hlast q' hlt old' hold'
  · intro k hnone q other hother hkey
    obtain ⟨old, hold, hjob, -, hmono, -, -⟩ := hback q other hother
    exact hmono (h.free k hnone q old hold (by rw [hjob, hkey]))

theorem Ordered.enter (h : Ordered key c) (job : α) : Ordered key (c.enter key job) := by
  have hback : ∀ (q : ℕ) (other : Link α ω ρ), (c.enter key job).links[q]? = some other →
      (q < c.links.length ∧ c.links[q]? = some other) ∨
        (q = c.links.length ∧ other = ⟨job, c.tails.get? (key job), .waiting⟩) := by
    intro q other hother
    rw [links_enter] at hother
    split at hother
    · rename_i hq
      exact .inr ⟨hq, (Option.some.inj hother).symm⟩
    · exact .inl ⟨(List.getElem?_eq_some_iff.mp hother).1, hother⟩
  have hforth : ∀ (q : ℕ) (other : Link α ω ρ), c.links[q]? = some other →
      (c.enter key job).links[q]? = some other := by
    intro q other hother
    have hlt := (List.getElem?_eq_some_iff.mp hother).1
    rw [links_enter, if_neg (by omega), hother]
  refine ⟨?_, ?_, ?_, ?_, ?_⟩
  · intro q p other hother hprevious
    obtain ⟨hlt, hold⟩ | ⟨rfl, rfl⟩ := hback q other hother
    · obtain ⟨hp, before, hbefore, hkey, hbetween⟩ := h.previous q p other hold hprevious
      refine ⟨hp, before, hforth p before hbefore, hkey, ?_⟩
      intro q' hgt hlt' other' hother'
      obtain ⟨-, hold'⟩ | ⟨rfl, -⟩ := hback q' other' hother'
      · exact hbetween q' hgt hlt' other' hold'
      · omega
    · obtain ⟨before, hbefore, hkey, -, hlast⟩ := h.tail (key job) p hprevious
      refine ⟨(List.getElem?_eq_some_iff.mp hbefore).1, before, hforth p before hbefore, hkey, ?_⟩
      intro q' hgt hlt' other' hother'
      obtain ⟨-, hold'⟩ | ⟨rfl, -⟩ := hback q' other' hother'
      · exact hlast q' hgt other' hold'
      · omega
  · intro q other hother hnone q' hlt other' hother' hkey
    obtain ⟨hq, hold⟩ | ⟨rfl, rfl⟩ := hback q other hother
    · obtain ⟨-, hold'⟩ | ⟨rfl, -⟩ := hback q' other' hother'
      · exact h.first q other hold hnone q' hlt other' hold' hkey
      · omega
    · obtain ⟨-, hold'⟩ | ⟨rfl, -⟩ := hback q' other' hother'
      · exact h.free (key job) hnone q' other' hold' hkey
      · omega
  · intro q other hother hstage q' hlt other' hother' hkey
    obtain ⟨hq, hold⟩ | ⟨rfl, rfl⟩ := hback q other hother
    · obtain ⟨-, hold'⟩ | ⟨rfl, -⟩ := hback q' other' hother'
      · exact h.entered q other hold hstage q' hlt other' hold' hkey
      · omega
    · exact absurd rfl hstage
  · intro k q hq
    rw [Chain.enter, JsMap.get?_set] at hq
    split at hq
    · rename_i hk
      obtain rfl := Option.some.inj hq
      refine ⟨⟨job, c.tails.get? (key job), .waiting⟩, by rw [links_enter, if_pos rfl], hk.symm, rfl, ?_⟩
      intro q' hlt other' hother'
      obtain ⟨hq', -⟩ | ⟨rfl, -⟩ := hback q' other' hother'
      · omega
      · omega
    · rename_i hk
      obtain ⟨old, hold, hkey, hreleased, hlast⟩ := h.tail k q hq
      refine ⟨old, hforth q old hold, hkey, hreleased, ?_⟩
      intro q' hlt other' hother'
      obtain ⟨-, hold'⟩ | ⟨-, rfl⟩ := hback q' other' hother'
      · exact hlast q' hlt other' hold'
      · exact fun heq => hk heq.symm
  · intro k hnone q other hother hkey
    rw [Chain.enter, JsMap.get?_set] at hnone
    split at hnone
    · simp at hnone
    · rename_i hk
      obtain ⟨-, hold⟩ | ⟨-, rfl⟩ := hback q other hother
      · exact h.free k hnone q other hold hkey
      · exact absurd hkey.symm hk

theorem Ordered.of_isFree (h : Ordered key c) (hlink : c.links[r]? = some link)
    (hfree : c.isFree link = true) : ∀ q < r, ∀ other, c.links[q]? = some other →
      key other.job = key link.job → other.stage.isDone = true := by
  intro q hlt other hother hkey
  rw [isFree] at hfree
  split at hfree
  · rename_i hnone
    exact h.first r link hlink hnone q hlt other hother hkey
  · rename_i p hprevious
    obtain ⟨-, before, hbefore, hkeys, hbetween⟩ := h.previous r p link hlink hprevious
    rw [hbefore, Option.any_some] at hfree
    have hstage : before.stage ≠ .waiting := by
      intro hwaiting
      rw [hwaiting] at hfree
      simp [Stage.isDone] at hfree
    by_cases hq : q < p
    · exact h.entered p before hbefore hstage q hq other hother (hkey.trans hkeys.symm)
    · by_cases hqp : q = p
      · rw [hqp, hbefore] at hother
        rwa [← Option.some.inj hother]
      · exact absurd hkey (hbetween q (by omega) hlt other hother)

theorem Ordered.start {c' : Chain α κ ω ρ} {work : ω} (h : Ordered key c)
    (hstart : c.start r work = some c') : Ordered key c' := by
  rw [Chain.start] at hstart
  split at hstart
  · rename_i job previous hlink
    split at hstart
    · rename_i hfree
      obtain rfl := Option.some.inj hstart
      refine h.setStage hlink (by simp [Stage.isDone]) (fun _ => h.of_isFree hlink hfree) ?_
      simp [Stage.isReleased]
    · simp at hstart
  · simp at hstart

theorem Ordered.advance {work : ω} {stage : Stage ω ρ} (h : Ordered key c)
    (hlink : c.links[r]? = some link) (hrunning : link.stage = .running work)
    (hreleased : stage.isReleased = false) : Ordered key (c.setStage r stage) := by
  refine h.setStage hlink (by simp [hrunning, Stage.isDone])
    (fun _ => h.entered r link hlink (by simp [hrunning])) ?_
  simp [hreleased]

theorem Ordered.release {c' : Chain α κ ω ρ} (h : Ordered key c)
    (hrelease : c.release key r = some c') : Ordered key c' := by
  rw [Chain.release] at hrelease
  split at hrelease
  · rename_i job previous result hlink
    obtain rfl := Option.some.inj hrelease
    have hentered := h.entered r _ hlink (by simp)
    have htails : ∀ stage, (c.setStage r stage).tails = c.tails := fun _ => rfl
    rw [htails]
    split
    · rename_i htail
      -- nobody came after it: the key has no tail any more
      have hlast := h.tail (key job) r htail
      have hset : Ordered key { c with tails := c.tails.delete (key job) } := by
        refine ⟨h.previous, h.first, h.entered, ?_, ?_⟩
        · intro k q hq
          rw [JsMap.get?_delete] at hq
          split at hq
          · simp at hq
          · exact h.tail k q hq
        · intro k hnone q other hother hkey
          rw [JsMap.get?_delete] at hnone
          split at hnone
          · rename_i hk
            obtain ⟨link, -, -, -, hnone'⟩ := hlast
            rw [hk] at hkey
            by_cases hq : q < r
            · exact hentered q hq other hother hkey
            · by_cases hqr : q = r
              · rw [hqr, hlink] at hother
                rw [← Option.some.inj hother]
                rfl
              · exact absurd hkey (hnone' q (by omega) other hother)
          · exact h.free k hnone q other hother hkey
      refine hset.setStage hlink (fun _ => rfl) (fun _ => hentered) fun _ k hk => ?_
      rw [JsMap.get?_delete] at hk
      split at hk
      · simp at hk
      · rename_i hne
        obtain ⟨link, hlink', hkey, -, -⟩ := h.tail k r hk
        rw [hlink] at hlink'
        obtain rfl := Option.some.inj hlink'
        exact hne hkey.symm
    · rename_i htail
      refine h.setStage hlink (fun _ => rfl) (fun _ => hentered) fun _ k hk => ?_
      obtain ⟨link, hlink', hkey, -, -⟩ := h.tail k r hk
      rw [hlink] at hlink'
      obtain rfl := Option.some.inj hlink'
      exact htail (hkey ▸ hk)
  · simp at hrelease

/-! ## What it is for -/

theorem Ordered.waits {other : Link α ω ρ} {work : ω} (h : Ordered key c)
    (hlink : c.links[r]? = some link) (hrunning : link.stage = .running work)
    (hother : c.links[q]? = some other) (hlt : r < q) (hkey : key other.job = key link.job) :
    other.stage = .waiting := by
  by_contra hstage
  have hdone := h.entered q other hother hstage r hlt link hlink hkey.symm
  rw [hrunning] at hdone
  simp [Stage.isDone] at hdone

theorem Ordered.exclusive {other : Link α ω ρ} {work work' : ω} (h : Ordered key c)
    (hlink : c.links[r]? = some link) (hrunning : link.stage = .running work)
    (hother : c.links[q]? = some other) (hrunning' : other.stage = .running work')
    (hkey : key other.job = key link.job) : q = r := by
  by_contra hne
  obtain hlt | hlt := Nat.lt_or_gt_of_ne hne
  · have hwaits := h.waits hother hrunning' hlink hlt hkey.symm
    rw [hrunning] at hwaits
    simp at hwaits
  · have hwaits := h.waits hlink hrunning hother hlt hkey
    rw [hrunning'] at hwaits
    simp at hwaits

theorem Ordered.tails_empty (h : Ordered key c)
    (hreleased : ∀ link ∈ c.links, link.stage.isReleased = true) : c.tails = ∅ := by
  refine JsMap.eq_empty fun k => ?_
  cases hk : c.tails.get? k with
  | none => rfl
  | some r =>
    obtain ⟨link, hlink, -, hnot, -⟩ := h.tail k r hk
    rw [hreleased link (List.mem_of_getElem? hlink)] at hnot
    simp at hnot

theorem Ordered.isFree (h : Ordered key c) (hlink : c.links[r]? = some link)
    (hdone : ∀ q < r, ∀ other, c.links[q]? = some other → key other.job = key link.job →
      other.stage.isDone = true) : c.isFree link = true := by
  rw [Chain.isFree]
  split
  · rfl
  · rename_i p hprevious
    obtain ⟨hlt, before, hbefore, hkey, -⟩ := h.previous r p link hlink hprevious
    rw [hbefore, Option.any_some]
    exact hdone p hlt before hbefore hkey

theorem start_isSome (h : Ordered key c) (hlink : c.links[r]? = some link)
    (hwaiting : link.stage = .waiting)
    (hdone : ∀ q < r, ∀ other, c.links[q]? = some other → key other.job = key link.job →
      other.stage.isDone = true) (work : ω) : (c.start r work).isSome = true := by
  have hfree := h.isFree hlink hdone
  obtain ⟨job, previous, stage⟩ := link
  obtain rfl : stage = .waiting := hwaiting
  rw [Chain.start, hlink]
  dsimp only
  rw [if_pos hfree]
  rfl

/-! ## What the jobs came to -/

section Came

variable {β : Type} (f : Stage ω ρ → Option β)

/-- What the jobs of a key with a place before `n` came to. -/
def came (c : Chain α κ ω ρ) (key : α → κ) (k : κ) (n : ℕ) : List β :=
  (c.links.take n).filterMap fun link => if key link.job = k then f link.stage else none

variable {f} {k : κ} {stage : Stage ω ρ} {b : β}

theorem came_of_le {n : ℕ} (hle : c.links.length ≤ n) :
    c.came f key k n = c.came f key k c.links.length := by
  rw [came, came, List.take_of_length_le hle, List.take_length]

theorem came_setStage_before {n : ℕ} (hle : n ≤ r) :
    (c.setStage r stage).came f key k n = c.came f key k n := by
  rw [came, came]
  congr 1
  apply List.ext_getElem?
  intro q
  rw [List.getElem?_take, List.getElem?_take, links_setStage]
  split
  · rw [if_neg (by omega)]
  · rfl

omit [DecidableEq κ] in
theorem links_eq_append (hlink : c.links[r]? = some link) :
    c.links = c.links.take r ++ link :: c.links.drop (r + 1) := by
  obtain ⟨hlt, hget⟩ := List.getElem?_eq_some_iff.mp hlink
  rw [← hget, ← List.drop_eq_getElem_cons hlt, List.take_append_drop]

omit [DecidableEq κ] in
theorem links_setStage_append (hlink : c.links[r]? = some link) :
    (c.setStage r stage).links =
      c.links.take r ++ { link with stage } :: c.links.drop (r + 1) := by
  obtain ⟨hlt, hget⟩ := List.getElem?_eq_some_iff.mp hlink
  rw [setStage]
  dsimp only
  rw [List.modify_eq_take_cons_drop hlt, hget]

theorem came_setStage_same (hlink : c.links[r]? = some link)
    (hsame : key link.job = k → f stage = f link.stage) (n : ℕ) :
    (c.setStage r stage).came f key k n = c.came f key k n := by
  by_cases hle : n ≤ r
  · exact came_setStage_before hle
  · have hlen : (c.links.take r).length = r := by
      have hlt := (List.getElem?_eq_some_iff.mp hlink).1
      rw [List.length_take]
      omega
    obtain ⟨m, rfl⟩ : ∃ m, n = r + (m + 1) := ⟨n - r - 1, by omega⟩
    have htake : ∀ new : Link α ω ρ,
        (c.links.take r ++ new :: c.links.drop (r + 1)).take (r + (m + 1)) =
          c.links.take r ++ new :: (c.links.drop (r + 1)).take m := by
      intro new
      rw [List.take_append, hlen, List.take_of_length_le (by omega)]
      simp
    rw [came, came, links_setStage_append hlink, htake]
    conv_rhs => rw [links_eq_append hlink]
    rw [htake, List.filterMap_append, List.filterMap_append, List.filterMap_cons,
      List.filterMap_cons]
    by_cases hk : key link.job = k
    · dsimp only
      rw [if_pos hk, if_pos hk, hsame hk]
    · dsimp only
      rw [if_neg hk, if_neg hk]

theorem came_enter (job : α) (hwaiting : f .waiting = none) (n : ℕ) :
    (c.enter key job).came f key k n = c.came f key k n := by
  rw [came, came, enter]
  dsimp only
  rw [List.take_append, List.filterMap_append]
  have hnew : (([⟨job, c.tails.get? (key job), .waiting⟩] : List (Link α ω ρ)).take
      (n - c.links.length)).filterMap
      (fun link => if key link.job = k then f link.stage else none) = [] := by
    refine List.filterMap_eq_nil_iff.mpr fun link hmem => ?_
    rw [List.mem_singleton.mp (List.mem_of_mem_take hmem)]
    dsimp only
    rw [hwaiting, ite_self]
  rw [hnew, List.append_nil]

theorem Ordered.none_after {work : ω} (h : Ordered key c) (hlink : c.links[r]? = some link)
    (hrunning : link.stage = .running work) (hwaiting : f .waiting = none) :
    (c.links.drop (r + 1)).filterMap
      (fun other => if key other.job = key link.job then f other.stage else none) = [] := by
  refine List.filterMap_eq_nil_iff.mpr fun other hmem => ?_
  obtain ⟨q, hq⟩ := List.getElem?_of_mem hmem
  rw [List.getElem?_drop] at hq
  by_cases hkey : key other.job = key link.job
  · rw [if_pos hkey, h.waits hlink hrunning hq (by omega) hkey, hwaiting]
  · rw [if_neg hkey]

variable (f) in
theorem Ordered.came_next {work : ω} (h : Ordered key c) (hlink : c.links[r]? = some link)
    (hrunning : link.stage = .running work) (hk : key link.job = k) (hwaiting : f .waiting = none)
    (hnew : f stage = some b) :
    (c.setStage r stage).came f key k c.links.length = c.came f key k r ++ [b] := by
  have hlen : (c.setStage r stage).links.length = c.links.length := List.length_modify _ _ _
  rw [came, came, ← hlen, List.take_length, links_setStage_append hlink, List.filterMap_append,
    List.filterMap_cons, ← hk]
  dsimp only
  rw [if_pos rfl, hnew, h.none_after hlink hrunning hwaiting]

variable (f) in
theorem Ordered.came_running {work : ω} (h : Ordered key c) (hlink : c.links[r]? = some link)
    (hrunning : link.stage = .running work) (hk : key link.job = k) (hwaiting : f .waiting = none)
    (hnone : f link.stage = none) :
    c.came f key k c.links.length = c.came f key k r := by
  rw [came, came, List.take_length, ← hk]
  conv_lhs => rw [links_eq_append hlink]
  rw [List.filterMap_append, List.filterMap_cons]
  rw [if_pos rfl, hnone, h.none_after hlink hrunning hwaiting, List.append_nil]

end Came

end Chain

end Daloy
