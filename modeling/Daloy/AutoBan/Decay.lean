import Daloy.AutoBan.Strikes

/-! # Bans over a run of strikes

* `steps`: the strikes on one key in a run of the store, each with what stood before it.
* `Ghost`: the store never counts more strikes than there were since the last ban.
-/

namespace Daloy.AutoBan
set_option autoImplicit false

open Daloy.Unicode

inductive Call
  | get (key : JsString)
  | strike (key : JsString) (policy : AutoBanStrikePolicy)
  deriving DecidableEq

structure Event where
  now : ℤ
  call : Call
  deriving DecidableEq

def MemoryAutoBanStore.after (m : MemoryAutoBanStore) (e : Event) : MemoryAutoBanStore :=
  match e.call with
  | .get key => (m.get key e.now).1
  | .strike key policy => (m.strike key policy e.now).1

def MemoryAutoBanStore.run (m : MemoryAutoBanStore) (events : List Event) : MemoryAutoBanStore :=
  events.foldl MemoryAutoBanStore.after m

/-- A strike on a key: when the strikes since the last ban were, the last one first; the record that
the store had; the strike, and what came of it. -/
structure Step where
  since : List ℤ
  record : Option AutoBanRecord
  policy : AutoBanStrikePolicy
  now : ℤ
  result : AutoBanStrikeResult
  deriving DecidableEq

def steps (key : JsString) (m : MemoryAutoBanStore) (since : List ℤ) : List Event → List Step
  | [] => []
  | ⟨now, .get other⟩ :: events => steps key (m.get other now).1 since events
  | ⟨now, .strike other policy⟩ :: events =>
    if other = key then
      let result := (m.strike key policy now).2
      ⟨since, (m.get key now).2, policy, now, result⟩ ::
        steps key (m.strike key policy now).1 (if result.banned then [] else now :: since) events
    else steps key (m.strike other policy now).1 since events

/-! ## What is claimed of a strike, and when -/

/-- At least `maxStrikes` of the strikes since the last ban, this one included, lie within some
interval of `windowMs`. -/
def Step.Clustered (s : Step) : Prop :=
  ∃ cluster : List ℤ, cluster.Sublist (s.now :: s.since) ∧
    s.policy.maxStrikes ≤ cluster.length ∧
    ∃ start, ∀ t ∈ cluster, start ≤ t ∧ t ≤ start + s.policy.windowMs

def Step.Keeps (s : Step) : Prop :=
  ∀ r, s.record = some r → r.bannedUntilMs ≤ s.result.bannedUntilMs

/-- A strike that finds the window open, and enough strikes counted, comes within `windowMs` of the
first of the last `maxStrikes` strikes. -/
def Step.InWindow (s : Step) : Prop :=
  s.policy.maxStrikes ≤ (countedStrikes s.record s.now + 1 : ℕ) →
    ∀ t ∈ (s.now :: s.since).take s.policy.maxStrikes.toNat, s.now ≤ t + s.policy.windowMs

def Step.Reaches (s : Step) : Prop :=
  s.policy.maxStrikes ≤ (countedStrikes s.record s.now + 1 : ℕ) →
    ∀ r, s.record = some r →
      r.bannedUntilMs ≤ s.now + banDuration s.policy (r.banCount + 1)

/-! ## The strikes that are counted -/

/-- What the run knows of the strikes since the last ban: they are in order, and the store counts no
others. -/
structure Ghost (key : JsString) (m : MemoryAutoBanStore) (since : List ℤ) (now : ℤ) : Prop where
  sorted : since.Pairwise (· ≥ ·)
  past : ∀ t ∈ since, t ≤ now
  counted : ∀ later, now ≤ later → ∀ r, m.live key later = some r → r.strikes ≤ since.length

theorem ghost_empty (key : JsString) (now : ℤ) : Ghost key ∅ [] now where
  sorted := List.Pairwise.nil
  past := by simp
  counted := by simp [MemoryAutoBanStore.live]

section
variable {key : JsString} {m : MemoryAutoBanStore} {since : List ℤ} {now later : ℤ}

theorem Ghost.same {m' : MemoryAutoBanStore} (h : Ghost key m since now) (hle : now ≤ later)
    (hlive : ∀ t, later ≤ t → m'.live key t = m.live key t) : Ghost key m' since later where
  sorted := h.sorted
  past := fun t ht => le_trans (h.past t ht) hle
  counted := by
    intro t ht r hr
    rw [hlive t ht] at hr
    exact h.counted t (le_trans hle ht) r hr

theorem Ghost.countedStrikes_le (h : Ghost key m since now) (hle : now ≤ later) :
    countedStrikes (m.live key later) later ≤ since.length := by
  cases hlive : m.live key later with
  | none => exact Nat.zero_le _
  | some r =>
    rw [countedStrikes.eq_def]
    dsimp only
    split
    · exact h.counted later hle r hlive
    · exact Nat.zero_le _

theorem Ghost.strike (h : Ghost key m since now) (hle : now ≤ later)
    (policy : AutoBanStrikePolicy) :
    Ghost key (m.strike key policy later).1
      (if (m.strike key policy later).2.banned then [] else later :: since) later := by
  have hcounted := h.countedStrikes_le hle
  have hrecord : ∀ t, later ≤ t → ∀ r, (m.strike key policy later).1.live key t = some r →
      r = (applyAutoBanStrike (m.live key later) policy later).record := by
    intro t ht r hr
    rw [MemoryAutoBanStore.live_strike m key policy ht] at hr
    split at hr
    · exact (Option.some.inj hr).symm
    · cases hr
  rw [MemoryAutoBanStore.strike_snd]
  have hstrikes := struck_strikes (m.live key later) policy later
  by_cases hban : (applyAutoBanStrike (m.live key later) policy later).result.banned = true
  · rw [if_pos hban] at hstrikes ⊢
    refine ⟨List.Pairwise.nil, by simp, fun t ht r hr => ?_⟩
    rw [hrecord t ht r hr, hstrikes]
    exact Nat.zero_le _
  · rw [if_neg hban] at hstrikes ⊢
    refine ⟨List.pairwise_cons.mpr ⟨fun t ht => le_trans (h.past t ht) hle, h.sorted⟩, ?_, ?_⟩
    · intro t ht
      obtain rfl | ht := List.mem_cons.mp ht
      · exact le_refl _
      · exact le_trans (h.past t ht) hle
    · intro t ht r hr
      rw [hrecord t ht r hr, hstrikes, List.length_cons]
      omega

theorem clustered_of_inWindow (h : Ghost key m since now) (hle : now ≤ later)
    (policy : AutoBanStrikePolicy) {s : Step}
    (hs : s = ⟨since, m.live key later, policy, later, (m.strike key policy later).2⟩)
    (hwindow : s.InWindow) (hban : s.result.banned = true) : s.Clustered := by
  subst hs
  rw [MemoryAutoBanStore.strike_snd] at hban
  have henough := (banned_iff _ _ _).mp hban
  have hcounted := h.countedStrikes_le hle
  have hlate : ∀ t ∈ later :: since, t ≤ later := by
    intro t ht
    obtain rfl | ht := List.mem_cons.mp ht
    · exact le_refl _
    · exact le_trans (h.past t ht) hle
  refine ⟨(later :: since).take policy.maxStrikes.toNat, List.take_sublist _ _, ?_,
    later - policy.windowMs, fun t ht => ?_⟩
  · show policy.maxStrikes ≤ _
    rw [List.length_take, List.length_cons]
    omega
  · have hin := hwindow henough t ht
    have hpast := hlate t (List.mem_of_mem_take ht)
    dsimp only at hin ⊢
    omega

theorem keeps_of_reaches {s : Step}
    (hresult : s.result = (applyAutoBanStrike s.record s.policy s.now).result)
    (hreaches : s.Reaches) : s.Keeps := by
  intro r hr
  rw [hresult]
  by_cases henough : s.policy.maxStrikes ≤ (countedStrikes s.record s.now + 1 : ℕ)
  · rw [applyAutoBanStrike_ban _ _ _ henough, hr]
    exact hreaches henough r hr
  · rw [applyAutoBanStrike_count _ _ _ henough, hr]
    exact le_refl _

/-! ## Runs -/

theorem steps_sound (events : List Event) (h : Ghost key m since now)
    (hsorted : events.Pairwise fun e e' => e.now ≤ e'.now) (hlate : ∀ e ∈ events, now ≤ e.now) :
    ∀ s ∈ steps key m since events, ∃ m' now', Ghost key m' s.since now' ∧ now' ≤ s.now ∧
      s.record = m'.live key s.now ∧ s.result = (m'.strike key s.policy s.now).2 := by
  induction events generalizing m since now with
  | nil => exact fun s hs => absurd hs List.not_mem_nil
  | cons e events ih =>
    obtain ⟨hfirst, hrest⟩ := List.pairwise_cons.mp hsorted
    have hnow := hlate e List.mem_cons_self
    obtain ⟨later, call⟩ := e
    cases call with
    | get other =>
      rw [steps]
      exact ih (h.same hnow fun t ht => MemoryAutoBanStore.live_get m key other ht) hrest hfirst
    | strike other policy =>
      rw [steps]
      by_cases hkey : other = key
      · subst hkey
        rw [if_pos rfl]
        intro s hs
        obtain rfl | hs := List.mem_cons.mp hs
        · exact ⟨m, now, h, hnow, MemoryAutoBanStore.get_snd _ _ _, rfl⟩
        · exact ih (h.strike hnow policy) hrest hfirst s hs
      · rw [if_neg hkey]
        refine ih (h.same hnow fun t ht => ?_) hrest hfirst
        exact MemoryAutoBanStore.live_strike_other m (fun heq => hkey heq.symm) policy ht

theorem live_run (events : List Event) (hother : ∀ e ∈ events, ∀ policy, e.call ≠ .strike key policy)
    (hlate : ∀ e ∈ events, e.now ≤ later) : (m.run events).live key later = m.live key later := by
  induction events generalizing m with
  | nil => rfl
  | cons e events ih =>
    rw [MemoryAutoBanStore.run, List.foldl_cons, ← MemoryAutoBanStore.run,
      ih (fun e' he' => hother e' (List.mem_cons_of_mem _ he'))
        fun e' he' => hlate e' (List.mem_cons_of_mem _ he')]
    have hle := hlate e List.mem_cons_self
    have hne := hother e List.mem_cons_self
    obtain ⟨now, call⟩ := e
    cases call with
    | get other => exact MemoryAutoBanStore.live_get m key other hle
    | strike other policy =>
      have hkey : key ≠ other := by
        rintro rfl
        exact hne policy rfl
      exact MemoryAutoBanStore.live_strike_other m hkey policy hle

theorem get_until (policy : AutoBanStrikePolicy) {events : List Event} {t : ℤ}
    (hother : ∀ e ∈ events, ∀ policy, e.call ≠ .strike key policy)
    (hlate : ∀ e ∈ events, e.now ≤ t) (hle : now ≤ t)
    (hban : t < (m.strike key policy now).2.bannedUntilMs) :
    ∃ r, (((m.strike key policy now).1.run events).get key t).2 = some r ∧
      r.bannedUntilMs = (m.strike key policy now).2.bannedUntilMs := by
  obtain ⟨huntil, hlife⟩ := struck_lifetime (m.live key now) policy now
  rw [MemoryAutoBanStore.strike_snd] at hban
  have hlives : now + (applyAutoBanStrike (m.live key now) policy now).ttlMs > t := by
    rw [hlife]
    omega
  refine ⟨_, ?_, huntil⟩
  rw [MemoryAutoBanStore.get_snd, live_run events hother hlate,
    MemoryAutoBanStore.live_strike m key policy hle, if_pos hlives]

end

def threeStrikes : AutoBanStrikePolicy := ⟨10000, 3, 60000, 60000, true⟩

def strikeAt (now : ℤ) : Event := ⟨now, .strike (js "a") threeStrikes⟩

instance (s : Step) : Decidable s.InWindow :=
  inferInstanceAs (Decidable (_ → ∀ t ∈ List.take _ _, _))

instance (s : Step) : Decidable s.Reaches :=
  inferInstanceAs (Decidable (_ → ∀ r ∈ s.record, _))

end Daloy.AutoBan
