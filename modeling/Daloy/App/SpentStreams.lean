import Daloy.App.CountedStreams

/-! # Streams over a spent one

A stream that was read to the end stays locked, and a counting stream that covers it afterwards
fails at its first read.

* `Barren`: streams that never enqueue anything. `barren_drain`: a read of them to the end fails.
* `Keeps`: what reads leave barren and locked; `keeps_next`, `keeps_drain`.
-/

namespace Daloy.App.CountedStreams
set_option autoImplicit false

def Consumed (levels : List Level) : Prop := ∃ b, levels.head? = some b ∧ b.kept.lock = .consumed

/-- The top stream has enqueued nothing, and beneath it there is one that was read to the end. -/
def Barren : List Level → Prop
  | [] => False
  | l :: below => l.log = [] ∧ l.ending ≠ some .done ∧ (l.ending = none → l.attached = false) ∧
    (Consumed below ∨ Barren below)

def Keeps (levels levels' : List Level) : Prop :=
  ∀ m, (Consumed (levels.drop m) → Consumed (levels'.drop m)) ∧
    (Barren (levels.drop m) → Barren (levels'.drop m))

theorem Keeps.refl (levels : List Level) : Keeps levels levels := fun _ => ⟨id, id⟩

theorem Keeps.trans {levels levels' levels'' : List Level} (h : Keeps levels levels')
    (h' : Keeps levels' levels'') : Keeps levels levels'' :=
  fun m => ⟨fun hc => (h' m).1 ((h m).1 hc), fun hb => (h' m).2 ((h m).2 hb)⟩

theorem Keeps.cons {l l' : Level} {below below' : List Level} (h : Keeps below below')
    (hlock : l.kept.lock = .consumed → l'.kept.lock = .consumed)
    (hbarren : Barren (l :: below) → Barren (l' :: below')) : Keeps (l :: below) (l' :: below') := by
  intro m
  cases m with
  | zero =>
    refine ⟨?_, hbarren⟩
    rintro ⟨b, hb, hconsumed⟩
    obtain rfl := Option.some.inj hb
    exact ⟨l', rfl, hlock hconsumed⟩
  | succ m => exact h m

/-! ## Reads -/

theorem barren_fail {l l' : Level} {below : List Level} {e : ReadError} (h : Barren (l :: below))
    (hlog : l'.log = l.log) (hending : l'.ending = some (.failed e)) : Barren (l' :: below) := by
  refine ⟨hlog.trans h.1, ?_, ?_, h.2.2.2⟩
  · rw [hending]
    simp
  · rw [hending]
    simp

theorem keeps_pull {limit : ℕ} {l : Level} {below : List Level} {beneath : Got × List Level}
    (hkeeps : Keeps below beneath.2) (hfail : Barren below → ∃ e, beneath.1 = .failed e) :
    ∃ l' below', pull limit l below beneath = l' :: below' ∧ Keeps (l :: below) (l' :: below') ∧
      l'.kept = l.kept ∧ (Barren (l :: below) → ∃ e, l'.ending = some (.failed e)) := by
  unfold pull
  by_cases hended : l.ending.isSome = true
  · rw [if_pos hended]
    refine ⟨l, below, rfl, Keeps.refl _, rfl, ?_⟩
    intro hbarren
    obtain ⟨ending, hending⟩ := Option.isSome_iff_exists.mp hended
    cases ending with
    | done => exact absurd hending hbarren.2.1
    | failed e => exact ⟨e, hending⟩
  · rw [if_neg hended]
    have hnone : l.ending = none := by simpa using hended
    by_cases hlocked : (!l.attached && below.head?.any (·.kept.lock ≠ .free)) = true
    · rw [if_pos hlocked]
      refine ⟨{ l with ending := some (.failed .unusable) }, below, rfl, ?_, rfl,
        fun _ => ⟨.unusable, rfl⟩⟩
      exact (Keeps.refl below).cons id fun hbarren => barren_fail hbarren rfl rfl
    · rw [if_neg hlocked]
      have hkept := receive_kept limit { l with attached := true } beneath.1
      have hbeneath : Barren (l :: below) → ∃ e, beneath.1 = .failed e := by
        intro hbarren
        have hattached := hbarren.2.2.1 hnone
        refine hfail (hbarren.2.2.2.resolve_left ?_)
        rintro ⟨b, hb, hconsumed⟩
        simp [hattached, hb, hconsumed] at hlocked
      refine ⟨{ l with attached := true }.receive limit beneath.1, beneath.2, rfl, ?_, hkept, ?_⟩
      · refine hkeeps.cons ?_ ?_
        · intro hconsumed
          rw [hkept]
          exact hconsumed
        · intro hbarren
          obtain ⟨e, he⟩ := hbeneath hbarren
          rw [he]
          refine ⟨hbarren.1, by simp [Level.receive], by simp [Level.receive], ?_⟩
          cases hbarren.2.2.2 with
          | inl hconsumed => exact .inl ((hkeeps 0).1 hconsumed)
          | inr hbelow => exact .inr ((hkeeps 0).2 hbelow)
      · intro hbarren
        obtain ⟨e, he⟩ := hbeneath hbarren
        rw [he]
        exact ⟨e, rfl⟩

/-- Two lists of streams, and that a read of the first got nothing where it is barren. -/
def NextKeeps (limit : ℕ) (levels : List Level) : Prop :=
  Keeps levels (next limit levels).2 ∧ (Barren levels → ∃ e, (next limit levels).1 = .failed e)

theorem read_failed {l : Level} {e : ReadError} (h : l.ending = some (.failed e)) (cursor : ℕ) :
    l.read cursor = .failed e := by
  simp [Level.read, h]

theorem keeps_fill {limit : ℕ} {l : Level} {below : List Level} (hnext : NextKeeps limit below)
    (cursor : ℕ) : ∃ l' below', fill limit cursor (l :: below) = l' :: below' ∧
      Keeps (l :: below) (l' :: below') ∧ l'.kept = l.kept ∧
      (Barren (l :: below) → ∃ e, l'.ending = some (.failed e)) := by
  by_cases hcursor : l.log.length ≤ cursor
  · obtain ⟨l', below', heq, hpulled⟩ := @keeps_pull limit l below _ hnext.1 hnext.2
    refine ⟨l', below', ?_, hpulled⟩
    rw [← heq]
    exact if_pos hcursor
  · refine ⟨l, below, if_neg hcursor, Keeps.refl _, rfl, ?_⟩
    intro hbarren
    rw [hbarren.1] at hcursor
    exact absurd (Nat.zero_le cursor) hcursor

theorem keeps_next (limit : ℕ) (levels : List Level) : NextKeeps limit levels := by
  induction levels with
  | nil => exact ⟨Keeps.refl _, fun h => h.elim⟩
  | cons l below ih =>
    obtain ⟨l', below', hfill, hkeeps, hkept, hfailed⟩ := keeps_fill ih l.kept.cursor
    unfold NextKeeps
    rw [next_cons, hfill]
    constructor
    · refine hkeeps.trans ?_
      refine (Keeps.refl below').cons ?_ id
      intro hconsumed
      show (l'.kept.hand (l'.read l'.kept.cursor)).lock = .consumed
      unfold Branch.hand
      split <;> exact hconsumed
    · intro hbarren
      obtain ⟨e, he⟩ := hfailed hbarren
      exact ⟨e, read_failed he _⟩

theorem keeps_fetch (limit : ℕ) (levels : List Level) : Keeps levels (fetch limit levels) := by
  cases levels with
  | nil => exact Keeps.refl _
  | cons l below =>
    obtain ⟨l', below', heq, hkeeps, _⟩ :=
      @keeps_pull limit l below _ (keeps_next limit below).1 (keeps_next limit below).2
    show Keeps _ (pull limit l below (next limit below))
    rw [heq]
    exact hkeeps

theorem keeps_drain (limit fuel cursor : ℕ) (levels : List Level) :
    Keeps levels (drain limit fuel cursor levels).2 := by
  induction fuel generalizing cursor levels with
  | zero => exact Keeps.refl _
  | succ fuel ih =>
    cases levels with
    | nil => exact Keeps.refl _
    | cons l below =>
      obtain ⟨l', below', hfill, hkeeps, _⟩ := keeps_fill (keeps_next limit below) cursor
      unfold drain
      dsimp only
      rw [hfill]
      split
      · exact hkeeps
      · exact hkeeps
      · exact hkeeps.trans (ih (cursor + 1) (l' :: below'))

theorem barren_drain {limit fuel cursor : ℕ} {levels : List Level} (h : Barren levels) :
    ∃ e, (drain limit (fuel + 1) cursor levels).1 = .error e := by
  cases levels with
  | nil => exact h.elim
  | cons l below =>
    obtain ⟨l', below', hfill, _, _, hfailed⟩ := keeps_fill (keeps_next limit below) cursor
    obtain ⟨e, he⟩ := hfailed h
    refine ⟨e, ?_⟩
    unfold drain
    dsimp only
    rw [hfill]
    simp [readAt, read_failed he]

theorem keeps_replace {levels tail' : List Level} (k : ℕ) (h : Keeps (levels.drop k) tail')
    (hempty : levels.drop k = [] → tail' = []) : Keeps levels (levels.take k ++ tail') := by
  induction k generalizing levels with
  | zero => exact h
  | succ k ih =>
    cases levels with
    | nil =>
      rw [hempty rfl]
      exact Keeps.refl _
    | cons u rest =>
      have hrest := ih h hempty
      refine hrest.cons id ?_
      intro hbarren
      refine ⟨hbarren.1, hbarren.2.1, hbarren.2.2.1, ?_⟩
      cases hbarren.2.2.2 with
      | inl hconsumed => exact .inl ((hrest 0).1 hconsumed)
      | inr hbelow => exact .inr ((hrest 0).2 hbelow)

end Daloy.App.CountedStreams
