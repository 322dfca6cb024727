import Mathlib.Data.List.Forall2
import Mathlib.Data.List.Infix
import Mathlib.Order.Nat
import Mathlib.Tactic.Common

/-! # Counting streams

`byteCappedStream` of `src/app.ts`, stacked: each counting stream reads the branch that the request
keeps of the stream beneath it. The branches of one teed stream read one log of what it has enqueued,
each from its own place.

* `next`, `fetch`: a read of the kept branch of the top stream, and one `pull` of the top stream.
* `Sound`: what is in the logs is the body, as long as nobody else reads the kept branches.
* `next_nexted`, `drain_drained`: what a read of one chunk and a read to the end give.
-/

namespace Daloy.App.CountedStreams
set_option autoImplicit false

abbrev Chunk := List UInt8

/-- `payloadTooLarge` is the 413, `unusable` the `TypeError` for a body that is locked or used. -/
inductive ReadError
  | payloadTooLarge (limit : ℕ)
  | unusable
  deriving DecidableEq, Repr

inductive Ending
  | done
  | failed (error : ReadError)
  deriving DecidableEq, Repr

/-- Who holds the lock of a branch: nobody, a reader that can release it, or a read to the end. -/
inductive Lock
  | free | reader | consumed
  deriving DecidableEq, Repr

/-- A branch of a stream, as far as its readers have read it. What the statements speak about and
the code keeps no record of: `handed`, what the readers were given; `early`, that no reader had been
opened on the request when the branch was made; `since`, the largest limit in force since then. -/
structure Branch where
  cursor : ℕ
  lock : Lock
  used : Bool
  handed : List Chunk
  early : Bool
  since : ℕ
  deriving DecidableEq, Repr

/-- A counting stream, what it has enqueued, and the branch that the request keeps of it. -/
structure Level where
  seen : ℕ
  attached : Bool
  log : List Chunk
  ending : Option Ending
  kept : Branch
  deriving DecidableEq, Repr

inductive Got
  | chunk (bytes : Chunk)
  | done
  | failed (error : ReadError)
  deriving DecidableEq, Repr

/-! ## Reading -/

def Level.read (l : Level) (cursor : ℕ) : Got :=
  match l.ending with
  | some (.failed e) => .failed e
  | _ => match l.log[cursor]? with
    | some c => .chunk c
    | none => .done

def Branch.hand (b : Branch) (got : Got) : Branch :=
  match got with
  | .chunk c => { b with cursor := b.cursor + 1, handed := b.handed ++ [c] }
  | _ => b

/-- What `pull` makes of what the stream beneath gave. -/
def Level.receive (limit : ℕ) (l : Level) : Got → Level
  | .done => { l with ending := some .done }
  | .failed e => { l with ending := some (.failed e) }
  | .chunk c =>
    if limit < l.seen + c.length then
      { l with seen := l.seen + c.length, ending := some (.failed (.payloadTooLarge limit)) }
    else { l with seen := l.seen + c.length, log := l.log ++ [c] }

/-- One `pull`, where `beneath` is a read of the kept branch beneath. -/
def pull (limit : ℕ) (l : Level) (below : List Level) (beneath : Got × List Level) : List Level :=
  if l.ending.isSome then l :: below
  else if !l.attached && below.head?.any (·.kept.lock ≠ .free) then
    { l with ending := some (.failed .unusable) } :: below
  else ({ l with attached := true }.receive limit beneath.1) :: beneath.2

def next (limit : ℕ) : List Level → Got × List Level
  | [] => (.done, [])
  | l :: below =>
    let levels :=
      if l.log.length ≤ l.kept.cursor then pull limit l below (next limit below) else l :: below
    match levels with
    | [] => (.done, [])
    | l :: below =>
      (l.read l.kept.cursor, { l with kept := l.kept.hand (l.read l.kept.cursor) } :: below)

def fetch (limit : ℕ) : List Level → List Level
  | [] => []
  | l :: below => pull limit l below (next limit below)

/-- `fetch` where a reader has got to the end of the log. -/
def fill (limit cursor : ℕ) : List Level → List Level
  | [] => []
  | l :: below => if l.log.length ≤ cursor then fetch limit (l :: below) else l :: below

def readAt (cursor : ℕ) : List Level → Got
  | [] => .done
  | l :: _ => l.read cursor

def drain (limit : ℕ) : ℕ → ℕ → List Level → Except ReadError (List Chunk) × List Level
  | 0, _, levels => (.ok [], levels)
  | fuel + 1, cursor, levels =>
    let levels := fill limit cursor levels
    match readAt cursor levels with
    | .failed e => (.error e, levels)
    | .done => (.ok [], levels)
    | .chunk c =>
      let (rest, levels) := drain limit fuel (cursor + 1) levels
      (rest.map (c :: ·), levels)

/-! ## What is in the logs -/

def Level.IsOpen (l : Level) : Prop := ∀ e, l.ending ≠ some (.failed e)

/-- A counting stream that nobody beneath was in the way of. -/
structure Level.Good (chunks : List Chunk) (l : Level) : Prop where
  failed : ∀ e, l.ending = some (.failed e) → ∃ n, e = .payloadTooLarge n
  log : l.IsOpen → l.log <+: chunks
  seen : l.IsOpen → l.seen = l.log.flatten.length
  done : l.ending = some .done → l.log = chunks
  cursor : l.IsOpen → l.kept.cursor ≤ l.log.length
  handed : l.IsOpen → l.kept.handed = chunks.take l.kept.cursor

def Linked (l b : Level) : Prop :=
  l.kept.early = true → b.kept.early = true ∧ b.kept.lock = .free ∧
    (l.IsOpen → b.kept.cursor = l.log.length)

/-- The streams over a body, the bottom one being its own. -/
inductive Sound (chunks : List Chunk) : List Level → Prop
  | none (h : chunks = []) : Sound chunks []
  | source {l : Level} (hdone : l.ending = some .done) (hearly : l.kept.early = true)
      (hgood : l.Good chunks) : Sound chunks [l]
  | counted {l b : Level} {below : List Level} (hgood : l.kept.early = true → l.Good chunks)
      (hlinked : Linked l b) (hbelow : Sound chunks (b :: below)) : Sound chunks (l :: b :: below)

/-- What a read may change of a stream. -/
structure Grows (limit : ℕ) (l l' : Level) : Prop where
  isOpen : l'.IsOpen → l.IsOpen
  log : l'.IsOpen → l.log.length ≤ l'.log.length
  seen : l'.IsOpen → l'.seen ≤ max l.seen limit
  lock : l'.kept.lock = l.kept.lock
  early : l'.kept.early = l.kept.early
  since : l'.kept.since = l.kept.since

theorem Grows.refl (limit : ℕ) (l : Level) : Grows limit l l :=
  ⟨id, fun _ => Nat.le_refl _, fun _ => Nat.le_max_left l.seen limit, rfl, rfl, rfl⟩

theorem forall₂_grows_refl (limit : ℕ) (levels : List Level) :
    List.Forall₂ (Grows limit) levels levels :=
  List.forall₂_same.mpr fun l _ => Grows.refl limit l

def AllOpen (levels : List Level) : Prop := ∀ l ∈ levels, l.IsOpen

theorem total_le {chunks log : List Chunk} (h : log <+: chunks) :
    log.flatten.length ≤ chunks.flatten.length := by
  obtain ⟨rest, rfl⟩ := h
  rw [List.flatten_append, List.length_append]
  omega

theorem concat_prefix {chunks log : List Chunk} {c : Chunk} (h : log <+: chunks)
    (hc : chunks[log.length]? = some c) : log ++ [c] <+: chunks := by
  obtain ⟨rest, rfl⟩ := h
  rw [List.getElem?_append_right (Nat.le_refl _), Nat.sub_self] at hc
  cases rest with
  | nil => simp at hc
  | cons d rest =>
    obtain rfl : d = c := by simpa using hc
    exact ⟨rest, by simp⟩

/-! ## One read -/

def Gives (chunks : List Chunk) (l : Level) : Got → Level → Prop
  | .chunk c, l' => chunks[l.kept.cursor]? = some c ∧ l'.kept.cursor = l.kept.cursor + 1
  | .done, l' => chunks.length ≤ l.kept.cursor ∧ l'.kept.cursor = l.kept.cursor ∧ l'.IsOpen
  | .failed e, l' => (∃ n, e = .payloadTooLarge n) ∧ ¬ l'.IsOpen

/-- What every change of the streams keeps. -/
structure Step (limit : ℕ) (chunks : List Chunk) (levels levels' : List Level) : Prop where
  sound : Sound chunks levels'
  grows : List.Forall₂ (Grows limit) levels levels'
  calm : (∀ l, levels.head? = some l → l.kept.early = true) → AllOpen levels →
    chunks.flatten.length ≤ limit → AllOpen levels'

theorem Step.refl {limit : ℕ} {chunks : List Chunk} {levels : List Level}
    (h : Sound chunks levels) : Step limit chunks levels levels :=
  ⟨h, forall₂_grows_refl limit levels, fun _ hopen _ => hopen⟩

/-- What one `pull` of the top stream does. -/
structure Pulled (limit : ℕ) (chunks : List Chunk) (l : Level) (below : List Level)
    (l' : Level) (below' : List Level) : Prop where
  step : Step limit chunks (l :: below) (l' :: below')
  kept : l'.kept = l.kept
  further : l.kept.early = true → l'.IsOpen → l'.log = chunks ∨ l.log.length < l'.log.length

structure Nexted (limit : ℕ) (chunks : List Chunk) (l : Level) (below : List Level) (got : Got)
    (l' : Level) (below' : List Level) : Prop where
  step : Step limit chunks (l :: below) (l' :: below')
  gives : l.kept.early = true → Gives chunks l got l'

theorem Sound.good {chunks : List Chunk} {l : Level} {below : List Level}
    (h : Sound chunks (l :: below)) (hearly : l.kept.early = true) : l.Good chunks := by
  cases h with
  | source _ _ hgood => exact hgood
  | counted hgood _ _ => exact hgood hearly

theorem isOpen_of_none {l : Level} (h : l.ending = none) : l.IsOpen := by
  intro e
  simp [h]

theorem not_isOpen_of_failed {l : Level} {e : ReadError} (h : l.ending = some (.failed e)) :
    ¬ l.IsOpen := fun hopen => hopen e h

theorem good_of_failed {chunks : List Chunk} {l : Level} {n : ℕ}
    (h : l.ending = some (.failed (.payloadTooLarge n))) : l.Good chunks := by
  have hclosed := not_isOpen_of_failed h
  refine ⟨?_, fun ho => absurd ho hclosed, fun ho => absurd ho hclosed, ?_,
    fun ho => absurd ho hclosed, fun ho => absurd ho hclosed⟩
  · intro e he
    rw [h] at he
    cases he
    exact ⟨n, rfl⟩
  · intro hdone
    rw [h] at hdone
    cases hdone

/-- What a counting stream makes of what it receives. -/
structure Received (limit : ℕ) (chunks : List Chunk) (l l' : Level) (b' : Level) : Prop where
  good : l'.Good chunks
  linked : l'.IsOpen → b'.kept.cursor = l'.log.length
  further : l'.IsOpen → l'.log = chunks ∨ l.log.length < l'.log.length
  calm : b'.IsOpen → chunks.flatten.length ≤ limit → l'.IsOpen

theorem receive_received {limit : ℕ} {chunks : List Chunk} {l b b' : Level} {got : Got}
    (hgood : l.Good chunks) (hnone : l.ending = none) (hcursor : b.kept.cursor = l.log.length)
    (hgives : Gives chunks b got b') : Received limit chunks l (l.receive limit got) b' := by
  have hopen := isOpen_of_none hnone
  have hlog := hgood.log hopen
  have hseen := hgood.seen hopen
  cases got with
  | failed e =>
    obtain ⟨⟨n, rfl⟩, hfailed⟩ := hgives
    have hclosed : ¬ (l.receive limit (.failed (.payloadTooLarge n))).IsOpen :=
      not_isOpen_of_failed rfl
    exact ⟨good_of_failed rfl, fun ho => absurd ho hclosed, fun ho => absurd ho hclosed,
      fun ho => absurd ho hfailed⟩
  | done =>
    obtain ⟨hend, hsame, _⟩ := hgives
    have heq : l.log = chunks := hlog.eq_of_length_le (by omega)
    have hnew : (l.receive limit .done).IsOpen := by
      intro e
      simp [Level.receive]
    refine ⟨⟨?_, fun _ => hlog, fun _ => hseen, fun _ => heq, fun _ => hgood.cursor hopen,
      fun _ => hgood.handed hopen⟩, fun _ => hsame.trans hcursor, fun _ => .inl heq, fun _ _ => hnew⟩
    intro e he
    exact absurd he (hnew e)
  | chunk c =>
    obtain ⟨hc, hnext⟩ := hgives
    rw [hcursor] at hc hnext
    have hgrown := concat_prefix hlog hc
    have htotal := total_le hgrown
    have hsum : (l.log ++ [c]).flatten.length = l.seen + c.length := by
      rw [hseen, List.flatten_append, List.length_append]
      simp
    unfold Level.receive
    dsimp only
    by_cases hlimit : limit < l.seen + c.length
    · rw [if_pos hlimit]
      refine ⟨good_of_failed rfl, fun ho => absurd ho (not_isOpen_of_failed rfl),
        fun ho => absurd ho (not_isOpen_of_failed rfl), ?_⟩
      intro _ hsmall
      omega
    · rw [if_neg hlimit]
      have hnew : ({ l with seen := l.seen + c.length, log := l.log ++ [c] } : Level).IsOpen :=
        isOpen_of_none hnone
      have hlength : (l.log ++ [c]).length = l.log.length + 1 := by simp
      have hkept := hgood.cursor hopen
      refine ⟨⟨fun e he => absurd he (hnew e), fun _ => hgrown, fun _ => hsum.symm, ?_, ?_,
        fun _ => hgood.handed hopen⟩, fun _ => hnext.trans hlength.symm, fun _ => .inr ?_,
        fun _ _ => hnew⟩
      · intro hdone
        rw [show ({ l with seen := l.seen + c.length, log := l.log ++ [c] } : Level).ending =
          l.ending from rfl, hnone] at hdone
        cases hdone
      · intro _
        show l.kept.cursor ≤ (l.log ++ [c]).length
        omega
      · show l.log.length < (l.log ++ [c]).length
        omega

theorem receive_kept (limit : ℕ) (l : Level) (got : Got) : (l.receive limit got).kept = l.kept := by
  cases got with
  | chunk c =>
    unfold Level.receive
    dsimp only
    split <;> rfl
  | done => rfl
  | failed e => rfl

theorem receive_grows (limit : ℕ) {l : Level} (h : l.ending = none) (got : Got) :
    Grows limit l (l.receive limit got) := by
  refine ⟨fun _ => isOpen_of_none h, ?_, ?_, by rw [receive_kept], by rw [receive_kept],
    by rw [receive_kept]⟩
  · intro _
    unfold Level.receive
    split
    · exact Nat.le_refl _
    · exact Nat.le_refl _
    · split
      · exact Nat.le_refl _
      · simp
  · unfold Level.receive
    split
    · intro _
      exact Nat.le_max_left _ _
    · intro _
      exact Nat.le_max_left _ _
    · split
      · intro hopen
        exact absurd hopen (not_isOpen_of_failed rfl)
      · next hlimit =>
        intro _
        exact (Nat.le_of_not_lt hlimit).trans (Nat.le_max_right _ _)

/-! ## Reads of the stack -/

def NextSpec (limit : ℕ) (chunks : List Chunk) (levels : List Level) : Prop :=
  match levels with
  | [] => True
  | l :: below => ∃ got l' below', next limit (l :: below) = (got, l' :: below') ∧
    Nexted limit chunks l below got l' below'

theorem head_grows {limit : ℕ} {l l' : Level} {below below' : List Level}
    (h : List.Forall₂ (Grows limit) (l :: below) (l' :: below')) : Grows limit l l' :=
  (List.forall₂_cons.mp h).1

theorem receive_pulled {limit : ℕ} {chunks : List Chunk} {l b b' : Level} {below below' : List Level}
    {got : Got} (hsound : Sound chunks (l :: b :: below)) (hnone : l.ending = none)
    (hnexted : Nexted limit chunks b below got b' below') :
    Pulled limit chunks l (b :: below) ({ l with attached := true }.receive limit got)
      (b' :: below') := by
  have hsame : ({ l with attached := true } : Level).ending = none := hnone
  have hgrows := hnexted.step.grows
  have hkept := receive_kept limit { l with attached := true } got
  have hgrown := receive_grows limit hsame got
  cases hsound with
  | counted hgood hlinked hbelow =>
    have hreceived : l.kept.early = true → Received limit chunks { l with attached := true }
        ({ l with attached := true }.receive limit got) b' := by
      intro hearly
      obtain ⟨hbearly, _, hcursor⟩ := hlinked hearly
      have hl := hgood hearly
      have hattached : ({ l with attached := true } : Level).Good chunks :=
        ⟨hl.failed, hl.log, hl.seen, hl.done, hl.cursor, hl.handed⟩
      exact receive_received hattached hsame (hcursor (isOpen_of_none hnone))
        (hnexted.gives hbearly)
    refine ⟨⟨?_, ?_, ?_⟩, hkept, fun hearly => (hreceived hearly).further⟩
    · refine .counted ?_ ?_ hnexted.step.sound
      · intro hearly
        rw [hkept] at hearly
        exact (hreceived hearly).good
      · intro hearly
        rw [hkept] at hearly
        obtain ⟨hbearly, hfree, _⟩ := hlinked hearly
        refine ⟨?_, ?_, (hreceived hearly).linked⟩
        · rw [(head_grows hgrows).early]
          exact hbearly
        · rw [(head_grows hgrows).lock]
          exact hfree
    · refine .cons ?_ hgrows
      exact ⟨hgrown.isOpen, hgrown.log, hgrown.seen, hgrown.lock, hgrown.early, hgrown.since⟩
    · intro hearly hopen hsmall
      have hl := hearly l rfl
      rw [AllOpen, List.forall_mem_cons] at hopen
      have hbelow' : AllOpen (b' :: below') := by
        refine hnexted.step.calm ?_ hopen.2 hsmall
        intro b₁ hb₁
        rw [← Option.some.inj hb₁]
        exact (hlinked hl).1
      rw [AllOpen, List.forall_mem_cons]
      exact ⟨(hreceived hl).calm (hbelow' b' List.mem_cons_self) hsmall, hbelow'⟩

theorem pull_pulled {limit : ℕ} {chunks : List Chunk} {l : Level} {below : List Level}
    (hsound : Sound chunks (l :: below)) (hnext : NextSpec limit chunks below) :
    ∃ l' below', pull limit l below (next limit below) = l' :: below' ∧
      Pulled limit chunks l below l' below' := by
  unfold pull
  by_cases hended : l.ending.isSome = true
  · rw [if_pos hended]
    refine ⟨l, below, rfl, Step.refl hsound, rfl, ?_⟩
    intro hearly hopen
    cases hending : l.ending with
    | none => simp [hending] at hended
    | some ending =>
      cases ending with
      | done => exact .inl ((hsound.good hearly).done hending)
      | failed e => exact absurd hending (hopen e)
  · rw [if_neg hended]
    have hnone : l.ending = none := by simpa using hended
    cases below with
    | nil =>
      cases hsound with
      | source hdone _ _ => simp [hdone] at hnone
    | cons b below =>
      by_cases hlocked : (!l.attached && (b :: below).head?.any (·.kept.lock ≠ .free)) = true
      · rw [if_pos hlocked]
        refine ⟨_, _, rfl, ?_⟩
        have hfailed : ¬ ({ l with ending := some (.failed .unusable) } : Level).IsOpen :=
          not_isOpen_of_failed rfl
        cases hsound with
        | counted hgood hlinked hbelow =>
          have hlate : ¬ l.kept.early = true := by
            intro hearly
            simp [(hlinked hearly).2.1] at hlocked
          refine ⟨⟨.counted (fun hearly => absurd hearly hlate)
            (fun hearly => absurd hearly hlate) hbelow, .cons ?_ (forall₂_grows_refl limit _), ?_⟩,
            rfl, fun hearly => absurd hearly hlate⟩
          · exact ⟨fun ho => absurd ho hfailed, fun ho => absurd ho hfailed,
              fun ho => absurd ho hfailed, rfl, rfl, rfl⟩
          · intro hearly
            exact absurd (hearly l rfl) hlate
      · rw [if_neg hlocked]
        obtain ⟨got, b', below', heq, hnexted⟩ := hnext
        rw [heq]
        exact ⟨_, _, rfl, receive_pulled hsound hnone hnexted⟩

def Reads (chunks : List Chunk) (l : Level) (cursor : ℕ) : Got → Prop
  | .chunk c => chunks[cursor]? = some c ∧ cursor < l.log.length ∧ l.IsOpen
  | .done => chunks.length ≤ cursor ∧ l.log = chunks ∧ l.IsOpen
  | .failed e => (∃ n, e = .payloadTooLarge n) ∧ ¬ l.IsOpen

theorem read_reads {chunks : List Chunk} {l : Level} {cursor : ℕ} (hgood : l.Good chunks)
    (hfurther : l.IsOpen → l.log = chunks ∨ cursor < l.log.length) :
    Reads chunks l cursor (l.read cursor) := by
  by_cases hopen : l.IsOpen
  · have hread : l.read cursor = match l.log[cursor]? with
        | some c => .chunk c
        | none => .done := by
      unfold Level.read
      split
      · next e he => exact absurd he (hopen e)
      · rfl
    rw [hread]
    cases hc : l.log[cursor]? with
    | some c =>
      obtain ⟨rest, hrest⟩ := hgood.log hopen
      have hlt := (List.getElem?_eq_some_iff.mp hc).1
      refine ⟨?_, hlt, hopen⟩
      rw [← hrest, List.getElem?_append_left hlt]
      exact hc
    | none =>
      have hlength := List.getElem?_eq_none_iff.mp hc
      have heq : l.log = chunks := (hfurther hopen).resolve_right (by omega)
      exact ⟨heq ▸ hlength, heq, hopen⟩
  · have hfailed : ∃ e, l.ending = some (.failed e) := by
      unfold Level.IsOpen at hopen
      push Not at hopen
      exact hopen
    obtain ⟨e, he⟩ := hfailed
    have hread : l.read cursor = .failed e := by
      simp [Level.read, he]
    rw [hread]
    exact ⟨hgood.failed e he, hopen⟩

structure Filled (limit : ℕ) (chunks : List Chunk) (cursor : ℕ) (l : Level) (below : List Level)
    (l' : Level) (below' : List Level) : Prop where
  step : Step limit chunks (l :: below) (l' :: below')
  kept : l'.kept = l.kept
  further : l.kept.early = true → (l.IsOpen → cursor ≤ l.log.length) → l'.IsOpen →
    l'.log = chunks ∨ cursor < l'.log.length

theorem fill_filled {limit : ℕ} {chunks : List Chunk} {l : Level} {below : List Level}
    (hsound : Sound chunks (l :: below)) (hnext : NextSpec limit chunks below) (cursor : ℕ) :
    ∃ l' below', fill limit cursor (l :: below) = l' :: below' ∧
      Filled limit chunks cursor l below l' below' := by
  show ∃ l' below', (if l.log.length ≤ cursor then pull limit l below (next limit below)
    else l :: below) = l' :: below' ∧ _
  by_cases hcursor : l.log.length ≤ cursor
  · rw [if_pos hcursor]
    obtain ⟨l', below', heq, hpulled⟩ := pull_pulled hsound hnext
    refine ⟨l', below', heq, hpulled.step, hpulled.kept, ?_⟩
    intro hearly hle hopen
    have hsame := hle ((head_grows hpulled.step.grows).isOpen hopen)
    cases hpulled.further hearly hopen with
    | inl hall => exact .inl hall
    | inr hmore => exact .inr (by omega)
  · rw [if_neg hcursor]
    exact ⟨l, below, rfl, Step.refl hsound, rfl, fun _ _ _ => .inr (by omega)⟩

theorem next_cons (limit : ℕ) (l : Level) (below : List Level) :
    next limit (l :: below) = match fill limit l.kept.cursor (l :: below) with
      | [] => (.done, [])
      | l :: below =>
        (l.read l.kept.cursor, { l with kept := l.kept.hand (l.read l.kept.cursor) } :: below) := rfl

theorem sound_hand {chunks : List Chunk} {l : Level} {below : List Level}
    (hsound : Sound chunks (l :: below))
    (hreads : l.kept.early = true → Reads chunks l l.kept.cursor (l.read l.kept.cursor)) :
    Sound chunks ({ l with kept := l.kept.hand (l.read l.kept.cursor) } :: below) := by
  have hearly : (l.kept.hand (l.read l.kept.cursor)).early = l.kept.early := by
    unfold Branch.hand
    split <;> rfl
  have hgood : l.Good chunks → l.kept.early = true →
      ({ l with kept := l.kept.hand (l.read l.kept.cursor) } : Level).Good chunks := by
    intro hgood hl
    have hr := hreads hl
    refine ⟨hgood.failed, hgood.log, hgood.seen, hgood.done, ?_, ?_⟩
    · intro hopen
      cases hgot : l.read l.kept.cursor with
      | chunk c =>
        rw [hgot] at hr
        exact hr.2.1
      | done => exact hgood.cursor hopen
      | failed e => exact hgood.cursor hopen
    · intro hopen
      cases hgot : l.read l.kept.cursor with
      | chunk c =>
        rw [hgot] at hr
        show l.kept.handed ++ [c] = chunks.take (l.kept.cursor + 1)
        rw [List.take_add_one, hgood.handed hopen, hr.1]
        rfl
      | done => exact hgood.handed hopen
      | failed e => exact hgood.handed hopen
  cases hsound with
  | source hdone hl hsource => exact .source hdone (hearly.trans hl) (hgood hsource hl)
  | counted hcounted hlinked hbelow =>
    refine .counted ?_ ?_ hbelow
    · intro hl
      rw [hearly] at hl
      exact hgood (hcounted hl) hl
    · intro hl
      rw [hearly] at hl
      exact hlinked hl

theorem hand_gives {chunks : List Chunk} {l : Level}
    (hreads : Reads chunks l l.kept.cursor (l.read l.kept.cursor)) :
    Gives chunks l (l.read l.kept.cursor) { l with kept := l.kept.hand (l.read l.kept.cursor) } := by
  cases hgot : l.read l.kept.cursor with
  | chunk c =>
    rw [hgot] at hreads
    exact ⟨hreads.1, rfl⟩
  | done =>
    rw [hgot] at hreads
    exact ⟨hreads.1, rfl, hreads.2.2⟩
  | failed e =>
    rw [hgot] at hreads
    exact hreads

theorem hand_grows (limit : ℕ) (l : Level) (got : Got) :
    Grows limit l { l with kept := l.kept.hand got } := by
  refine ⟨id, fun _ => Nat.le_refl _, fun _ => Nat.le_max_left _ _, ?_, ?_, ?_⟩ <;>
    cases got <;> rfl

theorem Grows.trans {limit : ℕ} {l l' l'' : Level} (h : Grows limit l l') (h' : Grows limit l' l'') :
    Grows limit l l'' := by
  refine ⟨fun ho => h.isOpen (h'.isOpen ho), ?_, ?_, h'.lock.trans h.lock, h'.early.trans h.early,
    h'.since.trans h.since⟩
  · intro ho
    exact (h.log (h'.isOpen ho)).trans (h'.log ho)
  · intro ho
    have hfirst := h.seen (h'.isOpen ho)
    have hsecond := h'.seen ho
    omega

theorem next_step {limit : ℕ} {chunks : List Chunk} {l : Level} {below : List Level}
    (hsound : Sound chunks (l :: below)) (hnext : NextSpec limit chunks below) :
    NextSpec limit chunks (l :: below) := by
  obtain ⟨l', below', heq, hfilled⟩ := fill_filled hsound hnext l.kept.cursor
  refine ⟨_, _, _, by rw [next_cons, heq], ?_⟩
  have hsound' := hfilled.step.sound
  have hgrows := List.forall₂_cons.mp hfilled.step.grows
  have hreads : l'.kept.early = true → Reads chunks l' l'.kept.cursor (l'.read l'.kept.cursor) := by
    intro hearly
    have hl := hearly
    rw [hfilled.kept] at hl ⊢
    exact read_reads (hsound'.good hearly) (hfilled.further hl (hsound.good hl).cursor)
  constructor
  · refine ⟨sound_hand hsound' hreads, .cons (hgrows.1.trans (hand_grows limit l' _)) hgrows.2, ?_⟩
    intro hearly hopen hsmall
    have hall := hfilled.step.calm hearly hopen hsmall
    rw [AllOpen, List.forall_mem_cons] at hall ⊢
    exact hall
  · intro hearly
    rw [← hfilled.kept] at hearly
    have hgives := hand_gives (hreads hearly)
    unfold Gives at hgives ⊢
    rw [hfilled.kept] at hgives ⊢
    exact hgives

theorem next_nexted {limit : ℕ} {chunks : List Chunk} {levels : List Level}
    (hsound : Sound chunks levels) : NextSpec limit chunks levels := by
  induction levels with
  | nil => trivial
  | cons l below ih =>
    refine next_step hsound ?_
    cases hsound with
    | source _ _ _ => trivial
    | counted _ _ hbelow => exact ih hbelow

/-! ## Reads to the end -/

theorem forall₂_grows_trans {limit : ℕ} {levels levels' levels'' : List Level}
    (h : List.Forall₂ (Grows limit) levels levels')
    (h' : List.Forall₂ (Grows limit) levels' levels'') :
    List.Forall₂ (Grows limit) levels levels'' := by
  induction h generalizing levels'' with
  | nil => exact h'
  | cons hhead _ ih =>
    cases h' with
    | cons hhead' htail' => exact .cons (hhead.trans hhead') (ih htail')

theorem Step.trans {limit : ℕ} {chunks : List Chunk} {levels levels' levels'' : List Level}
    (h : Step limit chunks levels levels') (h' : Step limit chunks levels' levels'') :
    Step limit chunks levels levels'' := by
  refine ⟨h'.sound, ?_, ?_⟩
  · exact forall₂_grows_trans h.grows h'.grows
  · intro hearly hopen hsmall
    have hopen' := h.calm hearly hopen hsmall
    obtain ⟨_, hgrows, _⟩ := h
    refine h'.calm ?_ hopen' hsmall
    intro l' hl'
    cases hgrows with
    | nil => simp at hl'
    | cons hhead _ =>
      obtain rfl := Option.some.inj hl'
      rw [hhead.early]
      exact hearly _ rfl

theorem NextSpec.of_sound (limit : ℕ) {chunks : List Chunk} {l : Level} {below : List Level}
    (hsound : Sound chunks (l :: below)) : NextSpec limit chunks below := by
  cases hsound with
  | source _ _ _ => trivial
  | counted _ _ hbelow => exact next_nexted hbelow

def Ends (chunks : List Chunk) (cursor : ℕ) (l : Level) : Except ReadError (List Chunk) → Prop
  | .ok cs => cs = chunks.drop cursor ∧ l.IsOpen ∧ l.log = chunks
  | .error e => (∃ n, e = .payloadTooLarge n) ∧ ¬ l.IsOpen

structure Drained (limit : ℕ) (chunks : List Chunk) (fuel cursor : ℕ) (l : Level)
    (below : List Level) (result : Except ReadError (List Chunk)) (l' : Level)
    (below' : List Level) : Prop where
  step : Step limit chunks (l :: below) (l' :: below')
  kept : l'.kept = l.kept
  ends : l.kept.early = true → (l.IsOpen → cursor ≤ l.log.length) → 0 < fuel →
    chunks.length < fuel + cursor → Ends chunks cursor l' result

theorem drain_drained {limit : ℕ} {chunks : List Chunk} (fuel cursor : ℕ) {l : Level}
    {below : List Level} (hsound : Sound chunks (l :: below)) :
    ∃ result l' below', drain limit fuel cursor (l :: below) = (result, l' :: below') ∧
      Drained limit chunks fuel cursor l below result l' below' := by
  induction fuel generalizing cursor l below with
  | zero =>
    refine ⟨.ok [], l, below, rfl, Step.refl hsound, rfl, ?_⟩
    intro _ _ hfuel _
    omega
  | succ fuel ih =>
    obtain ⟨l₁, below₁, hfill, hfilled⟩ := fill_filled hsound (.of_sound limit hsound) cursor
    have hsound₁ := hfilled.step.sound
    have hreads : l.kept.early = true → (l.IsOpen → cursor ≤ l.log.length) →
        Reads chunks l₁ cursor (l₁.read cursor) := by
      intro hearly hle
      refine read_reads (hsound₁.good ?_) (hfilled.further hearly hle)
      rw [hfilled.kept]
      exact hearly
    unfold drain
    dsimp only
    rw [hfill]
    cases hgot : l₁.read cursor with
    | failed e =>
      refine ⟨.error e, l₁, below₁, by simp [readAt, hgot], hfilled.step, hfilled.kept, ?_⟩
      intro hearly hle _ _
      have hr := hreads hearly hle
      rw [hgot] at hr
      exact hr
    | done =>
      refine ⟨.ok [], l₁, below₁, by simp [readAt, hgot], hfilled.step, hfilled.kept, ?_⟩
      intro hearly hle _ _
      have hr := hreads hearly hle
      rw [hgot] at hr
      obtain ⟨hend, hlog, hopen⟩ := hr
      exact ⟨(List.drop_eq_nil_of_le hend).symm, hopen, hlog⟩
    | chunk c =>
      obtain ⟨result, l', below', hdrain, hdrained⟩ := ih (cursor + 1) hsound₁
      refine ⟨result.map (c :: ·), l', below', by simp [readAt, hgot, hdrain],
        hfilled.step.trans hdrained.step, hdrained.kept.trans hfilled.kept, ?_⟩
      intro hearly hle _ hfuel
      have hr := hreads hearly hle
      rw [hgot] at hr
      obtain ⟨hc, hlt, hopen⟩ := hr
      have hlt' := (List.getElem?_eq_some_iff.mp hc).1
      have hends := hdrained.ends (by rw [hfilled.kept]; exact hearly) (fun _ => hlt) (by omega)
        (by omega)
      cases result with
      | error e => exact hends
      | ok cs =>
        obtain ⟨rfl, hopen', hlog⟩ := hends
        refine ⟨?_, hopen', hlog⟩
        obtain ⟨_, hget⟩ := List.getElem?_eq_some_iff.mp hc
        rw [← hget]
        exact (List.drop_eq_getElem_cons hlt').symm

end Daloy.App.CountedStreams
