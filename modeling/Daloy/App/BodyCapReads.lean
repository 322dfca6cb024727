import Daloy.App.BodyCapRuns
import Daloy.App.SpentStreams

/-! # What reads of a capped body deliver

* `Spent`: as long as no reader was opened on the request, what has read it has read it to the end.
* `readRequest_fresh`, `readClone_early`, `takeClone_done`: what single reads give.
-/

namespace Daloy.App.BodyCap
set_option autoImplicit false

open Daloy.App.CountedStreams

/-- As long as no reader was opened on the request, what has read it has read it to the end, and
clones that were made afterwards have nothing to read. -/
def Spent (s : State) : Prop := s.readerOpened = false →
  (∀ l ∈ s.levels, l.kept.lock ≠ .reader) ∧
  (s.touched = true → Consumed s.levels ∨ Barren s.levels) ∧
  (∀ c ∈ s.clones, c.branch.early = false → c.height ≠ 0 →
    c.height ≤ s.levels.length ∧ Barren (s.upTo c.height))

theorem Spent.change {s s' : State} (h : Spent s) (hopened : s'.readerOpened = s.readerOpened)
    (htouched : s'.touched = s.touched) (hkeeps : Keeps s.levels s'.levels)
    (hlength : s'.levels.length = s.levels.length)
    (hreader : ∀ l' ∈ s'.levels, ∃ l ∈ s.levels, l'.kept.lock = l.kept.lock)
    (hclones : ∀ c' ∈ s'.clones, ∃ c ∈ s.clones, c'.height = c.height ∧
      c'.branch.early = c.branch.early) : Spent s' := by
  intro hnone
  obtain ⟨hlocks, hspent, hlate⟩ := h (hopened.symm.trans hnone)
  refine ⟨?_, ?_, ?_⟩
  · intro l' hl'
    obtain ⟨l, hl, hsame⟩ := hreader l' hl'
    rw [hsame]
    exact hlocks l hl
  · intro ht
    exact (hspent (htouched.symm.trans ht)).imp (hkeeps 0).1 (hkeeps 0).2
  · intro c' hc' hearly hheight
    obtain ⟨c, hc, hsame, hsameEarly⟩ := hclones c' hc'
    obtain ⟨hle, hbarren⟩ := hlate c hc (hsameEarly.symm.trans hearly) (hsame ▸ hheight)
    rw [hsame, hlength, State.upTo, hlength]
    exact ⟨hle, (hkeeps _).2 hbarren⟩

theorem same_clones (s : State) : ∀ c' ∈ s.clones, ∃ c ∈ s.clones, c'.height = c.height ∧
    c'.branch.early = c.branch.early := fun c hc => ⟨c, hc, rfl, rfl⟩

theorem Spent.withUpTo {s : State} (h : Spent s) (height : ℕ) {tail' : List Level}
    (hkeeps : Keeps (s.upTo height) tail')
    (hgrows : List.Forall₂ (Grows s.live) (s.upTo height) tail') :
    Spent (s.withUpTo height tail') := by
  refine h.change rfl rfl (keeps_replace _ hkeeps ?_) ?_ ?_ (same_clones s)
  · intro hnil
    rw [show s.upTo height = [] from hnil, List.forall₂_nil_left_iff] at hgrows
    exact hgrows
  · show (s.levels.take (s.levels.length - height) ++ tail').length = _
    rw [List.length_append, ← hgrows.length_eq, State.upTo, List.length_take, List.length_drop]
    omega
  · intro l' hl'
    cases List.mem_append.mp hl' with
    | inl htake => exact ⟨l', List.mem_of_mem_take htake, rfl⟩
    | inr htail =>
      obtain ⟨l, hl, hgrown⟩ := forall₂_mem hgrows htail
      exact ⟨l, List.mem_of_mem_drop hl, hgrown.lock⟩

theorem Spent.setClone {s : State} (h : Spent s) {i : ℕ} {c : Clone} (hc : s.clones[i]? = some c)
    {branch : Branch} (hearly : branch.early = c.branch.early) : Spent (s.setClone i branch) := by
  refine h.change rfl rfl (Keeps.refl _) rfl (fun l hl => ⟨l, hl, rfl⟩) ?_
  intro c' hc'
  cases mem_modify_cases hc' with
  | inl hold => exact ⟨c', hold, rfl, rfl⟩
  | inr hnew =>
    obtain ⟨y, hy, rfl⟩ := hnew
    rw [hc] at hy
    cases hy
    exact ⟨c, List.mem_of_getElem? hc, rfl, hearly⟩

theorem Spent.readClone {s : State} (h : Spent s) (hs : Sound s) {i : ℕ} {c : Clone}
    (hc : s.clones[i]? = some c) {tail' : List Level} {branch : Branch}
    (hkeeps : Keeps (s.upTo c.height) tail')
    (hquiet : ∀ l below, s.upTo c.height = l :: below →
      CountedStreams.Sound s.request.chunks (l :: below) →
      Quiet s.live s.request.chunks (l :: below) tail')
    (hempty : s.upTo c.height = [] → tail' = []) (hearly : branch.early = c.branch.early) :
    Spent ((s.withUpTo c.height tail').setClone i branch) := by
  refine Spent.setClone (h.withUpTo c.height hkeeps ?_) hc hearly
  cases hupTo : s.upTo c.height with
  | nil =>
    rw [hempty hupTo]
    exact .nil
  | cons l below => exact (hquiet l below hupTo (hs.upTo hupTo)).step.grows

theorem keeps_fill_all (limit cursor : ℕ) (levels : List Level) :
    Keeps levels (fill limit cursor levels) := by
  cases levels with
  | nil => exact Keeps.refl _
  | cons l below =>
    obtain ⟨l', below', hfill, hkeeps, _⟩ := keeps_fill (keeps_next limit below) cursor
    rw [hfill]
    exact hkeeps

theorem spend_early (b : Branch) (result : Except ReadError (List Chunk)) :
    (State.spend b result).early = b.early := by
  unfold State.spend
  split <;> rfl

theorem hand_early (b : Branch) (got : Got) : (b.hand got).early = b.early := by
  cases got <;> rfl

theorem spent_readClone {s : State} (h : Spent s) (hs : Sound s) (i : ℕ) :
    Spent (s.readClone i).2 := by
  unfold State.readClone
  split
  · exact h
  · next c hc =>
    split
    · exact h
    · split
      · exact h
      · refine h.readClone hs hc (keeps_drain _ _ _ _) ?_ ?_ (spend_early _ _)
        · intro l below hupTo hsound
          rw [hupTo]
          exact quiet_drain s.fuel c.branch.cursor hsound
        · intro hnil
          rw [hnil]
          rfl

theorem spent_takeClone {s : State} (h : Spent s) (hs : Sound s) (i : ℕ) :
    Spent (s.takeClone i).2 := by
  unfold State.takeClone
  split
  · exact h
  · next c hc =>
    split
    · exact h
    · refine h.readClone hs hc (keeps_fill_all _ _ _) ?_ ?_ (hand_early _ _)
      · intro l below hupTo hsound
        rw [hupTo]
        exact quiet_fill c.branch.cursor hsound
      · intro hnil
        rw [hnil]
        rfl

theorem spent_prefetch {s : State} (h : Spent s) (hs : Sound s) (height : ℕ) :
    Spent (s.prefetch height) := by
  unfold State.prefetch
  split
  · refine h.withUpTo height (keeps_fetch _ _) ?_
    cases hupTo : s.upTo height with
    | nil => exact .nil
    | cons l below => exact (quiet_fetch (hs.upTo hupTo)).step.grows
  · exact h

theorem spent_openClone {s : State} (h : Spent s) (i : ℕ) : Spent (s.openClone i).2 := by
  unfold State.openClone
  split
  · exact h
  · next c hc =>
    split
    · exact h
    · exact h.setClone hc rfl

theorem spent_releaseClone {s : State} (h : Spent s) (i : ℕ) : Spent (s.releaseClone i) := by
  unfold State.releaseClone
  split
  · exact h
  · next c hc =>
    split
    · exact h
    · exact h.setClone hc rfl

theorem spent_cloneClone {s : State} (h : Spent s) (i : ℕ) : Spent (s.cloneClone i).2 := by
  unfold State.cloneClone
  split
  · exact h
  · next c hc =>
    split
    · exact h
    · refine h.change rfl rfl (Keeps.refl _) rfl (fun l hl => ⟨l, hl, rfl⟩) ?_
      intro c' hc'
      rw [List.mem_append, List.mem_singleton] at hc'
      cases hc' with
      | inl hold => exact ⟨c', hold, rfl, rfl⟩
      | inr heq =>
        subst heq
        exact ⟨c', List.mem_of_getElem? hc, rfl, rfl⟩

/-! ## Limits, and reads of the request -/

theorem Spent.cover {s : State} (h : Spent s) (limit : ℕ) (wrap : Option Wrap) :
    Spent { s with wrap := wrap, levels := s.cover limit s.levels } := by
  unfold State.cover
  split
  · next hnil =>
    intro hnone
    obtain ⟨hlocks, hspent, hlate⟩ := h hnone
    rw [hnil] at hspent hlocks
    refine ⟨hlocks, hspent, ?_⟩
    intro c hc hearly hheight
    obtain ⟨hle, _⟩ := hlate c hc hearly hheight
    rw [hnil] at hle
    exact absurd (Nat.le_zero.mp hle) hheight
  · next l below hlevels =>
    intro hnone
    obtain ⟨hlocks, hspent, hlate⟩ := h hnone
    rw [hlevels] at hspent hlocks
    refine ⟨?_, ?_, ?_⟩
    · intro l' hl'
      cases List.mem_cons.mp hl' with
      | inl heq =>
        subst heq
        simp [newBranch]
      | inr hold => exact hlocks l' hold
    · intro htouched
      exact .inr ⟨rfl, by simp, fun _ => rfl, hspent htouched⟩
    · intro c hc hearly hheight
      obtain ⟨hle, hbarren⟩ := hlate c hc hearly hheight
      unfold State.upTo at hbarren ⊢
      rw [hlevels] at hle hbarren
      refine ⟨hle.trans (Nat.le_succ _), ?_⟩
      show Barren (List.drop ((l :: below).length + 1 - c.height) _)
      rw [Nat.sub_add_comm hle, List.drop_succ_cons]
      exact hbarren

theorem Spent.wrap {s : State} (h : Spent s) (wrap : Option Wrap) :
    Spent { s with wrap := wrap } := h

theorem keeps_raise (limit : ℕ) (levels : List Level) :
    Keeps levels (levels.map fun l => { l with kept := raise limit l.kept }) := by
  induction levels with
  | nil => exact Keeps.refl _
  | cons l below ih =>
    refine ih.cons id ?_
    intro hbarren
    exact ⟨hbarren.1, hbarren.2.1, hbarren.2.2.1, hbarren.2.2.2.imp (ih 0).1 (ih 0).2⟩

theorem spent_enforce {s : State} (h : Spent s) (limit : ℕ) : Spent (s.enforce limit) := by
  refine h.change rfl rfl (keeps_raise limit s.levels) (List.length_map _) ?_ ?_
  · intro l hl
    obtain ⟨l₀, hl₀, rfl⟩ := mem_enforce hl
    exact ⟨l₀, hl₀, rfl⟩
  · intro c hc
    obtain ⟨c₀, hc₀, rfl⟩ := List.mem_map.mp hc
    exact ⟨c₀, hc₀, rfl, rfl⟩

theorem spent_capRequestBody {s : State} (h : Spent s) (limit : ℕ) :
    Spent (s.capRequestBody limit) := by
  have henforced := spent_enforce h limit
  unfold State.capRequestBody
  dsimp only
  split
  · exact henforced
  · split
    · exact henforced
    · split
      · split
        · exact henforced.cover limit _
        · exact henforced.wrap _
      · split
        · exact henforced
        · exact henforced.wrap _

theorem spent_stream {s s' : State} (h : Spent s) (hs' : s.stream = .ok s') : Spent s' := by
  unfold State.stream at hs'
  split at hs'
  · cases hs'
    exact h
  · split at hs'
    · cases hs'
    · split at hs'
      · cases hs'
      · split at hs'
        · cases hs'
          exact h
        · cases hs'
          exact h.cover _ _

theorem spent_readRequest {s : State} (h : Spent s) (hs : Sound s) : Spent s.readRequest.2 := by
  unfold State.readRequest
  split
  · exact h
  · next s₁ hs₁ =>
    have h₁ := spent_stream h hs₁
    have hsound := (sound_stream hs hs₁).sound.streams
    split
    · exact h₁
    · next l below hlevels =>
      split
      · exact h₁
      · rw [hlevels] at hsound ⊢
        obtain ⟨result, l', below', heq, hdrained⟩ :=
          @drain_drained s₁.live s₁.request.chunks s₁.fuel l.kept.cursor l below hsound
        have hkeeps := keeps_drain s₁.live s₁.fuel l.kept.cursor (l :: below)
        have hgrows := hdrained.step.grows
        rw [heq] at hkeeps ⊢
        have hlock : (State.spend l'.kept result).lock = .consumed := by
          unfold State.spend
          split <;> rfl
        intro hnone
        obtain ⟨hlocks, _, hlate⟩ := h₁ hnone
        rw [hlevels] at hlocks
        refine ⟨?_, fun _ => .inl ⟨_, rfl, hlock⟩, ?_⟩
        · intro l₁ hl₁
          cases List.mem_cons.mp hl₁ with
          | inl heq₁ =>
            subst heq₁
            show (State.spend l'.kept result).lock ≠ .reader
            rw [hlock]
            simp
          | inr htail =>
            obtain ⟨l₀, hl₀, hgrown⟩ := forall₂_mem hgrows (List.mem_cons_of_mem _ htail)
            rw [hgrown.lock]
            exact hlocks l₀ hl₀
        · intro c hc hearly hheight
          obtain ⟨hle, hbarren⟩ := hlate c hc hearly hheight
          unfold State.upTo at hbarren ⊢
          rw [hlevels] at hle hbarren
          rw [hgrows.length_eq] at hle hbarren
          refine ⟨hle, ?_⟩
          have hspent : Keeps (l :: below) ({ l' with kept := State.spend l'.kept result } :: below') :=
            hkeeps.trans ((Keeps.refl below').cons (fun _ => hlock) id)
          exact (hspent _).2 hbarren

theorem spent_cloneRequest {s : State} (h : Spent s) : Spent s.cloneRequest.2 := by
  unfold State.cloneRequest
  split
  · exact h
  · next s₁ hs₁ =>
    have h₁ := spent_stream h hs₁
    split
    · intro hnone
      obtain ⟨hlocks, hspent, hlate⟩ := h₁ hnone
      refine ⟨hlocks, hspent, ?_⟩
      intro c hc hearly hheight
      rw [List.mem_append, List.mem_singleton] at hc
      cases hc with
      | inl hold => exact hlate c hold hearly hheight
      | inr heq =>
        subst heq
        exact absurd rfl hheight
    · next l below hlevels =>
      split
      · exact h₁
      · next husable =>
        intro hnone
        obtain ⟨hlocks, hspent, hlate⟩ := h₁ hnone
        refine ⟨hlocks, hspent, ?_⟩
        intro c hc hearly hheight
        rw [List.mem_append, List.mem_singleton] at hc
        cases hc with
        | inl hold => exact hlate c hold hearly hheight
        | inr heq =>
          subst heq
          have htouched : s₁.touched = true := by simpa [newBranch] using hearly
          refine ⟨Nat.le_refl _, ?_⟩
          unfold State.upTo
          rw [Nat.sub_self]
          refine (hspent htouched).resolve_left ?_
          rintro ⟨b, hb, hconsumed⟩
          rw [hlevels] at hb
          obtain rfl := Option.some.inj hb
          simp [State.isUnusable, hconsumed] at husable

theorem spent_openRequest {s : State} (h : Spent s) : Spent s.openRequest.2 := by
  unfold State.openRequest
  split
  · exact h
  · next s₁ hs₁ =>
    have h₁ := spent_stream h hs₁
    split
    · exact h₁
    · split
      · exact h₁
      · intro hnone
        cases hnone

theorem Spent.noReader {s : State} (h : Spent s) {height : ℕ} {l : Level} {below : List Level}
    (hupTo : s.upTo height = l :: below) (hlock : l.kept.lock = .reader) :
    s.readerOpened = true := by
  by_contra hnot
  have hmem : l ∈ s.levels := List.mem_of_mem_drop (i := s.levels.length - height) (by
    rw [show s.levels.drop (s.levels.length - height) = l :: below from hupTo]
    exact List.mem_cons_self)
  exact (h (by simpa using hnot)).1 l hmem hlock

theorem spent_takeRequest {s : State} (h : Spent s) (height : ℕ) :
    Spent (s.takeRequest height).2 := by
  unfold State.takeRequest
  split
  · exact h
  · next l below hupTo =>
    split
    · exact h
    · next hlock =>
      rw [not_not] at hlock
      have hopened := h.noReader hupTo hlock
      split
      · exact h
      · intro hnone
        exact absurd (hopened.symm.trans hnone) (by simp)

theorem spent_releaseRequest {s : State} (h : Spent s) (height : ℕ) :
    Spent (s.releaseRequest height) := by
  unfold State.releaseRequest
  split
  · exact h
  · next l below hupTo =>
    split
    · exact h
    · next hlock =>
      rw [not_not] at hlock
      have hopened := h.noReader hupTo hlock
      intro hnone
      exact absurd (hopened.symm.trans hnone) (by simp)

/-! ## Runs -/

theorem spent_step {s : State} (h : Spent s) (hs : Sound s) (op : Op) : Spent (step s op) := by
  cases op with
  | cap limit => exact spent_capRequestBody h limit
  | readRequest => exact spent_readRequest h hs
  | readClone i => exact spent_readClone h hs i
  | cloneRequest => exact spent_cloneRequest h
  | cloneClone i => exact spent_cloneClone h i
  | openRequest => exact spent_openRequest h
  | takeRequest height => exact spent_takeRequest h height
  | releaseRequest height => exact spent_releaseRequest h height
  | openClone i => exact spent_openClone h i
  | takeClone i => exact spent_takeClone h hs i
  | releaseClone i => exact spent_releaseClone h i
  | prefetch height => exact spent_prefetch h hs height

theorem spent_fresh (r : Incoming) (limit : ℕ) : Spent (fresh r limit) := by
  intro _
  refine ⟨?_, by simp [fresh], by simp [fresh]⟩
  intro l hl
  have hbase := base_fresh r limit
  have hfree := all_free hbase.streams (fun l' hl' =>
    ⟨(hbase.fresh rfl l' hl').2.1, (hbase.fresh rfl l' hl').2.2.2⟩) l hl
  rw [hfree]
  simp

theorem spent_run (r : Incoming) (limit : ℕ) (ops : List Op) : Spent (run r limit ops) := by
  have hall : ∀ s, Sound s → Spent s → Spent (ops.foldl step s) := by
    induction ops with
    | nil => exact fun _ _ h => h
    | cons op ops ih => exact fun s hs h => ih (step s op) (sound_step hs op) (spent_step h hs op)
  exact hall _ (sound_capRequestBody (base_fresh r limit) limit)
    (spent_capRequestBody (spent_fresh r limit) limit)

/-! ## What reads deliver -/

/-- A limit that was in force has refused the body, or a counting stream has failed. -/
def State.Refused (s : State) : Prop :=
  (∃ w, s.wrap = some w ∧ w.cachedOverLimit = true) ∨ ¬ AllOpen s.levels

theorem allOpen_stream {s s' : State} (hs' : s.stream = .ok s') (h : AllOpen s.levels) :
    AllOpen s'.levels := by
  have hcover : ∀ limit, AllOpen (s.cover limit s.levels) := by
    intro limit l hl
    unfold State.cover at hl
    split at hl
    · simp at hl
    · next hlevels =>
      rw [hlevels] at h
      cases List.mem_cons.mp hl with
      | inl heq =>
        subst heq
        exact isOpen_of_none rfl
      | inr hold => exact h l hold
  unfold State.stream at hs'
  split at hs'
  · cases hs'
    exact h
  · split at hs'
    · cases hs'
    · split at hs'
      · cases hs'
      · split at hs'
        · cases hs'
          exact h
        · cases hs'
          exact hcover _

theorem stream_error {s : State} {e : ReadError} (h : s.stream = .error e) :
    ∃ w, s.wrap = some w ∧ e = .payloadTooLarge w.limit ∧
      (w.cachedOverLimit = true ∨ ∃ n, s.request.declared = some n ∧ (w.limit : ℚ) < n) := by
  unfold State.stream at h
  split at h
  · cases h
  · next w hw =>
    refine ⟨w, hw, ?_⟩
    split at h
    · next hcached =>
      cases h
      exact ⟨rfl, .inl hcached⟩
    · split at h
      · next hdeclared =>
        cases h
        cases hn : s.request.declared with
        | none => simp [hn] at hdeclared
        | some n => exact ⟨rfl, .inr ⟨n, rfl, by simpa [hn] using hdeclared⟩⟩
      · split at h <;> cases h

theorem ends_delivers {limit : ℕ} {chunks : List Chunk} {l l' : Level} {below below' : List Level}
    {result : Except ReadError (List Chunk)} (hearly : l.kept.early = true)
    (hstep : Step limit chunks (l :: below) (l' :: below')) (hends : Ends chunks 0 l' result) :
    (∀ bytes, result.map List.flatten = .ok bytes →
      bytes = chunks.flatten ∧ bytes.length ≤ max l.seen limit ∧ l.IsOpen) ∧
    (∀ e, result.map List.flatten = .error e → (∃ n, e = .payloadTooLarge n)) ∧
    (AllOpen (l :: below) → chunks.flatten.length ≤ limit →
      result.map List.flatten = .ok chunks.flatten) := by
  have hl' : l'.kept.early = true := (head_grows hstep.grows).early.trans hearly
  cases result with
  | error e =>
    obtain ⟨⟨n, rfl⟩, hclosed⟩ := hends
    refine ⟨fun bytes hok => (by cases hok), ?_, ?_⟩
    · intro e he
      cases he
      exact ⟨n, rfl⟩
    · intro hopen hsmall
      have hall := hstep.calm (fun l₁ hl₁ => by rw [← Option.some.inj hl₁]; exact hearly) hopen hsmall
      exact absurd (hall l' List.mem_cons_self) hclosed
  | ok cs =>
    obtain ⟨hcs, hopen, hlog⟩ := hends
    rw [List.drop_zero] at hcs
    subst hcs
    refine ⟨?_, fun e he => (by cases he), fun _ _ => rfl⟩
    intro bytes hok
    cases hok
    have hseen := (hstep.sound.good hl').seen hopen
    have hbound := (head_grows hstep.grows).seen hopen
    rw [hlog] at hseen
    exact ⟨rfl, by omega, (head_grows hstep.grows).isOpen hopen⟩

theorem readRequest_fresh {s : State} (h : Sound s) (hfresh : s.touched = false) :
    (∀ bytes, s.readRequest.1 = .ok bytes →
      bytes = s.request.body ∧ bytes.length ≤ s.limit) ∧
    (∀ e, s.readRequest.1 = .error e → ∃ n, e = .payloadTooLarge n) ∧
    (s.request.body.length ≤ s.limit → (∀ n, s.request.declared = some n → n ≤ s.limit) →
      ¬ s.Refused → s.readRequest.1 = .ok s.request.body) := by
  unfold State.readRequest
  cases hs₁ : s.stream with
  | error e =>
    obtain ⟨w, hw, rfl, hwhy⟩ := stream_error hs₁
    refine ⟨fun bytes hok => (by cases hok), ?_, ?_⟩
    · intro e he
      cases he
      exact ⟨_, rfl⟩
    · intro _ hdeclared hnot
      exfalso
      cases hwhy with
      | inl hcached => exact hnot (.inl ⟨w, hw, hcached⟩)
      | inr hn =>
        obtain ⟨n, hn, hlt⟩ := hn
        have hwrapped := h.wrapped w hw
        rw [if_neg (fun hcached => hnot (.inl ⟨w, hw, hcached⟩))] at hwrapped
        have hle := hdeclared n hn
        rw [← hwrapped.2] at hle
        exact absurd hlt (Rat.not_lt.mpr hle)
  | ok s₁ =>
    have hopened := sound_stream h hs₁
    have h₁ := hopened.sound
    have hstreams := h₁.streams
    rw [hopened.request] at hstreams
    dsimp only
    cases hlevels : s₁.levels with
    | nil =>
      rw [hlevels] at hstreams
      have hbody : s.request.body = [] := by
        cases hstreams with
        | none hchunks => rw [show s.request.body = s.request.chunks.flatten from rfl, hchunks]; rfl
      rw [hbody]
      refine ⟨?_, fun e he => (by cases he), fun _ _ _ => rfl⟩
      intro bytes hok
      cases hok
      exact ⟨rfl, Nat.zero_le _⟩
    | cons l below =>
      rw [hlevels] at hstreams
      obtain ⟨hcursor, hlock, hused, hearly⟩ :=
        h₁.fresh (hopened.touched.trans hfresh) l (by rw [hlevels]; rfl)
      have husable : s₁.isUnusable l.kept = false := by
        simp [State.isUnusable, hlock, hused]
      obtain ⟨result, l', below', heq, hdrained⟩ :=
        @drain_drained s₁.live s.request.chunks s₁.fuel l.kept.cursor l below hstreams
      have hends := hdrained.ends hearly (hstreams.good hearly).cursor (Nat.succ_pos _) (by
        show s.request.chunks.length < s₁.request.chunks.length + 1 + l.kept.cursor
        rw [hopened.request]
        omega)
      rw [hcursor] at hends
      obtain ⟨hok, herror, hcalm⟩ := ends_delivers hearly hdrained.step hends
      simp only [husable, Bool.false_eq_true, if_false, heq]
      refine ⟨?_, herror, ?_⟩
      · intro bytes hbytes
        obtain ⟨hbody, hle, hopen⟩ := hok bytes hbytes
        have htop := h₁.top hopened.readable l (by rw [hlevels]; rfl) hearly hopen
        have hlive := hopened.live
        have hlimit := hopened.limit
        exact ⟨hbody, by omega⟩
      · intro hsmall _ hnot
        have hopen : AllOpen s.levels := by
          by_contra hclosed
          exact hnot (.inr hclosed)
        have hall := allOpen_stream hs₁ hopen
        rw [hlevels] at hall
        refine hcalm hall ?_
        rw [hopened.live, hopened.limit]
        exact hsmall

theorem stream_readerOpened {s s' : State} (h : s.stream = .ok s') :
    s'.readerOpened = s.readerOpened := by
  unfold State.stream at h
  split at h
  · cases h
    rfl
  · split at h
    · cases h
    · split at h
      · cases h
      · split at h <;> cases h <;> rfl

theorem readRequest_spent {s : State} (hs : Sound s) (h : Spent s)
    (hnone : s.readerOpened = false) (htouched : s.touched = true) (bytes : Chunk) :
    s.readRequest.1 ≠ .ok bytes := by
  unfold State.readRequest
  cases hs₁ : s.stream with
  | error e => simp
  | ok s₁ =>
    have hsame := (sound_stream hs hs₁).touched
    have hdead := (spent_stream h hs₁ ((stream_readerOpened hs₁).trans hnone)).2.1
      (hsame.trans htouched)
    dsimp only
    cases hlevels : s₁.levels with
    | nil =>
      rw [hlevels] at hdead
      cases hdead with
      | inl hconsumed =>
        obtain ⟨b, hb, _⟩ := hconsumed
        cases hb
      | inr hbarren => exact hbarren.elim
    | cons l below =>
      rw [hlevels] at hdead
      by_cases husable : s₁.isUnusable l.kept = true
      · simp [husable]
      · have hbarren : Barren (l :: below) := by
          refine hdead.resolve_left ?_
          rintro ⟨b, hb, hconsumed⟩
          obtain rfl := Option.some.inj hb
          simp [State.isUnusable, hconsumed] at husable
        obtain ⟨e, he⟩ := @barren_drain s₁.live (s₁.request.original.getD []).length l.kept.cursor
          (l :: below) hbarren
        have hdrain : (drain s₁.live s₁.fuel l.kept.cursor (l :: below)).1 = .error e := he
        simp only [husable, Bool.false_eq_true, if_false]
        split
        · next result heq =>
          rw [heq] at hdrain
          simp [show result = .error e from hdrain, Except.map]
        · next result l' below' heq =>
          rw [heq] at hdrain
          simp [show result = .error e from hdrain, Except.map]

theorem readClone_late {s : State} (h : Spent s) (hnone : s.readerOpened = false) {i : ℕ}
    {c : Clone} (hc : s.clones[i]? = some c) (hearly : c.branch.early = false)
    (hheight : c.height ≠ 0) (bytes : Chunk) : (s.readClone i).1 ≠ .ok bytes := by
  have hbarren := ((h hnone).2.2 c (List.mem_of_getElem? hc) hearly hheight).2
  unfold State.readClone
  simp only [hc, hheight, if_false]
  split
  · simp
  · obtain ⟨e, he⟩ := @barren_drain s.live (s.request.original.getD []).length c.branch.cursor
      (s.upTo c.height) hbarren
    have hdrain : (drain s.live s.fuel c.branch.cursor (s.upTo c.height)).1 = .error e := he
    show (drain s.live s.fuel c.branch.cursor (s.upTo c.height)).1.map List.flatten ≠ _
    rw [hdrain]
    simp [Except.map]

theorem live_eq {s : State} (h : Sound s) (hnot : ¬ s.Refused) : s.live = s.limit := by
  unfold State.live
  cases hw : s.wrap with
  | none => rfl
  | some w =>
    have hwrapped := h.wrapped w hw
    rw [if_neg (fun hcached => hnot (.inl ⟨w, hw, hcached⟩))] at hwrapped
    exact hwrapped.2

theorem readClone_early {s : State} (h : Sound s) {i : ℕ} {c : Clone}
    (hc : s.clones[i]? = some c) (hearly : c.branch.early = true) (hheight : c.height ≠ 0)
    (hlock : c.branch.lock = .free) (hused : c.branch.used = false) :
    (∀ bytes, (s.readClone i).1 = .ok bytes →
      bytes = s.request.body ∧ bytes.length ≤ c.branch.since) ∧
    (∀ e, (s.readClone i).1 = .error e → ∃ n, e = .payloadTooLarge n) ∧
    (s.request.body.length ≤ s.limit → ¬ s.Refused → (s.readClone i).1 = .ok s.request.body) := by
  have hmem := List.mem_of_getElem? hc
  obtain ⟨l, below, hclone⟩ := h.clones c hmem hearly hheight
  obtain ⟨result, l', below', heq, hdrained, hends⟩ := drain_clone h hclone
  rw [hclone.unread hused] at hends
  obtain ⟨hok, herror, hcalm⟩ := ends_delivers hclone.early hdrained.step hends
  have hread : (s.readClone i).1 = result.map List.flatten := by
    unfold State.readClone
    simp only [hc, hheight, if_false, hlock, hused, hclone.upTo, heq]
    rfl
  rw [hread]
  refine ⟨?_, herror, ?_⟩
  · intro bytes hbytes
    obtain ⟨hbody, hle, hopen⟩ := hok bytes hbytes
    have hseen := hclone.seen hopen
    have hsince := h.clonesSince c hmem
    exact ⟨hbody, by omega⟩
  · intro hsmall hnot
    have hopen : AllOpen s.levels := by
      by_contra hclosed
      exact hnot (.inr hclosed)
    refine hcalm ?_ ?_
    · rw [← hclone.upTo]
      exact fun l hl => hopen l (List.mem_of_mem_drop hl)
    · rw [live_eq h hnot]
      exact hsmall

theorem takeClone_done {s : State} (h : Sound s) {i : ℕ} {c : Clone} (hc : s.clones[i]? = some c)
    (hearly : c.branch.early = true) (hdone : (s.takeClone i).1 = .done) :
    c.branch.handed.flatten = s.request.body ∧ s.request.body.length ≤ c.branch.since := by
  have hmem := List.mem_of_getElem? hc
  unfold State.takeClone at hdone
  simp only [hc] at hdone
  by_cases hreader : c.height = 0 ∨ c.branch.lock ≠ .reader
  · simp [hreader] at hdone
  · rw [if_neg hreader] at hdone
    rw [not_or] at hreader
    obtain ⟨l, below, hclone⟩ := h.clones c hmem hearly hreader.1
    have hsound := h.upTo hclone.upTo
    obtain ⟨l', below', hfill, hfilled⟩ :=
      fill_filled hsound (.of_sound s.live hsound) c.branch.cursor
    have hl' : l'.kept.early = true := by
      rw [hfilled.kept]
      exact hclone.early
    have hgood := hfilled.step.sound.good hl'
    have hreads := read_reads hgood (hfilled.further hclone.early hclone.cursor)
    rw [hclone.upTo, hfill] at hdone
    rw [show l'.read c.branch.cursor = .done from hdone] at hreads
    obtain ⟨hend, hlog, hopen⟩ := hreads
    have hgrown := head_grows hfilled.step.grows
    have hseen := hgood.seen hopen
    have hbound := hgrown.seen hopen
    have hbefore := hclone.seen (hgrown.isOpen hopen)
    have hsince := h.clonesSince c hmem
    rw [hlog] at hseen
    constructor
    · rw [hclone.handed, List.take_of_length_le hend]
      rfl
    · show s.request.chunks.flatten.length ≤ _
      omega

theorem takeRequest_done {s : State} (h : Sound s) {height : ℕ} {l : Level} {below : List Level}
    (hupTo : s.upTo height = l :: below) (hearly : l.kept.early = true)
    (hdone : (s.takeRequest height).1 = .done) :
    l.kept.handed.flatten = s.request.body ∧ s.request.body.length ≤ l.kept.since := by
  have hmem : l ∈ s.levels := List.mem_of_mem_drop (i := s.levels.length - height) (by
    rw [show s.levels.drop (s.levels.length - height) = l :: below from hupTo]
    exact List.mem_cons_self)
  unfold State.takeRequest at hdone
  rw [hupTo] at hdone
  by_cases hlock : l.kept.lock ≠ .reader
  · simp [hlock] at hdone
  · rw [not_not] at hlock
    have hsound := h.upTo hupTo
    obtain ⟨got, l', below', heq, hnexted⟩ := @next_nexted s.live s.request.chunks (l :: below) hsound
    simp only [hlock, ne_eq, not_true_eq_false, if_false, heq] at hdone
    subst hdone
    obtain ⟨hend, hcursor, hopen⟩ := hnexted.gives hearly
    have hgrown := head_grows hnexted.step.grows
    have hl' : l'.kept.early = true := hgrown.early.trans hearly
    have hgood := hnexted.step.sound.good hl'
    have hinside := hgood.cursor hopen
    have hlog : l'.log = s.request.chunks := (hgood.log hopen).eq_of_length_le (by omega)
    have hseen := hgood.seen hopen
    have hbound := hgrown.seen hopen
    have hbefore := h.readers l hmem hlock hearly (hgrown.isOpen hopen)
    have hsince := h.levelsSince l hmem
    rw [hlog] at hseen
    constructor
    · rw [(hsound.good hearly).handed (hgrown.isOpen hopen), List.take_of_length_le hend]
      rfl
    · show s.request.chunks.flatten.length ≤ _
      omega

theorem readClone_usable {s : State} {i : ℕ} {c : Clone} (hc : s.clones[i]? = some c)
    (hheight : c.height ≠ 0) {bytes : Chunk} (hok : (s.readClone i).1 = .ok bytes) :
    c.branch.lock = .free ∧ c.branch.used = false := by
  unfold State.readClone at hok
  simp only [hc, hheight, if_false] at hok
  split at hok
  · cases hok
  · next husable => simpa using husable

theorem readClone_null {s : State} (h : Sound s) {i : ℕ} {c : Clone} (hc : s.clones[i]? = some c)
    (hheight : c.height = 0) : (s.readClone i).1 = .ok [] ∧ s.request.body = [] := by
  constructor
  · unfold State.readClone
    simp [hc, hheight]
  · show s.request.chunks.flatten = []
    rw [h.null c (List.mem_of_getElem? hc) hheight]
    rfl

/-! ## The main result -/

theorem capRequestBody_request (s : State) (limit : ℕ) :
    (s.capRequestBody limit).request = s.request := by
  unfold State.capRequestBody
  dsimp only
  split
  · rfl
  · split
    · rfl
    · split
      · rfl
      · split <;> rfl

theorem step_request {s : State} (h : Sound s) (op : Op) : (step s op).request = s.request := by
  cases op with
  | cap limit => exact capRequestBody_request s limit
  | readRequest =>
    show s.readRequest.2.request = s.request
    unfold State.readRequest
    split
    · rfl
    · next s₁ hs₁ =>
      rw [← (sound_stream h hs₁).request]
      split
      · rfl
      · split
        · rfl
        · split <;> rfl
  | readClone i =>
    show (s.readClone i).2.request = s.request
    unfold State.readClone
    split
    · rfl
    · split
      · rfl
      · split <;> rfl
  | cloneRequest =>
    show s.cloneRequest.2.request = s.request
    unfold State.cloneRequest
    split
    · rfl
    · next s₁ hs₁ =>
      rw [← (sound_stream h hs₁).request]
      split
      · rfl
      · split <;> rfl
  | cloneClone i =>
    show (s.cloneClone i).2.request = s.request
    unfold State.cloneClone
    split
    · rfl
    · split <;> rfl
  | openRequest =>
    show s.openRequest.2.request = s.request
    unfold State.openRequest
    split
    · rfl
    · next s₁ hs₁ =>
      rw [← (sound_stream h hs₁).request]
      split
      · rfl
      · split
        · rfl
        · unfold State.setTopLock
          split <;> rfl
  | takeRequest height =>
    show (s.takeRequest height).2.request = s.request
    unfold State.takeRequest
    split
    · rfl
    · split
      · rfl
      · split <;> rfl
  | releaseRequest height =>
    show (s.releaseRequest height).request = s.request
    unfold State.releaseRequest
    split
    · rfl
    · split <;> rfl
  | openClone i =>
    show (s.openClone i).2.request = s.request
    unfold State.openClone
    split
    · rfl
    · split <;> rfl
  | takeClone i =>
    show (s.takeClone i).2.request = s.request
    unfold State.takeClone
    split
    · rfl
    · split <;> rfl
  | releaseClone i =>
    show (s.releaseClone i).request = s.request
    unfold State.releaseClone
    split
    · rfl
    · split <;> rfl
  | prefetch height =>
    show (s.prefetch height).request = s.request
    unfold State.prefetch
    split <;> rfl

theorem run_request (r : Incoming) (limit : ℕ) (ops : List Op) :
    (run r limit ops).request = r := by
  have hall : ∀ s, Sound s → (ops.foldl step s).request = s.request := by
    induction ops with
    | nil => exact fun _ _ => rfl
    | cons op ops ih =>
      exact fun s h => (ih (step s op) (sound_step h op)).trans (step_request h op)
  exact (hall _ (sound_capRequestBody (base_fresh r limit) limit)).trans
    (capRequestBody_request (fresh r limit) limit)

/-- **The body cap holds for every reader**: what a read of the request or of a clone delivers is the
body, no longer than the limits that were in force. -/
theorem body_cap (r : Incoming) (first : ℕ) (ops : List Op) :
    let s := run r first ops
    (s.readerOpened = false → ∀ bytes, s.readRequest.1 = .ok bytes →
      bytes = r.body ∧ bytes.length ≤ s.limit) ∧
    (s.touched = false → s.limit < r.body.length →
      ∃ n, s.readRequest.1 = .error (.payloadTooLarge n)) ∧
    (s.touched = false → r.body.length ≤ s.limit → (∀ n, r.declared = some n → n ≤ s.limit) →
      ¬ s.Refused → s.readRequest.1 = .ok r.body) ∧
    (∀ (i : ℕ) (c : Clone), s.clones[i]? = some c →
      (c.branch.early = true ∨ s.readerOpened = false) →
      ∀ bytes, (s.readClone i).1 = .ok bytes → bytes = r.body ∧ bytes.length ≤ c.branch.since) ∧
    (∀ (i : ℕ) (c : Clone), s.clones[i]? = some c → c.branch.early = true →
      c.branch.used = false → c.branch.lock = .free →
      (c.branch.since < r.body.length → ∃ n, (s.readClone i).1 = .error (.payloadTooLarge n)) ∧
      (r.body.length ≤ s.limit → ¬ s.Refused → (s.readClone i).1 = .ok r.body)) ∧
    (∀ (i : ℕ) (c : Clone), s.clones[i]? = some c → c.branch.early = true →
      (s.takeClone i).1 = .done →
      c.branch.handed.flatten = r.body ∧ r.body.length ≤ c.branch.since) ∧
    (∀ (height : ℕ) (l : Level) (below : List Level), s.upTo height = l :: below →
      l.kept.early = true → (s.takeRequest height).1 = .done →
      l.kept.handed.flatten = r.body ∧ r.body.length ≤ l.kept.since) := by
  intro s
  have h : Sound s := sound_run r first ops
  have hspent : Spent s := spent_run r first ops
  have hr : s.request = r := run_request r first ops
  refine ⟨?_, ?_, ?_, ?_, ?_, ?_, ?_⟩
  · intro hnone bytes hok
    cases htouched : s.touched with
    | true => exact absurd hok (readRequest_spent h hspent hnone htouched bytes)
    | false =>
      rw [← hr]
      exact (readRequest_fresh h htouched).1 bytes hok
  · intro hfresh hlong
    obtain ⟨hok, herror, _⟩ := readRequest_fresh h hfresh
    cases hread : s.readRequest.1 with
    | error e =>
      obtain ⟨n, rfl⟩ := herror e hread
      exact ⟨n, rfl⟩
    | ok bytes =>
      obtain ⟨hbytes, hle⟩ := hok bytes hread
      rw [hbytes, hr] at hle
      omega
  · intro hfresh hshort hdeclared hnot
    rw [← hr] at hshort hdeclared ⊢
    exact (readRequest_fresh h hfresh).2.2 hshort hdeclared hnot
  · intro i c hc hguard bytes hok
    rw [← hr]
    by_cases hheight : c.height = 0
    · obtain ⟨hread, hbody⟩ := readClone_null h hc hheight
      rw [hread] at hok
      cases hok
      exact ⟨hbody.symm, Nat.zero_le _⟩
    · obtain ⟨hlock, hused⟩ := readClone_usable hc hheight hok
      cases hearly : c.branch.early with
      | true => exact (readClone_early h hc hearly hheight hlock hused).1 bytes hok
      | false =>
        have hnone : s.readerOpened = false := by simpa [hearly] using hguard
        exact absurd hok (readClone_late hspent hnone hc hearly hheight bytes)
  · intro i c hc hearly hused hlock
    rw [← hr]
    by_cases hheight : c.height = 0
    · obtain ⟨hread, hbody⟩ := readClone_null h hc hheight
      rw [hread, hbody]
      exact ⟨fun hlong => absurd hlong (Nat.not_lt_zero _), fun _ _ => rfl⟩
    · obtain ⟨hok, herror, hdeliver⟩ := readClone_early h hc hearly hheight hlock hused
      refine ⟨?_, hdeliver⟩
      intro hlong
      cases hread : (s.readClone i).1 with
      | error e =>
        obtain ⟨n, rfl⟩ := herror e hread
        exact ⟨n, rfl⟩
      | ok bytes =>
        obtain ⟨hbytes, hle⟩ := hok bytes hread
        rw [hbytes] at hle
        omega
  · intro i c hc hearly hdone
    rw [← hr]
    exact takeClone_done h hc hearly hdone
  · intro height l below hupTo hearly hdone
    rw [← hr]
    exact takeRequest_done h hupTo hearly hdone

/-- A body of exactly the limit is refused for the length it declares, and a clone is read past a
limit that was lowered when its bytes had been counted. -/
theorem exact_body_refused :
    let declared : Incoming := ⟨false, some 9, none, some [[1, 2]], by simp, by simp⟩
    let streamed : Incoming := ⟨false, none, none, some [[1, 2]], by simp, by simp⟩
    (run declared 2 []).readRequest.1 = .error (.payloadTooLarge 2) ∧
    ((run streamed 3 [.cloneRequest, .prefetch 2, .cap 1]).readClone 0).1 = .ok [1, 2] := by
  decide

end Daloy.App.BodyCap
