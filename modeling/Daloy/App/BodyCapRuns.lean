import Daloy.App.BodyCap

/-! # Runs of the body cap

What holds of a capped request after any limits, clones, readers and reads.

* `Sound`: the invariant of a run; `sound_step`: every operation keeps it.
* `Sound.withLevels`, `Sound.setClone`: what an operation does to the streams, and to a clone.
-/

namespace Daloy.App.BodyCap
set_option autoImplicit false

open Daloy.App.CountedStreams

def Incoming.chunks (r : Incoming) : List Chunk := r.original.getD []

/-! ## The invariant -/

/-- The stream of a branch is at its height, and the branch has handed on what it has read. -/
structure CloneSound (s : State) (c : Clone) (l : Level) (below : List Level) : Prop where
  height : c.height ≤ s.levels.length
  upTo : s.upTo c.height = l :: below
  early : l.kept.early = true
  cursor : l.IsOpen → c.branch.cursor ≤ l.log.length
  seen : l.IsOpen → l.seen ≤ c.branch.since
  handed : c.branch.handed = s.request.chunks.take c.branch.cursor
  inside : c.branch.cursor ≤ s.request.chunks.length
  unread : c.branch.used = false → c.branch.cursor = 0

/-- The request's own stream is not to be covered any more before it is read. -/
def State.Readable (s : State) : Prop := ∀ w, s.wrap = some w → w.opened = true

/-- What holds of the streams whatever the limits are. -/
structure Core (s : State) : Prop where
  streams : CountedStreams.Sound s.request.chunks s.levels
  fresh : s.touched = false → ∀ l, s.levels.head? = some l →
    l.kept.cursor = 0 ∧ l.kept.lock = .free ∧ l.kept.used = false ∧ l.kept.early = true
  readers : ∀ l ∈ s.levels, l.kept.lock = .reader → l.kept.early = true → l.IsOpen →
    l.seen ≤ l.kept.since
  clones : ∀ c ∈ s.clones, c.branch.early = true → c.height ≠ 0 → ∃ l below, CloneSound s c l below
  null : ∀ c ∈ s.clones, c.height = 0 → s.request.chunks = []

structure Base (s : State) : Prop extends Core s where
  wrappedTop : ∀ w, s.wrap = some w → w.opened = true →
    ∀ l, s.levels.head? = some l → l.kept.early = true → l.IsOpen → l.seen ≤ s.live
  levelsSince : ∀ l ∈ s.levels, s.live ≤ l.kept.since
  clonesSince : ∀ c ∈ s.clones, s.live ≤ c.branch.since
  wrapped : ∀ w, s.wrap = some w →
    if w.cachedOverLimit = true then s.request.cached ≠ none ∧ w.limit < s.request.body.length
    else s.request.cached = none ∧ w.limit = s.limit
  bare : s.request.isGetOrHead = true → s.wrap = none

structure Sound (s : State) : Prop extends Base s where
  unwrapped : s.wrap = none → s.levels = [] ∨ s.request.body.length ≤ s.limit

theorem Core.seen_le {s : State} (h : Core s) {l : Level} (hl : s.levels.head? = some l)
    (hearly : l.kept.early = true) (hopen : l.IsOpen) : l.seen ≤ s.request.body.length := by
  cases hlevels : s.levels with
  | nil => simp [hlevels] at hl
  | cons l' below =>
    rw [hlevels] at hl
    obtain rfl := Option.some.inj hl
    have hsound := h.streams
    rw [hlevels] at hsound
    have hgood := hsound.good hearly
    rw [hgood.seen hopen]
    exact total_le (hgood.log hopen)

theorem Sound.top {s : State} (h : Sound s) (hreadable : s.Readable) (l : Level)
    (hl : s.levels.head? = some l) (hearly : l.kept.early = true) (hopen : l.IsOpen) :
    l.seen ≤ s.live := by
  cases hw : s.wrap with
  | some w => exact h.wrappedTop w hw (hreadable w hw) l hl hearly hopen
  | none =>
    have hlive : s.live = s.limit := by simp [State.live, hw]
    cases h.unwrapped hw with
    | inl hnil => simp [hnil] at hl
    | inr hsmall =>
      rw [hlive]
      exact (h.seen_le hl hearly hopen).trans hsmall

/-! ## Changes of the streams -/

/-- What an operation may change of a stream. -/
structure Extends (limit : ℕ) (l l' : Level) : Prop where
  isOpen : l'.IsOpen → l.IsOpen
  log : l'.IsOpen → l.log.length ≤ l'.log.length
  seen : l'.IsOpen → l'.seen ≤ max l.seen limit
  reader : l'.kept.lock = .reader → l.kept.early = true → l.IsOpen →
    l.kept.lock = .reader ∨ l.seen ≤ limit
  early : l'.kept.early = l.kept.early
  since : l'.kept.since = l.kept.since

theorem Extends.refl (limit : ℕ) (l : Level) : Extends limit l l :=
  ⟨id, fun _ => Nat.le_refl _, fun _ => Nat.le_max_left _ _, fun hr _ _ => .inl hr, rfl, rfl⟩

theorem extends_of_grows {limit : ℕ} {levels levels' : List Level}
    (h : List.Forall₂ (Grows limit) levels levels') :
    List.Forall₂ (Extends limit) levels levels' :=
  h.imp fun _ _ hg =>
    ⟨hg.isOpen, hg.log, hg.seen, fun hr _ _ => .inl (hg.lock.symm.trans hr), hg.early, hg.since⟩

def KeepsLink (b b' : Level) : Prop :=
  b'.kept.early = b.kept.early ∧
    (b.kept.lock = .free → b'.kept.lock = .free ∧ b'.kept.cursor = b.kept.cursor)

def HeadsKeepLink (levels levels' : List Level) : Prop :=
  ∀ b b', levels.head? = some b → levels'.head? = some b' → KeepsLink b b'

theorem linked_keeps {u b b' : Level} (h : Linked u b) (hkeeps : KeepsLink b b') :
    Linked u b' := by
  intro hearly
  obtain ⟨hb, hfree, hcursor⟩ := h hearly
  obtain ⟨hfree', hsame⟩ := hkeeps.2 hfree
  exact ⟨hkeeps.1.trans hb, hfree', fun hopen => hsame.trans (hcursor hopen)⟩

theorem sound_replace {limit : ℕ} {chunks : List Chunk} {tail' : List Level} (k : ℕ)
    {levels : List Level} (hsound : CountedStreams.Sound chunks levels)
    (htail : CountedStreams.Sound chunks tail')
    (hextends : List.Forall₂ (Extends limit) (levels.drop k) tail')
    (hheads : HeadsKeepLink (levels.drop k) tail') :
    CountedStreams.Sound chunks (levels.take k ++ tail') ∧
      List.Forall₂ (Extends limit) levels (levels.take k ++ tail') ∧
      HeadsKeepLink levels (levels.take k ++ tail') := by
  induction k generalizing levels with
  | zero => exact ⟨htail, hextends, hheads⟩
  | succ k ih =>
    cases levels with
    | nil => exact ⟨htail, hextends, hheads⟩
    | cons u rest =>
      rw [List.drop_succ_cons] at hextends hheads
      rw [List.take_succ_cons, List.cons_append]
      have hkeep : HeadsKeepLink (u :: rest) (u :: (rest.take k ++ tail')) := by
        intro b b' hb hb'
        obtain rfl := Option.some.inj hb
        obtain rfl := Option.some.inj hb'
        exact ⟨rfl, fun hfree => ⟨hfree, rfl⟩⟩
      cases hsound with
      | source hdone hearly hgood =>
        rw [List.drop_nil, List.forall₂_nil_left_iff] at hextends
        subst hextends
        rw [List.take_nil, List.append_nil]
        rw [List.take_nil, List.append_nil] at hkeep
        exact ⟨.source hdone hearly hgood, .cons (Extends.refl limit u) .nil, hkeep⟩
      | counted hgood hlinked hbelow =>
        obtain ⟨hsound', hextends', hheads'⟩ := ih hbelow hextends hheads
        refine ⟨?_, .cons (Extends.refl limit u) hextends', hkeep⟩
        obtain ⟨b', below', _, _, heq⟩ := List.forall₂_cons_left_iff.mp hextends'
        rw [heq] at hsound' hheads' ⊢
        exact .counted hgood (linked_keeps hlinked (hheads' _ _ rfl rfl)) hsound'

theorem forall₂_head {R : Level → Level → Prop} {levels levels' : List Level} {l' : Level}
    (h : List.Forall₂ R levels levels') (hl' : levels'.head? = some l') :
    ∃ l, levels.head? = some l ∧ R l l' := by
  cases h with
  | nil => simp at hl'
  | cons hhead _ =>
    obtain rfl := Option.some.inj hl'
    exact ⟨_, rfl, hhead⟩

theorem forall₂_mem {R : Level → Level → Prop} {levels levels' : List Level} {l' : Level}
    (h : List.Forall₂ R levels levels') (hl' : l' ∈ levels') : ∃ l ∈ levels, R l l' := by
  induction h with
  | nil => simp at hl'
  | cons hhead _ ih =>
    cases List.mem_cons.mp hl' with
    | inl heq =>
      subst heq
      exact ⟨_, List.mem_cons_self, hhead⟩
    | inr htail =>
      obtain ⟨l, hl, hr⟩ := ih htail
      exact ⟨l, List.mem_cons_of_mem _ hl, hr⟩

theorem CloneSound.extends {s : State} {levels' : List Level} {touched : Bool} {c : Clone}
    {l : Level} {below : List Level} (h : CloneSound s c l below) (hsince : s.live ≤ c.branch.since)
    (hextends : List.Forall₂ (Extends s.live) s.levels levels') :
    ∃ l' below', CloneSound { s with levels := levels', touched := touched } c l' below' := by
  have hdrop := List.forall₂_drop (s.levels.length - c.height) hextends
  rw [show s.levels.drop (s.levels.length - c.height) = l :: below from h.upTo] at hdrop
  obtain ⟨l', below', hhead, _, heq⟩ := List.forall₂_cons_left_iff.mp hdrop
  refine ⟨l', below', ?_, ?_, hhead.early.trans h.early, ?_, ?_, h.handed, h.inside, h.unread⟩
  · show c.height ≤ levels'.length
    rw [← hextends.length_eq]
    exact h.height
  · show levels'.drop (levels'.length - c.height) = _
    rw [← hextends.length_eq]
    exact heq
  · intro hopen
    exact (h.cursor (hhead.isOpen hopen)).trans (hhead.log hopen)
  · intro hopen
    have hseen := hhead.seen hopen
    have hbefore := h.seen (hhead.isOpen hopen)
    omega

theorem Sound.withLevels {s : State} (h : Sound s) {levels' : List Level} (touched : Bool)
    (hsound : CountedStreams.Sound s.request.chunks levels')
    (hextends : List.Forall₂ (Extends s.live) s.levels levels')
    (htouched : touched = false → s.touched = false ∧
      ∀ l l', s.levels.head? = some l → levels'.head? = some l' → l'.kept = l.kept) :
    Sound { s with levels := levels', touched := touched } := by
  refine ⟨⟨⟨hsound, ?_, ?_, ?_, h.null⟩, ?_, ?_, h.clonesSince, h.wrapped, h.bare⟩, ?_⟩
  · intro hfresh l' hl'
    obtain ⟨hbefore, hkept⟩ := htouched hfresh
    obtain ⟨l, hl, _⟩ := forall₂_head hextends hl'
    rw [hkept l l' hl hl']
    exact h.fresh hbefore l hl
  · intro l' hl' hlock hearly hopen
    obtain ⟨l, hl, hext⟩ := forall₂_mem hextends hl'
    have hseen := hext.seen hopen
    have hl' := hext.early.symm.trans hearly
    have hlive := h.levelsSince l hl
    rw [hext.since]
    cases hext.reader hlock hl' (hext.isOpen hopen) with
    | inl hreader =>
      have hbefore := h.readers l hl hreader hl' (hext.isOpen hopen)
      omega
    | inr hsmall => omega
  · intro c hc hearly hheight
    obtain ⟨l, below, hclone⟩ := h.clones c hc hearly hheight
    exact hclone.extends (h.clonesSince c hc) hextends
  · intro w hw hopened l' hl' hearly hopen
    obtain ⟨l, hl, hext⟩ := forall₂_head hextends hl'
    have hseen := hext.seen hopen
    have hbefore := h.wrappedTop w hw hopened l hl (hext.early.symm.trans hearly) (hext.isOpen hopen)
    show l'.seen ≤ s.live
    omega
  · intro l' hl'
    obtain ⟨l, hl, hext⟩ := forall₂_mem hextends hl'
    rw [hext.since]
    exact h.levelsSince l hl
  · intro hnone
    refine (h.unwrapped hnone).imp_left ?_
    intro hnil
    rw [hnil, List.forall₂_nil_left_iff] at hextends
    exact hextends

theorem Sound.withUpTo {s : State} (h : Sound s) (height : ℕ) {tail' : List Level}
    (htail : CountedStreams.Sound s.request.chunks tail')
    (hextends : List.Forall₂ (Extends s.live) (s.upTo height) tail')
    (hheads : HeadsKeepLink (s.upTo height) tail')
    (htouched : s.touched = false →
      ∀ l l', (s.upTo height).head? = some l → tail'.head? = some l' → l'.kept = l.kept) :
    Sound (s.withUpTo height tail') := by
  obtain ⟨hsound, hall, _⟩ :=
    sound_replace (s.levels.length - height) h.streams htail hextends hheads
  refine h.withLevels s.touched hsound hall ?_
  intro hfresh
  refine ⟨hfresh, ?_⟩
  intro l l' hl hl'
  cases hk : s.levels.length - height with
  | zero =>
    rw [hk, List.take_zero, List.nil_append] at hl'
    refine htouched hfresh l l' ?_ hl'
    rw [State.upTo, hk]
    exact hl
  | succ k =>
    cases hlevels : s.levels with
    | nil => simp [hlevels] at hl
    | cons u rest =>
      rw [hk, hlevels, List.take_succ_cons] at hl'
      rw [hlevels] at hl
      rw [← Option.some.inj hl, ← Option.some.inj hl']

/-! ## Reads of the streams -/

/-- What a read that is not one of the kept branch does to the streams. -/
structure Quiet (limit : ℕ) (chunks : List Chunk) (levels levels' : List Level) : Prop where
  step : Step limit chunks levels levels'
  kept : ∀ l l', levels.head? = some l → levels'.head? = some l' → l'.kept = l.kept

theorem quiet_cons {limit : ℕ} {chunks : List Chunk} {l l' : Level} {below below' : List Level}
    (hstep : Step limit chunks (l :: below) (l' :: below')) (hkept : l'.kept = l.kept) :
    Quiet limit chunks (l :: below) (l' :: below') := by
  refine ⟨hstep, ?_⟩
  intro b b' hb hb'
  rw [← Option.some.inj hb, ← Option.some.inj hb']
  exact hkept

theorem quiet_drain {limit : ℕ} {chunks : List Chunk} {levels : List Level} (fuel cursor : ℕ)
    (hsound : CountedStreams.Sound chunks levels) :
    Quiet limit chunks levels (drain limit fuel cursor levels).2 := by
  cases levels with
  | nil =>
    have hnil : (drain limit fuel cursor []).2 = [] := by
      cases fuel <;> rfl
    rw [hnil]
    exact ⟨Step.refl hsound, by simp⟩
  | cons l below =>
    obtain ⟨result, l', below', heq, hdrained⟩ := @drain_drained limit chunks fuel cursor l below hsound
    rw [heq]
    exact quiet_cons hdrained.step hdrained.kept

theorem quiet_fill {limit : ℕ} {chunks : List Chunk} {levels : List Level} (cursor : ℕ)
    (hsound : CountedStreams.Sound chunks levels) :
    Quiet limit chunks levels (fill limit cursor levels) := by
  cases levels with
  | nil => exact ⟨Step.refl hsound, by simp [fill]⟩
  | cons l below =>
    obtain ⟨l', below', heq, hfilled⟩ := fill_filled hsound (.of_sound limit hsound) cursor
    rw [heq]
    exact quiet_cons hfilled.step hfilled.kept

theorem quiet_fetch {limit : ℕ} {chunks : List Chunk} {levels : List Level}
    (hsound : CountedStreams.Sound chunks levels) :
    Quiet limit chunks levels (fetch limit levels) := by
  cases levels with
  | nil => exact ⟨Step.refl hsound, by simp [fetch]⟩
  | cons l below =>
    obtain ⟨l', below', heq, hpulled⟩ := pull_pulled hsound (.of_sound limit hsound)
    show Quiet limit chunks (l :: below) (pull limit l below (next limit below))
    rw [heq]
    exact quiet_cons hpulled.step hpulled.kept

theorem sound_drop {chunks : List Chunk} {levels : List Level} (k : ℕ)
    (h : CountedStreams.Sound chunks levels) :
    levels.drop k = [] ∨ CountedStreams.Sound chunks (levels.drop k) := by
  induction k generalizing levels with
  | zero => exact .inr h
  | succ k ih =>
    cases h with
    | none hnil => exact .inl List.drop_nil
    | source _ _ _ => exact .inl (by simp)
    | counted _ _ hbelow => exact ih hbelow

theorem State.withUpTo_nil {s : State} {height : ℕ} (h : s.upTo height = []) :
    s.withUpTo height [] = s := by
  have hlength := List.drop_eq_nil_iff.mp h
  unfold State.withUpTo
  rw [List.append_nil, List.take_of_length_le hlength]

theorem Sound.upTo {s : State} (h : Sound s) {height : ℕ} {l : Level} {below : List Level}
    (hupTo : s.upTo height = l :: below) :
    CountedStreams.Sound s.request.chunks (l :: below) := by
  cases sound_drop (s.levels.length - height) h.streams with
  | inl hnil => exact absurd (hupTo.symm.trans hnil) (by simp)
  | inr hsound => exact hupTo ▸ hsound

theorem Sound.quiet {s : State} (h : Sound s) (height : ℕ) {tail' : List Level}
    (hquiet : ∀ l below, s.upTo height = l :: below →
      CountedStreams.Sound s.request.chunks (l :: below) →
      Quiet s.live s.request.chunks (l :: below) tail')
    (hempty : s.upTo height = [] → tail' = []) : Sound (s.withUpTo height tail') := by
  cases hupTo : s.upTo height with
  | nil =>
    rw [hempty hupTo, State.withUpTo_nil hupTo]
    exact h
  | cons l below =>
    have hq := hquiet l below hupTo (h.upTo hupTo)
    refine h.withUpTo height hq.step.sound ?_ ?_ ?_
    · rw [hupTo]
      exact extends_of_grows hq.step.grows
    · rw [hupTo]
      intro b b' hb hb'
      unfold KeepsLink
      rw [hq.kept b b' hb hb']
      exact ⟨rfl, fun hfree => ⟨hfree, rfl⟩⟩
    · intro _
      rw [hupTo]
      exact hq.kept

theorem sound_prefetch {s : State} (h : Sound s) (height : ℕ) : Sound (s.prefetch height) := by
  unfold State.prefetch
  split
  · refine h.quiet height ?_ ?_
    · intro l below hupTo hsound
      rw [hupTo]
      exact quiet_fetch hsound
    · intro hnil
      rw [hnil]
      rfl
  · exact h

/-! ## Changes of the clones -/

theorem mem_modify_cases {α : Type} {xs : List α} {i : ℕ} {f : α → α} {x : α}
    (h : x ∈ xs.modify i f) : x ∈ xs ∨ ∃ y, xs[i]? = some y ∧ x = f y := by
  obtain ⟨j, hj⟩ := List.mem_iff_getElem?.mp h
  rw [List.getElem?_modify] at hj
  obtain ⟨y, hy, hxy⟩ := Option.map_eq_some_iff.mp hj
  by_cases hij : i = j
  · subst hij
    rw [if_pos rfl] at hxy
    exact .inr ⟨y, hy, hxy.symm⟩
  · rw [if_neg hij] at hxy
    exact .inl (hxy ▸ List.mem_of_getElem? hy)

theorem Sound.setClone {s : State} (h : Sound s) {i : ℕ} {c : Clone} (hc : s.clones[i]? = some c)
    {branch : Branch} (hsince : branch.since = c.branch.since)
    (hclone : branch.early = true → c.height ≠ 0 →
      ∃ l below, CloneSound s { c with branch := branch } l below) :
    Sound (s.setClone i branch) := by
  have hmem : ∀ c' ∈ (s.setClone i branch).clones, c' ∈ s.clones ∨ c' = { c with branch := branch } := by
    intro c' hc'
    cases mem_modify_cases hc' with
    | inl hold => exact .inl hold
    | inr hnew =>
      obtain ⟨y, hy, heq⟩ := hnew
      rw [hc] at hy
      cases hy
      exact .inr heq
  refine ⟨⟨⟨h.streams, h.fresh, h.readers, ?_, ?_⟩, h.wrappedTop, h.levelsSince, ?_, h.wrapped,
    h.bare⟩, h.unwrapped⟩
  rotate_left
  · intro c' hc' hheight
    cases hmem c' hc' with
    | inl hold => exact h.null c' hold hheight
    | inr heq =>
      subst heq
      exact h.null c (List.mem_of_getElem? hc) hheight
  · intro c' hc'
    cases hmem c' hc' with
    | inl hold => exact h.clonesSince c' hold
    | inr heq =>
      subst heq
      show s.live ≤ branch.since
      rw [hsince]
      exact h.clonesSince c (List.mem_of_getElem? hc)
  · intro c' hc' hearly hheight
    cases hmem c' hc' with
    | inl hold =>
      obtain ⟨l, below, hold⟩ := h.clones c' hold hearly hheight
      exact ⟨l, below, hold.height, hold.upTo, hold.early, hold.cursor, hold.seen, hold.handed, hold.inside,
        hold.unread⟩
    | inr heq =>
      subst heq
      obtain ⟨l, below, hnew⟩ := hclone hearly hheight
      exact ⟨l, below, hnew.height, hnew.upTo, hnew.early, hnew.cursor, hnew.seen, hnew.handed, hnew.inside,
        hnew.unread⟩

theorem Sound.addClone {s : State} (h : Sound s) {c : Clone} (hsince : s.live ≤ c.branch.since)
    (hclone : c.branch.early = true → c.height ≠ 0 → ∃ l below, CloneSound s c l below)
    (hnull : c.height = 0 → s.request.chunks = []) :
    Sound { s with clones := s.clones ++ [c] } := by
  refine ⟨⟨⟨h.streams, h.fresh, h.readers, ?_, ?_⟩, h.wrappedTop, h.levelsSince, ?_, h.wrapped,
    h.bare⟩, h.unwrapped⟩
  rotate_left
  · intro c' hc' hheight
    rw [List.mem_append, List.mem_singleton] at hc'
    cases hc' with
    | inl hold => exact h.null c' hold hheight
    | inr heq =>
      subst heq
      exact hnull hheight
  · intro c' hc'
    rw [List.mem_append, List.mem_singleton] at hc'
    cases hc' with
    | inl hold => exact h.clonesSince c' hold
    | inr heq => exact heq ▸ hsince
  · intro c' hc' hearly hheight
    rw [List.mem_append, List.mem_singleton] at hc'
    have hex : ∃ l below, CloneSound s c' l below := by
      cases hc' with
      | inl hold => exact h.clones c' hold hearly hheight
      | inr heq =>
        subst heq
        exact hclone hearly hheight
    obtain ⟨l, below, hnew⟩ := hex
    exact ⟨l, below, hnew.height, hnew.upTo, hnew.early, hnew.cursor, hnew.seen, hnew.handed, hnew.inside,
      hnew.unread⟩

theorem sound_cloneClone {s : State} (h : Sound s) (i : ℕ) : Sound (s.cloneClone i).2 := by
  unfold State.cloneClone
  split
  · exact h
  · next c hc =>
    split
    · exact h
    · have hmem := List.mem_of_getElem? hc
      exact h.addClone (h.clonesSince c hmem) (h.clones c hmem) (h.null c hmem)

theorem sound_lock {s : State} (h : Sound s) {i : ℕ} {c : Clone} (hc : s.clones[i]? = some c)
    (lock : Lock) : Sound (s.setClone i { c.branch with lock := lock }) := by
  refine h.setClone hc rfl ?_
  intro hearly hheight
  obtain ⟨l, below, hold⟩ := h.clones c (List.mem_of_getElem? hc) hearly hheight
  exact ⟨l, below, hold.height, hold.upTo, hold.early, hold.cursor, hold.seen, hold.handed, hold.inside,
    hold.unread⟩

theorem sound_openClone {s : State} (h : Sound s) (i : ℕ) : Sound (s.openClone i).2 := by
  unfold State.openClone
  split
  · exact h
  · next c hc =>
    split
    · exact h
    · exact sound_lock h hc .reader

theorem sound_releaseClone {s : State} (h : Sound s) (i : ℕ) : Sound (s.releaseClone i) := by
  unfold State.releaseClone
  split
  · exact h
  · next c hc =>
    split
    · exact h
    · exact sound_lock h hc .free

/-! ## Reads of clones -/

theorem upTo_withUpTo {s : State} {height : ℕ} {tail' : List Level}
    (h : (s.upTo height).length = tail'.length) : (s.withUpTo height tail').upTo height = tail' := by
  have hlength : (s.levels.take (s.levels.length - height) ++ tail').length = s.levels.length := by
    rw [List.length_append, ← h, State.upTo, List.length_take, List.length_drop]
    omega
  show (s.levels.take (s.levels.length - height) ++ tail').drop
    ((s.levels.take (s.levels.length - height) ++ tail').length - height) = tail'
  rw [hlength]
  exact List.drop_left' (by rw [List.length_take]; omega)

theorem CloneSound.after {s : State} {c : Clone} {l l' : Level} {below below' : List Level}
    (h : CloneSound s c l below) (hsound : Sound (s.withUpTo c.height (l' :: below')))
    (hmem : c ∈ s.clones) (hearly : c.branch.early = true) (hheight : c.height ≠ 0)
    (hlength : (l :: below).length = (l' :: below').length) :
    CloneSound (s.withUpTo c.height (l' :: below')) c l' below' := by
  obtain ⟨l₁, below₁, hclone⟩ := hsound.clones c hmem hearly hheight
  have hupTo := hclone.upTo
  rw [upTo_withUpTo (by rw [h.upTo]; exact hlength)] at hupTo
  obtain ⟨rfl, rfl⟩ := List.cons.inj hupTo
  exact hclone

theorem sound_takeClone {s : State} (h : Sound s) (i : ℕ) : Sound (s.takeClone i).2 := by
  unfold State.takeClone
  split
  · exact h
  · next c hc =>
    split
    · exact h
    · have hmem := List.mem_of_getElem? hc
      have hquiet : Sound (s.withUpTo c.height
          (fill s.live c.branch.cursor (s.upTo c.height))) := by
        refine h.quiet c.height ?_ ?_
        · intro l below hupTo hsound
          rw [hupTo]
          exact quiet_fill c.branch.cursor hsound
        · intro hnil
          rw [hnil]
          rfl
      refine hquiet.setClone hc ?_ ?_
      · show (c.branch.hand _).since = _
        unfold Branch.hand
        split <;> rfl
      · intro hearly hheight
        have hearly' : c.branch.early = true := by
          unfold Branch.hand at hearly
          split at hearly <;> exact hearly
        obtain ⟨l, below, hold⟩ := h.clones c hmem hearly' hheight
        have hsound := h.upTo hold.upTo
        rw [hold.upTo] at hquiet ⊢
        obtain ⟨l', below', hfill, hfilled⟩ :=
          fill_filled hsound (.of_sound s.live hsound) c.branch.cursor
        rw [hfill] at hquiet ⊢
        have hnew := hold.after hquiet hmem hearly' hheight hfilled.step.grows.length_eq
        have hreads := read_reads (hfilled.step.sound.good hnew.early)
          (hfilled.further hold.early hold.cursor)
        refine ⟨l', below', ?_⟩
        show CloneSound (s.withUpTo c.height (l' :: below'))
          { c with branch := { c.branch.hand (l'.read c.branch.cursor) with used := true } } l' below'
        cases hgot : l'.read c.branch.cursor with
        | chunk bytes =>
          rw [hgot] at hreads
          obtain ⟨hbytes, hlt, hopen⟩ := hreads
          refine ⟨hnew.height, hnew.upTo, hnew.early, fun _ => hlt, hnew.seen, ?_,
            (List.getElem?_eq_some_iff.mp hbytes).1, fun hused => by simp at hused⟩
          show c.branch.handed ++ [bytes] = s.request.chunks.take (c.branch.cursor + 1)
          rw [List.take_add_one, hold.handed, hbytes]
          rfl
        | done =>
          exact ⟨hnew.height, hnew.upTo, hnew.early, hnew.cursor, hnew.seen, hnew.handed, hnew.inside,
            fun hused => by simp at hused⟩
        | failed e =>
          exact ⟨hnew.height, hnew.upTo, hnew.early, hnew.cursor, hnew.seen, hnew.handed, hnew.inside,
            fun hused => by simp at hused⟩

theorem drain_clone {s : State} (h : Sound s) {c : Clone} {l : Level} {below : List Level}
    (hclone : CloneSound s c l below) :
    ∃ result l' below', drain s.live s.fuel c.branch.cursor (l :: below) = (result, l' :: below') ∧
      Drained s.live s.request.chunks s.fuel c.branch.cursor l below result l' below' ∧
      Ends s.request.chunks c.branch.cursor l' result := by
  obtain ⟨result, l', below', heq, hdrained⟩ :=
    @drain_drained s.live s.request.chunks s.fuel c.branch.cursor l below (h.upTo hclone.upTo)
  refine ⟨result, l', below', heq, hdrained,
    hdrained.ends hclone.early hclone.cursor (Nat.succ_pos _) ?_⟩
  show s.request.chunks.length < s.request.chunks.length + 1 + c.branch.cursor
  omega

theorem sound_readClone {s : State} (h : Sound s) (i : ℕ) : Sound (s.readClone i).2 := by
  unfold State.readClone
  split
  · exact h
  · next c hc =>
    split
    · exact h
    · split
      · exact h
      · have hmem := List.mem_of_getElem? hc
        have hquiet : Sound (s.withUpTo c.height
            (drain s.live s.fuel c.branch.cursor (s.upTo c.height)).2) := by
          refine h.quiet c.height ?_ ?_
          · intro l below hupTo hsound
            rw [hupTo]
            exact quiet_drain s.fuel c.branch.cursor hsound
          · intro hnil
            rw [hnil]
            rfl
        refine hquiet.setClone hc ?_ ?_
        · unfold State.spend
          split <;> rfl
        · intro hearly hheight
          have hearly' : c.branch.early = true := by
            unfold State.spend at hearly
            split at hearly <;> exact hearly
          obtain ⟨l, below, hold⟩ := h.clones c hmem hearly' hheight
          obtain ⟨result, l', below', heq, hdrained, hends⟩ := drain_clone h hold
          rw [hold.upTo, heq] at hquiet ⊢
          have hnew := hold.after hquiet hmem hearly' hheight hdrained.step.grows.length_eq
          refine ⟨l', below', ?_⟩
          cases result with
          | error e =>
            exact ⟨hnew.height, hnew.upTo, hnew.early, hnew.cursor, hnew.seen, hnew.handed, hnew.inside,
              fun hused => by simp [State.spend] at hused⟩
          | ok cs =>
            obtain ⟨rfl, hopen, hlog⟩ := hends
            have hinside := hold.inside
            have hend : c.branch.cursor + (s.request.chunks.drop c.branch.cursor).length =
                s.request.chunks.length := by
              rw [List.length_drop]
              omega
            refine ⟨hnew.height, hnew.upTo, hnew.early, ?_, hnew.seen, ?_, hend.le,
              fun hused => by simp [State.spend] at hused⟩
            · intro _
              rw [hlog]
              exact hend.le
            · show c.branch.handed ++ s.request.chunks.drop c.branch.cursor =
                s.request.chunks.take (c.branch.cursor + (s.request.chunks.drop c.branch.cursor).length)
              rw [hend, List.take_length, hold.handed, List.take_append_drop]

/-! ## A counting stream on top -/

theorem good_new {chunks : List Chunk} (early : Bool) (limit : ℕ) :
    Level.Good chunks ⟨0, false, [], none, newBranch early limit⟩ :=
  ⟨fun _ he => by simp at he, fun _ => List.nil_prefix, fun _ => rfl, fun he => by simp at he,
    fun _ => Nat.le_refl 0, fun _ => rfl⟩

theorem Core.cover {s : State} (h : Core s) (limit : ℕ) :
    Core { s with levels := s.cover limit s.levels } := by
  unfold State.cover
  split
  · next hnil =>
    have hs : { s with levels := [] } = s := by rw [← hnil]
    rw [hs]
    exact h
  · next l below hlevels =>
    have hsound := h.streams
    rw [hlevels] at hsound
    refine ⟨.counted (fun _ => good_new _ limit) ?_ hsound, ?_, ?_, ?_, h.null⟩
    · intro hearly
      have hfresh : s.touched = false := by simpa [newBranch] using hearly
      obtain ⟨hcursor, hlock, _, hl⟩ := h.fresh hfresh l (by rw [hlevels]; rfl)
      exact ⟨hl, hlock, fun _ => hcursor⟩
    · intro hfresh l' hl'
      obtain rfl := Option.some.inj hl'
      exact ⟨rfl, rfl, rfl, by simpa [newBranch] using hfresh⟩
    · intro l' hl' hlock
      cases List.mem_cons.mp hl' with
      | inl heq =>
        subst heq
        simp [newBranch] at hlock
      | inr hold => exact h.readers l' (by rw [hlevels]; exact hold) hlock
    · intro c hc hearly hheight
      obtain ⟨l', below', hclone⟩ := h.clones c hc hearly hheight
      have hle := hclone.height
      rw [hlevels] at hle
      refine ⟨l', below', ?_, ?_, hclone.early, hclone.cursor, hclone.seen, hclone.handed,
        hclone.inside, hclone.unread⟩
      · exact hle.trans (Nat.le_succ _)
      · have hupTo := hclone.upTo
        unfold State.upTo at hupTo ⊢
        rw [hlevels] at hupTo
        show List.drop ((l :: below).length + 1 - c.height) _ = _
        rw [Nat.sub_add_comm hle, List.drop_succ_cons]
        exact hupTo

theorem cover_head {s : State} {limit : ℕ} {l : Level}
    (h : (s.cover limit s.levels).head? = some l) : l.seen = 0 := by
  unfold State.cover at h
  split at h
  · simp at h
  · rw [← Option.some.inj h]

theorem mem_cover {s : State} {limit : ℕ} {l : Level} (h : l ∈ s.cover limit s.levels) :
    l ∈ s.levels ∨ l.kept.since = limit := by
  unfold State.cover at h
  split at h
  · simp at h
  · next hlevels =>
    rw [hlevels]
    cases List.mem_cons.mp h with
    | inl heq =>
      subst heq
      exact .inr rfl
    | inr hold => exact .inl hold

/-- What making the stream that is read leaves as it was. -/
structure Opened (s s' : State) : Prop where
  sound : Sound s'
  readable : s'.Readable
  request : s'.request = s.request
  limit : s'.limit = s.limit
  touched : s'.touched = s.touched
  clones : s'.clones = s.clones
  wrap : ∀ w, s'.wrap = some w → w.cachedOverLimit = false ∧
    ¬ s.request.declared.any (fun n => (w.limit : ℚ) < n)

theorem sound_stream {s s' : State} (h : Sound s) (hs' : s.stream = .ok s') : Opened s s' := by
  unfold State.stream at hs'
  split at hs'
  · next hnone =>
    cases hs'
    refine ⟨h, ?_, rfl, rfl, rfl, rfl, ?_⟩
    · intro w hw
      rw [hnone] at hw
      cases hw
    · intro w hw
      rw [hnone] at hw
      cases hw
  · next w hw =>
    split at hs'
    · cases hs'
    · next hcached =>
      split at hs'
      · cases hs'
      · next hdeclared =>
        have hlive : s.live = w.limit := by rw [State.live, hw]; rfl
        split at hs'
        · next hopened =>
          cases hs'
          refine ⟨h, ?_, rfl, rfl, rfl, rfl, ?_⟩
          · intro w' hw'
            rw [hw] at hw'
            cases hw'
            exact hopened
          · intro w' hw'
            rw [hw] at hw'
            cases hw'
            exact ⟨by simpa using hcached, hdeclared⟩
        · cases hs'
          have hcore := h.toCore.cover w.limit
          refine ⟨⟨⟨⟨hcore.streams, hcore.fresh, hcore.readers, ?_, h.null⟩, ?_, ?_, ?_, ?_, ?_⟩, ?_⟩, ?_, rfl,
            rfl, rfl, rfl, ?_⟩
          · intro c hc hearly hheight
            obtain ⟨l, below, hclone⟩ := hcore.clones c hc hearly hheight
            exact ⟨l, below, hclone.height, hclone.upTo, hclone.early, hclone.cursor, hclone.seen,
              hclone.handed, hclone.inside, hclone.unread⟩
          · intro _ _ _ l hl _ _
            rw [cover_head hl]
            exact Nat.zero_le _
          · intro l hl
            show w.limit ≤ _
            cases mem_cover hl with
            | inl hold =>
              rw [← hlive]
              exact h.levelsSince l hold
            | inr hnew => rw [hnew]
          · intro c hc
            show w.limit ≤ _
            rw [← hlive]
            exact h.clonesSince c hc
          · intro w' hw'
            cases hw'
            exact h.wrapped w hw
          · intro hbare
            have hnone := h.bare hbare
            rw [hw] at hnone
            cases hnone
          · intro hnone
            cases hnone
          · intro w' hw'
            cases hw'
            rfl
          · intro w' hw'
            cases hw'
            exact ⟨by simpa using hcached, hdeclared⟩

/-! ## Reads of the request -/

theorem sound_kept {chunks : List Chunk} {l : Level} {below : List Level} {kept : Branch}
    (h : CountedStreams.Sound chunks (l :: below)) (hearly : kept.early = l.kept.early)
    (hgood : l.Good chunks → l.kept.early = true → ({ l with kept := kept } : Level).Good chunks) :
    CountedStreams.Sound chunks ({ l with kept := kept } :: below) := by
  cases h with
  | source hdone hl hsource => exact .source hdone (hearly.trans hl) (hgood hsource hl)
  | counted hcounted hlinked hbelow =>
    refine .counted ?_ ?_ hbelow
    · intro hk
      have hl := hearly.symm.trans hk
      exact hgood (hcounted hl) hl
    · intro hk
      exact hlinked (hearly.symm.trans hk)

theorem good_kept {chunks : List Chunk} {l : Level} {kept : Branch} (h : l.Good chunks)
    (hcursor : l.IsOpen → kept.cursor ≤ l.log.length)
    (hhanded : l.IsOpen → kept.handed = chunks.take kept.cursor) :
    ({ l with kept := kept } : Level).Good chunks :=
  ⟨h.failed, h.log, h.seen, h.done, hcursor, hhanded⟩

theorem Sound.setTop {s : State} (h : Sound s) {l l' : Level} {below below' : List Level}
    {kept : Branch} (hlevels : s.levels = l :: below)
    (hstep : Step s.live s.request.chunks (l :: below) (l' :: below'))
    (hearly : kept.early = l'.kept.early) (hsince : kept.since = l'.kept.since)
    (hlock : kept.lock ≠ .reader)
    (hgood : l'.Good s.request.chunks → l'.kept.early = true →
      ({ l' with kept := kept } : Level).Good s.request.chunks) :
    Sound { s with levels := { l' with kept := kept } :: below', touched := true } := by
  refine h.withLevels true (sound_kept hstep.sound hearly hgood) ?_ (by simp)
  obtain ⟨hhead, htail⟩ := List.forall₂_cons.mp (extends_of_grows hstep.grows)
  rw [hlevels]
  refine .cons ?_ htail
  exact ⟨hhead.isOpen, hhead.log, hhead.seen, fun hr _ _ => absurd hr hlock,
    hearly.trans hhead.early, hsince.trans hhead.since⟩

theorem sound_readRequest {s : State} (h : Sound s) : Sound s.readRequest.2 := by
  unfold State.readRequest
  split
  · exact h
  · next s₁ hs₁ =>
    have hopened := sound_stream h hs₁
    have h₁ := hopened.sound
    split
    · exact h₁
    · next l below hlevels =>
      split
      · exact h₁
      · have hsound := h₁.streams
        rw [hlevels] at hsound ⊢
        obtain ⟨result, l', below', heq, hdrained⟩ :=
          @drain_drained s₁.live s₁.request.chunks s₁.fuel l.kept.cursor l below hsound
        rw [heq]
        refine h₁.setTop hlevels hdrained.step ?_ ?_ ?_ ?_
        · unfold State.spend
          split <;> rfl
        · unfold State.spend
          split <;> rfl
        · unfold State.spend
          split <;> simp
        · intro hgood hearly
          rw [hdrained.kept] at hearly
          have hends := hdrained.ends hearly (hsound.good hearly).cursor (Nat.succ_pos _) (by
            show s₁.request.chunks.length < s₁.request.chunks.length + 1 + l.kept.cursor
            omega)
          cases result with
          | error e => exact good_kept hgood hgood.cursor hgood.handed
          | ok cs =>
            obtain ⟨rfl, hopen, hlog⟩ := hends
            have hinside := hgood.cursor hopen
            rw [hlog, hdrained.kept] at hinside
            have hend : l.kept.cursor + (s₁.request.chunks.drop l.kept.cursor).length =
                s₁.request.chunks.length := by
              rw [List.length_drop]
              omega
            refine good_kept hgood ?_ ?_
            · intro _
              rw [hlog]
              unfold State.spend
              rw [hdrained.kept]
              exact hend.le
            · intro _
              unfold State.spend
              rw [hdrained.kept]
              dsimp only
              have hhanded := hgood.handed hopen
              rw [hdrained.kept] at hhanded
              rw [hend, List.take_length, hhanded, List.take_append_drop]

theorem Opened.live {s s' : State} (h : Opened s s') : s'.live = s'.limit := by
  unfold State.live
  cases hw : s'.wrap with
  | none => rfl
  | some w =>
    have hwrapped := h.sound.wrapped w hw
    rw [if_neg (by simp [(h.wrap w hw).1])] at hwrapped
    exact hwrapped.2

theorem sound_cloneRequest {s : State} (h : Sound s) : Sound s.cloneRequest.2 := by
  unfold State.cloneRequest
  split
  · exact h
  · next s₁ hs₁ =>
    have hopened := sound_stream h hs₁
    have h₁ := hopened.sound
    split
    · next hnil =>
      refine h₁.addClone hopened.live.le (fun _ hheight => absurd rfl hheight) ?_
      intro _
      have hsound := h₁.streams
      rw [hnil] at hsound
      cases hsound with
      | none hchunks => exact hchunks
    · next l below hlevels =>
      split
      · exact h₁
      · refine h₁.addClone hopened.live.le ?_ (fun hheight => by simp [hlevels] at hheight)
        intro hearly _
        have hfresh : s₁.touched = false := by simpa [newBranch] using hearly
        obtain ⟨hcursor, _, _, hl⟩ := h₁.fresh hfresh l (by rw [hlevels]; rfl)
        refine ⟨l, below, Nat.le_refl _, ?_, hl, ?_, ?_, ?_, ?_, fun _ => hcursor⟩
        · unfold State.upTo
          rw [Nat.sub_self]
          exact hlevels
        · intro _
          show l.kept.cursor ≤ _
          rw [hcursor]
          exact Nat.zero_le _
        · intro hopen
          exact (h₁.top hopened.readable l (by rw [hlevels]; rfl) hl hopen).trans hopened.live.le
        · show [] = List.take l.kept.cursor _
          rw [hcursor]
          rfl
        · show l.kept.cursor ≤ _
          rw [hcursor]
          exact Nat.zero_le _

theorem Sound.openReader {s : State} (h : Sound s) : Sound { s with readerOpened := true } := by
  refine ⟨⟨⟨h.streams, h.fresh, h.readers, ?_, h.null⟩, h.wrappedTop, h.levelsSince, h.clonesSince,
    h.wrapped, h.bare⟩, h.unwrapped⟩
  intro c hc hearly hheight
  obtain ⟨l, below, hold⟩ := h.clones c hc hearly hheight
  exact ⟨l, below, hold.height, hold.upTo, hold.early, hold.cursor, hold.seen, hold.handed,
    hold.inside, hold.unread⟩

theorem sound_openRequest {s : State} (h : Sound s) : Sound s.openRequest.2 := by
  unfold State.openRequest
  split
  · exact h
  · next s₁ hs₁ =>
    have hopened := sound_stream h hs₁
    have h₁ := hopened.sound
    split
    · exact h₁
    · next l below hlevels =>
      split
      · exact h₁
      · have hsound := h₁.streams
        rw [hlevels] at hsound
        unfold State.setTopLock
        rw [hlevels]
        refine Sound.openReader (s := { s₁ with
          levels := { l with kept := { l.kept with lock := .reader } } :: below, touched := true }) ?_
        refine h₁.withLevels true (sound_kept hsound rfl ?_) ?_ (by simp)
        · intro hgood _
          exact good_kept hgood hgood.cursor hgood.handed
        · rw [hlevels]
          refine .cons ⟨id, fun _ => Nat.le_refl _, fun _ => Nat.le_max_left _ _, ?_, rfl, rfl⟩ ?_
          · intro _ hearly hopen
            exact .inr (h₁.top hopened.readable l (by rw [hlevels]; rfl) hearly hopen)
          · exact List.forall₂_same.mpr fun l _ => Extends.refl _ l

/-! ## Readers of the request -/

theorem all_free {chunks : List Chunk} {levels : List Level}
    (h : CountedStreams.Sound chunks levels)
    (hhead : ∀ l, levels.head? = some l → l.kept.lock = .free ∧ l.kept.early = true) :
    ∀ l ∈ levels, l.kept.lock = .free := by
  induction h with
  | none _ => simp
  | source _ _ _ =>
    intro l hl
    rw [List.mem_singleton] at hl
    subst hl
    exact (hhead l rfl).1
  | counted _ hlinked _ ih =>
    obtain ⟨hfree, hearly⟩ := hhead _ rfl
    obtain ⟨hb, hlock, _⟩ := hlinked hearly
    intro l hl
    cases List.mem_cons.mp hl with
    | inl heq =>
      subst heq
      exact hfree
    | inr htail =>
      refine ih ?_ l htail
      intro b hb'
      obtain rfl := Option.some.inj hb'
      exact ⟨hlock, hb⟩

theorem Sound.touched {s : State} (h : Sound s) {height : ℕ} {l : Level} {below : List Level}
    (hupTo : s.upTo height = l :: below) (hlock : l.kept.lock = .reader) : s.touched = true := by
  by_contra hnot
  have hfresh : s.touched = false := by simpa using hnot
  have hmem : l ∈ s.levels := List.mem_of_mem_drop (i := s.levels.length - height) (by
    rw [show s.levels.drop (s.levels.length - height) = l :: below from hupTo]
    exact List.mem_cons_self)
  have hfree := all_free h.streams (fun l' hl' =>
    ⟨(h.fresh hfresh l' hl').2.1, (h.fresh hfresh l' hl').2.2.2⟩) l hmem
  rw [hfree] at hlock
  cases hlock

theorem Sound.setReader {s : State} (h : Sound s) {height : ℕ} {l l' : Level}
    {below below' : List Level} {kept : Branch} (hupTo : s.upTo height = l :: below)
    (hlock : l.kept.lock = .reader)
    (hstep : Step s.live s.request.chunks (l :: below) (l' :: below'))
    (hearly : kept.early = l'.kept.early) (hsince : kept.since = l'.kept.since)
    (hcursor : kept.cursor = l'.kept.cursor) (hhanded : kept.handed = l'.kept.handed) :
    Sound (s.withUpTo height ({ l' with kept := kept } :: below')) := by
  refine h.withUpTo height (sound_kept hstep.sound hearly ?_) ?_ ?_ ?_
  · intro hgood _
    refine good_kept hgood ?_ ?_
    · rw [hcursor]
      exact hgood.cursor
    · rw [hcursor, hhanded]
      exact hgood.handed
  · obtain ⟨hhead, htail⟩ := List.forall₂_cons.mp (extends_of_grows hstep.grows)
    rw [hupTo]
    exact .cons ⟨hhead.isOpen, hhead.log, hhead.seen, fun _ _ _ => .inl hlock,
      hearly.trans hhead.early, hsince.trans hhead.since⟩ htail
  · rw [hupTo]
    intro b b' hb hb'
    obtain rfl := Option.some.inj hb
    obtain rfl := Option.some.inj hb'
    refine ⟨hearly.trans (head_grows hstep.grows).early, ?_⟩
    intro hfree
    rw [hlock] at hfree
    cases hfree
  · intro hfresh
    rw [h.touched hupTo hlock] at hfresh
    cases hfresh

theorem sound_takeRequest {s : State} (h : Sound s) (height : ℕ) :
    Sound (s.takeRequest height).2 := by
  unfold State.takeRequest
  split
  · exact h
  · next l below hupTo =>
    split
    · exact h
    · next hlock =>
      rw [not_not] at hlock
      obtain ⟨got, l', below', heq, hnexted⟩ :=
        @next_nexted s.live s.request.chunks (l :: below) (h.upTo hupTo)
      rw [heq]
      exact h.setReader hupTo hlock hnexted.step rfl rfl rfl rfl

theorem sound_releaseRequest {s : State} (h : Sound s) (height : ℕ) :
    Sound (s.releaseRequest height) := by
  unfold State.releaseRequest
  split
  · exact h
  · next l below hupTo =>
    split
    · exact h
    · next hlock =>
      rw [not_not] at hlock
      exact h.setReader hupTo hlock (Step.refl (h.upTo hupTo)) rfl rfl rfl rfl

/-! ## Limits -/

theorem sound_raise {chunks : List Chunk} {levels : List Level} (limit : ℕ)
    (h : CountedStreams.Sound chunks levels) :
    CountedStreams.Sound chunks (levels.map fun l => { l with kept := raise limit l.kept }) := by
  induction h with
  | none hnil => exact .none hnil
  | source hdone hearly hgood =>
    exact .source hdone hearly (good_kept hgood hgood.cursor hgood.handed)
  | counted hgood hlinked _ ih =>
    refine .counted ?_ hlinked ih
    intro hearly
    have hl := hgood hearly
    exact good_kept hl hl.cursor hl.handed

theorem mem_enforce {s : State} {limit : ℕ} {l : Level} (h : l ∈ (s.enforce limit).levels) :
    ∃ l₀ ∈ s.levels, l = { l₀ with kept := raise limit l₀.kept } := by
  obtain ⟨l₀, hl₀, rfl⟩ := List.mem_map.mp h
  exact ⟨l₀, hl₀, rfl⟩

theorem head_enforce {s : State} {limit : ℕ} {l : Level}
    (h : (s.enforce limit).levels.head? = some l) : ∃ l₀, s.levels.head? = some l₀ ∧
      l = { l₀ with kept := raise limit l₀.kept } := by
  rw [show (s.enforce limit).levels = s.levels.map _ from rfl, List.head?_map,
    Option.map_eq_some_iff] at h
  obtain ⟨l₀, hl₀, rfl⟩ := h
  exact ⟨l₀, hl₀, rfl⟩

theorem core_enforce {s : State} (h : Core s) (limit : ℕ) : Core (s.enforce limit) := by
  refine ⟨sound_raise limit h.streams, ?_, ?_, ?_, ?_⟩
  · intro hfresh l hl
    obtain ⟨l₀, hl₀, rfl⟩ := head_enforce hl
    exact h.fresh hfresh l₀ hl₀
  · intro l hl hlock hearly hopen
    obtain ⟨l₀, hl₀, rfl⟩ := mem_enforce hl
    exact (h.readers l₀ hl₀ hlock hearly hopen).trans (Nat.le_max_left _ _)
  · intro c hc hearly hheight
    obtain ⟨c₀, hc₀, rfl⟩ := List.mem_map.mp hc
    obtain ⟨l, below, hclone⟩ := h.clones c₀ hc₀ hearly hheight
    refine ⟨{ l with kept := raise limit l.kept },
      below.map fun l => { l with kept := raise limit l.kept }, ?_, ?_, hclone.early, hclone.cursor,
      ?_, hclone.handed, hclone.inside, hclone.unread⟩
    · show c₀.height ≤ (s.levels.map _).length
      rw [List.length_map]
      exact hclone.height
    · show (s.levels.map _).drop ((s.levels.map _).length - c₀.height) = _
      rw [List.length_map, ← List.map_drop,
        show s.levels.drop (s.levels.length - c₀.height) = l :: below from hclone.upTo]
      rfl
    · intro hopen
      exact (hclone.seen hopen).trans (Nat.le_max_left _ _)
  · intro c hc hheight
    obtain ⟨c₀, hc₀, rfl⟩ := List.mem_map.mp hc
    exact h.null c₀ hc₀ hheight

theorem levels_enforce {s : State} {limit : ℕ} {l : Level} (h : l ∈ (s.enforce limit).levels) :
    limit ≤ l.kept.since := by
  obtain ⟨l₀, _, rfl⟩ := mem_enforce h
  exact Nat.le_max_right _ _

theorem clones_enforce {s : State} {limit : ℕ} {c : Clone} (h : c ∈ (s.enforce limit).clones) :
    limit ≤ c.branch.since := by
  obtain ⟨c₀, _, rfl⟩ := List.mem_map.mp h
  exact Nat.le_max_right _ _

theorem Base.enforce {s : State} (h : Base s) {limit : ℕ}
    (hsmall : s.wrap = none → s.request.body.length ≤ limit)
    (hrefused : ∀ w, s.wrap = some w → w.cachedOverLimit = true) : Sound (s.enforce limit) := by
  have hcore := core_enforce h.toCore limit
  have hlive : (s.enforce limit).live = s.live ∨ (s.enforce limit).live = limit := by
    unfold State.live
    cases hw : s.wrap with
    | none => exact .inr (by simp [State.enforce, hw])
    | some w => exact .inl (by simp [State.enforce, hw])
  refine ⟨⟨hcore, ?_, ?_, ?_, ?_, h.bare⟩, fun hnone => .inr (hsmall hnone)⟩
  · intro w hw hopened l hl hearly hopen
    have hw' : s.wrap = some w := hw
    obtain ⟨l₀, hl₀, rfl⟩ := head_enforce hl
    have hlive' : (s.enforce limit).live = s.live := by simp [State.live, State.enforce, hw']
    rw [hlive']
    exact h.wrappedTop w hw' hopened l₀ hl₀ hearly hopen
  · intro l hl
    cases hlive with
    | inl hsame =>
      obtain ⟨l₀, hl₀, rfl⟩ := mem_enforce hl
      rw [hsame]
      exact (h.levelsSince l₀ hl₀).trans (Nat.le_max_left _ _)
    | inr hnew =>
      rw [hnew]
      exact levels_enforce hl
  · intro c hc
    cases hlive with
    | inl hsame =>
      obtain ⟨c₀, hc₀, rfl⟩ := List.mem_map.mp hc
      rw [hsame]
      exact (h.clonesSince c₀ hc₀).trans (Nat.le_max_left _ _)
    | inr hnew =>
      rw [hnew]
      exact clones_enforce hc
  · intro w hw
    have hwrapped := h.wrapped w hw
    rw [if_pos (hrefused w hw)] at hwrapped ⊢
    exact hwrapped

theorem core_wrap {s : State} (h : Core s) (wrap : Option Wrap) :
    Core { s with wrap := wrap } := by
  refine ⟨h.streams, h.fresh, h.readers, ?_, h.null⟩
  intro c hc hearly hheight
  obtain ⟨l, below, hclone⟩ := h.clones c hc hearly hheight
  exact ⟨l, below, hclone.height, hclone.upTo, hclone.early, hclone.cursor, hclone.seen,
    hclone.handed, hclone.inside, hclone.unread⟩

theorem sound_wrap {s : State} (h : Base s) {limit : ℕ}
    (hbare : s.request.isGetOrHead = false)
    (hcached : s.request.cached.any (·.length ≤ limit) = false) :
    Sound { s.enforce limit with
      wrap := some ⟨limit, s.request.cached.any (limit < ·.length), false⟩ } := by
  have hcore := core_wrap (core_enforce h.toCore limit)
    (some ⟨limit, s.request.cached.any (limit < ·.length), false⟩)
  refine ⟨⟨hcore, ?_, fun l hl => levels_enforce hl, fun c hc => clones_enforce hc, ?_, ?_⟩, ?_⟩
  · intro w hw hopened
    cases hw
    cases hopened
  · intro w hw
    cases hw
    cases hbytes : s.request.cached with
    | none => exact ⟨hbytes, rfl⟩
    | some bytes =>
      rw [hbytes] at hcached
      have hlong : limit < bytes.length := by simpa using hcached
      rw [if_pos (by simpa using hlong)]
      refine ⟨by simp [State.enforce, hbytes], ?_⟩
      show limit < s.request.body.length
      rw [Incoming.body, s.request.cached_original bytes hbytes]
      exact hlong
  · intro hget
    exact absurd (hbare.symm.trans hget) (by simp)
  · intro hnone
    cases hnone

theorem sound_retune {s : State} (h : Base s) {limit : ℕ} {w : Wrap} (hw : s.wrap = some w)
    (hcached : s.request.cached = none) :
    Sound { s.enforce limit with
      wrap := some { w with limit := limit }
      levels := if limit < w.limit ∧ w.opened then
        (s.enforce limit).cover limit (s.enforce limit).levels else (s.enforce limit).levels } := by
  have hcore := core_enforce h.toCore limit
  have hwrapped := h.wrapped w hw
  have hopen : w.cachedOverLimit = false := by
    by_contra hover
    rw [if_pos (by simpa using hover)] at hwrapped
    exact hwrapped.1 hcached
  rw [if_neg (by simp [hopen])] at hwrapped
  have hlive : s.live = w.limit := by simp [State.live, hw]
  refine ⟨⟨?_, ?_, ?_, fun c hc => clones_enforce hc, ?_, ?_⟩, ?_⟩
  · split
    · exact core_wrap (hcore.cover limit) _
    · exact core_wrap hcore _
  · intro w' hw' hopened l hl hearly hseen
    cases hw'
    show l.seen ≤ limit
    by_cases hlower : limit < w.limit ∧ w.opened = true
    · rw [if_pos hlower] at hl
      rw [cover_head hl]
      exact Nat.zero_le _
    · rw [if_neg hlower] at hl
      obtain ⟨l₀, hl₀, rfl⟩ := head_enforce hl
      have htop := h.wrappedTop w hw hopened l₀ hl₀ hearly hseen
      have hraise : ¬ limit < w.limit := fun hlt => hlower ⟨hlt, hopened⟩
      show l₀.seen ≤ limit
      omega
  · intro l hl
    show limit ≤ l.kept.since
    split at hl
    · cases mem_cover hl with
      | inl hold => exact levels_enforce hold
      | inr hnew => rw [hnew]
    · exact levels_enforce hl
  · intro w' hw'
    cases hw'
    rw [if_neg (by simp [hopen])]
    exact ⟨hcached, rfl⟩
  · intro hget
    have hnone := h.bare hget
    rw [hw] at hnone
    cases hnone
  · intro hnone
    cases hnone

theorem sound_capRequestBody {s : State} (h : Base s) (limit : ℕ) :
    Sound (s.capRequestBody limit) := by
  unfold State.capRequestBody
  dsimp only
  split
  · next hget =>
    have hget' : s.request.isGetOrHead = true := hget
    refine h.enforce ?_ ?_
    · intro _
      rw [Incoming.body, s.request.no_body hget']
      exact Nat.zero_le _
    · intro w hw
      rw [h.bare hget'] at hw
      cases hw
  · next hget =>
    split
    · next hany =>
      have hany' : s.request.cached.any (·.length ≤ limit) = true := hany
      cases hbytes : s.request.cached with
      | none => simp [hbytes] at hany'
      | some bytes =>
        rw [hbytes] at hany'
        refine h.enforce ?_ ?_
        · intro _
          rw [Incoming.body, s.request.cached_original bytes hbytes]
          simpa using hany'
        · intro w hw
          by_contra hover
          have hwrapped := h.wrapped w hw
          rw [if_neg hover, hbytes] at hwrapped
          cases hwrapped.1
    · next hany =>
      have hget' : s.request.isGetOrHead = false := Bool.eq_false_iff.mpr hget
      have hany' : s.request.cached.any (·.length ≤ limit) = false := Bool.eq_false_iff.mpr hany
      split
      · next w hw hcached => exact sound_retune h hw hcached
      · next hmatch =>
        split
        · next hnull =>
          refine h.enforce ?_ ?_
          · intro _
            have horiginal : s.request.original = none := hnull.2.2
            rw [Incoming.body, horiginal]
            exact Nat.zero_le _
          · intro w hw
            exact absurd hnull.2.1 (fun hnone => hmatch w hw hnone)
        · exact sound_wrap h hget' hany'

theorem base_fresh (r : Incoming) (limit : ℕ) : Base (fresh r limit) := by
  have hlevels : (fresh r limit).levels = [] ∧ r.chunks = [] ∨
      (fresh r limit).levels = [sourceLevel limit r.chunks] := by
    cases horiginal : r.original with
    | none => exact .inl (by simp [fresh, horiginal, Incoming.chunks])
    | some chunks => exact .inr (by simp [fresh, horiginal, Incoming.chunks])
  have hgood : (sourceLevel limit r.chunks).Good r.chunks :=
    ⟨fun e he => by simp [sourceLevel] at he, fun _ => List.prefix_refl _, fun _ => rfl,
      fun _ => rfl, fun _ => Nat.zero_le _, fun _ => rfl⟩
  have hmem : ∀ l ∈ (fresh r limit).levels, l = sourceLevel limit r.chunks := by
    intro l hl
    cases hlevels with
    | inl hnil => simp [hnil.1] at hl
    | inr hsource => simpa [hsource] using hl
  refine ⟨⟨?_, ?_, ?_, ?_, ?_⟩, ?_, ?_, ?_, ?_, fun _ => rfl⟩
  · show CountedStreams.Sound r.chunks _
    cases hlevels with
    | inl hnil =>
      rw [hnil.1]
      exact .none hnil.2
    | inr hsource =>
      rw [hsource]
      exact .source rfl rfl hgood
  · intro _ l hl
    rw [hmem l (List.mem_of_head? hl)]
    exact ⟨rfl, rfl, rfl, rfl⟩
  · intro l hl hlock
    rw [hmem l hl] at hlock
    cases hlock
  · simp [fresh]
  · simp [fresh]
  · simp [fresh]
  · intro l hl
    rw [hmem l hl]
    exact Nat.le_refl _
  · simp [fresh]
  · simp [fresh]

/-! ## Runs -/

theorem sound_step {s : State} (h : Sound s) (op : Op) : Sound (step s op) := by
  cases op with
  | cap limit => exact sound_capRequestBody h.toBase limit
  | readRequest => exact sound_readRequest h
  | readClone i => exact sound_readClone h i
  | cloneRequest => exact sound_cloneRequest h
  | cloneClone i => exact sound_cloneClone h i
  | openRequest => exact sound_openRequest h
  | takeRequest height => exact sound_takeRequest h height
  | releaseRequest height => exact sound_releaseRequest h height
  | openClone i => exact sound_openClone h i
  | takeClone i => exact sound_takeClone h i
  | releaseClone i => exact sound_releaseClone h i
  | prefetch height => exact sound_prefetch h height

theorem sound_run (r : Incoming) (limit : ℕ) (ops : List Op) : Sound (run r limit ops) := by
  have hall : ∀ s, Sound s → Sound (ops.foldl step s) := by
    induction ops with
    | nil => exact fun _ h => h
    | cons op ops ih => exact fun s h => ih (step s op) (sound_step h op)
  exact hall _ (sound_capRequestBody (base_fresh r limit) limit)

end Daloy.App.BodyCap
