import Daloy.AutoBan.Strikes
import Daloy.Foundations.PromiseChain
import Daloy.Foundations.Runs

/-! # Strikes on a store without `strike`

`strikeSerialised`, of `src/auto-ban.ts`, over a store whose `get` and `set` take effect at one
moment between the call and its promise, and may reject. `strikeChains` is a `Chain`; a step is what
happens next, to any of the calls that are in progress.

* `AtomicStore`: the store. `AtomicStore.Lawful`: what it has of a key is what was put there last.
* `Work`: how far the callback `run` is, between two `await`s.
* `recordAfter`: what the store has of a key when strikes are applied to it one after another.
* `Process.Inv`: the store has what the strikes so far make, in the order of their calls.
-/

namespace Daloy.AutoBan.Serialised
set_option autoImplicit false

open Daloy.Runs Daloy.Unicode

/-! ## The store -/

/-- Times are those of the store's clock. `kept` is what is left, at a later time, of a record that
was put there with a lifetime. -/
structure AtomicStore (σ : Type) where
  get : σ → JsString → ℤ → σ × Option AutoBanRecord
  set : σ → JsString → AutoBanRecord → ℤ → ℤ → σ
  kept : AutoBanRecord → ℤ → ℤ → ℤ → Option AutoBanRecord

namespace AtomicStore

variable {σ : Type} (store : AtomicStore σ)

/-- What `get` gives. -/
def seen (data : σ) (key : JsString) (now : ℤ) : Option AutoBanRecord :=
  (store.get data key now).2

structure Lawful : Prop where
  get_keeps : ∀ (data : σ) (key other : JsString) (now later : ℤ), now ≤ later →
    store.seen (store.get data other now).1 key later = store.seen data key later
  set_other : ∀ (data : σ) (key other : JsString) (record : AutoBanRecord) (ttlMs now later : ℤ),
    key ≠ other → now ≤ later →
      store.seen (store.set data other record ttlMs now) key later = store.seen data key later
  set_same : ∀ (data : σ) (key : JsString) (record : AutoBanRecord) (ttlMs now later : ℤ),
    now ≤ later →
      store.seen (store.set data key record ttlMs now) key later =
        store.kept record ttlMs now later

end AtomicStore

def memoryStore : AtomicStore MemoryAutoBanStore where
  get := MemoryAutoBanStore.get
  set := MemoryAutoBanStore.set
  kept record ttlMs now later := if now + ttlMs > later then some record else none

theorem memoryStore_lawful : memoryStore.Lawful where
  get_keeps := by
    intro data key other now later hle
    rw [AtomicStore.seen, AtomicStore.seen]
    dsimp only [memoryStore]
    rw [MemoryAutoBanStore.get_snd, MemoryAutoBanStore.get_snd, MemoryAutoBanStore.live_get _ _ _ hle]
  set_other := by
    intro data key other record ttlMs now later hne hle
    rw [AtomicStore.seen, AtomicStore.seen]
    dsimp only [memoryStore]
    rw [MemoryAutoBanStore.get_snd, MemoryAutoBanStore.get_snd, MemoryAutoBanStore.set,
      MemoryAutoBanStore.live_sweep _ _ hle, MemoryAutoBanStore.live, MemoryAutoBanStore.live,
      JsMap.get?_set, if_neg hne]
  set_same := by
    intro data key record ttlMs now later hle
    rw [AtomicStore.seen]
    dsimp only [memoryStore]
    rw [MemoryAutoBanStore.get_snd, MemoryAutoBanStore.set, MemoryAutoBanStore.live_sweep _ _ hle,
      MemoryAutoBanStore.live, JsMap.get?_set, if_pos rfl, Option.filter_some]
    dsimp only
    by_cases hlives : now + ttlMs > later
    · rw [if_pos (by simpa using hlives), if_pos hlives]
      rfl
    · rw [if_neg (by simpa using hlives), if_neg hlives]
      rfl

/-! ## The calls -/

/-- A strike whose `set` took effect: when the call read the clock, when the store was read and
when it was written, and what the caller is given. -/
structure Applied where
  nowMs : ℤ
  readMs : ℤ
  writtenMs : ℤ
  result : AutoBanStrikeResult
  deriving DecidableEq

/-- The callback `run`: it awaits `store.get` and `store.set`. Each of them has a stage before it
takes effect, and one after. -/
inductive Work
  | getting (nowMs : ℤ)
  | got (nowMs readMs : ℤ) (record : Option AutoBanRecord)
  | setting (nowMs readMs : ℤ) (next : Struck)
  | put (applied : Applied)
  deriving DecidableEq

section Calls

variable {σ ε : Type}

abbrev StrikeChains (ε : Type) := Chain JsString JsString Work (Except ε Applied)

/-- `strikeSerialised` in one process, with the store and its clock. -/
structure Process (σ ε : Type) where
  data : σ
  clock : ℤ
  chains : StrikeChains ε := {}

/-- What may happen next. The numbers are those of the calls, in their order. -/
inductive Event (ε : Type)
  | call (key : JsString)
  | start (r : ℕ) (nowMs : ℤ)
  | get (r : ℕ)
  | getRejects (r : ℕ) (error : ε)
  | resume (r : ℕ)
  | set (r : ℕ)
  | setRejects (r : ℕ) (error : ε)
  | setReturns (r : ℕ)
  | release (r : ℕ)
  | tick (ms : ℕ)
  deriving DecidableEq

namespace Process

def running? (s : Process σ ε) (r : ℕ) : Option (JsString × Work) :=
  match s.chains.links[r]? with
  | some ⟨key, _, .running work⟩ => some (key, work)
  | _ => none

def become (s : Process σ ε) (r : ℕ) (stage : Stage Work (Except ε Applied)) : Process σ ε :=
  { s with chains := s.chains.setStage r stage }

variable (store : AtomicStore σ) (policy : AutoBanStrikePolicy)

def step (s : Process σ ε) : Event ε → Option (Process σ ε)
  | .call key => some { s with chains := s.chains.enter id key }
  | .start r nowMs => (s.chains.start r (.getting nowMs)).map fun chains => { s with chains }
  | .get r =>
    match s.running? r with
    | some (key, .getting nowMs) =>
      some { s.become r (.running (.got nowMs s.clock (store.get s.data key s.clock).2)) with
        data := (store.get s.data key s.clock).1 }
    | _ => none
  | .getRejects r error =>
    match s.running? r with
    | some (_, .getting _) | some (_, .got _ _ _) => some (s.become r (.settled (.error error)))
    | _ => none
  | .resume r =>
    match s.running? r with
    | some (_, .got nowMs readMs record) =>
      some (s.become r (.running (.setting nowMs readMs (applyAutoBanStrike record policy nowMs))))
    | _ => none
  | .set r =>
    match s.running? r with
    | some (key, .setting nowMs readMs next) =>
      some { s.become r (.running (.put ⟨nowMs, readMs, s.clock, next.result⟩)) with
        data := store.set s.data key next.record next.ttlMs s.clock }
    | _ => none
  | .setRejects r error =>
    match s.running? r with
    | some (_, .setting _ _ _) => some (s.become r (.settled (.error error)))
    | _ => none
  | .setReturns r =>
    match s.running? r with
    | some (_, .put applied) => some (s.become r (.settled (.ok applied)))
    | _ => none
  | .release r => (s.chains.release id r).map fun chains => { s with chains }
  | .tick ms => some { s with clock := s.clock + ms }

end Process

/-! ## One strike after another -/

/-- The strike of a call whose `get` and `set` succeeded. -/
def applied? : Stage Work (Except ε Applied) → Option Applied
  | .running (.put applied) | .settled (.ok applied) | .released (.ok applied) => some applied
  | _ => none

/-- The strikes on a key of the calls before the `n`-th, in the order of the calls. -/
def Process.strikes (s : Process σ ε) (key : JsString) (n : ℕ) : List Applied :=
  s.chains.came applied? id key n

variable (store : AtomicStore σ) (policy : AutoBanStrikePolicy)

/-- What `applyAutoBanStrike` makes of what the store has of a key, when the call reads it. -/
def struck (content : ℤ → Option AutoBanRecord) (applied : Applied) : Struck :=
  applyAutoBanStrike (content applied.readMs) policy applied.nowMs

/-- What the store has of a key, at every later time, when strikes are applied to it one after
another. -/
def recordAfter (content : ℤ → Option AutoBanRecord) (strikes : List Applied) :
    ℤ → Option AutoBanRecord :=
  strikes.foldl (fun content applied later => store.kept (struck policy content applied).record
    (struck policy content applied).ttlMs applied.writtenMs later) content

theorem recordAfter_snoc (content : ℤ → Option AutoBanRecord) (strikes : List Applied)
    (applied : Applied) (later : ℤ) :
    recordAfter store policy content (strikes ++ [applied]) later =
      store.kept (struck policy (recordAfter store policy content strikes) applied).record
        (struck policy (recordAfter store policy content strikes) applied).ttlMs
        applied.writtenMs later := by
  rw [recordAfter, List.foldl_append]
  rfl

/-! ## What a step can do -/

variable {store policy}

theorem running?_eq_some {s : Process σ ε} {r : ℕ} {key : JsString} {work : Work} :
    s.running? r = some (key, work) ↔
      ∃ previous, s.chains.links[r]? = some ⟨key, previous, .running work⟩ := by
  rw [Process.running?]
  constructor
  · intro h
    split at h
    · rename_i key' previous work' hlink
      obtain ⟨rfl, rfl⟩ := Prod.mk.inj (Option.some.inj h)
      exact ⟨previous, hlink⟩
    · simp at h
  · rintro ⟨previous, hlink⟩
    rw [hlink]

theorem step_cases {s s' : Process σ ε} {event : Event ε}
    (h : s.step store policy event = some s') :
    (∃ key, s' = { s with chains := s.chains.enter id key }) ∨
    (∃ r nowMs chains, s.chains.start r (.getting nowMs) = some chains ∧
      s' = { s with chains }) ∨
    (∃ r key previous nowMs, s.chains.links[r]? = some ⟨key, previous, .running (.getting nowMs)⟩ ∧
      s' = { s.become r (.running (.got nowMs s.clock (store.seen s.data key s.clock))) with
        data := (store.get s.data key s.clock).1 }) ∨
    (∃ r key previous nowMs readMs record,
      s.chains.links[r]? = some ⟨key, previous, .running (.got nowMs readMs record)⟩ ∧
      s' = s.become r
        (.running (.setting nowMs readMs (applyAutoBanStrike record policy nowMs)))) ∨
    (∃ r key previous nowMs readMs next,
      s.chains.links[r]? = some ⟨key, previous, .running (.setting nowMs readMs next)⟩ ∧
      s' = { s.become r (.running (.put ⟨nowMs, readMs, s.clock, next.result⟩)) with
        data := store.set s.data key next.record next.ttlMs s.clock }) ∨
    (∃ r key previous work error, s.chains.links[r]? = some ⟨key, previous, .running work⟩ ∧
      (∀ applied, work ≠ .put applied) ∧ s' = s.become r (.settled (.error error))) ∨
    (∃ r key previous applied,
      s.chains.links[r]? = some ⟨key, previous, .running (.put applied)⟩ ∧
      s' = s.become r (.settled (.ok applied))) ∨
    (∃ r chains, s.chains.release id r = some chains ∧ s' = { s with chains }) ∨
    ∃ ms : ℕ, s' = { s with clock := s.clock + ms } := by
  cases event with
  | call key => exact .inl ⟨key, (Option.some.inj h).symm⟩
  | start r nowMs =>
    obtain ⟨chains, hchains, rfl⟩ := Option.map_eq_some_iff.mp h
    exact .inr (.inl ⟨r, nowMs, chains, hchains, rfl⟩)
  | get r =>
    rw [Process.step] at h
    split at h
    · rename_i key nowMs hrunning
      obtain ⟨previous, hlink⟩ := running?_eq_some.mp hrunning
      exact .inr (.inr (.inl ⟨r, key, previous, nowMs, hlink, (Option.some.inj h).symm⟩))
    · simp at h
  | resume r =>
    rw [Process.step] at h
    split at h
    · rename_i key nowMs readMs record hrunning
      obtain ⟨previous, hlink⟩ := running?_eq_some.mp hrunning
      exact .inr (.inr (.inr (.inl
        ⟨r, key, previous, nowMs, readMs, record, hlink, (Option.some.inj h).symm⟩)))
    · simp at h
  | set r =>
    rw [Process.step] at h
    split at h
    · rename_i key nowMs readMs next hrunning
      obtain ⟨previous, hlink⟩ := running?_eq_some.mp hrunning
      exact .inr (.inr (.inr (.inr (.inl
        ⟨r, key, previous, nowMs, readMs, next, hlink, (Option.some.inj h).symm⟩))))
    · simp at h
  | getRejects r error =>
    rw [Process.step] at h
    split at h
    · rename_i key nowMs hrunning
      obtain ⟨previous, hlink⟩ := running?_eq_some.mp hrunning
      exact .inr (.inr (.inr (.inr (.inr (.inl ⟨r, key, previous, _, error, hlink,
        (by intro _ heq; cases heq), (Option.some.inj h).symm⟩)))))
    · rename_i key nowMs readMs record hrunning
      obtain ⟨previous, hlink⟩ := running?_eq_some.mp hrunning
      exact .inr (.inr (.inr (.inr (.inr (.inl ⟨r, key, previous, _, error, hlink,
        (by intro _ heq; cases heq), (Option.some.inj h).symm⟩)))))
    · simp at h
  | setRejects r error =>
    rw [Process.step] at h
    split at h
    · rename_i key nowMs readMs next hrunning
      obtain ⟨previous, hlink⟩ := running?_eq_some.mp hrunning
      exact .inr (.inr (.inr (.inr (.inr (.inl ⟨r, key, previous, _, error, hlink,
        (by intro _ heq; cases heq), (Option.some.inj h).symm⟩)))))
    · simp at h
  | setReturns r =>
    rw [Process.step] at h
    split at h
    · rename_i key applied hrunning
      obtain ⟨previous, hlink⟩ := running?_eq_some.mp hrunning
      exact .inr (.inr (.inr (.inr (.inr (.inr (.inl
        ⟨r, key, previous, applied, hlink, (Option.some.inj h).symm⟩))))))
    · simp at h
  | release r =>
    obtain ⟨chains, hchains, rfl⟩ := Option.map_eq_some_iff.mp h
    exact .inr (.inr (.inr (.inr (.inr (.inr (.inr (.inl ⟨r, chains, hchains, rfl⟩)))))))
  | tick ms =>
    exact .inr (.inr (.inr (.inr (.inr (.inr (.inr (.inr ⟨ms, (Option.some.inj h).symm⟩)))))))

/-! ## The invariant -/

def Sound (policy : AutoBanStrikePolicy) (before : ℤ → Option AutoBanRecord) :
    Stage Work (Except ε Applied) → Prop
  | .running (.got _ readMs record) => record = before readMs
  | .running (.setting nowMs readMs next) =>
    next = applyAutoBanStrike (before readMs) policy nowMs
  | .running (.put applied) | .settled (.ok applied) | .released (.ok applied) =>
    applied.result = (struck policy before applied).result
  | _ => True

variable (store policy)

/-- What the store has of a key before the `n`-th call, for what it had at first. -/
def Process.before (initial : σ) (s : Process σ ε) (key : JsString) (n : ℕ) :
    ℤ → Option AutoBanRecord :=
  recordAfter store policy (store.seen initial key) (s.strikes key n)

structure Process.Inv (initial : σ) (s : Process σ ε) : Prop where
  ordered : s.chains.Ordered id
  record : ∀ (key : JsString) (later : ℤ), s.clock ≤ later →
    store.seen s.data key later =
      Process.before store policy initial s key s.chains.links.length later
  sound : ∀ (r : ℕ) (link : Link JsString Work (Except ε Applied)), s.chains.links[r]? = some link →
    Sound policy (Process.before store policy initial s link.job r) link.stage

variable {store policy} {initial : σ} {s : Process σ ε}

theorem inv_initial (clock : ℤ) :
    ({ data := initial, clock } : Process σ ε).Inv store policy initial where
  ordered := Chain.ordered_empty
  record := by
    intro key later hle
    rfl
  sound := by simp

/-- A step that changes the stage of one call and nothing that `applied?` reads. -/
theorem Process.Inv.setStage (h : s.Inv store policy initial) {r : ℕ}
    {link : Link JsString Work (Except ε Applied)} (hlink : s.chains.links[r]? = some link)
    (stage : Stage Work (Except ε Applied)) {chains : StrikeChains ε}
    (hlinks : chains.links = (s.chains.setStage r stage).links) (hordered : chains.Ordered id)
    (hsame : applied? stage = applied? link.stage) {data : σ}
    (hdata : ∀ (key : JsString) (later : ℤ), s.clock ≤ later →
      store.seen data key later = store.seen s.data key later)
    (hsound : Sound policy (Process.before store policy initial s link.job r) stage) :
    ({ s with chains, data } : Process σ ε).Inv store policy initial := by
  have hcame : ∀ key n, ({ s with chains, data } : Process σ ε).strikes key n = s.strikes key n := by
    intro key n
    rw [Process.strikes, Chain.came]
    dsimp only
    rw [hlinks, ← Chain.came, Chain.came_setStage_same hlink fun _ => hsame]
    rfl
  have hbefore : ∀ key n, Process.before store policy initial
      ({ s with chains, data } : Process σ ε) key n =
        Process.before store policy initial s key n := by
    intro key n
    rw [Process.before, hcame]
    rfl
  have hlength : chains.links.length = s.chains.links.length := by
    rw [hlinks]
    exact List.length_modify _ _ _
  refine ⟨hordered, ?_, ?_⟩
  · intro key later hle
    rw [hbefore]
    dsimp only
    rw [hlength, hdata key later hle]
    exact h.record key later hle
  · intro q other hother
    rw [hbefore]
    dsimp only at hother
    rw [hlinks, Chain.links_setStage] at hother
    split at hother
    · rename_i hq
      rw [hq, hlink] at hother
      obtain rfl := Option.some.inj hother
      rw [hq]
      exact hsound
    · exact h.sound q other hother

theorem Process.Inv.enter (h : s.Inv store policy initial) (key : JsString) :
    ({ s with chains := s.chains.enter id key } : Process σ ε).Inv store policy initial := by
  have hbefore : ∀ k n, Process.before store policy initial
      ({ s with chains := s.chains.enter id key } : Process σ ε) k n =
        Process.before store policy initial s k n := by
    intro k n
    rw [Process.before, Process.strikes]
    dsimp only
    rw [Chain.came_enter _ rfl]
    rfl
  refine ⟨h.ordered.enter key, ?_, ?_⟩
  · intro k later hle
    rw [hbefore, h.record k later hle, Process.before, Process.before, Process.strikes,
      Process.strikes]
    congr 1
    exact (Chain.came_of_le (by rw [Chain.enter]; simp)).symm
  · intro q other hother
    rw [hbefore]
    dsimp only at hother
    rw [Chain.links_enter] at hother
    split at hother
    · obtain rfl := Option.some.inj hother
      trivial
    · exact h.sound q other hother

/-- **The store takes the record of a running call**: the strikes of its key before it are all there
already, and no later one is. -/
theorem Process.Inv.write (h : s.Inv store policy initial) (hlawful : store.Lawful) {r : ℕ}
    {key : JsString} {previous : Option ℕ} {nowMs readMs : ℤ} {next : Struck}
    (hlink : s.chains.links[r]? = some ⟨key, previous, .running (.setting nowMs readMs next)⟩) :
    ({ s.become r (.running (.put ⟨nowMs, readMs, s.clock, next.result⟩)) with
      data := store.set s.data key next.record next.ttlMs s.clock } : Process σ ε).Inv
        store policy initial := by
  have hnext : next = struck policy (Process.before store policy initial s key r)
      ⟨nowMs, readMs, s.clock, next.result⟩ := h.sound r _ hlink
  have hlength : (s.chains.setStage r
      (.running (.put ⟨nowMs, readMs, s.clock, next.result⟩))).links.length =
        s.chains.links.length := List.length_modify _ _ _
  refine ⟨h.ordered.advance hlink rfl rfl, ?_, ?_⟩
  · intro k later hle
    rw [Process.before, Process.strikes]
    dsimp only [Process.become]
    rw [hlength]
    dsimp only [Process.become] at hle
    by_cases hk : k = key
    · have hcame : (s.chains.setStage r
          (.running (.put ⟨nowMs, readMs, s.clock, next.result⟩))).came applied? id key
            s.chains.links.length =
              s.strikes key r ++ [⟨nowMs, readMs, s.clock, next.result⟩] :=
        h.ordered.came_next applied? hlink rfl rfl rfl rfl
      rw [hk, hlawful.set_same _ _ _ _ _ _ hle, hcame, recordAfter_snoc]
      rw [Process.before] at hnext
      rw [← hnext]
    · rw [hlawful.set_other _ _ _ _ _ _ _ hk hle, h.record k later hle,
        Chain.came_setStage_same hlink fun heq => absurd heq.symm hk]
      rfl
  · intro q other hother
    dsimp only [Process.become] at hother
    rw [Process.before, Process.strikes]
    dsimp only [Process.become]
    by_cases hle : q ≤ r
    · rw [Chain.came_setStage_before hle]
      rw [Chain.links_setStage] at hother
      split at hother
      · rename_i hq
        rw [hq, hlink] at hother
        obtain rfl := Option.some.inj hother
        rw [hq]
        exact congrArg Struck.result hnext
      · exact h.sound q other hother
    · rw [Chain.links_setStage, if_neg (by omega)] at hother
      by_cases hk : other.job = key
      · rw [h.ordered.waits hlink rfl hother (by omega) hk]
        trivial
      · rw [Chain.came_setStage_same hlink fun heq => absurd heq.symm hk]
        exact h.sound q other hother

theorem inv_step {s' : Process σ ε} {event : Event ε} (hlawful : store.Lawful)
    (h : s.Inv store policy initial) (hstep : s.step store policy event = some s') :
    s'.Inv store policy initial := by
  obtain ⟨key, rfl⟩ | ⟨r, nowMs, chains, hstart, rfl⟩ | ⟨r, key, previous, nowMs, hlink, rfl⟩ |
    ⟨r, key, previous, nowMs, readMs, record, hlink, rfl⟩ |
    ⟨r, key, previous, nowMs, readMs, next, hlink, rfl⟩ |
    ⟨r, key, previous, work, error, hlink, hwork, rfl⟩ | ⟨r, key, previous, applied, hlink, rfl⟩ |
    ⟨r, chains, hrelease, rfl⟩ | ⟨ms, rfl⟩ := step_cases hstep
  · exact h.enter key
  · have hordered := h.ordered.start hstart
    obtain ⟨link, hlink, hwaiting, rfl⟩ := Chain.start_eq_some hstart
    exact h.setStage hlink _ rfl hordered (by rw [hwaiting]; rfl) (fun _ _ _ => rfl) trivial
  · have hkeeps := fun k later hle => hlawful.get_keeps s.data k key s.clock later hle
    refine h.setStage hlink (.running (.got nowMs s.clock _)) rfl
      (h.ordered.advance hlink rfl rfl) rfl hkeeps ?_
    have hrecord := h.record key s.clock le_rfl
    have hcame : s.strikes key s.chains.links.length = s.strikes key r :=
      h.ordered.came_running applied? hlink rfl rfl rfl rfl
    rw [Process.before, hcame] at hrecord
    exact hrecord
  · refine h.setStage hlink (.running (.setting nowMs readMs _)) rfl
      (h.ordered.advance hlink rfl rfl) rfl (fun _ _ _ => rfl) ?_
    have hrecord : record = _ := h.sound r _ hlink
    rw [hrecord]
    rfl
  · exact h.write hlawful hlink
  · refine h.setStage hlink _ rfl (h.ordered.advance hlink rfl rfl) ?_ (fun _ _ _ => rfl) trivial
    cases work with
    | put applied => exact absurd rfl (hwork applied)
    | getting nowMs => rfl
    | got nowMs readMs record => rfl
    | setting nowMs readMs next => rfl
  · exact h.setStage hlink (.settled (.ok applied)) rfl
      (h.ordered.advance hlink rfl rfl) rfl (fun _ _ _ => rfl) (h.sound r _ hlink)
  · have hordered := h.ordered.release hrelease
    obtain ⟨link, result, hlink, hsettled, hlinks⟩ := Chain.release_eq_some id hrelease
    have hsound := h.sound r link hlink
    rw [hsettled] at hsound
    refine h.setStage hlink _ hlinks hordered ?_ (fun _ _ _ => rfl) ?_
    · rw [hsettled]
      cases result <;> rfl
    · cases result with
      | error failure => trivial
      | ok applied => exact hsound
  · refine ⟨h.ordered, fun key later hle => ?_, h.sound⟩
    dsimp only at hle
    exact h.record key later (by omega)

/-! ## Every run -/

variable (store policy initial s)

/-- What holds of a process whose store had `initial`. -/
structure StrikesKept : Prop where
  /-- The store has what the strikes make that were applied, one after another in the order of the
  calls. -/
  record : ∀ (key : JsString) (later : ℤ), s.clock ≤ later → store.seen s.data key later =
    recordAfter store policy (store.seen initial key) (s.strikes key s.chains.links.length) later
  /-- These are the strikes of the calls whose `get` and `set` succeeded; a caller is given what
  came of its own strike. -/
  result : ∀ (r : ℕ) (link : Link JsString Work (Except ε Applied)) (applied : Applied),
    s.chains.links[r]? = some link → link.stage.result? = some (.ok applied) →
      applied ∈ s.strikes link.job s.chains.links.length ∧
        applied.result = (applyAutoBanStrike (recordAfter store policy (store.seen initial link.job)
          (s.strikes link.job r) applied.readMs) policy applied.nowMs).result
  /-- One call runs for a key. -/
  exclusive : ∀ (r q : ℕ) (link other : Link JsString Work (Except ε Applied)) (work work' : Work),
    s.chains.links[r]? = some link → s.chains.links[q]? = some other →
      link.stage = .running work → other.stage = .running work' → other.job = link.job → q = r
  /-- A call may start when those of its key before it have settled. -/
  next : ∀ (r : ℕ) (link : Link JsString Work (Except ε Applied)), s.chains.links[r]? = some link →
    link.stage = .waiting →
      (∀ q < r, ∀ other, s.chains.links[q]? = some other → other.job = link.job →
        other.stage.isDone = true) →
      ∀ nowMs, (s.step store policy (.start r nowMs)).isSome = true
  /-- When all calls have settled, the map has no entry. -/
  idle : (∀ link ∈ s.chains.links, link.stage.isReleased = true) → s.chains.tails = ∅

variable {store policy initial s}

theorem applied?_of_result {stage : Stage Work (Except ε Applied)} {applied : Applied}
    (h : stage.result? = some (.ok applied)) : applied? stage = some applied := by
  cases stage with
  | waiting | running _ => simp [Stage.result?] at h
  | settled result | released result =>
    obtain rfl := Option.some.inj h
    rfl

/-- **No strike is lost without an atomic `strike`**, in every interleaving. -/
theorem strikes_serialised (store : AtomicStore σ) (policy : AutoBanStrikePolicy) (initial : σ)
    (clock : ℤ) (hlawful : store.Lawful) (events : List (Event ε)) (s : Process σ ε)
    (hrun : run (Process.step store policy) { data := initial, clock } events = some s) :
    StrikesKept store policy initial s := by
  have h : s.Inv store policy initial :=
    run_invariant_all (fun _ _ _ hinv hstep => inv_step hlawful hinv hstep) (inv_initial clock) hrun
  refine ⟨h.record, ?_, ?_, ?_, h.ordered.tails_empty⟩
  · intro r link applied hlink hresult
    have happlied := applied?_of_result hresult
    refine ⟨?_, ?_⟩
    · rw [Process.strikes, Chain.came, List.take_length]
      refine List.mem_filterMap.mpr ⟨link, List.mem_of_getElem? hlink, ?_⟩
      rw [id, if_pos rfl, happlied]
    · have hsound := h.sound r link hlink
      revert hresult hsound
      cases link.stage with
      | waiting | running _ =>
        intro hresult
        simp [Stage.result?] at hresult
      | settled result | released result =>
        intro hresult hsound
        obtain rfl := Option.some.inj hresult
        exact hsound
  · intro r q link other work work' hlink hother hrunning hrunning' hkey
    exact h.ordered.exclusive hlink hrunning hother hrunning' hkey
  · intro r link hlink hwaiting hdone nowMs
    have hstart := Chain.start_isSome h.ordered hlink hwaiting hdone (Work.getting nowMs)
    rw [Process.step, Option.isSome_map]
    exact hstart

theorem strikes_serialised_two :
    ∃ s, run (Process.step memoryStore ⟨1000, 2, 60, 60, false⟩)
        ({ data := ∅, clock := 5 } : Process MemoryAutoBanStore Unit)
        [.call (js "k"), .start 0 5, .call (js "k"), .get 0, .tick 1, .resume 0, .set 0,
          .setReturns 0, .start 1 6, .release 0, .get 1, .resume 1, .set 1, .setReturns 1,
          .release 1] = some s ∧
      StrikesKept memoryStore ⟨1000, 2, 60, 60, false⟩ ∅ s ∧
      (memoryStore.seen s.data (js "k") 6).map AutoBanRecord.bannedUntilMs = some 66 := by
  obtain ⟨s, hs⟩ : ∃ s, run (Process.step memoryStore ⟨1000, 2, 60, 60, false⟩)
      ({ data := ∅, clock := 5 } : Process MemoryAutoBanStore Unit)
      [.call (js "k"), .start 0 5, .call (js "k"), .get 0, .tick 1, .resume 0, .set 0,
        .setReturns 0, .start 1 6, .release 0, .get 1, .resume 1, .set 1, .setReturns 1,
        .release 1] = some s := Option.isSome_iff_exists.mp (by decide)
  refine ⟨s, hs, strikes_serialised _ _ _ _ memoryStore_lawful _ _ hs, ?_⟩
  have hbanned : ((run (Process.step memoryStore ⟨1000, 2, 60, 60, false⟩)
      ({ data := ∅, clock := 5 } : Process MemoryAutoBanStore Unit)
      [.call (js "k"), .start 0 5, .call (js "k"), .get 0, .tick 1, .resume 0, .set 0,
        .setReturns 0, .start 1 6, .release 0, .get 1, .resume 1, .set 1, .setReturns 1,
        .release 1]).bind fun s => memoryStore.seen s.data (js "k") 6).map
          AutoBanRecord.bannedUntilMs = some 66 := by
    decide
  rwa [hs] at hbanned

end Calls

end Daloy.AutoBan.Serialised
