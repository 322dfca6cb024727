import Daloy.Idempotency.Responses
import Mathlib.Algebra.Ring.Int.Defs

/-! # Idempotency stores

`IdempotencyRecord`, `IdempotencyStore` and `MemoryIdempotencyStore` of `src/idempotency.ts`. The
symbol that marks a reservation is the number of the request that made it.

A store is given by what its methods do to its state, and whether their promises fulfil; `Lawful`
is what the documentation asks of them.
-/

namespace Daloy.Idempotency
set_option autoImplicit false

open Daloy.Unicode

inductive RecordStatus
  | inFlight
  | completed
  deriving DecidableEq

/-- `IdempotencyRecord`, with its `RESERVATION_TOKEN`. -/
structure IdempotencyRecord where
  fingerprint : JsString
  status : RecordStatus
  response : Option StoredIdempotentResponse := none
  createdAt : ℤ
  expiresAt : ℤ
  token : Option ℕ := none
  deriving DecidableEq

inductive StoreError
  | rejected
  deriving DecidableEq

/-- `IdempotencyStore`. A store whose methods are asynchronous has its effect when it is called, and
its answer is read in a later step. `release` is told who holds the reservation. -/
structure IdempotencyStore (σ : Type) where
  isAsync : Bool
  reserve : σ → JsString → IdempotencyRecord → ℤ →
    σ × Except StoreError (Option IdempotencyRecord)
  complete : σ → JsString → IdempotencyRecord → ℤ → σ × Except StoreError Unit
  release : σ → JsString → ℕ → σ × Except StoreError Unit

/-- What the documentation asks of a store, where `holds s key t` says that the record of `key` is
the in-flight one that `t` reserved. -/
structure Lawful {σ : Type} (store : IdempotencyStore σ) (holds : σ → JsString → ℕ → Prop) :
    Prop where
  reserve : ∀ {s key record now k t}, holds (store.reserve s key record now).1 k t →
    holds s k t ∨
      k = key ∧ record.token = some t ∧ (store.reserve s key record now).2 = .ok none
  complete : ∀ {s key record now k t}, record.status = .completed →
    holds (store.complete s key record now).1 k t → holds s k t
  complete_ok : ∀ {s key record now t}, (store.complete s key record now).2 = .ok () →
    record.status = .completed → record.token = some t →
      ¬ holds (store.complete s key record now).1 key t
  release : ∀ {s key t' k t}, holds (store.release s key t').1 k t → holds s k t
  release_ok : ∀ {s key t}, (store.release s key t).2 = .ok () →
    ¬ holds (store.release s key t).1 key t

/-! ## The store in memory -/

structure MemoryIdempotencyStore where
  map : JsMap JsString IdempotencyRecord := ∅
  maxEntries : ℕ := 10000
  deriving DecidableEq

namespace MemoryIdempotencyStore

/-- `read(key)`: an expired record is dropped. -/
def read (s : MemoryIdempotencyStore) (key : JsString) (now : ℤ) :
    MemoryIdempotencyStore × Option IdempotencyRecord :=
  match s.map.get? key with
  | none => (s, none)
  | some rec =>
    if rec.expiresAt ≤ now then ({ s with map := s.map.delete key }, none) else (s, some rec)

def prune (s : MemoryIdempotencyStore) (now : ℤ) : MemoryIdempotencyStore :=
  { s with map := s.map.keep fun _ v => now < v.expiresAt }

/-- The loop of `reserve` over a full map, with its size as the bound. -/
def evictOldest (maxEntries : ℕ) :
    ℕ → JsMap JsString IdempotencyRecord → JsMap JsString IdempotencyRecord
  | 0, map => map
  | fuel + 1, map =>
    if maxEntries ≤ map.size then
      match map.entries with
      | [] => map
      | oldest :: _ => evictOldest maxEntries fuel (map.delete oldest.1)
    else map

def reserve (s : MemoryIdempotencyStore) (key : JsString) (record : IdempotencyRecord) (now : ℤ) :
    MemoryIdempotencyStore × Option IdempotencyRecord :=
  match s.read key now with
  | (s, some existing) => (s, some existing)
  | (s, none) =>
    let s := if s.maxEntries ≤ s.map.size then
        let s := s.prune now
        { s with map := evictOldest s.maxEntries s.map.size s.map }
      else s
    ({ s with map := s.map.set key record }, none)

def complete (s : MemoryIdempotencyStore) (key : JsString) (record : IdempotencyRecord) (now : ℤ) :
    MemoryIdempotencyStore :=
  match s.map.get? key with
  | none => (s.reserve key record now).1
  | some current =>
    if record.token ≠ none ∧ current.token ≠ none ∧ record.token ≠ current.token then s
    else { s with map := s.map.set key record }

def releaseIfToken (s : MemoryIdempotencyStore) (key : JsString) (token : ℕ) :
    MemoryIdempotencyStore :=
  match s.map.get? key with
  | none => s
  | some current =>
    if current.token ≠ none ∧ current.token ≠ some token then s
    else { s with map := s.map.delete key }

def store : IdempotencyStore MemoryIdempotencyStore where
  isAsync := false
  reserve s key record now := ((s.reserve key record now).1, .ok (s.reserve key record now).2)
  complete s key record now := (s.complete key record now, .ok ())
  release s key token := (s.releaseIfToken key token, .ok ())

/-- The in-flight record of `key` is the one that `t` reserved. -/
def Holds (s : MemoryIdempotencyStore) (key : JsString) (t : ℕ) : Prop :=
  ∃ rec, s.map.get? key = some rec ∧ rec.status = .inFlight ∧ rec.token = some t

/-! ## What the methods do to a key -/

def Shrinks (map map' : JsMap JsString IdempotencyRecord) : Prop :=
  ∀ k, map'.get? k = map.get? k ∨ map'.get? k = none

theorem Shrinks.refl (map : JsMap JsString IdempotencyRecord) : Shrinks map map := fun _ => .inl rfl

theorem Shrinks.trans {map map' map'' : JsMap JsString IdempotencyRecord} (h : Shrinks map map')
    (h' : Shrinks map' map'') : Shrinks map map'' := by
  intro k
  rcases h' k with heq | hnone
  · rw [heq]
    exact h k
  · exact .inr hnone

theorem shrinks_delete (map : JsMap JsString IdempotencyRecord) (key : JsString) :
    Shrinks map (map.delete key) := by
  intro k
  rw [JsMap.get?_delete]
  split
  · exact .inr rfl
  · exact .inl rfl

theorem shrinks_keep (map : JsMap JsString IdempotencyRecord)
    (p : JsString → IdempotencyRecord → Bool) : Shrinks map (map.keep p) := by
  intro k
  rw [JsMap.get?_keep]
  cases map.get? k with
  | none => exact .inl rfl
  | some rec =>
    by_cases h : p k rec
    · simp [h]
    · simp [h]

theorem shrinks_evictOldest (maxEntries fuel : ℕ) (map : JsMap JsString IdempotencyRecord) :
    Shrinks map (evictOldest maxEntries fuel map) := by
  induction fuel generalizing map with
  | zero => exact Shrinks.refl map
  | succ fuel ih =>
    rw [evictOldest]
    split
    · split
      · exact Shrinks.refl map
      · exact (shrinks_delete _ _).trans (ih _)
    · exact Shrinks.refl map

theorem read_some {s : MemoryIdempotencyStore} {key : JsString} {now : ℤ}
    {rec : IdempotencyRecord} (h : s.map.get? key = some rec) (hlive : now < rec.expiresAt) :
    s.read key now = (s, some rec) := by
  rw [read, h]
  exact if_neg (by omega)

theorem reserve_some {s : MemoryIdempotencyStore} {key : JsString} {now : ℤ}
    {rec : IdempotencyRecord} (h : s.map.get? key = some rec) (hlive : now < rec.expiresAt)
    (record : IdempotencyRecord) : s.reserve key record now = (s, some rec) := by
  rw [reserve, read_some h hlive]

theorem reserve_none {s : MemoryIdempotencyStore} {key : JsString} (h : s.map.get? key = none)
    (hroom : s.map.size < s.maxEntries) (record : IdempotencyRecord) (now : ℤ) :
    s.reserve key record now = ({ s with map := s.map.set key record }, none) := by
  have hread : s.read key now = (s, none) := by rw [read, h]
  rw [reserve, hread]
  dsimp only
  rw [if_neg (by omega)]

theorem complete_some {s : MemoryIdempotencyStore} {key : JsString} {current : IdempotencyRecord}
    (h : s.map.get? key = some current) {record : IdempotencyRecord}
    (htoken : current.token = record.token) (now : ℤ) :
    s.complete key record now = { s with map := s.map.set key record } := by
  rw [complete, h]
  exact if_neg fun hne => hne.2.2 htoken.symm

theorem releaseIfToken_some {s : MemoryIdempotencyStore} {key : JsString}
    {current : IdempotencyRecord} (h : s.map.get? key = some current) {token : ℕ}
    (htoken : current.token = some token) :
    s.releaseIfToken key token = { s with map := s.map.delete key } := by
  rw [releaseIfToken, h]
  exact if_neg fun hne => hne.2 htoken

theorem complete_other {s : MemoryIdempotencyStore} {key : JsString} {current : IdempotencyRecord}
    (h : s.map.get? key = some current) {record : IdempotencyRecord} (hrecord : record.token ≠ none)
    (hcurrent : current.token ≠ none) (hne : record.token ≠ current.token) (now : ℤ) :
    s.complete key record now = s := by
  rw [complete, h]
  exact if_pos ⟨hrecord, hcurrent, hne⟩

theorem releaseIfToken_other {s : MemoryIdempotencyStore} {key : JsString}
    {current : IdempotencyRecord} (h : s.map.get? key = some current) {token : ℕ}
    (hcurrent : current.token ≠ none) (hne : current.token ≠ some token) :
    s.releaseIfToken key token = s := by
  rw [releaseIfToken, h]
  exact if_pos ⟨hcurrent, hne⟩

/-- Either `reserve` answers with what it finds, or the new record is there; another key keeps what
it had, or loses it. -/
theorem reserve_spec (s : MemoryIdempotencyStore) (key : JsString) (record : IdempotencyRecord)
    (now : ℤ) :
    (∃ rec, s.map.get? key = some rec ∧ s.reserve key record now = (s, some rec)) ∨
      (s.reserve key record now).2 = none ∧
        (s.reserve key record now).1.map.get? key = some record ∧
          ∀ k, k ≠ key → (s.reserve key record now).1.map.get? k = s.map.get? k ∨
            (s.reserve key record now).1.map.get? k = none := by
  have hset {map : JsMap JsString IdempotencyRecord} (h : Shrinks s.map map) :
      (map.set key record).get? key = some record ∧ ∀ k, k ≠ key →
        (map.set key record).get? k = s.map.get? k ∨ (map.set key record).get? k = none := by
    refine ⟨by rw [JsMap.get?_set, if_pos rfl], ?_⟩
    intro k hk
    rw [JsMap.get?_set, if_neg hk]
    exact h k
  have hfresh (s' : MemoryIdempotencyStore) (hread : s.read key now = (s', none))
      (hs' : Shrinks s.map s'.map) : (s.reserve key record now).2 = none ∧
        (s.reserve key record now).1.map.get? key = some record ∧
          ∀ k, k ≠ key → (s.reserve key record now).1.map.get? k = s.map.get? k ∨
            (s.reserve key record now).1.map.get? k = none := by
    rw [reserve, hread]
    dsimp only
    refine ⟨rfl, ?_⟩
    split
    · exact hset ((hs'.trans (shrinks_keep _ _)).trans (shrinks_evictOldest _ _ _))
    · exact hset hs'
  cases hget : s.map.get? key with
  | none => exact .inr (hfresh s (by rw [read, hget]) (Shrinks.refl _))
  | some rec =>
    by_cases hlive : now < rec.expiresAt
    · exact .inl ⟨rec, rfl, reserve_some hget hlive record⟩
    · refine .inr (hfresh { s with map := s.map.delete key } ?_ (shrinks_delete _ _))
      rw [read, hget]
      exact if_pos (by omega)

theorem complete_spec (s : MemoryIdempotencyStore) (key : JsString) (record : IdempotencyRecord)
    (now : ℤ) :
    (∃ current, s.map.get? key = some current ∧ record.token ≠ none ∧ current.token ≠ none ∧
        record.token ≠ current.token ∧ s.complete key record now = s) ∨
      (s.complete key record now).map.get? key = some record ∧
        ∀ k, k ≠ key → (s.complete key record now).map.get? k = s.map.get? k ∨
          (s.complete key record now).map.get? k = none := by
  rw [complete]
  cases hget : s.map.get? key with
  | none =>
    right
    rcases reserve_spec s key record now with ⟨rec, hrec, -⟩ | ⟨-, hspec⟩
    · rw [hget] at hrec
      simp at hrec
    · exact hspec
  | some current =>
    dsimp only
    split
    · next h => exact .inl ⟨current, rfl, h.1, h.2.1, h.2.2, rfl⟩
    · right
      refine ⟨by rw [JsMap.get?_set, if_pos rfl], ?_⟩
      intro k hk
      rw [JsMap.get?_set, if_neg hk]
      exact .inl rfl

theorem releaseIfToken_spec (s : MemoryIdempotencyStore) (key : JsString) (token : ℕ) :
    (∃ current, s.map.get? key = some current ∧ current.token ≠ none ∧
        current.token ≠ some token ∧ s.releaseIfToken key token = s) ∨
      ∀ k, (s.releaseIfToken key token).map.get? k = if k = key then none else s.map.get? k := by
  rw [releaseIfToken]
  cases hget : s.map.get? key with
  | none =>
    right
    intro k
    by_cases hk : k = key
    · rw [if_pos hk, hk, hget]
    · rw [if_neg hk]
  | some current =>
    dsimp only
    split
    · next h => exact .inl ⟨current, rfl, h.1, h.2, rfl⟩
    · exact .inr fun k => JsMap.get?_delete ..

theorem lawful : Lawful store Holds where
  reserve := by
    rintro s key record now k t ⟨rec, hget, hstatus, htoken⟩
    rcases reserve_spec s key record now with ⟨existing, -, heq⟩ | ⟨hnone, hself, hother⟩
    · left
      refine ⟨rec, ?_, hstatus, htoken⟩
      have hsame : (store.reserve s key record now).1 = s := by
        show (s.reserve key record now).1 = s
        rw [heq]
      rw [hsame] at hget
      exact hget
    · by_cases hk : k = key
      · right
        have hget' : (s.reserve key record now).1.map.get? k = some rec := hget
        rw [hk, hself] at hget'
        obtain rfl := Option.some.inj hget'
        exact ⟨hk, htoken, congrArg Except.ok hnone⟩
      · left
        refine ⟨rec, ?_, hstatus, htoken⟩
        rcases hother k hk with h | h
        · exact h.symm.trans hget
        · exact absurd (h.symm.trans hget) (by simp)
  complete := by
    rintro s key record now k t hcompleted ⟨rec, hget, hstatus, htoken⟩
    refine ⟨rec, ?_, hstatus, htoken⟩
    rcases complete_spec s key record now with ⟨_, -, -, -, -, heq⟩ | ⟨hself, hother⟩
    · have hsame : (store.complete s key record now).1 = s := heq
      rw [hsame] at hget
      exact hget
    · have hget' : (s.complete key record now).map.get? k = some rec := hget
      by_cases hk : k = key
      · rw [hk, hself] at hget'
        obtain rfl := Option.some.inj hget'
        simp [hcompleted] at hstatus
      · rcases hother k hk with h | h
        · exact h.symm.trans hget'
        · exact absurd (h.symm.trans hget') (by simp)
  complete_ok := by
    rintro s key record now t - hcompleted hrecord ⟨rec, hget, hstatus, htoken⟩
    have hget' : (s.complete key record now).map.get? key = some rec := hget
    rcases complete_spec s key record now with ⟨current, hcurrent, -, -, hne, heq⟩ | ⟨hself, -⟩
    · rw [heq, hcurrent] at hget'
      obtain rfl := Option.some.inj hget'
      exact hne (hrecord.trans htoken.symm)
    · rw [hself] at hget'
      obtain rfl := Option.some.inj hget'
      simp [hcompleted] at hstatus
  release := by
    rintro s key t' k t ⟨rec, hget, hstatus, htoken⟩
    refine ⟨rec, ?_, hstatus, htoken⟩
    have hget' : (s.releaseIfToken key t').map.get? k = some rec := hget
    rcases releaseIfToken_spec s key t' with ⟨_, -, -, -, heq⟩ | hspec
    · rw [heq] at hget'
      exact hget'
    · rw [hspec] at hget'
      split at hget'
      · simp at hget'
      · exact hget'
  release_ok := by
    rintro s key t - ⟨rec, hget, hstatus, htoken⟩
    have hget' : (s.releaseIfToken key t).map.get? key = some rec := hget
    rcases releaseIfToken_spec s key t with ⟨current, hcurrent, -, hne, heq⟩ | hspec
    · rw [heq, hcurrent] at hget'
      obtain rfl := Option.some.inj hget'
      exact hne htoken
    · rw [hspec, if_pos rfl] at hget'
      simp at hget'

end MemoryIdempotencyStore

end Daloy.Idempotency
