import Daloy.AutoBan.Strikes
import Daloy.Foundations.DoubleArithmetic
import Daloy.Foundations.Runs

/-! # The strike script of the Redis store

`AB_STRIKE`, `AB_GET` and `redisAutoBanStore`, of `src/rate-limit-redis.ts`, over what Redis has under
one key. The numbers of the script are doubles.

* `abStrike`: the script. It is `none` where Lua throws, and where it formats a number that is no
  integer of C.
* `redisStrike`, `redisGet`: the store's operations, with the texts of the arguments and of the
  fields.
* `Same`: the hash has what the store of one process has.
* `Representable`: the integers that a run of strikes meets are exact.
-/

namespace Daloy.AutoBan
set_option autoImplicit false

open Daloy.Doubles Daloy.Json Daloy.Runs Daloy.Text Daloy.Unicode

/-! ## Redis -/

/-- A hash and when its key expires. -/
structure RedisHash where
  fields : JsMap JsString JsString
  expiresMs : Option ℤ

def RedisHash.live (hash : Option RedisHash) (now : ℤ) : Option RedisHash :=
  hash.filter fun h => !h.expiresMs.any fun expires => expires ≤ now

def hmget (hash : Option RedisHash) (field : JsString) : Option JsString :=
  hash.bind fun h => h.fields.get? field

def hset (hash : Option RedisHash) (fields : List (JsString × JsString)) : RedisHash where
  fields := fields.foldl (fun m p => m.set p.1 p.2) ((hash.map RedisHash.fields).getD ∅)
  expiresMs := hash.bind RedisHash.expiresMs

def pexpire (hash : RedisHash) (ms now : ℤ) : Option RedisHash :=
  if ms ≤ 0 then none else some { hash with expiresMs := some (now + ms) }

/-! ## The script -/

/-- `tonumber(text)`; without a text it gives `nil`. -/
def tonumber (text : Option JsString) : Option Quantity :=
  (text.filter fun t => decide (t ≠ [])).bind fun t => (number t).map .finite

def truncated : Quantity → Option ℤ
  | .finite x => if |x| < 2 ^ 63 then some (x.num.tdiv x.den) else none
  | .nan | .infinity _ => none

structure StrikeArguments where
  now : JsString
  windowMs : JsString
  maxStrikes : JsString
  banMs : JsString
  maxBanMs : JsString
  escalate : JsString
  deriving DecidableEq

def abStrike (hash : Option RedisHash) (clock : ℤ) (argv : StrikeArguments) :
    Option (Option RedisHash × List ℤ) := do
  let hash := RedisHash.live hash clock
  let now ← tonumber argv.now
  let windowMs ← tonumber argv.windowMs
  let maxStrikes ← tonumber argv.maxStrikes
  let banMs ← tonumber argv.banMs
  let maxBanMs ← tonumber argv.maxBanMs
  let s := (tonumber (hmget hash (js "s"))).getD (.int 0)
  let se := (tonumber (hmget hash (js "se"))).getD (.int 0)
  let bu := (tonumber (hmget hash (js "bu"))).getD (.int 0)
  let bc := (tonumber (hmget hash (js "bc"))).getD (.int 0)
  let s := if se.le now then .int 0 else s
  let strikes := s.add (.int 1)
  let se := now.add windowMs
  let banned := maxStrikes.le strikes
  let bc := if banned then bc.add (.int 1) else bc
  let dur :=
    if banned then
      if argv.escalate = js "1" then maxBanMs.luaMin (banMs.mul (bc.sub (.int 1)).twoTo) else banMs
    else .int 0
  let bu := if banned then now.add dur else bu
  let s ← truncated (if banned then .int 0 else strikes)
  let seText ← truncated se
  let buText ← truncated bu
  let bcText ← truncated bc
  let ttl ← truncated ((Quantity.int 1).luaMax ((se.luaMax bu).sub now))
  let stored := hset hash [(js "s", integerText s), (js "se", integerText seText),
    (js "bu", integerText buText), (js "bc", integerText bcText)]
  let reply ← [strikes, if banned then .int 1 else .int 0, bc, dur, bu].mapM truncated
  return (pexpire stored ttl clock, reply)

/-! ## The store -/

/-- The members of a result, as numbers. -/
structure StrikeNumbers where
  strikes : ℤ
  banned : Bool
  banCount : ℤ
  banDurationMs : ℤ
  bannedUntilMs : ℤ
  deriving DecidableEq

def AutoBanStrikeResult.numbers (r : AutoBanStrikeResult) : StrikeNumbers :=
  ⟨r.strikes, r.banned, r.banCount, r.banDurationMs, r.bannedUntilMs⟩

def strikeArguments (policy : AutoBanStrikePolicy) (nowMs : ℤ) : StrikeArguments where
  now := integerText nowMs
  windowMs := integerText policy.windowMs
  maxStrikes := integerText policy.maxStrikes
  banMs := integerText policy.banMs
  maxBanMs := integerText policy.maxBanMs
  escalate := if policy.escalate then js "1" else js "0"

/-- `strike`: the hash after it, and what it resolves to. -/
def redisStrike (hash : Option RedisHash) (call : AutoBanStrikePolicy × ℤ) :
    Option RedisHash × Option StrikeNumbers :=
  match abStrike hash call.2 (strikeArguments call.1 call.2) with
  | some (hash, [strikes, banned, banCount, banDurationMs, bannedUntilMs]) =>
    (hash, some ⟨strikes, banned = 1, banCount, banDurationMs, bannedUntilMs⟩)
  | _ => (hash, none)

/-- `toNumber(value)`, of a text that may be missing. -/
def toNumber (value : Option JsString) : ℚ := (value.bind number).getD 0

/-- `get`: strikes, their end, the end of the ban, the bans. -/
def redisGet (hash : Option RedisHash) (now : ℤ) : Option (ℚ × ℚ × ℚ × ℚ) :=
  let field name := hmget (RedisHash.live hash now) name
  (field (js "s")).map fun s => (toNumber (some s), toNumber (field (js "se")),
    toNumber (field (js "bu")), toNumber (field (js "bc")))

def AutoBanRecord.numbers (r : AutoBanRecord) : ℚ × ℚ × ℚ × ℚ :=
  (r.strikes, r.strikeExpiresMs, r.bannedUntilMs, r.banCount)

/-- `strike`, of the store of one process, on one key. -/
def memoryStrike (key : JsString) (m : MemoryAutoBanStore) (call : AutoBanStrikePolicy × ℤ) :
    MemoryAutoBanStore × AutoBanStrikeResult :=
  m.strike key call.1 call.2

/-! ## Two stores with one record -/

/-- The hash has the record, and lives as long. -/
structure HashOf (hash : RedisHash) (entry : Entry) : Prop where
  strikes : hash.fields.get? (js "s") = some (integerText entry.record.strikes)
  strikeExpiresMs : hash.fields.get? (js "se") = some (integerText entry.record.strikeExpiresMs)
  bannedUntilMs : hash.fields.get? (js "bu") = some (integerText entry.record.bannedUntilMs)
  banCount : hash.fields.get? (js "bc") = some (integerText entry.record.banCount)
  expiresMs : hash.expiresMs = some entry.expiresMs

def Same (hash : Option RedisHash) (entry : Option Entry) : Prop :=
  match hash, entry with
  | none, none => True
  | some h, some e => HashOf h e
  | _, _ => False

def Safe (n : ℤ) : Prop := |n| ≤ maxSafe

instance (n : ℤ) : Decidable (Safe n) := inferInstanceAs (Decidable (|n| ≤ maxSafe))

structure Representable (calls : List (AutoBanStrikePolicy × ℤ)) : Prop where
  count : (calls.length : ℤ) < maxSafe
  own : ∀ call ∈ calls, Safe call.2 ∧ Safe call.1.windowMs ∧ Safe call.1.maxStrikes ∧
    Safe call.1.banMs ∧ Safe call.1.maxBanMs ∧ Safe (call.2 + call.1.windowMs) ∧
    Safe (call.2 + call.1.banMs) ∧ Safe (call.2 + call.1.maxBanMs)
  cross : ∀ call ∈ calls, ∀ other ∈ calls, Safe (call.2 + call.1.banMs - other.2) ∧
    Safe (call.2 + call.1.maxBanMs - other.2)

/-- The members of a record are exact, after so many strikes. -/
structure Exact (calls : List (AutoBanStrikePolicy × ℤ)) (done : ℕ) (record : AutoBanRecord) :
    Prop where
  strikes : record.strikes ≤ done
  banCount : record.banCount ≤ done
  strikeExpiresMs : Safe record.strikeExpiresMs
  bannedUntilMs : Safe record.bannedUntilMs
  cross : ∀ other ∈ calls, Safe (record.bannedUntilMs - other.2)

/-! ## Texts of small integers -/

theorem tonumber_integerText {n : ℤ} (h : Safe n) :
    tonumber (some (integerText n)) = some (.int n) := by
  rw [tonumber, Option.filter_some, if_pos (decide_eq_true (integerText_ne_nil n)),
    Option.bind_some, number_integerText, toDouble_int h]
  rfl

theorem toNumber_integerText {n : ℤ} (h : Safe n) : toNumber (some (integerText n)) = n := by
  rw [toNumber, Option.bind_some, number_integerText, toDouble_int h]
  rfl

theorem truncated_int {n : ℤ} (h : Safe n) : truncated (.int n) = some n := by
  have hlt : |(n : ℚ)| < 2 ^ 63 := by
    have hle : |n| < 2 ^ 63 := by
      unfold Safe maxSafe at h
      omega
    exact_mod_cast hle
  rw [Quantity.int, truncated, if_pos hlt]
  simp

theorem safe_natCast {k n : ℕ} (h : k ≤ n) (hn : (n : ℤ) < maxSafe) : Safe k := by
  rw [Safe, abs_of_nonneg (by omega)]
  omega

theorem safe_zero_sub {n : ℤ} (h : Safe n) : Safe (0 - n) := by
  unfold Safe at h ⊢
  rw [abs_le] at h ⊢
  omega

theorem safe_between {x a b d : ℤ} (ha : Safe (x + a)) (hb : Safe (x + b)) (hmin : min a b ≤ d)
    (hmax : d ≤ max a b) : Safe (x + d) := by
  unfold Safe at ha hb ⊢
  rw [abs_le] at ha hb ⊢
  omega

/-! ## One strike -/

theorem banDuration_between (policy : AutoBanStrikePolicy) (hpos : 0 < policy.banMs) (n : ℕ) :
    min policy.banMs policy.maxBanMs ≤ banDuration policy n ∧
      banDuration policy n ≤ max policy.banMs policy.maxBanMs := by
  have hgrows : policy.banMs ≤ policy.banMs * 2 ^ (n - 1) :=
    le_mul_of_one_le_right hpos.le (one_le_pow₀ (by norm_num))
  rw [banDuration]
  split
  · omega
  · omega

/-- What the script reads, for what the store of one process has. -/
structure Reads (hash : Option RedisHash) (record : Option AutoBanRecord) : Prop where
  s : (tonumber (hmget hash (js "s"))).getD (.int 0) =
    .int ((record.map AutoBanRecord.strikes).getD 0 : ℕ)
  se : (tonumber (hmget hash (js "se"))).getD (.int 0) =
    .int ((record.map AutoBanRecord.strikeExpiresMs).getD 0)
  bu : (tonumber (hmget hash (js "bu"))).getD (.int 0) =
    .int ((record.map AutoBanRecord.bannedUntilMs).getD 0)
  bc : (tonumber (hmget hash (js "bc"))).getD (.int 0) =
    .int ((record.map AutoBanRecord.banCount).getD 0 : ℕ)

/-- What one strike meets. -/
structure Meets (record : Option AutoBanRecord) (policy : AutoBanStrikePolicy) (now : ℤ) :
    Prop where
  banPos : 0 < policy.banMs
  clock : Safe now
  windowMs : Safe policy.windowMs
  maxStrikes : Safe policy.maxStrikes
  banMs : Safe policy.banMs
  maxBanMs : Safe policy.maxBanMs
  strikes : Safe ((countedStrikes record now : ℤ) + 1)
  banCount : Safe (((record.map AutoBanRecord.banCount).getD 0 : ℕ) + 1 : ℤ)
  window : Safe (now + policy.windowMs)
  bannedUntilMs : Safe ((record.map AutoBanRecord.bannedUntilMs).getD 0)
  ban : Safe (now + policy.banMs) ∧ Safe (now + policy.maxBanMs)
  left : Safe ((record.map AutoBanRecord.bannedUntilMs).getD 0 - now)

theorem counted_eq (record : Option AutoBanRecord) (now : ℤ) :
    (if (Quantity.int ((record.map AutoBanRecord.strikeExpiresMs).getD 0)).le (.int now) then
      Quantity.int 0 else .int ((record.map AutoBanRecord.strikes).getD 0 : ℕ)) =
      .int (countedStrikes record now) := by
  rw [Quantity.le_int]
  cases record with
  | none =>
    rw [countedStrikes]
    simp
  | some r =>
    rw [countedStrikes]
    by_cases h : r.strikeExpiresMs ≤ now
    · have hnot : ¬ r.strikeExpiresMs > now := by omega
      simp [h, hnot]
    · have hgt : r.strikeExpiresMs > now := by omega
      simp [h, hgt]

theorem duration_eq {policy : AutoBanStrikePolicy} {now : ℤ} (hpos : 0 < policy.banMs)
    (hmax : Safe policy.maxBanMs) {n : ℕ} (hn : Safe n) :
    (if (strikeArguments policy now).escalate = js "1" then
      (Quantity.int policy.maxBanMs).luaMin
        ((Quantity.int policy.banMs).mul ((Quantity.int (n + 1)).sub (.int 1)).twoTo)
      else .int policy.banMs) = .int (banDuration policy (n + 1)) := by
  have hcount : (Quantity.int (n + 1)).sub (.int 1) = .int n := by
    rw [Quantity.sub_int (by rwa [add_sub_cancel_right]), add_sub_cancel_right]
  rw [hcount, Quantity.luaMin_scaled hpos hmax, banDuration, strikeArguments]
  cases policy.escalate with
  | true => rfl
  | false => rfl

variable {hash : Option RedisHash} {record : Option AutoBanRecord} {policy : AutoBanStrikePolicy}
  {now : ℤ}

def replyOf (r : AutoBanStrikeResult) : List ℤ :=
  [r.strikes, if r.banned then 1 else 0, r.banCount, r.banDurationMs, r.bannedUntilMs]

def hashOf (hash : Option RedisHash) (next : Struck) (now : ℤ) : RedisHash :=
  { hset hash [(js "s", integerText next.record.strikes),
      (js "se", integerText next.record.strikeExpiresMs),
      (js "bu", integerText next.record.bannedUntilMs),
      (js "bc", integerText next.record.banCount)] with
    expiresMs := some (now + max 1 next.ttlMs) }

theorem written_eq {strikes s se bu bc dur flag : ℤ} (hstrikes : Safe strikes) (hs : Safe s)
    (hse : Safe se) (hbu : Safe bu) (hbc : Safe bc) (hdur : Safe dur) (hflag : Safe flag)
    (hleft : Safe (max se bu - now)) :
    ((truncated (.int s)).bind fun a => (truncated (.int se)).bind fun b =>
      (truncated (.int bu)).bind fun c => (truncated (.int bc)).bind fun d =>
        (truncated ((Quantity.int 1).luaMax (((Quantity.int se).luaMax (.int bu)).sub
          (.int now)))).bind fun ttl =>
          ([Quantity.int strikes, .int flag, .int bc, .int dur, .int bu].mapM truncated).bind
            fun reply => (pure (pexpire (hset hash [(js "s", integerText a), (js "se", integerText b),
              (js "bu", integerText c), (js "bc", integerText d)]) ttl now, reply) :
                Option (Option RedisHash × List ℤ))) =
      some (some { hset hash [(js "s", integerText s), (js "se", integerText se),
        (js "bu", integerText bu), (js "bc", integerText bc)] with
          expiresMs := some (now + max 1 (max se bu - now)) }, [strikes, flag, bc, dur, bu]) := by
  have hreply : [Quantity.int strikes, .int flag, .int bc, .int dur, .int bu].mapM truncated =
      some [strikes, flag, bc, dur, bu] := by
    simp only [List.mapM_cons, List.mapM_nil, truncated_int hstrikes, truncated_int hflag,
      truncated_int hbc, truncated_int hdur, truncated_int hbu]
    rfl
  have httl : Safe (max 1 (max se bu - now)) := by
    obtain hmax | hmax := max_choice 1 (max se bu - now)
    · rw [hmax]
      decide
    · rwa [hmax]
  rw [Quantity.luaMax_int, Quantity.sub_int hleft, Quantity.luaMax_int, truncated_int hs,
    truncated_int hse, truncated_int hbu, truncated_int hbc, truncated_int httl, hreply]
  simp only [Option.bind_some]
  rw [pexpire, if_neg (by omega)]
  rfl

/-- **The script is `applyAutoBanStrike`**, on small integers, but for a lifetime that is not to
come. -/
theorem abStrike_eq (hreads : Reads (RedisHash.live hash now) record)
    (h : Meets record policy now) :
    abStrike hash now (strikeArguments policy now) =
      some (some (hashOf (RedisHash.live hash now) (applyAutoBanStrike record policy now) now),
        replyOf (applyAutoBanStrike record policy now).result) := by
  have hzero : Safe 0 := by decide
  have hone : Safe 1 := by decide
  have hargs : tonumber (some (strikeArguments policy now).now) = some (.int now) ∧
      tonumber (some (strikeArguments policy now).windowMs) = some (.int policy.windowMs) ∧
      tonumber (some (strikeArguments policy now).maxStrikes) = some (.int policy.maxStrikes) ∧
      tonumber (some (strikeArguments policy now).banMs) = some (.int policy.banMs) ∧
      tonumber (some (strikeArguments policy now).maxBanMs) = some (.int policy.maxBanMs) :=
    ⟨tonumber_integerText h.clock, tonumber_integerText h.windowMs, tonumber_integerText h.maxStrikes,
      tonumber_integerText h.banMs, tonumber_integerText h.maxBanMs⟩
  obtain ⟨hnow, hwindow, hmaxStrikes, hbanMs, hmaxBanMs⟩ := hargs
  have hstrikes : (Quantity.int (countedStrikes record now)).add (.int 1) =
      .int ((countedStrikes record now : ℤ) + 1) := Quantity.add_int h.strikes
  have hse : (Quantity.int now).add (.int policy.windowMs) = .int (now + policy.windowMs) :=
    Quantity.add_int h.window
  have hle : (Quantity.int policy.maxStrikes).le (.int ((countedStrikes record now : ℤ) + 1)) =
      decide (policy.maxStrikes ≤ (countedStrikes record now : ℤ) + 1) := Quantity.le_int
  rw [abStrike]
  simp only [hnow, hwindow, hmaxStrikes, hbanMs, hmaxBanMs, hreads.s, hreads.se, hreads.bu,
    hreads.bc, counted_eq, hstrikes, hse, hle, Option.bind_eq_bind, Option.bind_some]
  have hcount : Safe ((record.map AutoBanRecord.banCount).getD 0 : ℕ) := by
    have hnext := h.banCount
    unfold Safe at hnext ⊢
    rw [abs_le] at hnext ⊢
    omega
  by_cases hban : policy.maxStrikes ≤ (countedStrikes record now : ℤ) + 1
  · have hbc : (Quantity.int ((record.map AutoBanRecord.banCount).getD 0 : ℕ)).add (.int 1) =
        .int (((record.map AutoBanRecord.banCount).getD 0 : ℕ) + 1) := Quantity.add_int h.banCount
    obtain ⟨hmin, hmax⟩ := banDuration_between policy h.banPos
      ((record.map AutoBanRecord.banCount).getD 0 + 1)
    have hduration := safe_between h.ban.1 h.ban.2 hmin hmax
    have hadd : (Quantity.int now).add (.int (banDuration policy
        ((record.map AutoBanRecord.banCount).getD 0 + 1))) = .int (now + _) :=
      Quantity.add_int hduration
    have hdur : Safe (banDuration policy ((record.map AutoBanRecord.banCount).getD 0 + 1)) := by
      have hban := h.banMs
      have hcap := h.maxBanMs
      unfold Safe at hban hcap ⊢
      rw [abs_le] at hban hcap ⊢
      omega
    have hleft : Safe (max (now + policy.windowMs) (now + banDuration policy
        ((record.map AutoBanRecord.banCount).getD 0 + 1)) - now) := by
      have hspan := h.windowMs
      unfold Safe at hspan hdur ⊢
      rw [abs_le] at hspan hdur ⊢
      omega
    simp only [hban, decide_true, if_true, hbc, duration_eq h.banPos h.maxBanMs hcount, hadd]
    rw [written_eq h.strikes hzero h.window hduration h.banCount hdur hone hleft,
      applyAutoBanStrike_ban _ _ _ (by push_cast; exact hban)]
    rfl
  · have hleft : Safe (max (now + policy.windowMs)
        ((record.map AutoBanRecord.bannedUntilMs).getD 0) - now) := by
      have hspan := h.windowMs
      have hrest := h.left
      unfold Safe at hspan hrest ⊢
      rw [abs_le] at hspan hrest ⊢
      omega
    simp only [hban, decide_false, Bool.false_eq_true, if_false]
    rw [written_eq h.strikes h.strikes h.window h.bannedUntilMs hcount hzero hzero hleft,
      applyAutoBanStrike_count _ _ _ (by push_cast; exact hban)]
    rfl

/-! ## A run of strikes -/

/-- What the script leaves is what `applyAutoBanStrike` makes, if that lives at all. -/
theorem hashOf_hashOf (hash : Option RedisHash) {next : Struck} (hpos : 0 < next.ttlMs) (now : ℤ) :
    HashOf (hashOf hash next now) ⟨next.record, now + next.ttlMs⟩ := by
  have hnames : js "s" ≠ js "se" ∧ js "s" ≠ js "bu" ∧ js "s" ≠ js "bc" ∧ js "se" ≠ js "bu" ∧
      js "se" ≠ js "bc" ∧ js "bu" ≠ js "bc" := by decide
  obtain ⟨h1, h2, h3, h4, h5, h6⟩ := hnames
  have hmax : max 1 next.ttlMs = next.ttlMs := max_eq_right (by omega)
  refine ⟨?_, ?_, ?_, ?_, by rw [hashOf, hmax]⟩
  all_goals simp [hashOf, hset, JsMap.get?_set, h1, h2, h3, h4, h5, h6]

theorem same_live {hash : Option RedisHash} {entry : Option Entry} (h : Same hash entry) (now : ℤ) :
    Same (RedisHash.live hash now) (entry.filter fun e => e.expiresMs > now) := by
  cases hash with
  | none =>
    cases entry with
    | none => exact h
    | some e => exact absurd h id
  | some s =>
    cases entry with
    | none => exact absurd h id
    | some e =>
      have hexpires := (h : HashOf s e).expiresMs
      rw [RedisHash.live, Option.filter_some, Option.filter_some, hexpires]
      by_cases hlives : e.expiresMs > now
      · have hnot : ¬ e.expiresMs ≤ now := by omega
        simpa [hlives, hnot] using h
      · have hle : e.expiresMs ≤ now := by omega
        simp [hlives, hle, Same]

theorem reads_of_same {hash : Option RedisHash} {entry : Option Entry} (h : Same hash entry)
    {calls : List (AutoBanStrikePolicy × ℤ)} {done : ℕ} (hdone : (done : ℤ) < maxSafe)
    (hexact : ∀ e, entry = some e → Exact calls done e.record) :
    Reads hash (entry.map Entry.record) := by
  cases hash with
  | none =>
    cases entry with
    | none => exact ⟨rfl, rfl, rfl, rfl⟩
    | some e => exact absurd h id
  | some s =>
    cases entry with
    | none => exact absurd h id
    | some e =>
      have hhash : HashOf s e := h
      have he := hexact e rfl
      refine ⟨?_, ?_, ?_, ?_⟩
      · rw [hmget, Option.bind_some, hhash.strikes,
          tonumber_integerText (safe_natCast he.strikes hdone)]
        rfl
      · rw [hmget, Option.bind_some, hhash.strikeExpiresMs, tonumber_integerText he.strikeExpiresMs]
        rfl
      · rw [hmget, Option.bind_some, hhash.bannedUntilMs, tonumber_integerText he.bannedUntilMs]
        rfl
      · rw [hmget, Option.bind_some, hhash.banCount,
          tonumber_integerText (safe_natCast he.banCount hdone)]
        rfl

theorem countedStrikes_le (record : Option AutoBanRecord) (now : ℤ) :
    countedStrikes record now ≤ (record.map AutoBanRecord.strikes).getD 0 := by
  cases record with
  | none => exact le_rfl
  | some r =>
    rw [countedStrikes]
    split
    · exact le_rfl
    · exact Nat.zero_le _

section Run

variable {calls : List (AutoBanStrikePolicy × ℤ)} (hrepresentable : Representable calls)
  (hpos : ∀ call ∈ calls, 0 < call.1.windowMs ∧ 0 < call.1.banMs)
include hrepresentable hpos

theorem meets_of_exact {call : AutoBanStrikePolicy × ℤ} (hcall : call ∈ calls) {done : ℕ}
    (hdone : done < calls.length) {record : Option AutoBanRecord}
    (hexact : ∀ r, record = some r → Exact calls done r) : Meets record call.1 call.2 := by
  obtain ⟨hclock, hwindow, hstrikes, hban, hcap, hend, hbanned, hcapped⟩ :=
    hrepresentable.own call hcall
  have hlength := hrepresentable.count
  have hcounted := countedStrikes_le record call.2
  have hcounts : (record.map AutoBanRecord.strikes).getD 0 ≤ done ∧
      (record.map AutoBanRecord.banCount).getD 0 ≤ done := by
    cases record with
    | none => exact ⟨Nat.zero_le _, Nat.zero_le _⟩
    | some r => exact ⟨(hexact r rfl).strikes, (hexact r rfl).banCount⟩
  refine ⟨(hpos call hcall).2, hclock, hwindow, hstrikes, hban, hcap, ?_, ?_, hend, ?_,
    ⟨hbanned, hcapped⟩, ?_⟩
  · have hsafe := safe_natCast (k := countedStrikes record call.2 + 1) (n := done + 1) (by omega)
      (by push_cast; omega)
    exact_mod_cast hsafe
  · have hsafe := safe_natCast (k := (record.map AutoBanRecord.banCount).getD 0 + 1) (n := done + 1)
      (by omega) (by push_cast; omega)
    exact_mod_cast hsafe
  · cases record with
    | none => exact (by decide : Safe 0)
    | some r => exact (hexact r rfl).bannedUntilMs
  · cases record with
    | none => exact safe_zero_sub hclock
    | some r => exact (hexact r rfl).cross call hcall

theorem exact_struck {call : AutoBanStrikePolicy × ℤ} (hcall : call ∈ calls) {done : ℕ}
    {record : Option AutoBanRecord} (hexact : ∀ r, record = some r → Exact calls done r) :
    Exact calls (done + 1) (applyAutoBanStrike record call.1 call.2).record := by
  obtain ⟨hclock, hwindow, hstrikes, hban, hcap, hend, hbanned, hcapped⟩ :=
    hrepresentable.own call hcall
  have hcounted := countedStrikes_le record call.2
  have hcounts : (record.map AutoBanRecord.strikes).getD 0 ≤ done ∧
      (record.map AutoBanRecord.banCount).getD 0 ≤ done := by
    cases record with
    | none => exact ⟨Nat.zero_le _, Nat.zero_le _⟩
    | some r => exact ⟨(hexact r rfl).strikes, (hexact r rfl).banCount⟩
  by_cases h : call.1.maxStrikes ≤ (countedStrikes record call.2 + 1 : ℕ)
  · rw [applyAutoBanStrike_ban _ _ _ h]
    obtain ⟨hmin, hmax⟩ := banDuration_between call.1 (hpos call hcall).2
      ((record.map AutoBanRecord.banCount).getD 0 + 1)
    refine ⟨Nat.zero_le _, by dsimp only; omega, hend, safe_between hbanned hcapped hmin hmax, ?_⟩
    intro other hother
    obtain ⟨hcross, hcross'⟩ := hrepresentable.cross call hcall other hother
    dsimp only
    unfold Safe at hcross hcross' ⊢
    rw [abs_le] at hcross hcross' ⊢
    omega
  · rw [applyAutoBanStrike_count _ _ _ h]
    refine ⟨by dsimp only; omega, by dsimp only; omega, hend, ?_, ?_⟩
    · cases record with
      | none => exact (by decide : Safe 0)
      | some r => exact (hexact r rfl).bannedUntilMs
    · intro other hother
      cases record with
      | none =>
        obtain ⟨hother, -⟩ := hrepresentable.own other hother
        exact safe_zero_sub hother
      | some r => exact (hexact r rfl).cross other hother

omit hpos in
theorem representable_take {done later : List (AutoBanStrikePolicy × ℤ)}
    (h : calls = done ++ later) : Representable done := by
  have hmem : ∀ call ∈ done, call ∈ calls := fun call hcall => by simp [h, hcall]
  refine ⟨?_, fun call hcall => hrepresentable.own call (hmem call hcall),
    fun call hcall other hother =>
      hrepresentable.cross call (hmem call hcall) other (hmem other hother)⟩
  have hcount := hrepresentable.count
  rw [h, List.length_append] at hcount
  push_cast at hcount
  omega

theorem same_strike {call : AutoBanStrikePolicy × ℤ} (hcall : call ∈ calls) {done : ℕ}
    (hdone : done < calls.length) (key : JsString) {hash : Option RedisHash}
    {m : MemoryAutoBanStore} (hsame : Same hash (m.get? key))
    (hexact : ∀ e, m.get? key = some e → Exact calls done e.record) :
    (redisStrike hash call).2 = some (memoryStrike key m call).2.numbers ∧
      Same (redisStrike hash call).1 ((memoryStrike key m call).1.get? key) ∧
      ∀ e, (memoryStrike key m call).1.get? key = some e → Exact calls (done + 1) e.record := by
  have hrecord : ∀ r, m.live key call.2 = some r → Exact calls done r := by
    intro r hr
    obtain ⟨e, he, rfl⟩ := Option.map_eq_some_iff.mp hr
    exact hexact e (Option.filter_eq_some_iff.mp he).1
  have hlength := hrepresentable.count
  have hreads : Reads (RedisHash.live hash call.2) (m.live key call.2) :=
    reads_of_same (same_live hsame call.2) (by omega)
      fun e he => hexact e (Option.filter_eq_some_iff.mp he).1
  have hscript := abStrike_eq hreads (meets_of_exact hrepresentable hpos hcall hdone hrecord)
  have hlife : 0 < (applyAutoBanStrike (m.live key call.2) call.1 call.2).ttlMs := by
    obtain ⟨-, hend⟩ := struck_lifetime (m.live key call.2) call.1 call.2
    have hwindow := (hpos call hcall).1
    omega
  have hget : (memoryStrike key m call).1.get? key =
      some ⟨(applyAutoBanStrike (m.live key call.2) call.1 call.2).record,
        call.2 + (applyAutoBanStrike (m.live key call.2) call.1 call.2).ttlMs⟩ :=
    MemoryAutoBanStore.get?_strike m key call.1 call.2 hlife
  refine ⟨?_, ?_, ?_⟩
  · rw [redisStrike, hscript, replyOf, memoryStrike, MemoryAutoBanStore.strike_snd]
    dsimp only
    rw [AutoBanStrikeResult.numbers]
    congr 2
    cases (applyAutoBanStrike (m.live key call.2) call.1 call.2).result.banned <;> decide
  · rw [hget, redisStrike, hscript, replyOf]
    exact hashOf_hashOf _ hlife call.2
  · intro e he
    rw [hget] at he
    obtain rfl := Option.some.inj he
    exact exact_struck hrepresentable hpos hcall hrecord

theorem same_run (key : JsString) (rest : List (AutoBanStrikePolicy × ℤ))
    (hrest : ∀ call ∈ rest, call ∈ calls) {done : ℕ} (hdone : done + rest.length ≤ calls.length)
    {hash : Option RedisHash} {m : MemoryAutoBanStore} (hsame : Same hash (m.get? key))
    (hexact : ∀ e, m.get? key = some e → Exact calls done e.record) :
    (feed redisStrike hash rest).2 =
        (feed (memoryStrike key) m rest).2.map (fun r => some r.numbers) ∧
      Same (feed redisStrike hash rest).1 ((feed (memoryStrike key) m rest).1.get? key) ∧
      ∀ e, (feed (memoryStrike key) m rest).1.get? key = some e →
        Exact calls (done + rest.length) e.record := by
  induction rest generalizing hash m done with
  | nil => exact ⟨rfl, hsame, hexact⟩
  | cons call rest ih =>
    rw [List.length_cons] at hdone
    obtain ⟨hresult, hsame', hexact'⟩ := same_strike hrepresentable hpos
      (hrest call List.mem_cons_self) (by omega) key hsame hexact
    obtain ⟨hresults, hlast, hend⟩ := ih (fun c hc => hrest c (List.mem_cons_of_mem _ hc))
      (by omega) hsame' hexact'
    rw [feed_cons, feed_cons]
    refine ⟨?_, hlast, ?_⟩
    · rw [hresult, hresults]
      rfl
    · intro e he
      have hrecord := hend e he
      rwa [show done + (call :: rest).length = done + 1 + rest.length by
        rw [List.length_cons]; omega]

end Run

theorem redisGet_of_same {hash : Option RedisHash} {m : MemoryAutoBanStore} {key : JsString}
    (h : Same hash (m.get? key)) {calls : List (AutoBanStrikePolicy × ℤ)} {done : ℕ}
    (hdone : (done : ℤ) < maxSafe)
    (hexact : ∀ e, m.get? key = some e → Exact calls done e.record) (now : ℤ) :
    redisGet hash now = (m.get key now).2.map AutoBanRecord.numbers := by
  rw [MemoryAutoBanStore.get_snd, MemoryAutoBanStore.live, redisGet]
  have hlive := same_live h now
  revert hlive
  cases hread : RedisHash.live hash now with
  | none =>
    cases hentry : (m.get? key).filter fun e => e.expiresMs > now with
    | none =>
      intro hlive
      rfl
    | some e =>
      intro hlive
      exact absurd hlive id
  | some s =>
    cases hentry : (m.get? key).filter fun e => e.expiresMs > now with
    | none =>
      intro hlive
      exact absurd hlive id
    | some e =>
      intro hlive
      have hhash : HashOf s e := hlive
      have he := hexact e ((Option.filter_eq_some_iff.mp hentry).1)
      dsimp only [hmget]
      rw [Option.bind_some, Option.bind_some, Option.bind_some, Option.bind_some, hhash.strikes,
        hhash.strikeExpiresMs, hhash.bannedUntilMs, hhash.banCount, Option.map_some,
        toNumber_integerText (safe_natCast he.strikes hdone),
        toNumber_integerText he.strikeExpiresMs, toNumber_integerText he.bannedUntilMs,
        toNumber_integerText (safe_natCast he.banCount hdone)]
      rfl

/-- After these strikes on a key that is new, the stores have the same record with the same
lifetime, `get` reads it, and every strike gave the same. -/
structure StoresAgree (key : JsString) (calls : List (AutoBanStrikePolicy × ℤ)) : Prop where
  results : (feed redisStrike none calls).2 =
    (feed (memoryStrike key) ∅ calls).2.map fun r => some r.numbers
  same : Same (feed redisStrike none calls).1 ((feed (memoryStrike key) ∅ calls).1.get? key)
  get : ∀ now, redisGet (feed redisStrike none calls).1 now =
    ((feed (memoryStrike key) ∅ calls).1.get key now).2.map AutoBanRecord.numbers

/-- **The script of Redis is the strike of one process**, after every strike of a run. -/
theorem redis_strikes (key : JsString) (calls : List (AutoBanStrikePolicy × ℤ))
    (hrepresentable : Representable calls)
    (hpos : ∀ call ∈ calls, 0 < call.1.windowMs ∧ 0 < call.1.banMs) :
    ∀ done later, calls = done ++ later → StoresAgree key done := by
  intro done later hsplit
  have hdone := representable_take hrepresentable hsplit
  have hsame : Same none ((∅ : MemoryAutoBanStore).get? key) := trivial
  have hlength : 0 + done.length ≤ done.length := by omega
  obtain ⟨hresults, hlast, hexact⟩ := same_run hdone
    (fun call hcall => hpos call (by simp [hsplit, hcall])) key done (fun _ h => h) hlength hsame
    (by intro e he; cases he)
  exact ⟨hresults, hlast, redisGet_of_same hlast (by have := hdone.count; omega) hexact⟩

def doubledBan : List (AutoBanStrikePolicy × ℤ) :=
  [(⟨1000, 1, 60, 500, true⟩, 5), (⟨1000, 1, 60, 500, true⟩, 6), (⟨1000, 2, 60, 500, true⟩, 1100)]

theorem redis_strikes_three : StoresAgree (js "k") doubledBan :=
  redis_strikes (js "k") doubledBan ⟨by decide, by decide, by decide⟩ (by decide) doubledBan []
    rfl

/-- Without a window the hash lives for a millisecond more; and without a length, the bans get one
when their number is no exponent of a double any more. -/
theorem redis_strike_zero_window :
    Representable [(⟨0, 2, 1, 1, false⟩, 5)] ∧ ¬ StoresAgree (js "k") [(⟨0, 2, 1, 1, false⟩, 5)] ∧
      Quantity.jsMin (.int 60) ((Quantity.int 0).mul (.twoTo (.int (1024 : ℕ)))) = .nan ∧
      Quantity.luaMin (.int 60) ((Quantity.int 0).mul (.twoTo (.int (1024 : ℕ)))) = .int 60 := by
  refine ⟨⟨by decide, by decide, by decide⟩, ?_, ?_, ?_⟩
  · intro h
    have hmemory : ((feed (memoryStrike (js "k")) ∅ [(⟨0, 2, 1, 1, false⟩, 5)]).1.get
        (js "k") 5).2 = none := by decide
    have hmeets : Meets none ⟨0, 2, 1, 1, false⟩ 5 :=
      ⟨by decide, by decide, by decide, by decide, by decide, by decide, by decide, by decide,
        by decide, by decide, by decide, by decide⟩
    have hscript := @abStrike_eq none none _ _ ⟨rfl, rfl, rfl, rfl⟩ hmeets
    have hget := h.get 5
    rw [hmemory, feed_cons, redisStrike, hscript, redisGet] at hget
    have hfield : hmget (RedisHash.live (some (hashOf none (applyAutoBanStrike none
        ⟨0, 2, 1, 1, false⟩ 5) 5)) 5) (js "s") = none := Option.map_eq_none_iff.mp hget
    exact absurd hfield (by decide)
  · rw [Quantity.twoTo_overflow le_rfl]
    rfl
  · rw [Quantity.twoTo_overflow le_rfl]
    decide

end Daloy.AutoBan
