import Daloy.ResponseCache.Cache

/-! # The response cache keeps principals apart

* `answers_share`: an entry is served to requests that agree with the one it was stored for in
  everything that the keys are made of.
* `crossed_answers`: the empty principal is none, and an absent field has the empty value.
-/

namespace Daloy.ResponseCache
set_option autoImplicit false

open Daloy.Fallible Daloy.Http Daloy.Runs Daloy.Unicode

variable {opts : ResponseCacheOptions} {number : JsString → Option ℕ}
  {requests : ℕ → CacheRequest} {s s' : Server}

/-- What two requests share when one is answered with a response to the other. -/
structure Shares (opts : ResponseCacheOptions) (req origin : CacheRequest) (res : Response) :
    Prop where
  same : SameKey opts req origin
  declared : ∀ name ∈ varyNames (res.headers.get? (js "vary")),
    req.headers.value name = origin.headers.value name
  anonymous : req.principalId = none →
    req.unhandled opts = false ∧ origin.unhandled opts = false

/-! ## What is stored -/

def Keyed (opts : ResponseCacheOptions) (req : CacheRequest) (key : JsString) : Prop :=
  ∃ bypassRead, primaryKey opts req = .ok (some (key, bypassRead))

/-- The entry says which fields its response varies on, and what they were. -/
inductive Entered (req : CacheRequest) (key : JsString) (stored : StoredCall) : Prop
  | plain (hvary : parseVary (stored.res.headers.get? (js "vary")) = some [])
      (hentry : stored.entry.vary = none) (hkey : stored.key = key)
  | variant {fields : List JsString} {varyKey : JsString}
      (hvary : parseVary (stored.res.headers.get? (js "vary")) = some fields)
      (hfields : fields ≠ []) (hvaryKey : varyKeyFor req.headers fields = .ok varyKey)
      (hentry : stored.entry.vary = some fields) (hentryKey : stored.entry.varyKey = some varyKey)
      (hkey : stored.key = key ∨ stored.key = variantKey key varyKey)

/-- A call of `set` puts an entry under a key of its request. -/
def Written (opts : ResponseCacheOptions) (requests : ℕ → CacheRequest) (stored : StoredCall) :
    Prop :=
  ∃ key, Keyed opts (requests stored.request) key ∧
    Entered (requests stored.request) key stored

theorem mem_parseVary {raw : Option JsString} {fields : List JsString}
    (h : parseVary raw = some fields) {name : JsString} (hname : name ∈ varyNames raw) :
    name ∈ fields := by
  rw [parseVary] at h
  split at h
  · simp at h
  · rw [← Option.some.inj h, List.mem_insertionSort, List.mem_dedup]
    exact hname

theorem isTail_variantKey (varyKey : JsString) : IsTail (0x00 :: 0x76 :: 0x00 :: varyKey) :=
  .inr ⟨_, rfl⟩

theorem Written.sameKey {stored : StoredCall} (h : Written opts requests stored)
    {req : CacheRequest} {key tail : JsString} (hkeyed : Keyed opts req key) (htail : IsTail tail)
    (hfound : stored.key = key ++ tail) : SameKey opts req (requests stored.request) := by
  obtain ⟨key', ⟨bypassRead', hkey'⟩, hentered⟩ := h
  obtain ⟨bypassRead, hkey⟩ := hkeyed
  have hstored : ∃ tail', IsTail tail' ∧ stored.key = key' ++ tail' := by
    cases hentered with
    | plain hvary hentry hkey => exact ⟨[], .inl rfl, by rw [hkey, List.append_nil]⟩
    | variant hvary hfields hvaryKey hentry hentryKey hkey =>
      rcases hkey with hkey | hkey
      · exact ⟨[], .inl rfl, by rw [hkey, List.append_nil]⟩
      · exact ⟨_, isTail_variantKey _, hkey⟩
  obtain ⟨tail', htail', heq⟩ := hstored
  exact (primaryKey_inj hkey hkey' htail htail' (hfound.symm.trans heq)).1

theorem Written.shares {stored : StoredCall} (h : Written opts requests stored)
    {req : CacheRequest} {key tail : JsString} (hkeyed : Keyed opts req key) (htail : IsTail tail)
    (hfound : stored.key = key ++ tail)
    (hvary : stored.entry.vary.getD [] ≠ [] →
      ∃ wanted, varyKeyFor req.headers (stored.entry.vary.getD []) = .ok wanted ∧
        stored.entry.varyKey = some wanted) :
    Shares opts req (requests stored.request) stored.res := by
  have hsame := h.sameKey hkeyed htail hfound
  refine ⟨hsame, ?_, ?_⟩
  · intro name hname
    obtain ⟨key', -, hentered⟩ := h
    cases hentered with
    | plain hparse hentry hkey => exact absurd (mem_parseVary hparse hname) (by simp)
    | variant hparse hfields hvaryKey hentry hentryKey hkey =>
      rw [hentry] at hvary
      obtain ⟨wanted, hwanted, hentryKey'⟩ := hvary hfields
      rw [hentryKey] at hentryKey'
      obtain rfl := Option.some.inj hentryKey'
      exact varyKeyFor_inj hwanted hvaryKey name (mem_parseVary hparse hname)
  · intro hnone
    obtain ⟨bypassRead, hkey⟩ := hkeyed
    obtain ⟨key', ⟨bypassRead', hkey'⟩, -⟩ := h
    exact ⟨(primaryKey_eq hkey).1 hnone, (primaryKey_eq hkey').1 (hsame.principal ▸ hnone)⟩

/-! ## The invariant -/

/-- What a request holds is made of its own key. -/
structure Call.Sound (opts : ResponseCacheOptions) (requests : ℕ → CacheRequest) (r : ℕ) (c : Call) :
    Prop where
  looking : ∀ {key}, c.phase = .looking key → Keyed opts (requests r) key
  lookingVariant : ∀ {key servedKey}, c.phase = .lookingVariant key servedKey →
    Keyed opts (requests r) key ∧ ∃ wanted, servedKey = variantKey key wanted
  answered : ∀ {response stored}, c.phase = .answered response stored →
    Shares opts (requests r) (requests stored.request) stored.res
  pending : ∀ key ∈ c.pending, Keyed opts (requests r) key
  capturing : ∀ held ∈ c.capturing, Keyed opts (requests r) held.1 ∧
    parseVary (held.2.1.headers.get? (js "vary")) = some held.2.2.2
  setting : ∀ stored ∈ c.setting, Written opts requests stored

structure Server.Inv (opts : ResponseCacheOptions) (requests : ℕ → CacheRequest) (s : Server) :
    Prop where
  calls : ∀ r, (s.call r).Sound opts requests r
  written : ∀ stored ∈ s.sets, Written opts requests stored

namespace Call.Sound
variable {r : ℕ} {c : Call}

theorem setPhase (h : c.Sound opts requests r) {phase : Phase}
    (hphase : phase = .passed ∨ phase = .threw) : { c with phase }.Sound opts requests r := by
  refine ⟨?_, ?_, ?_, h.pending, h.capturing, h.setting⟩
  all_goals rcases hphase with rfl | rfl <;> simp

theorem pass (h : c.Sound opts requests r) {key : JsString} (hkeyed : Keyed opts (requests r) key) :
    (c.pass key).Sound opts requests r := by
  refine ⟨by simp [Call.pass], by simp [Call.pass], by simp [Call.pass], ?_, h.capturing, h.setting⟩
  rintro key' ⟨⟩
  exact hkeyed

theorem beforeHandle (h : c.Sound opts requests r) :
    (c.beforeHandle opts (requests r)).Sound opts requests r := by
  rw [Call.beforeHandle.eq_def]
  split
  · exact h.setPhase (.inr rfl)
  · exact h.setPhase (.inl rfl)
  · next key hkey => exact h.pass ⟨true, hkey⟩
  · next key hkey =>
    refine ⟨?_, by simp, by simp, h.pending, h.capturing, h.setting⟩
    rintro key' ⟨⟩
    exact ⟨false, hkey⟩

theorem serve (h : c.Sound opts requests r) {key : JsString} (hkeyed : Keyed opts (requests r) key)
    {stored : StoredCall} (hshares : Shares opts (requests r) (requests stored.request) stored.res)
    (now : ℤ) : (c.serve opts (requests r) key stored now).Sound opts requests r := by
  have hanswered (response : Option ServedResponse) :
      { c with phase := .answered response stored }.Sound opts requests r := by
    refine ⟨by simp, by simp, ?_, h.pending, h.capturing, h.setting⟩
    rintro response' stored' ⟨⟩
    exact hshares
  rw [Call.serve]
  dsimp only
  split
  · exact hanswered _
  · split
    · exact hanswered _
    · exact h.pass hkeyed

theorem found (h : c.Sound opts requests r) {key : JsString} (hkeyed : Keyed opts (requests r) key)
    {answer : Except StoreError (Option StoredCall)}
    (hanswer : ∀ stored, answer = .ok (some stored) → Written opts requests stored ∧ stored.key = key)
    (now : ℤ) : (c.found opts (requests r) key answer now).Sound opts requests r := by
  rw [Call.found.eq_def]
  split
  · exact h.setPhase (.inr rfl)
  · exact h.pass hkeyed
  · next stored =>
    obtain ⟨hwritten, hkey⟩ := hanswer stored rfl
    have hshares := hwritten.shares hkeyed (.inl rfl) (hkey.trans (List.append_nil key).symm)
    split
    · next hne =>
      split
      · exact h.setPhase (.inr rfl)
      · next wanted hwanted =>
        split
        · refine ⟨by simp, ?_, by simp, h.pending, h.capturing, h.setting⟩
          rintro key' servedKey ⟨⟩
          exact ⟨hkeyed, wanted, rfl⟩
        · next heq => exact h.serve hkeyed (hshares fun _ => ⟨wanted, hwanted, not_not.mp heq⟩) now
    · next hnil =>
      refine h.serve hkeyed (hshares fun hne => ?_) now
      exact absurd (List.length_eq_zero_iff.mp (not_not.mp hnil)) hne

theorem foundVariant (h : c.Sound opts requests r) {key wanted : JsString}
    (hkeyed : Keyed opts (requests r) key) {answer : Except StoreError (Option StoredCall)}
    (hanswer : ∀ stored, answer = .ok (some stored) →
      Written opts requests stored ∧ stored.key = variantKey key wanted)
    (now : ℤ) : (c.foundVariant opts (requests r) key answer now).Sound opts requests r := by
  rw [Call.foundVariant.eq_def]
  split
  · exact h.setPhase (.inr rfl)
  · exact h.pass hkeyed
  · next stored =>
    obtain ⟨hwritten, hkey⟩ := hanswer stored rfl
    split
    · exact h.setPhase (.inr rfl)
    · next wanted' hwanted =>
      split
      · exact h.pass hkeyed
      · next heq =>
        refine h.serve hkeyed ?_ now
        exact hwritten.shares hkeyed (isTail_variantKey wanted) hkey
          fun _ => ⟨wanted', hwanted, (not_not.mp heq).symm⟩

theorem onSend (h : c.Sound opts requests r) (res : Response) :
    (c.onSend opts number res).Sound opts requests r := by
  rw [Call.onSend.eq_def]
  split
  · exact h
  · next key hkey =>
    have hdropped : { c with pending := none }.Sound opts requests r :=
      ⟨h.looking, h.lookingVariant, h.answered, by simp, h.capturing, h.setting⟩
    dsimp only
    split
    · exact hdropped
    · split
      · exact hdropped
      · split
        · exact hdropped
        · next fields hfields =>
          refine ⟨h.looking, h.lookingVariant, h.answered, by simp, ?_, h.setting⟩
          rintro held ⟨⟩
          exact ⟨h.pending key hkey, hfields⟩

theorem captured (h : c.Sound opts requests r) {setting : Option StoredCall}
    (hsetting : ∀ stored ∈ setting, Written opts requests stored) :
    { c with capturing := none, setting }.Sound opts requests r :=
  ⟨h.looking, h.lookingVariant, h.answered, h.pending, by simp, hsetting⟩

theorem variantSet (h : c.Sound opts requests r) : { c with setting := none }.Sound opts requests r :=
  ⟨h.looking, h.lookingVariant, h.answered, h.pending, h.capturing, by simp⟩

end Call.Sound

theorem written_capturedCalls {r : ℕ} {key : JsString} (hkeyed : Keyed opts (requests r) key)
    {res : Response} {fields : List JsString}
    (hfields : parseVary (res.headers.get? (js "vary")) = some fields) (freshness : Freshness)
    (now : ℤ) (stored : StoredCall)
    (hstored : stored ∈ (capturedCalls opts (requests r) r key res freshness fields now).1 ∨
      stored ∈ (capturedCalls opts (requests r) r key res freshness fields now).2) :
    Written opts requests stored := by
  rw [capturedCalls.eq_def] at hstored
  split at hstored
  · simp at hstored
  · simp at hstored
  · split at hstored
    · next hne =>
      have hne' : fields ≠ [] := fun hnil => hne (by rw [hnil]; rfl)
      split at hstored
      · simp at hstored
      · next varyKey hvaryKey =>
        rcases hstored with h | h
        · obtain rfl := Option.some.inj h
          exact ⟨key, hkeyed, .variant hfields hne' hvaryKey rfl rfl (.inr rfl)⟩
        · obtain rfl := Option.some.inj h
          exact ⟨key, hkeyed, .variant hfields hne' hvaryKey rfl rfl (.inl rfl)⟩
    · next hnil =>
      obtain rfl := List.length_eq_zero_iff.mp (not_not.mp hnil)
      rcases hstored with h | h
      · obtain rfl := Option.some.inj h
        exact ⟨key, hkeyed, .plain hfields rfl rfl⟩
      · simp at h

namespace Server.Inv

theorem setCall (h : s.Inv opts requests) {r : ℕ} {c : Call} (hc : c.Sound opts requests r) :
    (s.setCall r c).Inv opts requests := by
  refine ⟨?_, h.written⟩
  intro t
  dsimp only [Server.setCall]
  rw [Function.update_apply]
  split
  · next ht => exact ht ▸ hc
  · exact h.calls t

theorem addSets (h : s.Inv opts requests) {sets : List StoredCall}
    (hsets : ∀ stored ∈ sets, Written opts requests stored) :
    Server.Inv opts requests { s with sets := s.sets ++ sets } := by
  refine ⟨h.calls, ?_⟩
  intro stored hstored
  rcases List.mem_append.mp hstored with hstored | hstored
  · exact h.written stored hstored
  · exact hsets stored hstored

theorem answer (h : s.Inv opts requests) {key : JsString} {i : Except StoreError (Option ℕ)}
    {found : Except StoreError (Option StoredCall)} (hanswer : s.answer key i = some found)
    (stored : StoredCall) (hfound : found = .ok (some stored)) :
    Written opts requests stored ∧ stored.key = key := by
  rw [Server.answer.eq_def] at hanswer
  split at hanswer
  · simp [← Option.some.inj hanswer] at hfound
  · simp [← Option.some.inj hanswer] at hfound
  · split at hanswer
    · next stored' hget =>
      split at hanswer
      · next hkey =>
        rw [← Option.some.inj hanswer] at hfound
        obtain rfl := Option.some.inj (Except.ok.inj hfound)
        exact ⟨h.written _ (List.mem_of_getElem? hget), hkey⟩
      · simp at hanswer
    · simp at hanswer

theorem step (h : s.Inv opts requests) {event : CacheEvent}
    (hstep : s.step opts number requests event = some s') : s'.Inv opts requests := by
  rw [Server.step.eq_def] at hstep
  cases event with
  | beforeHandle r =>
    dsimp only at hstep
    split at hstep
    · rw [← Option.some.inj hstep]
      exact h.setCall (h.calls r).beforeHandle
    · simp at hstep
  | found r i now =>
    dsimp only at hstep
    split at hstep
    · next key hphase =>
      obtain ⟨found, hanswer, rfl⟩ := Option.map_eq_some_iff.mp hstep
      exact h.setCall ((h.calls r).found ((h.calls r).looking hphase) (h.answer hanswer) now)
    · next key servedKey hphase =>
      obtain ⟨found, hanswer, rfl⟩ := Option.map_eq_some_iff.mp hstep
      obtain ⟨hkeyed, wanted, rfl⟩ := (h.calls r).lookingVariant hphase
      exact h.setCall ((h.calls r).foundVariant hkeyed (h.answer hanswer) now)
    · simp at hstep
  | onSend r res =>
    rw [← Option.some.inj hstep]
    exact h.setCall ((h.calls r).onSend res)
  | captured r now =>
    dsimp only at hstep
    split at hstep
    · next key res freshness fields hcapturing =>
      rw [← Option.some.inj hstep]
      obtain ⟨hkeyed, hfields⟩ := (h.calls r).capturing _ hcapturing
      have hwritten := written_capturedCalls hkeyed hfields freshness now
      refine (h.setCall ((h.calls r).captured ?_)).addSets ?_
      · exact fun stored hstored => hwritten stored (.inr hstored)
      · exact fun stored hstored => hwritten stored (.inl (Option.mem_toList.mp hstored))
    · simp at hstep
  | variantSet r result =>
    dsimp only at hstep
    split at hstep
    · next stored hsetting =>
      rw [← Option.some.inj hstep]
      have hset := h.setCall (h.calls r).variantSet
      cases result with
      | ok u =>
        refine hset.addSets ?_
        intro stored' hstored'
        rw [List.mem_singleton.mp hstored']
        exact (h.calls r).setting stored hsetting
      | error err => exact hset
    · simp at hstep

end Server.Inv

/-- **Principals are kept apart**: in every run, over every store, a request that is answered from
the cache shares with the one whose response it gets whatever the keys are made of. -/
theorem answers_share (opts : ResponseCacheOptions) (number : JsString → Option ℕ)
    (requests : ℕ → CacheRequest) {events : List CacheEvent} {s : Server}
    (hrun : run (Server.step opts number requests) {} events = some s) {r : ℕ}
    {response : Option ServedResponse} {stored : StoredCall}
    (hanswered : (s.call r).phase = .answered response stored) :
    Shares opts (requests r) (requests stored.request) stored.res := by
  have hinit : Server.Inv opts requests {} := by
    refine ⟨?_, by simp⟩
    exact fun r => ⟨by simp, by simp, by simp, by simp, by simp, by simp⟩
  have h := run_invariant_all (fun _ _ _ h hstep => Server.Inv.step h hstep) hinit hrun
  exact (h.calls r).answered hanswered

def aliceGet : CacheRequest where
  method := js "GET"
  url := js "https://example.com/orders"
  headers.fields := (∅ : JsMap _ _).set (js "cookie") ⟨js "sid=1", by decide⟩
  principal := some (js "alice")

def storedThenServed (res : Response) (varies : Bool) : List CacheEvent :=
  [.beforeHandle 0, .found 0 (.ok none) 0, .onSend 0 res, .captured 0 1] ++
    (if varies then [.variantSet 0 (.ok ())] else []) ++
      [.beforeHandle 1, .found 1 (.ok (some (if varies then 1 else 0))) 2]

theorem answers_share_example : Shares {} aliceGet aliceGet { status := 200 } :=
  @answers_share {} (fun _ => none) (fun _ => aliceGet) (storedThenServed { status := 200 } false) _
    rfl 1 _ _ rfl

/-! ## Empty principals, empty fields -/

def anonymousGet : CacheRequest where
  method := js "GET"
  url := js "https://example.com/orders"

def acceptLanguage : JsString := js "accept-language"

def localized : Response where
  status := 200
  headers.entries := [(js "vary", acceptLanguage)]

def emptyLanguage : CacheRequest :=
  { anonymousGet with headers.fields := (∅ : JsMap _ _).set acceptLanguage ⟨[], by decide⟩ }

def AnsweredFromAnonymous (opts : ResponseCacheOptions) (req : CacheRequest) (res : Response) :
    Prop :=
  ∃ events s response stored,
    run (Server.step opts (fun _ => none) fun r => if r = 0 then anonymousGet else req) {} events =
      some s ∧ (s.call 1).phase = .answered response stored ∧ stored.request = 0 ∧ stored.res = res

/-- What is stored for a request with no principal answers one whose principal is empty; what is
stored for a request without a field answers one whose field is empty. -/
theorem crossed_answers :
    (AnsweredFromAnonymous {} { anonymousGet with principal := some [] } { status := 200 } ∧
      some [] ≠ anonymousGet.principal) ∧
    (AnsweredFromAnonymous { varyHeaders := [acceptLanguage] } emptyLanguage { status := 200 } ∧
      AnsweredFromAnonymous {} emptyLanguage localized ∧
      emptyLanguage.headers.get acceptLanguage ≠ anonymousGet.headers.get acceptLanguage) := by
  refine ⟨⟨?_, by decide⟩, ?_, ?_, by decide⟩
  · exact ⟨storedThenServed { status := 200 } false, _, _, _, rfl, rfl, rfl, rfl⟩
  · exact ⟨storedThenServed { status := 200 } false, _, _, _, rfl, rfl, rfl, rfl⟩
  · exact ⟨storedThenServed localized true, _, _, _, rfl, rfl, rfl, rfl⟩

end Daloy.ResponseCache
