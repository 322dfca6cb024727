import Daloy.Egress.Guarded
import Mathlib.Algebra.Order.Floor.Semiring
import Mathlib.Data.Rat.Floor
import Mathlib.Tactic.Linarith
import Mathlib.Tactic.NormNum

/-! # What a redirect chain cannot do

* `Safe`: each dispatched request goes where the policy permits, there are no more of them than
  `maxRedirects` allows, none carries credentials to another origin or after one, none is in the
  clear behind one over TLS, and a stream is sent once.
* `Steady`: the hops on which the code does what it says. A redirect between two URLs with opaque
  origins stays on its site, and one to `http:` that does not come from `http:` or `https:` has no
  `https:` request behind it.
-/

namespace Daloy.Egress
set_option autoImplicit false

open Daloy.Unicode Daloy.Text Daloy.Http

/-! ## The property -/

def Carries (request : Request) (name : JsString) : Prop :=
  IsToken name ∧ request.headers.has (toLowerCase name) = true

instance (request : Request) (name : JsString) : Decidable (Carries request name) :=
  inferInstanceAs (Decidable (_ ∧ _))

def sensitiveNames (options : FetchGuardOptions) : List JsString :=
  credentialHeaders ++ options.sensitiveHeaders

def Moved (d : Dispatch) (before : List Dispatch) : Prop :=
  ∃ a ∈ before, ∃ b ∈ before ++ [d], a.request.url.site ≠ b.request.url.site

instance (d : Dispatch) (before : List Dispatch) : Decidable (Moved d before) :=
  inferInstanceAs (Decidable (∃ a ∈ before, ∃ b ∈ before ++ [d], _))

def Stripped (options : FetchGuardOptions) (d : Dispatch) (before : List Dispatch) : Prop :=
  Moved d before → ∀ name ∈ sensitiveNames options, ¬ Carries d.request name

instance (options : FetchGuardOptions) (d : Dispatch) (before : List Dispatch) :
    Decidable (Stripped options d before) := inferInstanceAs (Decidable (_ → _))

def NotDowngraded (options : FetchGuardOptions) (d : Dispatch) (before : List Dispatch) : Prop :=
  d.request.url.protocol = js "http:" → options.allowProtocolDowngrade = true ∨
    ∀ a ∈ before, a.request.url.protocol ≠ js "https:"

instance (options : FetchGuardOptions) (d : Dispatch) (before : List Dispatch) :
    Decidable (NotDowngraded options d before) := inferInstanceAs (Decidable (_ → _))

def SentOnce (d : Dispatch) (before : List Dispatch) : Prop :=
  d.request.body = some .stream → ∀ a ∈ before, a.request.body ≠ some .stream

variable [LowerCase]

open LowerCase

def Accepted (g : FetchGuard) (d : Dispatch) (_ : List Dispatch) : Prop :=
  ∃ pinned, g.validateUrl d.resolve d.request.url = .ok pinned

structure Safe (options : FetchGuardOptions) (g : FetchGuard) (log : List Dispatch) : Prop where
  accepted : Justified (Accepted g) log
  budget : options.maxRedirects.allows log.length = true
  stripped : Justified (Stripped options) log
  notDowngraded : Justified (NotDowngraded options) log
  sentOnce : Justified SentOnce log

omit [LowerCase]

/-! ## The condition -/

def Limit.IsCount (x : Limit) : Prop := (∃ k : ℕ, x = .finite k) ∨ x = .infinite false

theorem allows_of_atLeast {x : Limit} {n : ℕ} (h : x.atLeast n = true) : x.allows (n + 1) = true := by
  cases x with
  | nan => simp [Limit.atLeast] at h
  | finite q =>
    simp only [Limit.atLeast, decide_eq_true_eq] at h
    simp only [Limit.allows, decide_eq_true_eq]
    push_cast
    linarith
  | infinite negative => exact h

theorem Limit.IsCount.succ {x : Limit} (hx : x.IsCount) {n : ℕ}
    (h : x.reached n = false) : x.atLeast (n + 1) = true := by
  obtain ⟨k, rfl⟩ | rfl := hx
  · simp only [Limit.reached, decide_eq_false_iff_not, not_le, Nat.cast_lt] at h
    simp only [Limit.atLeast, decide_eq_true_eq]
    exact_mod_cast h
  · rfl

theorem Limit.IsCount.zero {x : Limit} (hx : x.IsCount) :
    x.atLeast 0 = true := by
  obtain ⟨k, rfl⟩ | rfl := hx
  · simp [Limit.atLeast]
  · rfl

theorem Limit.allows_zero {x : Limit} (hx : x.IsCount) : x.allows 0 = true := by
  obtain ⟨k, rfl⟩ | rfl := hx
  · simp only [Limit.allows, decide_eq_true_eq]
    positivity
  · rfl

def redirectTarget (rt : Runtime) (l : Loop) (res : Reply) : Option Url :=
  if isRedirect res.status ∧ l.userRedirect = .follow then
    res.location.bind fun loc => rt.newUrl loc (some l.currentUrl)
  else none

/-- A redirect that the code can judge by the two URLs. -/
structure SteadyTarget (g : FetchGuard) (log : List Dispatch) (current next : Url) : Prop where
  site : current.origin = none → next.origin = none → current.site = next.site
  protocol : next.protocol = js "http:" → current.protocol = js "http:" ∨
    current.protocol = js "https:" ∨ g.allowProtocolDowngrade = true ∨
    ∀ a ∈ log, a.request.url.protocol ≠ js "https:"

instance (g : FetchGuard) (log : List Dispatch) (current next : Url) :
    Decidable (SteadyTarget g log current next) :=
  decidable_of_iff
    ((current.origin = none → next.origin = none → current.site = next.site) ∧
      (next.protocol = js "http:" → current.protocol = js "http:" ∨
        current.protocol = js "https:" ∨ g.allowProtocolDowngrade = true ∨
        ∀ a ∈ log, a.request.url.protocol ≠ js "https:"))
    ⟨fun h => ⟨h.1, h.2⟩, fun h => ⟨h.site, h.protocol⟩⟩

def Steady (g : FetchGuard) (rt : Runtime) (s : State) (h : Hop) : Prop :=
  match s.phase, h.reply with
  | .running l, some res =>
    ∀ next ∈ redirectTarget rt l res, SteadyTarget g s.log l.currentUrl next
  | _, _ => True

instance (g : FetchGuard) (rt : Runtime) (s : State) (h : Hop) : Decidable (Steady g rt s h) := by
  unfold Steady
  cases s.phase <;> cases h.reply <;> infer_instance

/-! ## Header fields -/

theorem lower_lower (s : JsString) : toLowerCase (toLowerCase s) = toLowerCase s := by
  rw [toLowerCase, toLowerCase, List.map_map]
  apply List.map_congr_left
  intro u _
  dsimp only [Function.comp]
  split
  · rename_i h
    rw [if_neg]
    intro h'
    simp only [UInt16.toNat_add, UInt16.reduceToNat] at h'
    omega
  · rfl

theorem isTokenUnit_lt : ∀ u : UInt16, isTokenUnit u = true → u.toNat < 0x80 := by
  intro u h
  simp only [isTokenUnit, Bool.or_eq_true, Bool.and_eq_true, decide_eq_true_eq, beq_iff_eq] at h
  obtain ((((h | h) | h) | h) | h) := h
  · omega
  · omega
  · omega
  · have hall : ∀ v ∈ js "!#$%&'*+-.^_|~", v.toNat < 0x80 := by decide
    exact hall u h
  · subst h
    decide

theorem lower_token [LowerCase] {name : JsString} (h : IsToken name) :
    toLowerCase (lower name) = toLowerCase name := by
  rw [ascii name fun u hu => isTokenUnit_lt u (h.2 u hu), lower_lower]

theorem has_delete (headers : Headers) (name key : JsString) :
    (Headers.has ⟨headers.fields.delete name⟩ key) =
      if key = name then false else headers.has key := by
  rw [Headers.has, JsMap.get?_delete, Headers.has]
  split <;> rfl

theorem foldlM_deleteHeader {names : List JsString} {headers left : Headers}
    (h : names.foldlM deleteHeader headers = .ok left) :
    (∀ key, left.has key = true → headers.has key = true) ∧
      ∀ name ∈ names, left.has (toLowerCase name) = false := by
  induction names generalizing headers with
  | nil =>
    obtain rfl : headers = left := Except.ok.inj h
    exact ⟨fun _ hkey => hkey, by simp⟩
  | cons name names ih =>
    rw [List.foldlM_cons] at h
    obtain ⟨mid, hmid, hrest⟩ := Fallible.bind_eq_ok.mp h
    rw [deleteHeader] at hmid
    split at hmid
    · obtain rfl := Except.ok.inj hmid
      obtain ⟨hkept, hgone⟩ := ih hrest
      have hfirst : left.has (toLowerCase name) = false := by
        rw [← Bool.not_eq_true]
        intro hhas
        have hmid := hkept _ hhas
        rw [has_delete, if_pos rfl] at hmid
        simp at hmid
      refine ⟨fun key hkey => ?_, fun n hn => ?_⟩
      · have hmid := hkept key hkey
        rw [has_delete] at hmid
        split at hmid
        · simp at hmid
        · exact hmid
      · obtain rfl | hn := List.mem_cons.mp hn
        · exact hfirst
        · exact hgone n hn
    · simp at hmid

theorem has_stripBodyHeaders {headers : Headers} {key : JsString}
    (h : (stripBodyHeaders headers).has key = true) : headers.has key = true := by
  rw [Headers.has, stripBodyHeaders, JsMap.get?_deleteAll] at h
  split at h
  · simp at h
  · exact h

/-! ## What a followed redirect does -/

namespace FetchGuard

theorem has_nextRequest {l : Loop} {next : Url} {status : ℕ} {key : JsString}
    (h : (nextRequest l next status).headers.has key = true) : l.request.headers.has key = true := by
  rw [nextRequest] at h
  split at h
  · exact has_stripBodyHeaders h
  · exact h

/-- The state that a turn of the loop ends in, when it goes on. -/
structure Followed (g : FetchGuard) (l l' : Loop) : Prop where
  hop : l'.hop = l.hop + 1
  limit : g.maxRedirects.reached l.hop = false
  url : l'.request.url = l'.currentUrl
  mode : l'.userRedirect = l.userRedirect
  kept : ∀ key, l'.request.headers.has key = true → l.request.headers.has key = true
  stripped : l'.currentUrl.origin ≠ l.currentUrl.origin →
    ∀ name ∈ credentialHeaders ++ g.sensitiveHeaders,
      l'.request.headers.has (toLowerCase name) = false
  downgrade : l'.downgradeHop =
    decide (l.currentUrl.protocol = js "https:" ∧ l'.currentUrl.protocol = js "http:")
  body : l'.request.body = none ∨ (l.streamingBody = false ∧ l'.request.body = l.request.body)

theorem redirectTo_eq_ok {g : FetchGuard} {l l' : Loop} {next : Url} {status : ℕ}
    (hlimit : g.maxRedirects.reached l.hop = false) (h : g.redirectTo l next status = .ok l') :
    l'.currentUrl = next ∧ g.Followed l l' := by
  rw [redirectTo] at h
  split at h
  · simp at h
  rename_i hreplay
  dsimp only at h
  split at h
  · simp at h
  rename_i headers hheaders
  obtain rfl := Except.ok.inj h
  have hkept : ∀ key, headers.has key = true → l.request.headers.has key = true := by
    intro key hkey
    split at hheaders
    · exact has_nextRequest ((foldlM_deleteHeader hheaders).1 key hkey)
    · obtain rfl := Except.ok.inj hheaders
      exact has_nextRequest hkey
  refine ⟨rfl, rfl, hlimit, ?_, rfl, hkept, ?_, rfl, ?_⟩
  · dsimp only
    rw [nextRequest]
    split <;> rfl
  · intro horigin name hname
    rw [if_pos horigin] at hheaders
    exact (foldlM_deleteHeader hheaders).2 name hname
  · dsimp only
    rw [nextRequest]
    by_cases hdown : shouldDowngrade l status = true
    · rw [if_pos hdown]
      exact .inl rfl
    · rw [if_neg hdown]
      refine .inr ⟨?_, rfl⟩
      rw [← Bool.not_eq_true]
      exact fun hstream => hreplay ⟨hstream, hdown⟩

theorem follow_eq_ok {g : FetchGuard} {rt : Runtime} {l l' : Loop} {res : Reply}
    (h : g.follow rt l res = .ok l') :
    redirectTarget rt l res = some l'.currentUrl ∧ g.Followed l l' := by
  rw [follow] at h
  split at h
  · simp at h
  rename_i hredirect
  split at h
  · simp at h
  rename_i herror
  split at h
  · simp at h
  rename_i hmanual
  split at h
  · simp at h
  rename_i hlimit
  split at h
  · simp at h
  · simp at h
  rename_i loc hne hloc
  split at h
  · simp at h
  rename_i next hnext
  split at h
  · simp at h
  obtain ⟨hcurrent, hfollowed⟩ := redirectTo_eq_ok (Bool.not_eq_true _ ▸ hlimit) h
  push Not at hmanual
  have hmode : l.userRedirect = .follow := by
    cases hl : l.userRedirect with
    | follow => rfl
    | manual => exact absurd hl hmanual.1
    | error => exact absurd hl herror
  refine ⟨?_, hfollowed⟩
  rw [redirectTarget, if_pos ⟨not_not.mp hredirect, hmode⟩, hloc, Option.bind_some, hnext, hcurrent]

theorem admitHop_eq_ok [LowerCase] {g : FetchGuard} {resolve : JsString → Option (List JsString)}
    {l : Loop} {d : Dispatch} (h : g.admitHop resolve l = .ok d) :
    (∃ pinned, g.validateUrl resolve l.currentUrl = .ok pinned) ∧
      (l.downgradeHop = true → g.allowProtocolDowngrade = true) ∧
      d.resolve = resolve ∧ d.request = dispatchRequest l := by
  rw [admitHop] at h
  obtain ⟨pinnedIp, hpinned, hrest⟩ := Fallible.bind_eq_ok.mp h
  obtain ⟨hdown, hrest⟩ := Fallible.guard_eq_ok.mp hrest
  cases hvalid : g.validateUrl resolve l.currentUrl with
  | error e =>
    rw [hvalid] at hpinned
    simp [Except.mapError] at hpinned
  | ok pinned =>
    obtain rfl := Except.ok.inj hrest
    refine ⟨⟨pinned, rfl⟩, fun hflag => ?_, rfl, rfl⟩
    by_contra hallow
    exact hdown ⟨hflag, hallow⟩

theorem origin_ne {current next : Url} (hsite : current.site ≠ next.site)
    (hbare : current.origin = none → next.origin = none → current.site = next.site) :
    next.origin ≠ current.origin := by
  intro horigin
  rw [Url.origin, Url.origin] at horigin hbare
  split at horigin
  · split at horigin
    · exact hsite (Option.some.inj horigin).symm
    · simp at horigin
  · split at horigin
    · simp at horigin
    · rename_i hnext hcurrent
      exact hsite (hbare (if_neg hcurrent) (if_neg hnext))

/-! ## The invariant -/

/-- What a run of steady hops has established when it stands at the head of the loop. -/
structure Ready [LowerCase] (options : FetchGuardOptions) (g : FetchGuard) (log : List Dispatch)
    (l : Loop) : Prop where
  count : log.length = l.hop
  budget : g.maxRedirects.atLeast l.hop = true
  url : l.request.url = l.currentUrl
  stripped : (∃ a ∈ log, ∃ b ∈ log.map (·.request.url) ++ [l.currentUrl], a.request.url.site ≠ b.site) →
    ∀ name ∈ sensitiveNames options, ¬ Carries l.request name
  downgrade : l.currentUrl.protocol = js "http:" → l.downgradeHop = true ∨
    g.allowProtocolDowngrade = true ∨ ∀ a ∈ log, a.request.url.protocol ≠ js "https:"
  sent : l.request.body = some .stream → log = []
  held : l.request.body = some .stream → l.streamingBody = true

theorem body_dispatchRequest {l : Loop} (h : (dispatchRequest l).body = some .stream) :
    l.request.body = some .stream := by
  rw [dispatchRequest] at h
  dsimp only at h
  cases hbytes : l.bodyBytes with
  | some bytes =>
    rw [hbytes] at h
    simp at h
  | none =>
    rw [hbytes] at h
    simpa using h

/-- What of the options the loop reads. -/
structure Configured [LowerCase] (options : FetchGuardOptions) (g : FetchGuard) : Prop where
  maxRedirects : g.maxRedirects = options.maxRedirects
  allowProtocolDowngrade : g.allowProtocolDowngrade = options.allowProtocolDowngrade
  sensitiveHeaders : g.sensitiveHeaders = options.sensitiveHeaders.map lower

variable [LowerCase]

theorem configured {rt : Runtime} {options : FetchGuardOptions} {g : FetchGuard}
    (h : fetchGuard rt options = .ok g) : Configured options g := by
  rw [fetchGuard] at h
  obtain ⟨-, h⟩ := Fallible.guard_eq_ok.mp h
  obtain ⟨-, h⟩ := Fallible.guard_eq_ok.mp h
  obtain ⟨-, h⟩ := Fallible.guard_eq_ok.mp h
  obtain ⟨-, h⟩ := Fallible.guard_eq_ok.mp h
  obtain ⟨hard, -, h⟩ := Fallible.bind_eq_ok.mp h
  obtain ⟨soft, -, h⟩ := Fallible.bind_eq_ok.mp h
  obtain ⟨allow, -, h⟩ := Fallible.bind_eq_ok.mp h
  obtain rfl := Except.ok.inj h
  exact ⟨rfl, rfl, rfl⟩

variable {options : FetchGuardOptions} {g : FetchGuard} {rt : Runtime}

theorem not_carries (hg : Configured options g) {request : Request}
    (h : ∀ name ∈ credentialHeaders ++ g.sensitiveHeaders,
      request.headers.has (toLowerCase name) = false) :
    ∀ name ∈ sensitiveNames options, ¬ Carries request name := by
  intro name hname hcarries
  obtain ⟨htoken, hhas⟩ := hcarries
  obtain hfixed | hown := List.mem_append.mp hname
  · rw [h name (List.mem_append_left _ hfixed)] at hhas
    simp at hhas
  · have hlower : lower name ∈ g.sensitiveHeaders := by
      rw [hg.sensitiveHeaders]
      exact List.mem_map_of_mem hown
    have hgone := h _ (List.mem_append_right _ hlower)
    rw [lower_token htoken] at hgone
    rw [hgone] at hhas
    simp at hhas

theorem Ready.dispatched (hg : Configured options g) {log : List Dispatch} {l : Loop}
    {resolve : JsString → Option (List JsString)} {d : Dispatch} (hready : Ready options g log l)
    (hsafe : Safe options g log) (hd : g.admitHop resolve l = .ok d) :
    Safe options g (log ++ [d]) := by
  obtain ⟨hvalid, hdown, hresolve, hrequest⟩ := admitHop_eq_ok hd
  have hurl : d.request.url = l.currentUrl := by
    rw [hrequest]
    exact hready.url
  constructor
  · apply hsafe.accepted.concat
    rw [Accepted, hresolve, hurl]
    exact hvalid
  · rw [List.length_append, hready.count, ← hg.maxRedirects]
    exact allows_of_atLeast hready.budget
  · apply hsafe.stripped.concat
    rintro ⟨a, ha, b, hb, hsite⟩ name hname hcarries
    refine hready.stripped ⟨a, ha, b.request.url, ?_, hsite⟩ name hname ?_
    · obtain hb | hb := List.mem_append.mp hb
      · exact List.mem_append_left _ (List.mem_map_of_mem hb)
      · rw [List.mem_singleton.mp hb, hurl]
        exact List.mem_append_right _ (List.mem_singleton.mpr rfl)
    · rw [hrequest] at hcarries
      exact hcarries
  · apply hsafe.notDowngraded.concat
    intro hhttp
    rw [hurl] at hhttp
    rw [← hg.allowProtocolDowngrade]
    obtain hflag | hallow | hnone := hready.downgrade hhttp
    · exact .inl (hdown hflag)
    · exact .inl hallow
    · exact .inr hnone
  · apply hsafe.sentOnce.concat
    intro hstream a ha
    rw [hrequest] at hstream
    rw [hready.sent (body_dispatchRequest hstream)] at ha
    simp at ha

theorem Ready.followed (hg : Configured options g) (hcount : options.maxRedirects.IsCount)
    {log : List Dispatch} {l l' : Loop} {d : Dispatch} (hready : Ready options g log l)
    (hsafe : Safe options g (log ++ [d])) (hrequest : d.request = dispatchRequest l)
    (hsteady : SteadyTarget g log l.currentUrl l'.currentUrl) (h : g.Followed l l') :
    Ready options g (log ++ [d]) l' := by
  have hurl : d.request.url = l.currentUrl := by
    rw [hrequest]
    exact hready.url
  have hbody : l'.request.body ≠ some .stream := by
    intro hstream
    obtain hnone | ⟨hreplay, hsame⟩ := h.body
    · simp [hnone] at hstream
    · rw [hsame] at hstream
      simp [hready.held hstream] at hreplay
  constructor
  · rw [List.length_append, hready.count, h.hop]
    rfl
  · rw [h.hop]
    rw [← hg.maxRedirects] at hcount
    exact hcount.succ h.limit
  · exact h.url
  · intro hmoved
    by_cases hbefore : ∃ a ∈ log, ∃ b ∈ log.map (·.request.url) ++ [l.currentUrl],
        a.request.url.site ≠ b.site
    · intro name hname hcarries
      exact hready.stripped hbefore name hname ⟨hcarries.1, h.kept _ hcarries.2⟩
    · -- The chain was on one site, so it is this hop that leaves it.
      push Not at hbefore
      have hhere : ∀ a ∈ log ++ [d], a.request.url.site = l.currentUrl.site := by
        intro a ha
        obtain ha | ha := List.mem_append.mp ha
        · exact hbefore a ha _ (List.mem_append_right _ (List.mem_singleton.mpr rfl))
        · rw [List.mem_singleton.mp ha, hurl]
      have hleaves : l.currentUrl.site ≠ l'.currentUrl.site := by
        obtain ⟨a, ha, b, hb, hne⟩ := hmoved
        rw [hhere a ha] at hne
        obtain hb | hb := List.mem_append.mp hb
        · obtain ⟨c, hc, rfl⟩ := List.mem_map.mp hb
          exact absurd (hhere c hc).symm hne
        · rwa [List.mem_singleton.mp hb] at hne
      exact not_carries hg (h.stripped (origin_ne hleaves hsteady.site))
  · intro hhttp
    by_cases hlast : l.currentUrl.protocol = js "https:"
    · left
      rw [h.downgrade, decide_eq_true_eq]
      exact ⟨hlast, hhttp⟩
    · right
      have hclear : g.allowProtocolDowngrade = true ∨
          ∀ a ∈ log, a.request.url.protocol ≠ js "https:" := by
        obtain hsame | htls | hallow | hnone := hsteady.protocol hhttp
        · have hd := hsafe.notDowngraded log d [] rfl
          rw [NotDowngraded, hurl, ← hg.allowProtocolDowngrade] at hd
          exact hd hsame
        · exact absurd htls hlast
        · exact .inl hallow
        · exact .inr hnone
      refine hclear.imp_right fun hnone a ha => ?_
      obtain ha | ha := List.mem_append.mp ha
      · exact hnone a ha
      · rwa [List.mem_singleton.mp ha, hurl]
  · exact fun hstream => absurd hstream hbody
  · exact fun hstream => absurd hstream hbody

/-! ## Runs -/

omit [LowerCase] in
theorem bufferBody_stream {init : RequestInit} {request : Request}
    (h : request.body = some .stream) : (g.bufferBody init request).2 = true := by
  rw [bufferBody, h]
  dsimp only
  split
  · rename_i heq
    simp at heq
  · rfl

structure Inv (options : FetchGuardOptions) (g : FetchGuard) (s : State) : Prop where
  safe : Safe options g s.log
  ready : ∀ l, s.phase = .running l → Ready options g s.log l

theorem inv_begin (hg : Configured options g) (hcount : options.maxRedirects.IsCount)
    (input : Input) (init : RequestInit) : Inv options g (g.begin rt input init) := by
  have hsafe : Safe options g [] :=
    ⟨.nil, Limit.allows_zero hcount, .nil, .nil, .nil⟩
  rw [begin]
  cases refuseCredentials rt input with
  | error failure => exact ⟨hsafe, by simp⟩
  | ok =>
    cases newRequest rt input init with
    | none => exact ⟨hsafe, by simp⟩
    | some request =>
      refine ⟨hsafe, fun l hl => ?_⟩
      obtain rfl := Phase.running.inj hl
      constructor
      · rfl
      · rw [hg.maxRedirects]
        exact hcount.zero
      · rfl
      · rintro ⟨a, ha, -⟩
        simp at ha
      · intro _
        exact .inr (.inr (by simp))
      · intro _
        rfl
      · intro hstream
        exact bufferBody_stream hstream

theorem inv_step (hg : Configured options g) (hcount : options.maxRedirects.IsCount) {s s' : State}
    {h : Hop} (hsteady : Steady g rt s h) (hinv : Inv options g s) (hstep : g.step rt s h = some s') :
    Inv options g s' := by
  rw [step] at hstep
  rw [Steady] at hsteady
  cases hphase : s.phase with
  | finished outcome => simp [hphase] at hstep
  | running l =>
    rw [hphase] at hstep hsteady
    dsimp only at hstep
    have hready := hinv.ready l hphase
    cases hd : g.admitHop h.resolve l with
    | error failure =>
      rw [hd] at hstep
      obtain rfl := Option.some.inj hstep
      exact ⟨hinv.safe, by simp⟩
    | ok d =>
      rw [hd] at hstep
      obtain rfl := Option.some.inj hstep
      have hsafe := hready.dispatched hg hinv.safe hd
      refine ⟨hsafe, fun l' hl' => ?_⟩
      dsimp only [afterDispatch] at hl'
      cases hreply : h.reply with
      | none => simp [hreply] at hl'
      | some res =>
        rw [hreply] at hl' hsteady
        dsimp only [afterDispatch] at hl' hsteady
        cases hfollow : g.follow rt l res with
        | error outcome => simp [hfollow] at hl'
        | ok l'' =>
          rw [hfollow] at hl'
          obtain rfl := Phase.running.inj hl'
          obtain ⟨htarget, hfollowed⟩ := follow_eq_ok hfollow
          exact hready.followed hg hcount hsafe (admitHop_eq_ok hd).2.2.2
            (hsteady _ htarget) hfollowed

end FetchGuard

/-- **Runs of steady hops are safe**: with a limit that is a count, every request of a call goes to a
destination that `validateUrl` accepted on its hop, there are at most `maxRedirects + 1` of them,
none carries credentials behind the first hop to another origin, none is in the clear behind one over
TLS unless that is allowed, and a stream is sent once. -/
theorem redirects_safe [LowerCase] {rt : Runtime} {options : FetchGuardOptions} {g : FetchGuard}
    {input : Input} {init : RequestInit} {hops : List Hop} {s : State}
    (hg : fetchGuard rt options = .ok g) (hcount : options.maxRedirects.IsCount)
    (hsteady : Runs.AllSteps (g.step rt) (Steady g rt) (g.begin rt input init) hops)
    (hrun : g.guarded rt input init hops = some s) : Safe options g s.log :=
  (Runs.run_invariant (fun _ _ _ hgood hinv hstep =>
      FetchGuard.inv_step (FetchGuard.configured hg) hcount hgood hinv hstep)
    (FetchGuard.inv_begin (FetchGuard.configured hg) hcount input init) hsteady hrun).safe

/-! ## Two chains -/

abbrev latinLower : LowerCase where
  lower := toLowerCase
  ascii _ _ := rfl

/-- The URLs `<scheme>://<letter>/` and nothing else. -/
def parseShortUrl (text : JsString) (_ : Option Url) : Option Url :=
  [js "https:", js "http:", js "app:"].findSome? fun protocol =>
    [js "a", js "b", js "c", js "d", js "e"].findSome? fun hostname =>
      if text = protocol ++ js "//" ++ hostname ++ js "/" then
        some { protocol, hostname, rest := js "/" }
      else none

def exampleRuntime : Runtime where
  hasFetch := true
  isNode := true
  newUrl := parseShortUrl

def redirectHop (status : ℕ) (location : String) : Hop where
  resolve _ := some [js "8.8.8.8"]
  reply := some { status, location := some (js location) }

def lastHop : Hop where
  resolve _ := some [js "8.8.8.8"]
  reply := some { status := 200 }

def bearer : HeaderValue := ⟨js "Bearer t", by decide +kernel⟩

def withAuthorization : RequestInit where
  headers := some ⟨JsMap.empty.set (js "authorization") bearer⟩

theorem ok_of_isSome {ε α : Type} {x : Except ε α} (h : x.toOption.isSome = true) :
    x = .ok (x.toOption.get h) := by
  cases x with
  | error e => simp [Except.toOption] at h
  | ok a => rfl

def exampleGuard : FetchGuard :=
  (@fetchGuard latinLower exampleRuntime {}).toOption.get (by decide +kernel)

def exampleHops : List Hop := [redirectHop 302 "https://b/", redirectHop 307 "https://a/", lastHop]

def exampleRun : Option State :=
  @FetchGuard.guarded latinLower exampleGuard exampleRuntime (.text (js "https://a/"))
    withAuthorization exampleHops

def exampleState : State := exampleRun.get (by decide +kernel)

theorem redirects_safe_example :
    exampleState.log.map (fun d =>
        (d.request.url.hostname, d.request.headers.has (js "authorization"))) =
      [(js "a", true), (js "b", false), (js "a", false)] ∧
      @Safe latinLower {} exampleGuard exampleState.log :=
  ⟨by decide, @redirects_safe latinLower exampleRuntime {} exampleGuard
    (.text (js "https://a/")) withAuthorization exampleHops exampleState (ok_of_isSome _)
    (.inl ⟨5, rfl⟩) (by decide) (Option.some_get _).symm⟩

def chainOptions : FetchGuardOptions where
  allowProtocols := some [js "https:", js "http:", js "app:"]
  maxRedirects := .finite (7 / 2)
  customFetch := true

def chainGuard : FetchGuard :=
  (@fetchGuard latinLower exampleRuntime chainOptions).toOption.get (by decide +kernel)

def chainHops : List Hop :=
  [redirectHop 302 "app://b/", redirectHop 302 "https://c/", redirectHop 302 "app://d/",
    redirectHop 302 "http://e/", lastHop]

def chainRun : Option State :=
  @FetchGuard.guarded latinLower chainGuard exampleRuntime (.text (js "app://a/"))
    withAuthorization chainHops

def chainState : State := chainRun.get (by decide +kernel)

/-- The chain `app://a/`, `app://b/`, `https://c/`, `app://d/`, `http://e/`: the second request
carries the credentials to another host, the last one is in the clear behind the third, and there are
five where `3.5 + 1` are allowed. -/
theorem unsafe_chain :
    @fetchGuard latinLower exampleRuntime chainOptions = .ok chainGuard ∧
      chainRun = some chainState ∧
      ¬ Justified (Stripped chainOptions) chainState.log ∧
      ¬ Justified (NotDowngraded chainOptions) chainState.log ∧
      chainOptions.maxRedirects.allows chainState.log.length = false := by
  have hlength : chainState.log.length = 5 := by decide +kernel
  refine ⟨ok_of_isSome _, (Option.some_get _).symm, fun h => ?_, fun h => ?_, ?_⟩
  · have hsecond := h.getElem (i := 1) (by omega)
    revert hsecond
    decide +kernel +revert
  · have hlast := h.getElem (i := 4) (by omega)
    revert hlast
    decide +kernel +revert
  · rw [hlength]
    decide +kernel

end Daloy.Egress
