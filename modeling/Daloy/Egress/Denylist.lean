import Daloy.Egress.IpMatch

/-! # The denylist of feeds

`ipReputation` and `urlFeed` of `src/ip-reputation.ts`. Refreshes overlap, so a step is one feed's
fetch that settles.

* `compileFeed`, `matchingFeeds`: the lists of a feed, apart by family, and the one that is searched.
* `lastLoaded`: the entries that a feed last loaded, from the steps so far.
-/

namespace Daloy.Egress.Denylist
set_option autoImplicit false

open Daloy.Unicode Daloy.Text

/-! ## Feeds -/

/-- `s.search(/[\s;#]/)` cuts here. -/
def cutsToken (u : UInt16) : Bool := isWhitespace u || u == 0x3B || u == 0x23

def parseFeedLine (line : JsString) : Option JsString :=
  let s := trim line
  if s = [] || (js "#").isPrefixOf s || (js ";").isPrefixOf s || (js "//").isPrefixOf s then none
  else
    let token := s.takeWhile fun u => !cutsToken u
    if token = [] then none else some token

/-- How the fetch of a feed settles: it rejects, or with the entries of a feed of the caller, or with
a response to `urlFeed`. -/
inductive FeedFetch
  | rejected
  | loaded (entries : List JsString)
  | response (ok : Bool) (text : JsString)

def FeedFetch.read : FeedFetch → Option (List JsString)
  | .rejected => none
  | .loaded entries => some entries
  | .response ok text => if ok then some ((List.splitOn 0x0A text).filterMap parseFeedLine) else none

/-! ## The denylist -/

/-- A feed's matchers, apart by family. -/
structure CompiledFeed where
  name : JsString
  v4 : List IpMatcher
  v6 : List IpMatcher
  v4_family : ∀ m ∈ v4, m.family = .v4
  v6_family : ∀ m ∈ v6, m.family = .v6

namespace CompiledFeed

def empty (name : JsString) : CompiledFeed := ⟨name, [], [], by simp, by simp⟩

def push (feed : CompiledFeed) (m : IpMatcher) : CompiledFeed :=
  match hm : m.family with
  | .v4 => { feed with
      v4 := feed.v4 ++ [m]
      v4_family := by simpa [or_imp, forall_and, hm] using feed.v4_family }
  | .v6 => { feed with
      v6 := feed.v6 ++ [m]
      v6_family := by simpa [or_imp, forall_and, hm] using feed.v6_family }

end CompiledFeed

/-- The loop of `compileFeed`: an entry that does not compile is skipped. -/
def compileEntry (feed : CompiledFeed) (entry : JsString) : CompiledFeed :=
  match compileCidrMatcher entry with
  | .ok m => feed.push m
  | .error _ => feed

def compileFeed (name : JsString) (entries : List JsString) : CompiledFeed :=
  entries.foldl compileEntry (.empty name)

/-- A fetch of the feed at an index settles. -/
structure Refreshed where
  index : ℕ
  result : FeedFetch

def refreshOne (names : List JsString) (compiled : List CompiledFeed) (e : Refreshed) :
    List CompiledFeed :=
  match e.result.read with
  | some entries =>
    match names[e.index]? with
    | some name => compiled.set e.index (compileFeed name entries)
    | none => compiled
  | none => compiled

def denylist (names : List JsString) (events : List Refreshed) : List CompiledFeed :=
  events.foldl (refreshOne names) (names.map .empty)

def CompiledFeed.listFor (feed : CompiledFeed) (ip : ParsedIp) : List IpMatcher :=
  match ip.family with
  | .v4 => feed.v4
  | .v6 => feed.v6

def matchingFeeds (compiled : List CompiledFeed) (ip : JsString) : List JsString :=
  match parseIp ip with
  | none => []
  | some parsed =>
    (compiled.filter fun feed => (feed.listFor parsed).any (matchesMatcher parsed)).map (·.name)

def has (compiled : List CompiledFeed) (ip : JsString) : Bool := 0 < (matchingFeeds compiled ip).length

def size (compiled : List CompiledFeed) : ℕ :=
  (compiled.map fun feed => feed.v4.length + feed.v6.length).sum

inductive DenyMode
  | block
  | log

structure IpReputationMatch where
  ip : JsString
  feeds : List JsString

/-- What the hook hands to `onMatch`, and whether it throws the `ForbiddenError`. -/
def preBody (mode : DenyMode) (compiled : List CompiledFeed) (ip : Option JsString) :
    Option IpReputationMatch × Bool :=
  match ip with
  | none => (none, false)
  | some ip =>
    if ip = [] then (none, false)
    else
      let feeds := matchingFeeds compiled ip
      if feeds.length = 0 then (none, false)
      else (some ⟨ip, feeds⟩, match mode with
        | .block => true
        | .log => false)

/-! ## The plain scan -/

def compiledEntries (entries : List JsString) : List IpMatcher :=
  entries.filterMap fun entry => (compileCidrMatcher entry).toOption

def lastLoaded (events : List Refreshed) (index : ℕ) : List JsString :=
  events.foldl (fun loaded e => if e.index = index then e.result.read.getD loaded else loaded) []

def Listed (ip : ParsedIp) (entries : List JsString) : Prop :=
  ∃ entry ∈ entries, ∃ m, compileCidrMatcher entry = .ok m ∧ matchesMatcher ip m = true

/-- The address is IPv6, an IPv4 entry of the list accepts it, and no IPv6 entry does. -/
def Hidden (ip : ParsedIp) (entries : List JsString) : Prop :=
  ip.family = .v6 ∧
    (∃ entry ∈ entries, ∃ m, compileCidrMatcher entry = .ok m ∧ m.family = .v4 ∧
      matchesMatcher ip m = true) ∧
    ∀ entry ∈ entries, ∀ m, compileCidrMatcher entry = .ok m → m.family = .v6 →
      matchesMatcher ip m = false

theorem any_compiledEntries (entries : List JsString) (accepts : IpMatcher → Bool) :
    (compiledEntries entries).any accepts = true ↔
      ∃ entry ∈ entries, ∃ m, compileCidrMatcher entry = .ok m ∧ accepts m = true := by
  simp only [compiledEntries, List.any_eq_true, List.mem_filterMap]
  constructor
  · rintro ⟨m, ⟨entry, hentry, hm⟩, haccepts⟩
    cases hcompiled : compileCidrMatcher entry with
    | error _ =>
      rw [hcompiled] at hm
      cases hm
    | ok m' =>
      rw [hcompiled] at hm
      exact ⟨entry, hentry, m', hcompiled, by rw [Option.some.inj hm]; exact haccepts⟩
  · rintro ⟨entry, hentry, m, hm, haccepts⟩
    exact ⟨m, ⟨entry, hentry, by rw [hm]; rfl⟩, haccepts⟩

instance (ip : ParsedIp) (entries : List JsString) : Decidable (Listed ip entries) :=
  decidable_of_iff _ (any_compiledEntries entries (matchesMatcher ip))

/-! ## The lists of a feed -/

theorem compileFeed_eq (name : JsString) (entries : List JsString) :
    (compileFeed name entries).name = name ∧
      (compileFeed name entries).v4 = (compiledEntries entries).filter (·.family = .v4) ∧
      (compileFeed name entries).v6 = (compiledEntries entries).filter (·.family = .v6) := by
  have hloop : ∀ feed : CompiledFeed, (entries.foldl compileEntry feed).name = feed.name ∧
      (entries.foldl compileEntry feed).v4 =
        feed.v4 ++ (compiledEntries entries).filter (·.family = .v4) ∧
      (entries.foldl compileEntry feed).v6 =
        feed.v6 ++ (compiledEntries entries).filter (·.family = .v6) := by
    induction entries with
    | nil => simp [compiledEntries]
    | cons entry entries ih =>
      intro feed
      obtain ⟨hname, hv4, hv6⟩ := ih (compileEntry feed entry)
      rw [List.foldl_cons, hname, hv4, hv6, compileEntry]
      cases hcompiled : compileCidrMatcher entry with
      | error _ => simp [compiledEntries, hcompiled, Except.toOption]
      | ok m =>
        have hentries : compiledEntries (entry :: entries) = m :: compiledEntries entries := by
          simp [compiledEntries, hcompiled, Except.toOption]
        rw [hentries]
        dsimp only
        rw [CompiledFeed.push]
        split <;> rename_i hfamily <;> simp [hfamily]
  simpa [compileFeed, CompiledFeed.empty] using hloop (.empty name)

theorem matchesMatcher_v6 {ip : ParsedIp} {m : IpMatcher} (hip : ip.family = .v4)
    (hm : m.family = .v6) : matchesMatcher ip m = false := by
  rw [matchesMatcher, normalizeFamily, hip, hm, if_neg (by decide), if_neg (by simp)]

theorem any_listFor (name : JsString) (entries : List JsString) (ip : ParsedIp) :
    ((compileFeed name entries).listFor ip).any (matchesMatcher ip) =
      (compiledEntries entries).any fun m => m.family = ip.family && matchesMatcher ip m := by
  obtain ⟨-, hv4, hv6⟩ := compileFeed_eq name entries
  rw [CompiledFeed.listFor]
  cases hip : ip.family with
  | v4 =>
    dsimp only
    rw [hv4, List.any_filter]
  | v6 =>
    dsimp only
    rw [hv6, List.any_filter]

theorem any_listFor_iff (name : JsString) (entries : List JsString) (ip : ParsedIp) :
    ((compileFeed name entries).listFor ip).any (matchesMatcher ip) = true ↔
      Listed ip entries ∧ ¬ Hidden ip entries := by
  rw [any_listFor, any_compiledEntries]
  simp only [Bool.and_eq_true, decide_eq_true_eq]
  constructor
  · rintro ⟨entry, hentry, m, hm, hfamily, hmatch⟩
    refine ⟨⟨entry, hentry, m, hm, hmatch⟩, ?_⟩
    rintro ⟨hip, -, hnone⟩
    rw [hnone entry hentry m hm (hfamily.trans hip)] at hmatch
    cases hmatch
  · rintro ⟨⟨entry, hentry, m, hm, hmatch⟩, hhidden⟩
    by_cases hfamily : m.family = ip.family
    · exact ⟨entry, hentry, m, hm, hfamily, hmatch⟩
    -- a hit in a range of the other family is an IPv4 range that accepts a mapped address
    by_contra hnone
    cases hip : ip.family with
    | v4 =>
      have hm6 : m.family = .v6 := by
        cases hfam : m.family with
        | v4 => exact absurd (hfam.trans hip.symm) hfamily
        | v6 => rfl
      rw [matchesMatcher_v6 hip hm6] at hmatch
      cases hmatch
    | v6 =>
      have hm4 : m.family = .v4 := by
        cases hfam : m.family with
        | v4 => rfl
        | v6 => exact absurd (hfam.trans hip.symm) hfamily
      refine hhidden ⟨hip, ⟨entry, hentry, m, hm, hm4, hmatch⟩, ?_⟩
      intro entry' hentry' m' hm' hm6
      by_contra hhit
      exact hnone ⟨entry', hentry', m', hm', hm6.trans hip.symm, by simpa using hhit⟩

/-! ## Refreshes -/

theorem lastLoaded_append (events : List Refreshed) (e : Refreshed) (index : ℕ) :
    lastLoaded (events ++ [e]) index =
      if e.index = index then e.result.read.getD (lastLoaded events index)
      else lastLoaded events index := by
  rw [lastLoaded, List.foldl_append, List.foldl_cons, List.foldl_nil, lastLoaded]

theorem getElem?_denylist (names : List JsString) (events : List Refreshed) (i : ℕ) :
    (denylist names events)[i]? = names[i]?.map fun name => compileFeed name (lastLoaded events i) := by
  induction events using List.reverseRecOn with
  | nil =>
    rw [denylist, List.foldl_nil, List.getElem?_map]
    rfl
  | append_singleton events e ih =>
    rw [denylist, List.foldl_append, List.foldl_cons, List.foldl_nil, ← denylist, refreshOne,
      lastLoaded_append]
    cases hread : e.result.read with
    | none =>
      dsimp only
      rw [ih, Option.getD_none, ite_self]
    | some entries =>
      cases hname : names[e.index]? with
      | none =>
        dsimp only
        rw [ih]
        by_cases hindex : e.index = i
        · rw [← hindex, hname]
          rfl
        · rw [if_neg hindex]
      | some name =>
        dsimp only
        by_cases hindex : e.index = i
        · subst hindex
          have hlt : e.index < (denylist names events).length := by
            by_contra hge
            rw [List.getElem?_eq_none (Nat.le_of_not_lt hge), hname] at ih
            cases ih
          rw [List.getElem?_set_self hlt, if_pos rfl, hname, Option.getD_some]
          rfl
        · rw [List.getElem?_set_ne hindex, ih, if_neg hindex]

theorem denylist_eq (names : List JsString) (events : List Refreshed) :
    denylist names events =
      names.mapIdx fun i name => compileFeed name (lastLoaded events i) := by
  refine List.ext_getElem? fun i => ?_
  rw [getElem?_denylist, List.getElem?_mapIdx]

theorem denylist_failed (names : List JsString) (events : List Refreshed) {e : Refreshed}
    (h : e.result.read = none) : denylist names (events ++ [e]) = denylist names events := by
  rw [denylist, List.foldl_append, List.foldl_cons, List.foldl_nil, ← denylist, refreshOne, h]

/-! ## The lookup -/

def loadedFeeds (names : List JsString) (events : List Refreshed) : List (JsString × List JsString) :=
  names.mapIdx fun i name => (name, lastLoaded events i)

theorem matchingFeeds_eq (names : List JsString) (events : List Refreshed) {ip : JsString}
    {parsed : ParsedIp} (hip : parseIp ip = some parsed) :
    matchingFeeds (denylist names events) ip =
      ((loadedFeeds names events).filter fun feed =>
        ((compileFeed feed.1 feed.2).listFor parsed).any (matchesMatcher parsed)).map Prod.fst := by
  have hmap : denylist names events =
      (loadedFeeds names events).map fun feed => compileFeed feed.1 feed.2 := by
    rw [denylist_eq, loadedFeeds]
    refine List.ext_getElem? fun i => ?_
    rw [List.getElem?_map, List.getElem?_mapIdx, List.getElem?_mapIdx, Option.map_map]
    rfl
  rw [matchingFeeds, hip, hmap]
  dsimp only
  rw [List.filter_map, List.map_map]
  congr 1
  funext feed
  exact (compileFeed_eq feed.1 feed.2).1

/-- What the lookup is to be: `has` finds the address where an entry of some feed does, and
`onMatch` names exactly the feeds with such an entry. -/
structure Exact (names : List JsString) (events : List Refreshed) (mode : DenyMode) (ip : JsString)
    (parsed : ParsedIp) : Prop where
  has : has (denylist names events) ip = true ↔
    ∃ feed ∈ loadedFeeds names events, Listed parsed feed.2
  reported : ((preBody mode (denylist names events) (some ip)).1.map (·.feeds)).getD [] =
    ((loadedFeeds names events).filter fun feed => Listed parsed feed.2).map Prod.fst

theorem reported_eq (mode : DenyMode) (compiled : List CompiledFeed) (ip : JsString) :
    ((preBody mode compiled (some ip)).1.map (·.feeds)).getD [] =
      if ip = [] then [] else matchingFeeds compiled ip := by
  rw [preBody.eq_def]
  dsimp only
  split
  · rfl
  · split
    · rename_i hnone
      rw [List.length_eq_zero_iff.mp hnone]
      rfl
    · rfl

theorem parseIp_nil : parseIp [] = none := by decide

theorem of_length_filter_eq {α : Type} {l : List α} {p q : α → Bool}
    (hpq : ∀ a ∈ l, p a = true → q a = true) (h : (l.filter p).length = (l.filter q).length) :
    ∀ a ∈ l, q a = true → p a = true := by
  have hboth : (l.filter q).filter p = l.filter p := by
    rw [List.filter_filter]
    refine List.filter_congr fun a ha => ?_
    cases hp : p a with
    | true => rw [hpq a ha hp]; rfl
    | false => rfl
  rw [← hboth, List.length_filter_eq_length_iff] at h
  exact fun a ha hq => h a (List.mem_filter.mpr ⟨ha, hq⟩)

theorem length_compileFeed (name : JsString) (entries : List JsString) :
    (compileFeed name entries).v4.length + (compileFeed name entries).v6.length =
      (compiledEntries entries).length := by
  obtain ⟨-, hv4, hv6⟩ := compileFeed_eq name entries
  have hrest : (compiledEntries entries).filter (fun m => m.family = .v6) =
      (compiledEntries entries).filter fun m => !decide (m.family = .v4) := by
    refine List.filter_congr fun m _ => ?_
    cases m.family <;> rfl
  rw [hv4, hv6, hrest, ← List.length_eq_length_filter_add]

/-- **The lookup is the plain scan** for any feeds, fetches and address, exactly where no feed's hit
is hidden: the address is not IPv6, or no IPv4 entry of the feed accepts it, or an IPv6 entry does.
The size counts the entries that compile, and a fetch that fails changes no list. -/
theorem denylist_exact (names : List JsString) (events : List Refreshed) (mode : DenyMode)
    {ip : JsString} {parsed : ParsedIp} (hip : parseIp ip = some parsed) :
    (Exact names events mode ip parsed ↔
        ∀ feed ∈ loadedFeeds names events, ¬ Hidden parsed feed.2) ∧
      size (denylist names events) =
        ((loadedFeeds names events).map fun feed => (compiledEntries feed.2).length).sum ∧
      ∀ e : Refreshed, e.result.read = none →
        denylist names (events ++ [e]) = denylist names events := by
  have hne : ip ≠ [] := by
    rintro rfl
    rw [parseIp_nil] at hip
    cases hip
  refine ⟨?_, ?_, fun e he => denylist_failed names events he⟩
  · constructor
    · rintro ⟨-, hreported⟩ feed hfeed hhidden
      rw [reported_eq, if_neg hne, matchingFeeds_eq names events hip] at hreported
      -- the feeds that are found are some of those that the scan finds, without the hidden one
      have hlength := congrArg List.length hreported
      rw [List.length_map, List.length_map] at hlength
      have hlisted : Listed parsed feed.2 := by
        obtain ⟨entry, hentry, m, hm, -, hmatch⟩ := hhidden.2.1
        exact ⟨entry, hentry, m, hm, hmatch⟩
      have hfound := of_length_filter_eq (fun feed _ hfound => by
        rw [any_listFor_iff] at hfound
        exact decide_eq_true hfound.1) hlength feed hfeed (decide_eq_true hlisted)
      exact ((any_listFor_iff feed.1 feed.2 parsed).mp hfound).2 hhidden
    · intro hnone
      have hfound : matchingFeeds (denylist names events) ip =
          ((loadedFeeds names events).filter fun feed => Listed parsed feed.2).map Prod.fst := by
        rw [matchingFeeds_eq names events hip]
        congr 1
        refine List.filter_congr fun feed hfeed => ?_
        rw [Bool.eq_iff_iff, any_listFor_iff, decide_eq_true_eq]
        exact and_iff_left (hnone feed hfeed)
      refine ⟨?_, by rw [reported_eq, if_neg hne, hfound]⟩
      rw [has, hfound, decide_eq_true_eq, List.length_map, List.length_pos_iff_exists_mem]
      simp only [List.mem_filter, decide_eq_true_eq]
  · rw [size, denylist_eq, loadedFeeds]
    congr 1
    refine List.ext_getElem? fun i => ?_
    simp only [List.getElem?_map, List.getElem?_mapIdx, Option.map_map]
    congr 1
    funext name
    exact length_compileFeed name (lastLoaded events i)

def dropLoads : List Refreshed :=
  [⟨0, .rejected⟩, ⟨0, .response true (js "10.0.0.0/8 ; SBL1\n# end")⟩]

theorem denylist_exact_range :
    Exact [js "drop"] dropLoads .block (js "10.1.2.3") ⟨.v4, [10, 1, 2, 3], rfl⟩ ↔
      ∀ feed ∈ loadedFeeds [js "drop"] dropLoads, ¬ Hidden ⟨.v4, [10, 1, 2, 3], rfl⟩ feed.2 :=
  (denylist_exact [js "drop"] dropLoads .block (by decide +kernel)).1

theorem mapped_passes :
    Listed ⟨.v6, [0, 0, 0, 0, 0, 0, 0, 0, 0, 0, 0xFF, 0xFF, 1, 2, 3, 4], rfl⟩ [js "1.2.3.4"] ∧
      (parseIp (js "::ffff:1.2.3.4")).map (·.bytes) =
        some [0, 0, 0, 0, 0, 0, 0, 0, 0, 0, 0xFF, 0xFF, 1, 2, 3, 4] ∧
      has (denylist [js "drop"] [⟨0, .loaded [js "1.2.3.4"]⟩]) (js "::ffff:1.2.3.4") = false ∧
      has (denylist [js "drop"] [⟨0, .loaded [js "1.2.3.4"]⟩]) (js "1.2.3.4") = true := by
  decide +kernel

end Daloy.Egress.Denylist
