import Daloy.Routing.Matching

/-! # What the captures bind

The walk sets and deletes properties of `params` while it goes down and back, and decoding raises a
flag on the side.

* `isClean`: no control character and no dot component, the verdict of `hasUnsafeDecodedContent`.
* `bindings`: the values that a pattern binds on a path. `Node.walk_spec`: a walk that finds a
  pattern adds its bindings to the properties it was given, and nothing else; one that finds none
  leaves them as they were.
-/

namespace Daloy.Routing
set_option autoImplicit false

open Daloy.Unicode

variable {T : Type}

/-! ## Values -/

def isSeparator (c : UInt16) : Bool := c = slash || c = backslash

def isControl (c : UInt16) : Bool := c.toNat < 32 || c = 127

def components (value : JsString) : List JsString := value.splitOnP isSeparator

def isClean (value : JsString) : Bool := !value.any isControl && !(components value).any isDotSegment

/-- Decoding the segment adds a `/` or a `\`. -/
def introducesSeparator (segment : JsString) : Bool :=
  match decodeURIComponent segment with
  | none => false
  | some decoded => segment.countP isSeparator < decoded.countP isSeparator

theorem hasUnsafeDecodedContentFrom_spec (component decoded : JsString) (saw : Bool) :
    (hasUnsafeDecodedContentFrom component decoded saw).1 =
        (decoded.any isControl ||
          ((components decoded).modifyHead (component ++ ·)).any isDotSegment) ∧
      ((hasUnsafeDecodedContentFrom component decoded saw).1 = false →
        (hasUnsafeDecodedContentFrom component decoded saw).2 =
          (saw || decoded.any isSeparator)) := by
  induction decoded generalizing component saw with
  | nil => simp [hasUnsafeDecodedContentFrom, components]
  | cons c decoded ih =>
    rw [hasUnsafeDecodedContentFrom, components, List.splitOnP_cons, List.any_cons, List.any_cons]
    by_cases hcontrol : c.toNat < 32 ∨ c = 127
    · have hc : isControl c = true := by simpa [isControl] using hcontrol
      rw [if_pos hcontrol]
      simp [hc]
    · have hc : isControl c = false := by simpa [isControl, not_or] using hcontrol
      rw [if_neg hcontrol, hc, Bool.false_or]
      by_cases hsep : c = slash ∨ c = backslash
      · have hs : isSeparator c = true := by simpa [isSeparator] using hsep
        rw [if_pos hsep, if_pos hs]
        cases hdot : isDotSegment component with
        | true => simp [hdot]
        | false =>
          rw [if_neg Bool.false_ne_true]
          obtain ⟨hverdict, hflag⟩ := ih [] true
          refine ⟨?_, ?_⟩
          · rw [hverdict, List.modifyHead_cons, List.append_nil, List.any_cons, hdot, components]
            cases decoded.splitOnP isSeparator <;> rfl
          · intro hfalse
            rw [hflag hfalse, hs]
            simp
      · have hs : isSeparator c = false := by simpa [isSeparator, not_or] using hsep
        rw [if_neg hsep, if_neg (by simp [hs]), hs, Bool.false_or]
        obtain ⟨hverdict, hflag⟩ := ih (component ++ [c]) saw
        refine ⟨?_, hflag⟩
        rw [hverdict, components]
        cases decoded.splitOnP isSeparator with
        | nil => rfl
        | cons first rest =>
          rw [List.modifyHead_cons, List.modifyHead_cons, List.modifyHead_cons, List.append_assoc]
          rfl

theorem hasUnsafeDecodedContent_eq_false {decoded : JsString} {saw : Bool}
    (h : (hasUnsafeDecodedContent decoded saw).1 = false) :
    isClean decoded = true ∧
      (hasUnsafeDecodedContent decoded saw).2 = (saw || decoded.any isSeparator) := by
  obtain ⟨hverdict, hflag⟩ := hasUnsafeDecodedContentFrom_spec [] decoded saw
  rw [hasUnsafeDecodedContent] at h ⊢
  refine ⟨?_, hflag h⟩
  rw [h] at hverdict
  have hhead : (components decoded).modifyHead ([] ++ ·) = components decoded := by
    cases components decoded <;> rfl
  rw [hhead, eq_comm, Bool.or_eq_false_iff] at hverdict
  simp [isClean, hverdict.1, hverdict.2]

theorem safeDecodeURIComponent_eq_some {segment value : JsString} {saw saw' : Bool}
    (h : safeDecodeURIComponent segment saw = (some value, saw')) :
    decodeURIComponent segment = some value ∧ (percentSign ∈ segment → isClean value = true) ∧
      (saw = true → saw' = true) ∧ (introducesSeparator segment = true → saw' = true) := by
  rw [safeDecodeURIComponent] at h
  split at h
  · next hplain =>
    have hnot : percentSign ∉ segment := by simpa using hplain
    have hdecode := decodeURIComponent_of_not_mem hnot
    obtain ⟨hvalue, rfl⟩ := Prod.mk.inj h
    split at hvalue
    · simp at hvalue
    · obtain rfl := Option.some.inj hvalue
      refine ⟨hdecode, fun hin => absurd hin hnot, id, ?_⟩
      simp [introducesSeparator, hdecode]
  · cases hdecode : decodeURIComponent segment with
    | none =>
      rw [hdecode] at h
      simp at h
    | some decoded =>
      rw [hdecode] at h
      dsimp only at h
      split at h
      · simp at h
      · rcases hcontent : hasUnsafeDecodedContent decoded saw with ⟨unsafeContent, flag⟩
        rw [hcontent] at h
        cases unsafeContent with
        | true => simp at h
        | false =>
          obtain ⟨hclean, hflag⟩ := hasUnsafeDecodedContent_eq_false (congrArg Prod.fst hcontent)
          have hflag : flag = (saw || decoded.any isSeparator) := by rwa [hcontent] at hflag
          simp only [Prod.mk.injEq, Option.some.injEq] at h
          obtain ⟨rfl, rfl⟩ := h
          refine ⟨rfl, fun _ => hclean, ?_, ?_⟩
          · rintro rfl
            simp [hflag]
          · intro hmore
            rw [introducesSeparator, hdecode, decide_eq_true_eq] at hmore
            have hpos : 0 < decoded.countP isSeparator := by omega
            rw [hflag, List.any_eq_true.mpr (List.countP_pos_iff.mp hpos), Bool.or_true]

/-! ## The flag stays up -/

theorem hasUnsafeDecodedContentFrom_flag (component decoded : JsString) :
    (hasUnsafeDecodedContentFrom component decoded true).2 = true := by
  induction decoded generalizing component with
  | nil => rfl
  | cons c decoded ih =>
    rw [hasUnsafeDecodedContentFrom]
    split
    · rfl
    split
    · split
      · rfl
      · exact ih []
    · exact ih _

theorem safeDecodeURIComponent_flag (segment : JsString) :
    (safeDecodeURIComponent segment true).2 = true := by
  rw [safeDecodeURIComponent]
  split
  · rfl
  split
  · rfl
  · next decoded _ =>
    split
    · rfl
    · have hflag := hasUnsafeDecodedContentFrom_flag [] decoded
      rw [hasUnsafeDecodedContent]
      rcases hcontent : hasUnsafeDecodedContentFrom [] decoded true with ⟨_ | _, flag⟩ <;>
        rwa [hcontent] at hflag

theorem decodeParts_flag (segments : List JsString) : (decodeParts segments true).2 = true := by
  induction segments with
  | nil => rfl
  | cons segment segments ih =>
    have hsegment := safeDecodeURIComponent_flag segment
    rw [decodeParts]
    rcases hdecode : safeDecodeURIComponent segment true with ⟨_ | decoded, flag⟩
    · rwa [hdecode] at hsegment
    · obtain rfl : flag = true := by rwa [hdecode] at hsegment
      rcases hrest : decodeParts segments true with ⟨_ | parts, flag⟩ <;> rw [hrest] at ih <;>
        simpa [hrest] using ih

/-! ## Bindings -/

def boundValue (segment : JsString) : JsString := (decodeURIComponent segment).getD []

def bindings : List Segment → List JsString → List (JsString × JsString)
  | .literal _ :: pattern, _ :: segments => bindings pattern segments
  | .param name :: pattern, segment :: segments =>
    (name, boundValue segment) :: bindings pattern segments
  | .wildcard name :: _, segments => [(name, [slash].intercalate (segments.map boundValue))]
  | _, _ => []

def captured : List Segment → List JsString → List JsString
  | .literal _ :: pattern, _ :: segments => captured pattern segments
  | .param _ :: pattern, segment :: segments => segment :: captured pattern segments
  | .wildcard _ :: _, segments => segments
  | _, _ => []

def captureNames (pattern : List Segment) : List JsString := pattern.filterMap Segment.captureName

theorem keys_bindings {pattern : List Segment} {segments : List JsString}
    (h : routeMatches pattern segments = true) :
    (bindings pattern segments).map Prod.fst = captureNames pattern := by
  induction pattern generalizing segments with
  | nil => cases segments <;> rfl
  | cons s pattern ih =>
    cases segments with
    | nil => cases s <;> simp [routeMatches] at h
    | cons segment segments =>
      cases s with
      | literal text =>
        simp only [routeMatches, Bool.and_eq_true] at h
        exact ih h.2
      | param name =>
        simp only [routeMatches, Bool.and_eq_true] at h
        exact congrArg (name :: ·) (ih h.2)
      | wildcard name =>
        cases pattern with
        | nil => rfl
        | cons t pattern => simp [routeMatches] at h

theorem decodeParts_eq_some {segments parts : List JsString} {saw saw' : Bool}
    (h : decodeParts segments saw = (some parts, saw')) :
    parts = segments.map boundValue ∧
      ∀ segment ∈ segments, introducesSeparator segment = true → saw' = true := by
  induction segments generalizing parts saw saw' with
  | nil =>
    rw [decodeParts] at h
    exact ⟨(Option.some.inj (Prod.mk.inj h).1).symm, by simp⟩
  | cons segment segments ih =>
    rw [decodeParts] at h
    rcases hsegment : safeDecodeURIComponent segment saw with ⟨_ | decoded, flag⟩
    · rw [hsegment] at h
      simp at h
    · rw [hsegment] at h
      rcases hrest : decodeParts segments flag with ⟨_ | rest, flag'⟩
      · simp [hrest] at h
      · obtain ⟨hdecode, -, -, hraises⟩ := safeDecodeURIComponent_eq_some hsegment
        obtain ⟨rfl, hflags⟩ := ih hrest
        simp only [hrest, Prod.mk.injEq, Option.some.injEq] at h
        obtain ⟨rfl, rfl⟩ := h
        refine ⟨by simp [boundValue, hdecode], ?_⟩
        intro segment' hin hintroduces
        rcases List.mem_cons.mp hin with rfl | hin
        · -- the flag stays up while the rest is decoded
          obtain rfl := hraises hintroduces
          have hup := decodeParts_flag segments
          rwa [hrest] at hup
        · exact hflags segment' hin hintroduces

/-! ## The walk with its captures -/

namespace Node

/-- No way down names a capture twice, or as one of `keys`. -/
def Fresh (node : Node T) (keys : List JsString) : Prop :=
  ∀ pattern, (node.at? pattern).isSome → (keys ++ captureNames pattern).Nodup

theorem Fresh.next {node next : Node T} {keys : List JsString} (h : node.Fresh keys)
    {segment : Segment} (hnext : node.next? segment = some next) :
    next.Fresh (keys ++ captureNames [segment]) := by
  intro pattern hsome
  have hnode : (node.at? (segment :: pattern)).isSome := by
    rw [at?, hnext]
    exact hsome
  have hnodup := h (segment :: pattern) hnode
  have hnames : captureNames (segment :: pattern) =
      captureNames [segment] ++ captureNames pattern := by
    rw [captureNames, captureNames, captureNames, ← List.filterMap_append]
    rfl
  rwa [hnames, ← List.append_assoc] at hnodup

theorem Fresh.not_mem {node next : Node T} {keys : List JsString} (h : node.Fresh keys)
    {segment : Segment} {name : JsString} (hnext : node.next? segment = some next)
    (hname : segment.captureName = some name) : name ∉ keys := by
  have hnodup := h.next hnext [] rfl
  have hnames : captureNames [segment] = [name] := by simp [captureNames, hname]
  rw [hnames, captureNames, List.filterMap_nil, List.append_nil, List.nodup_append] at hnodup
  intro hin
  exact hnodup.2.2 name hin name (by simp) rfl

/-- What an attempt does with captures that it starts from: the flag stays up, an attempt that fails
leaves the properties as they were, one that finds a node has `found`. -/
structure Tries (attempt : Attempt T) (params : JsMap JsString JsString)
    (found : Node T → Captures → Prop) : Prop where
  flag : (attempt ⟨params, true⟩).2.sawEncodedSeparator = true
  restores : ∀ saw, (attempt ⟨params, saw⟩).1 = none → (attempt ⟨params, saw⟩).2.params = params
  finds : ∀ saw node, (attempt ⟨params, saw⟩).1 = some node → found node (attempt ⟨params, saw⟩).2

theorem Tries.fails (params : JsMap JsString JsString) (found : Node T → Captures → Prop) :
    Tries (fun captures => (none, captures)) params found where
  flag := rfl
  restores := fun _ _ => rfl
  finds := by simp

theorem Tries.mono {attempt : Attempt T} {params : JsMap JsString JsString}
    {found found' : Node T → Captures → Prop} (h : Tries attempt params found)
    (himp : ∀ node captures, found node captures → found' node captures) :
    Tries attempt params found' :=
  ⟨h.flag, h.restores, fun saw node hnode => himp _ _ (h.finds saw node hnode)⟩

theorem Tries.orElse {first second : Attempt T} {params : JsMap JsString JsString}
    {found : Node T → Captures → Prop} (hfirst : Tries first params found)
    (hsecond : (∃ captures, (first captures).1 = none) → Tries second params found) :
    Tries (first.orElse second) params found := by
  have horElse : ∀ saw, (first.orElse second) ⟨params, saw⟩ = first ⟨params, saw⟩ ∨
      ((∃ captures, (first captures).1 = none) ∧ ∃ saw', (saw = true → saw' = true) ∧
        (first.orElse second) ⟨params, saw⟩ = second ⟨params, saw'⟩) := by
    intro saw
    rw [Attempt.orElse]
    rcases htry : first ⟨params, saw⟩ with ⟨_ | node, ⟨params', saw'⟩⟩
    · have hnone : (first ⟨params, saw⟩).1 = none := by rw [htry]
      have hparams := hfirst.restores saw hnone
      rw [htry] at hparams
      obtain rfl : params' = params := hparams
      refine .inr ⟨⟨_, hnone⟩, saw', ?_, rfl⟩
      rintro rfl
      have hflag := hfirst.flag
      rwa [htry] at hflag
    · exact .inl rfl
  refine ⟨?_, ?_, ?_⟩
  · rcases horElse true with heq | ⟨hnone, saw', hflag, heq⟩
    · rw [heq]
      exact hfirst.flag
    · obtain rfl := hflag rfl
      rw [heq]
      exact (hsecond hnone).flag
  · intro saw
    rcases horElse saw with heq | ⟨hnone, saw', -, heq⟩ <;> rw [heq]
    · exact hfirst.restores saw
    · exact (hsecond hnone).restores saw'
  · intro saw node
    rcases horElse saw with heq | ⟨hnone, saw', -, heq⟩ <;> rw [heq]
    · exact hfirst.finds saw node
    · exact (hsecond hnone).finds saw' node

/-- The walk ended at the first pattern that matches, with its bindings after `params`. -/
structure Binds (node : Node T) (segments : List JsString) (params : JsMap JsString JsString)
    (pattern : List Segment) (found : Node T) (captures : Captures) : Prop where
  first : node.First segments pattern found
  entries : captures.params.entries = params.entries ++ bindings pattern segments
  flagged : ∀ segment ∈ captured pattern segments, introducesSeparator segment = true →
    captures.sawEncodedSeparator = true

theorem tries_static {node : Node T} {segment : JsString} {segments : List JsString}
    {params : JsMap JsString JsString} {found : Node T → Captures → Prop}
    (h : ∀ next, node.child? segment = some next → Tries (next.walk segments) params found) :
    Tries (node.tryStatic segment fun next => next.walk segments) params found := by
  cases hchild : node.child? segment with
  | none =>
    have hattempt : node.tryStatic segment (fun next => next.walk segments) =
        fun captures => (none, captures) := by
      funext captures
      rw [tryStatic, hchild]
    rw [hattempt]
    exact Tries.fails params found
  | some next =>
    have hattempt : node.tryStatic segment (fun next => next.walk segments) =
        next.walk segments := by
      funext captures
      rw [tryStatic, hchild]
    rw [hattempt]
    exact h next hchild

theorem tries_param {node : Node T} {segment : JsString} {segments : List JsString}
    {params : JsMap JsString JsString} {found : Node T → Captures → Prop}
    (hnew : ∀ name next, node.paramChild = some (name, next) → name ∉ params.entries.map Prod.fst)
    (h : ∀ name next, node.paramChild = some (name, next) → binds segment = true →
      Tries (next.walk segments) (params.set name (boundValue segment)) fun found' captures =>
        (introducesSeparator segment = true → captures.sawEncodedSeparator = true) →
          found found' captures) :
    Tries (node.tryParam segment fun next => next.walk segments) params found := by
  cases hchild : node.paramChild with
  | none =>
    have hattempt : node.tryParam segment (fun next => next.walk segments) =
        fun captures => (none, captures) := by
      funext captures
      rw [tryParam, hchild]
    rw [hattempt]
    exact Tries.fails params found
  | some child =>
    obtain ⟨name, next⟩ := child
    have hattempt : ∀ saw, (node.tryParam segment (fun next => next.walk segments) ⟨params, saw⟩ =
          (none, ⟨params, (safeDecodeURIComponent segment saw).2⟩)) ∨
        ∃ saw', binds segment = true ∧ (saw = true → saw' = true) ∧
          (introducesSeparator segment = true → saw' = true) ∧
          (∀ found captures, next.walk segments ⟨params.set name (boundValue segment), saw'⟩ =
              (some found, captures) →
            node.tryParam segment (fun next => next.walk segments) ⟨params, saw⟩ =
              (some found, captures)) ∧
          ∀ captures, next.walk segments ⟨params.set name (boundValue segment), saw'⟩ =
              (none, captures) →
            node.tryParam segment (fun next => next.walk segments) ⟨params, saw⟩ =
              (none, { captures with params := captures.params.delete name }) := by
      intro saw
      rw [tryParam, hchild]
      dsimp only
      rcases hdecode : safeDecodeURIComponent segment saw with ⟨_ | decoded, saw'⟩
      · exact .inl rfl
      · obtain ⟨hvalue, -, hup, hraises⟩ := safeDecodeURIComponent_eq_some hdecode
        dsimp only
        rw [boundValue, hvalue]
        refine .inr ⟨saw', ?_, hup, hraises, ?_, ?_⟩
        · rw [← isSome_safeDecodeURIComponent segment saw, hdecode]
          rfl
        · intro found' captures hwalk
          rw [Option.getD_some] at hwalk
          rw [hwalk]
        · intro captures hwalk
          rw [Option.getD_some] at hwalk
          rw [hwalk]
    have hdelete : ∀ captures : Captures, captures.params = params.set name (boundValue segment) →
        captures.params.delete name = params := by
      intro captures hcaptures
      rw [hcaptures, JsMap.delete_set_of_not_mem (hnew name next hchild)]
    refine ⟨?_, ?_, ?_⟩
    · rcases hattempt true with heq | ⟨saw', hbinds, hup, -, hsome, hnone⟩
      · rw [heq]
        exact safeDecodeURIComponent_flag segment
      · obtain rfl := hup rfl
        have hflag := (h name next hchild hbinds).flag
        rcases hwalk : next.walk segments ⟨params.set name (boundValue segment), true⟩ with
          ⟨_ | node', captures⟩
        · rw [hwalk] at hflag
          rwa [hnone captures hwalk]
        · rw [hwalk] at hflag
          rwa [hsome node' captures hwalk]
    · intro saw
      rcases hattempt saw with heq | ⟨saw', hbinds, -, -, hsome, hnone⟩
      · rw [heq]
        exact fun _ => rfl
      · have hrestores := (h name next hchild hbinds).restores saw'
        rcases hwalk : next.walk segments ⟨params.set name (boundValue segment), saw'⟩ with
          ⟨_ | node', captures⟩
        · rw [hwalk] at hrestores
          rw [hnone captures hwalk]
          exact fun _ => hdelete captures (hrestores rfl)
        · rw [hsome node' captures hwalk]
          simp
    · intro saw node'
      rcases hattempt saw with heq | ⟨saw', hbinds, -, hraises, hsome, hnone⟩
      · rw [heq]
        simp
      · have hnext := h name next hchild hbinds
        have hfinds := hnext.finds saw' node'
        have hflag := hnext.flag
        rcases hwalk : next.walk segments ⟨params.set name (boundValue segment), saw'⟩ with
          ⟨_ | node'', captures⟩
        · rw [hnone captures hwalk]
          simp
        · rw [hwalk] at hfinds
          rw [hsome node'' captures hwalk]
          intro hnode
          refine hfinds hnode ?_
          intro hintroduces
          obtain rfl := hraises hintroduces
          rwa [hwalk] at hflag

theorem tries_wildcard {node : Node T} {segments : List JsString}
    {params : JsMap JsString JsString} {found : Node T → Captures → Prop}
    (h : ∀ name next captures, node.wildcardChild = some (name, next) → segments.all binds = true →
      captures.params = params.set name ([slash].intercalate (segments.map boundValue)) →
      (∀ segment ∈ segments, introducesSeparator segment = true →
        captures.sawEncodedSeparator = true) → found next captures) :
    Tries (node.tryWildcard segments) params found := by
  have hdecode : ∀ saw, decodeSegments segments saw =
      ((decodeParts segments saw).1.map [slash].intercalate, (decodeParts segments saw).2) := by
    intro saw
    rw [decodeSegments]
    rcases decodeParts segments saw with ⟨_ | parts, flag⟩ <;> rfl
  refine ⟨?_, ?_, ?_⟩
  · have hflag := decodeParts_flag segments
    rw [tryWildcard]
    cases node.wildcardChild with
    | none => rfl
    | some child =>
      dsimp only
      rw [hdecode]
      rcases hparts : decodeParts segments true with ⟨_ | parts, flag⟩ <;> rwa [hparts] at hflag
  · intro saw
    rw [tryWildcard]
    cases node.wildcardChild with
    | none => exact fun _ => rfl
    | some child =>
      dsimp only
      rw [hdecode]
      rcases decodeParts segments saw with ⟨_ | parts, flag⟩
      · exact fun _ => rfl
      · simp
  · intro saw node'
    rw [tryWildcard]
    cases hchild : node.wildcardChild with
    | none => simp
    | some child =>
      obtain ⟨name, next⟩ := child
      have hbinds := isSome_decodeSegments segments saw
      dsimp only
      rw [hdecode] at hbinds ⊢
      rcases hparts : decodeParts segments saw with ⟨_ | parts, flag⟩
      · simp
      · rw [hparts] at hbinds
        obtain ⟨rfl, hflags⟩ := decodeParts_eq_some hparts
        intro hnode
        obtain rfl := Option.some.inj hnode
        exact h name next _ hchild hbinds.symm rfl hflags

/-- **The walk, with its captures.** It ends at the first pattern that matches and has put that
pattern's bindings after the properties it was given; when it finds none, these are left. -/
theorem walk_spec {node : Node T} (hcomplete : node.Complete) {segments : List JsString}
    {params : JsMap JsString JsString} (hfresh : node.Fresh (params.entries.map Prod.fst)) :
    Tries (node.walk segments) params fun found captures =>
      ∃ pattern, node.Binds segments params pattern found captures := by
  induction segments generalizing node params with
  | nil =>
    refine ⟨rfl, fun _ _ => rfl, ?_⟩
    intro saw found hfound
    rw [walk] at hfound ⊢
    dsimp only at hfound ⊢
    split at hfound
    · next hcompleted =>
      obtain rfl := Option.some.inj hfound
      exact ⟨[], first_nil hcompleted, (List.append_nil _).symm, by simp [captured]⟩
    · simp at hfound
  | cons segment segments ih =>
    obtain ⟨hwild, hnext⟩ := complete_iff.mp hcomplete
    rw [walk]
    apply Tries.orElse
    · apply Tries.orElse
      · apply tries_static
        intro next hchild
        have hstep : node.next? (.literal segment) = some next := hchild
        have hkeys := hfresh.next hstep
        rw [show captureNames [Segment.literal segment] = [] from rfl, List.append_nil] at hkeys
        refine (ih (hnext _ next hstep) hkeys).mono ?_
        rintro found captures ⟨pattern, hfirst, hentries, hflagged⟩
        exact ⟨.literal segment :: pattern, hfirst.literal hchild, hentries, hflagged⟩
      · rintro ⟨captures, hliteral⟩
        rw [tryStatic_fst node segment (fun next captures => walk_fst next segments captures)]
          at hliteral
        have hparam : ∀ {name next}, node.paramChild = some (name, next) →
            node.next? (.param name) = some next := fun hchild => named?_eq_some.mpr hchild
        apply tries_param
        · intro name next hchild
          exact hfresh.not_mem (hparam hchild) rfl
        · intro name next hchild hbinds
          have hnew := hfresh.not_mem (hparam hchild) rfl
          have hset := JsMap.entries_set_of_not_mem hnew (boundValue segment)
          have hkeys := hfresh.next (hparam hchild)
          have hkeys' : next.Fresh
              ((params.set name (boundValue segment)).entries.map Prod.fst) := by
            rw [hset, List.map_append]
            exact hkeys
          refine (ih (hnext _ next (hparam hchild)) hkeys').mono ?_
          rintro found captures ⟨pattern, hfirst, hentries, hflagged⟩ hraised
          refine ⟨.param name :: pattern, hfirst.param hbinds hchild hliteral, ?_, ?_⟩
          · rw [hentries, hset, List.append_assoc]
            rfl
          · intro segment' hin
            rcases List.mem_cons.mp hin with rfl | hin
            · exact hraised
            · exact hflagged segment' hin
    · rintro ⟨captures, hbefore⟩
      rw [orElse_fst (tryStatic_fst node segment (fun next captures => walk_fst next segments captures))
        (tryParam_fst node segment (fun next captures => walk_fst next segments captures)),
        Option.or_eq_none_iff] at hbefore
      apply tries_wildcard
      intro name next captures hchild hbinds hparams hflags
      have hstep : node.next? (.wildcard name) = some next := named?_eq_some.mpr hchild
      refine ⟨[.wildcard name], first_wildcard hbinds hchild (hwild name next hstep) hbefore.1
        hbefore.2, ?_, hflags⟩
      rw [hparams, JsMap.entries_set_of_not_mem (hfresh.not_mem hstep rfl)]
      rfl

/-! ## No way down names a capture twice -/

theorem at?_insert {method : HttpMethod} {path : JsString} {handler : T}
    {pattern : List Segment} (h : WildcardLast pattern) {node node' : Node T}
    (hinsert : node.insert method path handler pattern = (node', .ok ()))
    {pattern' : List Segment} (hsome : (node'.at? pattern').isSome) :
    (node.at? pattern').isSome ∨ pattern' <+: pattern := by
  induction pattern generalizing node node' pattern' with
  | nil =>
    cases pattern' with
    | nil => exact .inr (List.prefix_refl [])
    | cons segment' pattern' =>
      rw [insert, register] at hinsert
      split at hinsert
      · simp at hinsert
      · rw [← (Prod.mk.inj hinsert).1, at?_handlers _ _ _ (by simp)] at hsome
        exact .inl hsome
  | cons segment pattern ih =>
    have hconflict := not_conflict_of_insert hinsert
    rw [insert_cons hconflict h.1] at hinsert
    obtain ⟨hnode, hresult⟩ := Prod.mk.inj hinsert
    cases pattern' with
    | nil => exact .inl rfl
    | cons segment' pattern' =>
      rw [← hnode, at?, next?_setNext hconflict] at hsome
      by_cases hsegment : segment' = segment
      · subst hsegment
        rw [if_pos rfl, Option.bind_some] at hsome
        rcases ih h.2 (pair_of_snd hresult) hsome with hold | hpre
        · rw [at?]
          cases hnext : node.next? segment' with
          | some child =>
            rw [hnext] at hold
            exact .inl hold
          | none =>
            rw [hnext, Option.getD_none] at hold
            cases pattern' with
            | nil => exact .inr (by simp)
            | cons t pattern' => simp [at?] at hold
        · exact .inr (List.cons_prefix_cons.mpr ⟨rfl, hpre⟩)
      · rw [if_neg hsegment] at hsome
        exact .inl hsome

theorem fresh_createNode : (createNode : Node T).Fresh [] := by
  intro pattern hsome
  cases pattern with
  | nil => exact List.nodup_nil
  | cons segment pattern => simp [at?] at hsome

theorem Fresh.insert {method : HttpMethod} {path : JsString} {handler : T}
    {pattern : List Segment} {node node' : Node T} (h : node.Fresh [])
    (hlast : WildcardLast pattern) (hnodup : (captureNames pattern).Nodup)
    (hinsert : node.insert method path handler pattern = (node', .ok ())) : node'.Fresh [] := by
  intro pattern' hsome
  rcases at?_insert hlast hinsert hsome with hold | hpre
  · exact h pattern' hold
  · exact (hpre.sublist.filterMap Segment.captureName).nodup hnodup

end Node

theorem scanCaptures_nodup {path : JsString} {pattern : List Segment}
    {names result : Option (Finset JsString)} (h : scanCaptures path pattern names = .ok result) :
    (captureNames pattern).Nodup ∧ ∀ name ∈ captureNames pattern, name ∉ names.getD ∅ := by
  induction pattern generalizing names with
  | nil => simp [captureNames]
  | cons segment pattern ih =>
    rw [scanCaptures] at h
    split at h
    · simp at h
    · cases hname : segment.captureName with
      | none =>
        rw [hname] at h
        rw [captureNames, List.filterMap_cons_none hname]
        exact ih h
      | some name =>
        rw [hname] at h
        dsimp only at h
        split at h
        · simp at h
        · next hvalid =>
          obtain ⟨hnodup, hnew⟩ := ih h
          rw [captureNames, List.filterMap_cons_some hname]
          refine ⟨List.nodup_cons.mpr ⟨?_, hnodup⟩, ?_⟩
          · intro hin
            exact hnew name hin (by simp)
          · intro name' hin
            rcases List.mem_cons.mp hin with rfl | hin
            · exact fun hold => hvalid (.inr (.inr hold))
            · intro hold
              exact hnew name' hin (by simp [hold])

namespace Router

theorem scanCaptures_of_add {router router' : Router T} {route : Route T}
    (h : router.add route.method route.path route.handler route.operationId = (router', .ok ())) :
    ∃ names, scanCaptures route.path route.pattern none = .ok names := by
  rw [add] at h
  split at h
  · simp at h
  · rw [← Route.pattern] at h
    cases hscan : scanCaptures route.path route.pattern none with
    | error message =>
      rw [hscan] at h
      simp at h
    | ok names => exact ⟨names, rfl⟩

theorem fresh_answer {router : Router T} (h : router.root.Fresh []) (call : Call T) :
    (router.answer call).1.root.Fresh [] := by
  cases call with
  | find method path => exact h
  | allowedMethods path =>
    obtain ⟨staticMethods, heq⟩ := allowedMethods_fst router path
    rw [answer, heq]
    exact h
  | add route =>
    rw [answer]
    rcases add_cases router route with ⟨_, heq⟩ | ⟨_, _, heq, _⟩ |
      ⟨-, hlast, root, hinsert, heq⟩
    · rw [heq]
      exact h
    · rw [heq]
      exact h
    · obtain ⟨names, hscan⟩ := scanCaptures_of_add heq
      rw [heq]
      exact h.insert hlast (scanCaptures_nodup hscan).1 hinsert

theorem fresh_after (calls : List (Call T)) : (after calls).root.Fresh [] := by
  have hstep : ∀ (router : Router T) (call : Call T), router.root.Fresh [] →
      (router.answer call).1.root.Fresh [] := fun _ call h => fresh_answer h call
  have hnew : (new : Router T).root.Fresh [] := Node.fresh_createNode
  exact Runs.feed_invariant hstep hnew calls

end Router

/-! ## Clean values -/

theorem components_intercalate (first : JsString) (values : List JsString) :
    components ([slash].intercalate (first :: values)) = (first :: values).flatMap components := by
  induction values generalizing first with
  | nil => simp [components]
  | cons value values ih =>
    have hjoin : [slash].intercalate (first :: value :: values) =
        first ++ slash :: [slash].intercalate (value :: values) := by
      simp [List.intercalate]
    have hsep : isSeparator slash = true := by decide
    rw [hjoin, components, List.splitOnP_append_cons _ _ hsep, ← components, ← components,
      ih]
    rfl

theorem any_isControl_intercalate (first : JsString) (values : List JsString) :
    ([slash].intercalate (first :: values)).any isControl =
      (first :: values).any fun value => value.any isControl := by
  induction values generalizing first with
  | nil => simp
  | cons value values ih =>
    have hjoin : [slash].intercalate (first :: value :: values) =
        first ++ slash :: [slash].intercalate (value :: values) := by
      simp [List.intercalate]
    have hslash : isControl slash = false := by decide
    rw [hjoin, List.any_append, List.any_cons, hslash, Bool.false_or, ih, List.any_cons,
      List.any_cons]
    simp

theorem isClean_intercalate (values : List JsString) :
    isClean ([slash].intercalate values) = true ↔ ∀ value ∈ values, isClean value = true := by
  cases values with
  | nil => simpa using (by decide : isClean [] = true)
  | cons first values =>
    rw [isClean, components_intercalate, any_isControl_intercalate, List.any_flatMap]
    simp only [isClean, Bool.and_eq_true, Bool.not_eq_true', List.any_eq_false]
    constructor
    · rintro ⟨hcontrol, hdot⟩ value hin
      exact ⟨by simpa using hcontrol value hin, by simpa using hdot value hin⟩
    · intro h
      exact ⟨fun value hin => by simpa using (h value hin).1,
        fun value hin => by simpa using (h value hin).2⟩

theorem isClean_bindings (pattern : List Segment) (segments : List JsString) :
    (∀ entry ∈ bindings pattern segments, isClean entry.2 = true) ↔
      ∀ segment ∈ captured pattern segments, isClean (boundValue segment) = true := by
  induction pattern generalizing segments with
  | nil => cases segments <;> simp [bindings, captured]
  | cons s pattern ih =>
    cases s with
    | literal text =>
      cases segments with
      | nil => simp [bindings, captured]
      | cons segment segments => exact ih segments
    | param name =>
      cases segments with
      | nil => simp [bindings, captured]
      | cons segment segments =>
        rw [bindings, captured, List.forall_mem_cons, List.forall_mem_cons, ih]
    | wildcard name =>
      have hvalues := isClean_intercalate (segments.map boundValue)
      rw [List.forall_mem_map] at hvalues
      cases segments <;> simpa [bindings, captured] using hvalues

theorem binds_captured {pattern : List Segment} {segments : List JsString}
    (h : routeMatches pattern segments = true) :
    ∀ segment ∈ captured pattern segments, binds segment = true := by
  induction pattern generalizing segments with
  | nil => cases segments <;> simp [captured]
  | cons s pattern ih =>
    cases segments with
    | nil => cases s <;> simp [routeMatches] at h
    | cons segment segments =>
      cases s with
      | literal text =>
        simp only [routeMatches, Bool.and_eq_true] at h
        exact ih h.2
      | param name =>
        simp only [routeMatches, Bool.and_eq_true] at h
        rw [captured, List.forall_mem_cons]
        exact ⟨h.1, ih h.2⟩
      | wildcard name =>
        cases pattern with
        | nil => exact List.all_eq_true.mp h
        | cons t pattern => simp [routeMatches] at h

theorem isClean_boundValue {segment : JsString} (h : binds segment = true) :
    isClean (boundValue segment) = true ↔ (percentSign ∉ segment → isClean segment = true) := by
  by_cases hpercent : percentSign ∈ segment
  · rcases hdecode : safeDecodeURIComponent segment false with ⟨_ | value, saw⟩
    · rw [binds, hdecode] at h
      simp at h
    · obtain ⟨hvalue, hclean, -⟩ := safeDecodeURIComponent_eq_some hdecode
      rw [boundValue, hvalue]
      exact iff_of_true (hclean hpercent) fun hnot => absurd hpercent hnot
  · rw [boundValue, decodeURIComponent_of_not_mem hpercent]
    exact ⟨fun hclean _ => hclean, fun hclean => hclean hpercent⟩

/-! ## The match -/

/-- A dynamic route that matches the path, and no other goes before it. -/
structure Route.Serves (route : Route T) (routes : List (Route T)) (segments : List JsString) :
    Prop where
  mem : route ∈ routes
  isDynamic : route.isDynamic = true
  routeMatches : routeMatches route.pattern segments = true
  first : ∀ other ∈ routes, other.isDynamic = true →
    Routing.routeMatches other.pattern segments = true →
      precedes other.pattern route.pattern = false

/-- The properties of a match are the captures of one route, no value holds a control character or a
dot component, and a separator that decoding introduced is flagged. -/
structure CapturesSafe (routes : List (Route T)) (path : JsString) (result : RouteMatch T) :
    Prop where
  exactly : ∃ route ∈ routes, route.isDynamic = true ∧
    routeMatches route.pattern (splitPath path) = true ∧
    result.params.entries.map Prod.fst = captureNames route.pattern ∧
    ∀ segment ∈ captured route.pattern (splitPath path), introducesSeparator segment = true →
      result.encodedSeparator = true
  control : ∀ entry ∈ result.params.entries, entry.2.any isControl = false
  dots : ∀ entry ∈ result.params.entries, (components entry.2).any isDotSegment = false

namespace Router

theorem serves_of_find {calls : List (Call T)} {method : HttpMethod} {path : JsString}
    {result : RouteMatch T} (hfind : (after calls).find method path = some result)
    (hdynamic : (((after calls).staticEntry path).bind fun entry => entry.get? method) = none) :
    ∃ route : Route T, route.Serves (registrations calls) (splitPath path) ∧
      result.params.entries = bindings route.pattern (splitPath path) ∧
      ∀ segment ∈ captured route.pattern (splitPath path), introducesSeparator segment = true →
        result.encodedSeparator = true := by
  have h := holds_after calls
  have hwalks : Node.Tries ((after calls).root.walk (splitPath path)) ∅ fun found captures =>
      ∃ pattern, (after calls).root.Binds (splitPath path) ∅ pattern found captures :=
    Node.walk_spec h.complete (fresh_after calls)
  rw [find] at hfind
  split at hfind
  · simp at hfind
  · rw [hdynamic] at hfind
    dsimp only at hfind
    have hfinds := hwalks.finds false
    rcases hwalk : (after calls).root.walk (splitPath path) ⟨∅, false⟩ with ⟨_ | found, captures⟩
    · rw [hwalk] at hfind
      simp at hfind
    · rw [hwalk] at hfind hfinds
      obtain ⟨pattern, ⟨hreach, hfirst⟩, hentries, hflagged⟩ := hfinds found rfl
      dsimp only at hfind
      cases hget : (found.handlers.getD ∅).get? method with
      | none =>
        rw [hget] at hfind
        simp at hfind
      | some handler =>
        rw [hget] at hfind
        obtain rfl := Option.some.inj hfind
        obtain ⟨route, hroute, hkind, rfl⟩ := h.route_of_reaches hreach
        refine ⟨route, ⟨hroute, hkind, hreach.routeMatches, ?_⟩, hentries, hflagged⟩
        intro other hother hdynamic' hmatch'
        obtain ⟨found', hreach', -⟩ := h.reaches hother hdynamic' hmatch'
        exact hfirst _ _ hreach'

theorem serves_pattern {calls : List (Call T)} {route route' : Route T} {segments : List JsString}
    (h : route.Serves (registrations calls) segments)
    (h' : route'.Serves (registrations calls) segments) : route.pattern = route'.pattern := by
  have hholds := holds_after calls
  obtain ⟨found, hreach, -⟩ := hholds.reaches h.mem h.isDynamic h.routeMatches
  obtain ⟨found', hreach', -⟩ := hholds.reaches h'.mem h'.isDynamic h'.routeMatches
  rcases Node.reaches_trichotomy hreach hreach' with heq | hbefore | hafter
  · exact heq
  · rw [h'.first route h.mem h.isDynamic h.routeMatches] at hbefore
    exact absurd hbefore Bool.false_ne_true
  · rw [h.first route' h'.mem h'.isDynamic h'.routeMatches] at hafter
    exact absurd hafter Bool.false_ne_true

/-- **Captures, for every route table.** The captures of a dynamic match are exact and safe if and
only if no segment that the serving route binds, and that has no percent sign, holds a control
character or a dot component behind a backslash. -/
theorem captures_safe_iff (calls : List (Call T)) (method : HttpMethod) (path : JsString)
    (result : RouteMatch T) (hfind : (after calls).find method path = some result)
    (hdynamic : (((after calls).staticEntry path).bind fun entry => entry.get? method) = none) :
    CapturesSafe (registrations calls) path result ↔
      ∀ route : Route T, route.Serves (registrations calls) (splitPath path) →
        ∀ segment ∈ captured route.pattern (splitPath path), percentSign ∉ segment →
          isClean segment = true := by
  obtain ⟨route, hserves, hentries, hflagged⟩ := serves_of_find hfind hdynamic
  have hbinds := binds_captured hserves.routeMatches
  have hclean : (∀ entry ∈ result.params.entries, isClean entry.2 = true) ↔
      ∀ segment ∈ captured route.pattern (splitPath path), percentSign ∉ segment →
        isClean segment = true := by
    rw [hentries, isClean_bindings]
    refine forall₂_congr ?_
    intro segment hin
    exact isClean_boundValue (hbinds segment hin)
  have hvalues : (∀ entry ∈ result.params.entries, isClean entry.2 = true) ↔
      (∀ entry ∈ result.params.entries, entry.2.any isControl = false) ∧
        ∀ entry ∈ result.params.entries, (components entry.2).any isDotSegment = false := by
    rw [← forall₂_and]
    simp only [isClean, Bool.and_eq_true, Bool.not_eq_true']
  constructor
  · intro hsafe route' hserves'
    rw [serves_pattern hserves' hserves]
    exact hclean.mp (hvalues.mpr ⟨hsafe.control, hsafe.dots⟩)
  · intro h
    obtain ⟨hcontrol, hdots⟩ := hvalues.mp (hclean.mpr (h route hserves))
    refine ⟨⟨route, hserves.mem, hserves.isDynamic, hserves.routeMatches, ?_, hflagged⟩, hcontrol,
      hdots⟩
    rw [hentries, keys_bindings hserves.routeMatches]

def fileRoute : List (Call ℕ) := [.add ⟨.get, js "/files/:name", 1, none⟩]

theorem captures_safe_example :
    CapturesSafe (registrations fileRoute) (js "/files/a%2Fb")
      ⟨1, (∅ : JsMap JsString JsString).set (js "name") (js "a/b"), true⟩ := by
  rw [captures_safe_iff fileRoute .get (js "/files/a%2Fb") _ (by decide +kernel)
    (by decide +kernel)]
  intro route hserves
  have hroute : route = ⟨.get, js "/files/:name", 1, none⟩ := List.mem_singleton.mp hserves.mem
  rw [hroute]
  decide +kernel

/-- A backslash needs no percent sign: the value bound for `/files/a\..` climbs. -/
theorem backslash_binds :
    ∃ result, (after fileRoute).find .get (js "/files/a\\..") = some result ∧
      (((after fileRoute).staticEntry (js "/files/a\\..")).bind fun entry => entry.get? .get) =
        none ∧
      ¬ CapturesSafe (registrations fileRoute) (js "/files/a\\..") result := by
  refine ⟨⟨1, (∅ : JsMap JsString JsString).set (js "name") (js "a\\.."), false⟩,
    by decide +kernel, by decide +kernel, ?_⟩
  intro hsafe
  have hdots := hsafe.dots (js "name", js "a\\..") (by decide +kernel)
  exact absurd hdots (by decide +kernel)

end Router

end Daloy.Routing
