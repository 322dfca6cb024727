import Daloy.Routing.Trie

/-! # What a walk finds

A walk stops at the first node with a table, literal segments before parameters and parameters
before wildcards. Among the patterns of the trie that match the path it finds the one that goes
before all others.

* `routeMatches`, `precedes`: a pattern matches a path; one pattern goes before another.
* `Node.Reaches`: a pattern of the trie with a table that matches the path.
* `Node.First`, `Node.first_of_stop`: a walk ends at the first of them, if there is one.
-/

namespace Daloy.Routing
set_option autoImplicit false

open Daloy.Unicode

variable {T : Type}

/-- The pattern matches the segments of a path: literals are equal, a parameter may bind its
segment, a wildcard may bind the segments that are left, of which there is one. -/
def routeMatches : List Segment → List JsString → Bool
  | [], [] => true
  | .literal text :: pattern, segment :: segments =>
    text = segment && routeMatches pattern segments
  | .param _ :: pattern, segment :: segments => binds segment && routeMatches pattern segments
  | [.wildcard _], segment :: segments => (segment :: segments).all binds
  | _, _ => false

def Segment.rank : Segment → ℕ
  | .literal _ => 0
  | .param _ => 1
  | .wildcard _ => 2

/-- Where the kinds of the patterns first differ, the first has the more specific one. -/
def precedes : List Segment → List Segment → Bool
  | s :: pattern, t :: pattern' =>
    s.rank < t.rank || (s.rank = t.rank && precedes pattern pattern')
  | _, _ => false

theorem precedes_of_rank_lt {s t : Segment} (h : s.rank < t.rank) (pattern pattern' : List Segment) :
    precedes (s :: pattern) (t :: pattern') = true := by
  simp [precedes, h]

theorem not_precedes_of_rank_lt {s t : Segment} (h : s.rank < t.rank)
    (pattern pattern' : List Segment) : precedes (t :: pattern') (s :: pattern) = false := by
  simp [precedes, h.le, h.ne']

@[simp] theorem precedes_cons (s : Segment) (pattern pattern' : List Segment) :
    precedes (s :: pattern) (s :: pattern') = precedes pattern pattern' := by
  simp [precedes]

namespace Node

/-! ## The walk without its captures -/

def stop : Node T → List JsString → Option (Node T)
  | node, [] => if node.handlers.isSome then some node else none
  | node, segment :: segments =>
    let literal := (node.child? segment).bind fun next => next.stop segments
    let param :=
      if binds segment then node.paramChild.bind fun child => child.2.stop segments else none
    let wildcard :=
      if (segment :: segments).all binds then node.wildcardChild.map Prod.snd else none
    (literal.or param).or wildcard

theorem orElse_fst {first second : Attempt T} {a b : Option (Node T)}
    (hfirst : ∀ captures, (first captures).1 = a) (hsecond : ∀ captures, (second captures).1 = b)
    (captures : Captures) : (first.orElse second captures).1 = a.or b := by
  have ha := hfirst captures
  rw [Attempt.orElse]
  rcases heq : first captures with ⟨found, captures'⟩
  rw [heq] at ha
  subst ha
  cases found with
  | none => exact hsecond captures'
  | some found => rfl

theorem tryStatic_fst (node : Node T) (segment : JsString) {walkOn : Node T → Attempt T}
    {f : Node T → Option (Node T)} (h : ∀ next captures, (walkOn next captures).1 = f next)
    (captures : Captures) :
    (node.tryStatic segment walkOn captures).1 = (node.child? segment).bind f := by
  rw [tryStatic]
  cases node.child? segment with
  | none => rfl
  | some next => exact h next captures

theorem tryParam_fst (node : Node T) (segment : JsString) {walkOn : Node T → Attempt T}
    {f : Node T → Option (Node T)} (h : ∀ next captures, (walkOn next captures).1 = f next)
    (captures : Captures) :
    (node.tryParam segment walkOn captures).1 =
      if binds segment then node.paramChild.bind fun child => f child.2 else none := by
  rw [tryParam, ← isSome_safeDecodeURIComponent segment captures.sawEncodedSeparator]
  cases node.paramChild with
  | none => simp
  | some child =>
    obtain ⟨name, next⟩ := child
    rcases safeDecodeURIComponent segment captures.sawEncodedSeparator with ⟨decoded, saw⟩
    cases decoded with
    | none => rfl
    | some decoded =>
      have hnext := h next ⟨captures.params.set name decoded, saw⟩
      rcases heq : walkOn next ⟨captures.params.set name decoded, saw⟩ with ⟨found, captures'⟩
      rw [heq] at hnext
      simp only [heq, Option.isSome_some, if_true, Option.bind_some, ← hnext]
      cases found <;> rfl

theorem tryWildcard_fst (node : Node T) (segments : List JsString) (captures : Captures) :
    (node.tryWildcard segments captures).1 =
      if segments.all binds then node.wildcardChild.map Prod.snd else none := by
  rw [tryWildcard, ← isSome_decodeSegments segments captures.sawEncodedSeparator]
  cases node.wildcardChild with
  | none => simp
  | some child =>
    rcases decodeSegments segments captures.sawEncodedSeparator with ⟨rest, saw⟩
    cases rest <;> rfl

theorem walk_fst (node : Node T) (segments : List JsString) (captures : Captures) :
    (node.walk segments captures).1 = node.stop segments := by
  induction segments generalizing node captures with
  | nil => rfl
  | cons segment segments ih =>
    rw [walk, stop]
    apply orElse_fst
    · apply orElse_fst
      · exact tryStatic_fst node segment ih
      · exact tryParam_fst node segment ih
    · exact tryWildcard_fst node (segment :: segments)

/-! ## The patterns that match -/

theorem named?_eq_some {child : Option (JsString × Node T)} {name : JsString} {node : Node T} :
    named? child name = some node ↔ child = some (name, node) := by
  cases child with
  | none => simp [named?]
  | some child =>
    obtain ⟨name', node'⟩ := child
    simp only [named?, Option.some.injEq, Prod.mk.injEq, Option.ite_none_right_eq_some,
      eq_comm (a := name)]

/-- A pattern of the trie that matches the path, and the node with a table it leads to. -/
structure Reaches (node : Node T) (segments : List JsString) (pattern : List Segment)
    (found : Node T) : Prop where
  leads : node.at? pattern = some found
  completed : found.handlers.isSome
  routeMatches : routeMatches pattern segments

theorem reaches_nil {node found : Node T} {pattern : List Segment} :
    node.Reaches [] pattern found ↔ pattern = [] ∧ found = node ∧ node.handlers.isSome := by
  constructor
  · rintro ⟨hleads, hcompleted, hmatch⟩
    cases pattern with
    | nil =>
      obtain rfl : node = found := Option.some.inj hleads
      exact ⟨rfl, rfl, hcompleted⟩
    | cons s pattern => cases s <;> simp [Routing.routeMatches] at hmatch
  · rintro ⟨rfl, rfl, hcompleted⟩
    exact ⟨rfl, hcompleted, rfl⟩

theorem reaches_cons {node found : Node T} {segment : JsString} {segments : List JsString}
    {pattern : List Segment} :
    node.Reaches (segment :: segments) pattern found ↔
      (∃ next rest, node.child? segment = some next ∧ pattern = .literal segment :: rest ∧
        next.Reaches segments rest found) ∨
      (∃ name next rest, binds segment ∧ node.paramChild = some (name, next) ∧
        pattern = .param name :: rest ∧ next.Reaches segments rest found) ∨
      (∃ name, (segment :: segments).all binds ∧ node.wildcardChild = some (name, found) ∧
        pattern = [.wildcard name] ∧ found.handlers.isSome) := by
  constructor
  · rintro ⟨hleads, hcompleted, hmatch⟩
    cases pattern with
    | nil => simp [Routing.routeMatches] at hmatch
    | cons s rest =>
      obtain ⟨next, hnext, hrest⟩ := Option.bind_eq_some_iff.mp hleads
      cases s with
      | literal text =>
        simp only [Routing.routeMatches, Bool.and_eq_true, decide_eq_true_eq] at hmatch
        obtain ⟨rfl, hmatch⟩ := hmatch
        exact .inl ⟨next, rest, hnext, rfl, hrest, hcompleted, hmatch⟩
      | param name =>
        simp only [Routing.routeMatches, Bool.and_eq_true] at hmatch
        exact .inr (.inl ⟨name, next, rest, hmatch.1, named?_eq_some.mp hnext, rfl, hrest,
          hcompleted, hmatch.2⟩)
      | wildcard name =>
        cases rest with
        | cons t rest => simp [Routing.routeMatches] at hmatch
        | nil =>
          obtain rfl : next = found := Option.some.inj hrest
          exact .inr (.inr ⟨name, hmatch, named?_eq_some.mp hnext, rfl, hcompleted⟩)
  · rintro (⟨next, rest, hnext, rfl, hreach⟩ | ⟨name, next, rest, hbinds, hnext, rfl, hreach⟩ |
      ⟨name, hbinds, hnext, rfl, hcompleted⟩)
    · refine ⟨?_, hreach.completed, ?_⟩
      · rw [at?, next?, hnext]
        exact hreach.leads
      · simp [Routing.routeMatches, hreach.routeMatches]
    · refine ⟨?_, hreach.completed, ?_⟩
      · rw [at?, next?, named?_eq_some.mpr hnext]
        exact hreach.leads
      · simp [Routing.routeMatches, hreach.routeMatches, hbinds]
    · refine ⟨?_, hcompleted, hbinds⟩
      rw [at?, next?, named?_eq_some.mpr hnext]
      rfl

theorem reaches_trichotomy {node found found' : Node T} {segments : List JsString}
    {pattern pattern' : List Segment} (h : node.Reaches segments pattern found)
    (h' : node.Reaches segments pattern' found') :
    pattern = pattern' ∨ precedes pattern pattern' ∨ precedes pattern' pattern := by
  induction segments generalizing node pattern pattern' with
  | nil =>
    exact .inl ((reaches_nil.mp h).1.trans (reaches_nil.mp h').1.symm)
  | cons segment segments ih =>
    rcases reaches_cons.mp h with ⟨next, rest, hnext, rfl, hreach⟩ |
        ⟨name, next, rest, -, hnext, rfl, hreach⟩ | ⟨name, -, hnext, rfl, -⟩ <;>
      rcases reaches_cons.mp h' with ⟨next', rest', hnext', rfl, hreach'⟩ |
        ⟨name', next', rest', -, hnext', rfl, hreach'⟩ | ⟨name', -, hnext', rfl, -⟩
    · obtain rfl : next = next' := Option.some.inj (hnext.symm.trans hnext')
      simpa using ih hreach hreach'
    · exact .inr (.inl (precedes_of_rank_lt (by simp [Segment.rank]) _ _))
    · exact .inr (.inl (precedes_of_rank_lt (by simp [Segment.rank]) _ _))
    · exact .inr (.inr (precedes_of_rank_lt (by simp [Segment.rank]) _ _))
    · obtain ⟨rfl, rfl⟩ : name = name' ∧ next = next' :=
        Prod.mk.inj (Option.some.inj (hnext.symm.trans hnext'))
      simpa using ih hreach hreach'
    · exact .inr (.inl (precedes_of_rank_lt (by simp [Segment.rank]) _ _))
    · exact .inr (.inr (precedes_of_rank_lt (by simp [Segment.rank]) _ _))
    · exact .inr (.inr (precedes_of_rank_lt (by simp [Segment.rank]) _ _))
    · obtain ⟨rfl, -⟩ : name = name' ∧ found = found' :=
        Prod.mk.inj (Option.some.inj (hnext.symm.trans hnext'))
      exact .inl rfl

theorem isSome_stop_of_reaches {node found : Node T} {segments : List JsString}
    {pattern : List Segment} (h : node.Reaches segments pattern found) :
    (node.stop segments).isSome := by
  induction segments generalizing node pattern with
  | nil =>
    obtain ⟨-, -, hcompleted⟩ := reaches_nil.mp h
    simp [stop, hcompleted]
  | cons segment segments ih =>
    rw [stop, Option.isSome_or, Option.isSome_or, Bool.or_eq_true, Bool.or_eq_true]
    rcases reaches_cons.mp h with ⟨next, rest, hnext, -, hreach⟩ |
      ⟨name, next, rest, hbinds, hnext, -, hreach⟩ | ⟨name, hbinds, hnext, -, -⟩
    · left; left
      rw [hnext]
      exact ih hreach
    · left; right
      rw [if_pos hbinds, hnext]
      exact ih hreach
    · right
      rw [if_pos hbinds, hnext]
      rfl

/-- A pattern of the trie that matches the path and goes before every other that does. -/
structure First (node : Node T) (segments : List JsString) (pattern : List Segment)
    (found : Node T) : Prop where
  reaches : node.Reaches segments pattern found
  first : ∀ pattern' found', node.Reaches segments pattern' found' →
    precedes pattern' pattern = false

section First

variable {node next found : Node T} {segment name : JsString} {segments : List JsString}
variable {rest : List Segment}

theorem first_nil (hcompleted : node.handlers.isSome) : node.First [] [] node where
  reaches := ⟨rfl, hcompleted, rfl⟩
  first := by
    intro pattern' found' h'
    rw [(reaches_nil.mp h').1]
    rfl

theorem First.literal (hchild : node.child? segment = some next)
    (h : next.First segments rest found) :
    node.First (segment :: segments) (.literal segment :: rest) found where
  reaches := reaches_cons.mpr (.inl ⟨next, rest, hchild, rfl, h.reaches⟩)
  first := by
    intro pattern' found' h'
    rcases reaches_cons.mp h' with ⟨next', rest', hchild', rfl, hreach'⟩ |
      ⟨name, next', rest', -, -, rfl, -⟩ | ⟨name, -, -, rfl, -⟩
    · obtain rfl : next = next' := Option.some.inj (hchild.symm.trans hchild')
      rw [precedes_cons]
      exact h.first rest' found' hreach'
    · exact not_precedes_of_rank_lt (by simp [Segment.rank]) _ _
    · exact not_precedes_of_rank_lt (by simp [Segment.rank]) _ _

theorem First.param (hbinds : binds segment = true) (hchild : node.paramChild = some (name, next))
    (hbefore : ((node.child? segment).bind fun next => next.stop segments) = none)
    (h : next.First segments rest found) :
    node.First (segment :: segments) (.param name :: rest) found where
  reaches := reaches_cons.mpr (.inr (.inl ⟨name, next, rest, hbinds, hchild, rfl, h.reaches⟩))
  first := by
    intro pattern' found' h'
    rcases reaches_cons.mp h' with ⟨next', rest', hchild', -, hreach'⟩ |
      ⟨name', next', rest', -, hchild', rfl, hreach'⟩ | ⟨name', -, -, rfl, -⟩
    · -- the literal branch was tried and failed
      rw [hchild', Option.bind_some] at hbefore
      have := isSome_stop_of_reaches hreach'
      simp [hbefore] at this
    · obtain ⟨rfl, rfl⟩ : name = name' ∧ next = next' :=
        Prod.mk.inj (Option.some.inj (hchild.symm.trans hchild'))
      rw [precedes_cons]
      exact h.first rest' found' hreach'
    · exact not_precedes_of_rank_lt (by simp [Segment.rank]) _ _

theorem first_wildcard (hbinds : (segment :: segments).all binds = true)
    (hchild : node.wildcardChild = some (name, next)) (hcompleted : next.handlers.isSome)
    (hliteral : ((node.child? segment).bind fun next => next.stop segments) = none)
    (hparam : (if binds segment then node.paramChild.bind fun child => child.2.stop segments
      else none) = none) :
    node.First (segment :: segments) [.wildcard name] next where
  reaches := reaches_cons.mpr (.inr (.inr ⟨name, hbinds, hchild, rfl, hcompleted⟩))
  first := by
    intro pattern' found' h'
    rcases reaches_cons.mp h' with ⟨next', rest', hchild', -, hreach'⟩ |
      ⟨name', next', rest', hbinds', hchild', -, hreach'⟩ | ⟨name', -, hchild', rfl, -⟩
    · have := isSome_stop_of_reaches hreach'
      rw [hchild', Option.bind_some] at hliteral
      simp [hliteral] at this
    · have := isSome_stop_of_reaches hreach'
      rw [if_pos hbinds', hchild', Option.bind_some] at hparam
      simp [hparam] at this
    · obtain ⟨rfl, -⟩ : name = name' ∧ next = found' :=
        Prod.mk.inj (Option.some.inj (hchild.symm.trans hchild'))
      rw [precedes_cons]
      rfl

end First

theorem first_of_stop {node found : Node T} (hcomplete : node.Complete)
    {segments : List JsString} (h : node.stop segments = some found) :
    ∃ pattern, node.First segments pattern found := by
  induction segments generalizing node with
  | nil =>
    rw [stop] at h
    split at h
    · next hcompleted =>
      obtain rfl := Option.some.inj h
      exact ⟨[], first_nil hcompleted⟩
    · simp at h
  | cons segment segments ih =>
    obtain ⟨hwild, hnext⟩ := complete_iff.mp hcomplete
    rw [stop] at h
    rcases Option.or_eq_some_iff.mp h with h | ⟨hbefore, h⟩
    · rcases Option.or_eq_some_iff.mp h with h | ⟨hbefore, h⟩
      · obtain ⟨next, hchild, hstop⟩ := Option.bind_eq_some_iff.mp h
        obtain ⟨rest, hfirst⟩ := ih (hnext (.literal segment) next hchild) hstop
        exact ⟨.literal segment :: rest, hfirst.literal hchild⟩
      · rw [Option.ite_none_right_eq_some] at h
        obtain ⟨hbinds, h⟩ := h
        obtain ⟨⟨name, next⟩, hchild, hstop⟩ := Option.bind_eq_some_iff.mp h
        obtain ⟨rest, hfirst⟩ := ih (hnext (.param name) next (named?_eq_some.mpr hchild)) hstop
        exact ⟨.param name :: rest, hfirst.param hbinds hchild hbefore⟩
    · rw [Option.ite_none_right_eq_some] at h
      obtain ⟨hbinds, h⟩ := h
      obtain ⟨⟨name, next⟩, hchild, rfl⟩ := Option.map_eq_some_iff.mp h
      have hcompleted := hwild name next (named?_eq_some.mpr hchild)
      rw [Option.or_eq_none_iff] at hbefore
      exact ⟨[.wildcard name], first_wildcard hbinds hchild hcompleted hbefore.1 hbefore.2⟩

end Node

end Daloy.Routing
