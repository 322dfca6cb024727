import Daloy.Routing.Router

/-! # The trie as a table of patterns

A node is read as the function from patterns to handler tables (`Node.handlersAt`), and the two
recursions over the trie are described in these terms.

* `Node.insert_error`, `Node.handlersAt_insert`: an insertion that throws leaves the trie as it was;
  one that returns changes the table of its own pattern and no other.
* `Node.Complete`: below a wildcard there is always a table, so that a walk may stop there.
-/

namespace Daloy.Routing
set_option autoImplicit false

open Daloy.Unicode

variable {T : Type}

def WildcardLast : List Segment → Prop
  | [] => True
  | segment :: pattern => (segment.isWildcard → pattern = []) ∧ WildcardLast pattern

namespace Node

/-! ## One step down -/

def named? (child : Option (JsString × Node T)) (name : JsString) : Option (Node T) :=
  match child with
  | none => none
  | some (name', node) => if name = name' then some node else none

def next? (node : Node T) : Segment → Option (Node T)
  | .literal text => node.child? text
  | .param name => named? node.paramChild name
  | .wildcard name => named? node.wildcardChild name

def setNext (node : Node T) (segment : Segment) (child : Node T) : Node T :=
  match segment with
  | .literal text => { node with children := setChild text child node.children }
  | .param name => { node with paramChild := some (name, child) }
  | .wildcard name => { node with wildcardChild := some (name, child) }

def Conflict (node : Node T) : Segment → Prop
  | .literal _ => False
  | .param name => ∃ child, node.paramChild = some child ∧ child.1 ≠ name
  | .wildcard name => ∃ child, node.wildcardChild = some child ∧ child.1 ≠ name

theorem lookup_cons_if (text : JsString) (entry : JsString × Node T)
    (children : List (JsString × Node T)) :
    (entry :: children).lookup text =
      if text = entry.1 then some entry.2 else children.lookup text := by
  rw [List.lookup_cons]
  by_cases h : text = entry.1
  · rw [if_pos h, beq_iff_eq.mpr h]
  · rw [if_neg h, beq_eq_false_iff_ne.mpr h]

theorem lookup_setChild (text text' : JsString) (child : Node T)
    (children : List (JsString × Node T)) :
    (setChild text child children).lookup text' =
      if text' = text then some child else children.lookup text' := by
  induction children with
  | nil => rw [setChild, lookup_cons_if]
  | cons entry children ih =>
    rw [setChild, lookup_cons_if]
    split
    · next hkey =>
      rw [lookup_cons_if, hkey]
      split <;> rfl
    · next hkey =>
      rw [lookup_cons_if, ih]
      by_cases h : text' = entry.1
      · have hne : text' ≠ text := fun heq => hkey (h.symm.trans heq)
        rw [if_pos h, if_neg hne, if_pos h]
      · rw [if_neg h, if_neg h]

theorem setChild_of_lookup {text : JsString} {child : Node T} {children : List (JsString × Node T)}
    (h : children.lookup text = some child) : setChild text child children = children := by
  induction children with
  | nil => simp at h
  | cons entry children ih =>
    rw [lookup_cons_if] at h
    rw [setChild]
    split at h
    · next hkey =>
      rw [if_pos hkey.symm, hkey, ← Option.some.inj h]
    · next hkey =>
      rw [if_neg fun heq => hkey heq.symm, ih h]

theorem named?_some {child : Option (JsString × Node T)} {name : JsString}
    (h : ∀ old, child = some old → old.1 = name) (node : Node T) (name' : JsString) :
    named? (some (name, node)) name' = if name' = name then some node else named? child name' := by
  by_cases heq : name' = name
  · rw [named?, if_pos heq, if_pos heq]
  · rw [named?, if_neg heq, if_neg heq]
    cases child with
    | none => rfl
    | some old =>
      have hname : old.1 = name := h old rfl
      rw [named?, if_neg (by rwa [hname])]

@[simp] theorem handlers_setNext (node : Node T) (segment : Segment) (child : Node T) :
    (node.setNext segment child).handlers = node.handlers := by
  cases segment <;> rfl

theorem next?_setNext {node : Node T} {segment : Segment} (h : ¬ node.Conflict segment)
    (child : Node T) (segment' : Segment) :
    (node.setNext segment child).next? segment' =
      if segment' = segment then some child else node.next? segment' := by
  cases segment with
  | literal text =>
    cases segment' with
    | literal text' =>
      simp only [setNext, next?, child?, Segment.literal.injEq]
      exact lookup_setChild text text' child node.children
    | param name' => simp [setNext, next?]
    | wildcard name' => simp [setNext, next?]
  | param name =>
    cases segment' with
    | literal text' => simp [setNext, next?, child?]
    | wildcard name' => simp [setNext, next?]
    | param name' =>
      have hold : ∀ old, node.paramChild = some old → old.1 = name :=
        fun old hchild => not_not.mp fun hne => h ⟨old, hchild, hne⟩
      simp only [setNext, next?, Segment.param.injEq]
      exact named?_some hold child name'
  | wildcard name =>
    cases segment' with
    | literal text' => simp [setNext, next?, child?]
    | param name' => simp [setNext, next?]
    | wildcard name' =>
      have hold : ∀ old, node.wildcardChild = some old → old.1 = name :=
        fun old hchild => not_not.mp fun hne => h ⟨old, hchild, hne⟩
      simp only [setNext, next?, Segment.wildcard.injEq]
      exact named?_some hold child name'

theorem setNext_of_next? {node : Node T} {segment : Segment} {child : Node T}
    (h : node.next? segment = some child) : node.setNext segment child = node := by
  have hnamed : ∀ (old : Option (JsString × Node T)) (name : JsString),
      named? old name = some child → some (name, child) = old := by
    intro old name hchild
    cases old with
    | none => simp [named?] at hchild
    | some old =>
      simp only [named?] at hchild
      split at hchild
      · next heq => rw [heq, ← Option.some.inj hchild]
      · simp at hchild
  cases segment with
  | literal text =>
    rw [setNext, setChild_of_lookup h]
    cases node
    rfl
  | param name =>
    rw [setNext, hnamed _ _ h]
    cases node
    rfl
  | wildcard name =>
    rw [setNext, hnamed _ _ h]
    cases node
    rfl

/-! ## Insertion, by one step of the pattern -/

theorem pair_of_snd {α β : Type} {p : α × β} {b : β} (h : p.2 = b) : p = (p.1, b) := by rw [← h]

section Insert

variable {method : HttpMethod} {path : JsString} {handler : T}

theorem insert_conflict (method : HttpMethod) (path : JsString) (handler : T) {node : Node T}
    {segment : Segment} (h : node.Conflict segment) (pattern : List Segment) :
    ∃ message, node.insert method path handler (segment :: pattern) = (node, .error message) := by
  cases segment with
  | literal text => exact h.elim
  | param name =>
    obtain ⟨⟨name', child⟩, hchild, hne⟩ := h
    refine ⟨conflictingNames (js "param") name' name, ?_⟩
    rw [insert, hchild]
    exact if_pos hne
  | wildcard name =>
    obtain ⟨⟨name', child⟩, hchild, hne⟩ := h
    refine ⟨conflictingNames (js "wildcard") name' name, ?_⟩
    rw [insert, hchild]
    exact if_pos hne

theorem insert_cons {node : Node T} {segment : Segment} (h : ¬ node.Conflict segment)
    {pattern : List Segment} (hlast : segment.isWildcard → pattern = []) :
    node.insert method path handler (segment :: pattern) =
      (node.setNext segment
        (((node.next? segment).getD createNode).insert method path handler pattern).1,
        (((node.next? segment).getD createNode).insert method path handler pattern).2) := by
  cases segment with
  | literal text => rfl
  | param name =>
    rw [insert]
    cases hchild : node.paramChild with
    | none => simp only [setNext, next?, hchild, named?, Option.getD_none]
    | some child =>
      have hname : child.1 = name := not_not.mp fun hne => h ⟨child, hchild, hne⟩
      simp only [setNext, next?, hchild, named?, hname, ne_eq, not_true_eq_false, if_true, if_false,
        Option.getD_some]
  | wildcard name =>
    obtain rfl := hlast rfl
    rw [insert]
    cases hchild : node.wildcardChild with
    | none => simp only [setNext, next?, hchild, named?, Option.getD_none, insert]
    | some child =>
      have hname : child.1 = name := not_not.mp fun hne => h ⟨child, hchild, hne⟩
      simp only [setNext, next?, hchild, named?, hname, ne_eq, not_true_eq_false, if_true, if_false,
        Option.getD_some, insert]

theorem not_conflict_of_insert {node node' : Node T} {segment : Segment} {pattern : List Segment}
    (h : node.insert method path handler (segment :: pattern) = (node', .ok ())) :
    ¬ node.Conflict segment := by
  intro hconflict
  obtain ⟨message, heq⟩ :=
    insert_conflict method path handler hconflict pattern
  rw [heq] at h
  simp at h

theorem not_conflict_createNode (segment : Segment) : ¬ (createNode : Node T).Conflict segment := by
  cases segment <;> simp [Conflict, createNode]

@[simp] theorem next?_createNode (segment : Segment) :
    (createNode : Node T).next? segment = none := by
  cases segment <;> rfl

theorem insert_createNode {pattern : List Segment} (h : WildcardLast pattern) :
    ((createNode : Node T).insert method path handler pattern).2 = .ok () := by
  induction pattern with
  | nil => rfl
  | cons segment pattern ih =>
    rw [insert_cons (not_conflict_createNode segment) h.1, next?_createNode]
    exact ih h.2

theorem insert_error {pattern : List Segment} (h : WildcardLast pattern) {node node' : Node T}
    {message : JsString}
    (hinsert : node.insert method path handler pattern = (node', .error message)) :
    node' = node := by
  induction pattern generalizing node node' with
  | nil =>
    rw [insert, register] at hinsert
    split at hinsert
    · next hdup =>
      -- the table was there: an empty one has no method
      obtain ⟨handlers, hhandlers⟩ : ∃ handlers, node.handlers = some handlers := by
        cases hn : node.handlers with
        | none => simp [hn] at hdup
        | some handlers => exact ⟨handlers, rfl⟩
      rw [← (Prod.mk.inj hinsert).1, hhandlers, Option.getD_some, ← hhandlers]
      cases node
      rfl
    · simp at hinsert
  | cons segment pattern ih =>
    by_cases hconflict : node.Conflict segment
    · obtain ⟨message', heq⟩ :=
        insert_conflict method path handler hconflict pattern
      rw [heq] at hinsert
      exact (Prod.mk.inj hinsert).1.symm
    · rw [insert_cons hconflict h.1] at hinsert
      obtain ⟨hnode, hresult⟩ := Prod.mk.inj hinsert
      cases hnext : node.next? segment with
      | none =>
        rw [hnext, Option.getD_none, insert_createNode h.2] at hresult
        simp at hresult
      | some child =>
        rw [hnext, Option.getD_some] at hresult hnode
        rw [← hnode, ih h.2 (pair_of_snd hresult), setNext_of_next? hnext]

end Insert

/-! ## The tables of the patterns -/

def at? : List Segment → Node T → Option (Node T)
  | [], node => some node
  | segment :: pattern, node => (node.next? segment).bind (at? pattern)

theorem at?_handlers (node : Node T) (handlers : Option (Handlers T)) (pattern : List Segment)
    (h : pattern ≠ []) : { node with handlers }.at? pattern = node.at? pattern := by
  cases pattern with
  | nil => exact absurd rfl h
  | cons segment pattern => cases segment <;> rfl

def handlersAt (node : Node T) (pattern : List Segment) : Option (Handlers T) :=
  (node.at? pattern).bind handlers

@[simp] theorem handlersAt_nil (node : Node T) : node.handlersAt [] = node.handlers := rfl

theorem handlersAt_cons (node : Node T) (segment : Segment) (pattern : List Segment) :
    node.handlersAt (segment :: pattern) =
      (node.next? segment).bind fun child => child.handlersAt pattern := by
  rw [handlersAt, at?, Option.bind_assoc]
  rfl

theorem handlersAt_createNode (pattern : List Segment) :
    (createNode : Node T).handlersAt pattern = none := by
  cases pattern with
  | nil => rfl
  | cons segment pattern => rw [handlersAt_cons, next?_createNode, Option.bind_none]

theorem handlersAt_next (node : Node T) (segment : Segment) (pattern : List Segment) :
    ((node.next? segment).getD createNode).handlersAt pattern =
      node.handlersAt (segment :: pattern) := by
  rw [handlersAt_cons]
  cases node.next? segment with
  | none => exact handlersAt_createNode pattern
  | some child => rfl

theorem handlersAt_insert {method : HttpMethod} {path : JsString} {handler : T}
    {pattern : List Segment} (h : WildcardLast pattern) {node node' : Node T}
    (hinsert : node.insert method path handler pattern = (node', .ok ())) :
    ((node.handlersAt pattern).getD ∅).get? method = none ∧
      ∀ pattern', node'.handlersAt pattern' =
        if pattern' = pattern then some (((node.handlersAt pattern).getD ∅).set method handler)
        else node.handlersAt pattern' := by
  induction pattern generalizing node node' with
  | nil =>
    rw [insert, register] at hinsert
    split at hinsert
    · simp at hinsert
    · next hnew =>
      refine ⟨by simpa using hnew, ?_⟩
      intro pattern'
      rw [← (Prod.mk.inj hinsert).1]
      cases pattern' with
      | nil => rfl
      | cons segment' pattern' =>
        rw [if_neg (by simp), handlersAt, at?_handlers _ _ _ (by simp)]
        rfl
  | cons segment pattern ih =>
    have hconflict := not_conflict_of_insert hinsert
    rw [insert_cons hconflict h.1] at hinsert
    obtain ⟨hnode, hresult⟩ := Prod.mk.inj hinsert
    obtain ⟨hnew, htables⟩ := ih h.2 (pair_of_snd hresult)
    rw [handlersAt_next] at hnew
    refine ⟨hnew, ?_⟩
    intro pattern'
    rw [← hnode]
    cases pattern' with
    | nil => rw [handlersAt_nil, handlers_setNext, if_neg (by simp), handlersAt_nil]
    | cons segment' pattern' =>
      rw [handlersAt_cons, next?_setNext hconflict]
      by_cases hsegment : segment' = segment
      · subst hsegment
        rw [if_pos rfl, Option.bind_some, htables, handlersAt_next, handlersAt_next]
        simp only [List.cons.injEq, true_and]
      · rw [if_neg hsegment, if_neg (by simp [hsegment]), ← handlersAt_cons]

/-! ## Below a wildcard -/

def Complete (node : Node T) : Prop :=
  ∀ pattern name child, node.at? (pattern ++ [.wildcard name]) = some child → child.handlers.isSome

theorem complete_iff {node : Node T} :
    node.Complete ↔
      (∀ name child, node.next? (.wildcard name) = some child → child.handlers.isSome) ∧
        ∀ segment child, node.next? segment = some child → child.Complete := by
  constructor
  · intro h
    refine ⟨?_, ?_⟩
    · intro name child hchild
      apply h [] name child
      rw [List.nil_append, at?, hchild]
      rfl
    · intro segment child hchild pattern name node' hnode'
      apply h (segment :: pattern) name node'
      rw [List.cons_append, at?, hchild]
      exact hnode'
  · rintro ⟨hwild, hnext⟩ pattern name child hchild
    cases pattern with
    | nil =>
      rw [List.nil_append, at?] at hchild
      obtain ⟨next, hstep, hend⟩ := Option.bind_eq_some_iff.mp hchild
      obtain rfl : next = child := Option.some.inj hend
      exact hwild name next hstep
    | cons segment pattern =>
      rw [List.cons_append, at?] at hchild
      obtain ⟨next, hstep, hend⟩ := Option.bind_eq_some_iff.mp hchild
      exact hnext segment next hstep pattern name child hend

theorem complete_createNode : (createNode : Node T).Complete := by
  rw [complete_iff]
  simp

theorem complete_insert {method : HttpMethod} {path : JsString} {handler : T}
    {pattern : List Segment} (h : WildcardLast pattern) {node node' : Node T}
    (hcomplete : node.Complete)
    (hinsert : node.insert method path handler pattern = (node', .ok ())) : node'.Complete := by
  induction pattern generalizing node node' with
  | nil =>
    rw [insert, register] at hinsert
    split at hinsert
    · simp at hinsert
    · intro pattern' name child hchild
      apply hcomplete pattern' name child
      rw [← hchild, ← (Prod.mk.inj hinsert).1]
      exact (at?_handlers node _ _ (by simp)).symm
  | cons segment pattern ih =>
    obtain ⟨hwild, hnext⟩ := complete_iff.mp hcomplete
    have hconflict := not_conflict_of_insert hinsert
    rw [insert_cons hconflict h.1] at hinsert
    obtain ⟨hnode, hresult⟩ := Prod.mk.inj hinsert
    set child := (node.next? segment).getD createNode with hchild
    have hchildComplete : child.Complete := by
      cases hold : node.next? segment with
      | none =>
        rw [hchild, hold]
        exact complete_createNode
      | some old =>
        rw [hchild, hold]
        exact hnext segment old hold
    rw [← hnode, complete_iff]
    refine ⟨?_, ?_⟩
    · intro name next hstep
      rw [next?_setNext hconflict] at hstep
      split at hstep
      · next hsegment =>
        -- the wildcard just inserted is where the pattern ends
        obtain rfl := h.1 (by rw [← hsegment]; rfl)
        have hend := (handlersAt_insert h.2 (pair_of_snd hresult)).2 []
        rw [if_pos rfl, handlersAt_nil, Option.some.inj hstep] at hend
        rw [hend]
        rfl
      · exact hwild name next hstep
    · intro segment' next hstep
      rw [next?_setNext hconflict] at hstep
      split at hstep
      · rw [← Option.some.inj hstep]
        exact ih h.2 hchildComplete (pair_of_snd hresult)
      · exact hnext segment' next hstep

end Node

end Daloy.Routing
