import Daloy.Compose.Bundles

/-! # The order of stored responses and authentication

* `replays_behind_auth`: what `_orderBeforeHandleForReplay` returns is a reordering of the gates of
  all layers in which a stored response stands in front of an authentication hook only where both
  bundles are both.
* `combined_before_auth`: of two such bundles the first still answers before the second.
-/

namespace Daloy.Compose
set_option autoImplicit false

variable {T : HookTypes}

/-! ## The span -/

section Lists
variable {α : Type} {p : α → Bool} {xs : List α} {i : ℕ}

theorem forall_of_lastIdx?_eq_none (h : lastIdx? p xs = none) : ∀ x ∈ xs, p x = false := by
  induction xs with
  | nil => simp
  | cons x xs ih =>
    rw [lastIdx?] at h
    split at h
    · simp at h
    · next hnone =>
      split at h
      · simp at h
      · next hx =>
        intro y hy
        rcases List.mem_cons.mp hy with rfl | hy
        · simpa using hx
        · exact ih hnone y hy

theorem split_of_lastIdx? (h : lastIdx? p xs = some i) :
    ∃ front x back, xs = front ++ x :: back ∧ front.length = i ∧ p x = true ∧
      ∀ y ∈ back, p y = false := by
  induction xs generalizing i with
  | nil => simp [lastIdx?] at h
  | cons x xs ih =>
    rw [lastIdx?] at h
    split at h
    · next j hj =>
      obtain rfl : j + 1 = i := Option.some.inj h
      obtain ⟨front, y, back, rfl, hlength, hy, hback⟩ := ih hj
      exact ⟨x :: front, y, back, rfl, by rw [List.length_cons, hlength], hy, hback⟩
    · next hnone =>
      split at h
      · next hx =>
        obtain rfl : 0 = i := Option.some.inj h
        exact ⟨[], x, xs, rfl, rfl, hx, forall_of_lastIdx?_eq_none hnone⟩
      · simp at h

theorem split_of_findIdx? (h : xs.findIdx? p = some i) :
    ∃ front x back, xs = front ++ x :: back ∧ front.length = i ∧ p x = true ∧
      ∀ y ∈ front, p y = false := by
  obtain ⟨hi, hx, hbefore⟩ := List.findIdx?_eq_some_iff_getElem.mp h
  refine ⟨xs.take i, xs[i], xs.drop (i + 1), ?_, ?_, hx, ?_⟩
  · rw [← List.drop_eq_getElem_cons hi, List.take_append_drop]
  · rw [List.length_take]
    omega
  · intro y hy
    obtain ⟨j, hj, rfl⟩ := List.mem_iff_getElem.mp hy
    rw [List.length_take] at hj
    rw [List.getElem_take]
    simpa using hbefore j (by omega)

end Lists

/-! ## The order -/

section Order
variable {α : Type} {replay auth : α → Bool}

def behindLastAuth (auth : α → Bool) (gates : List α) : ℕ :=
  match lastIdx? auth gates with
  | some lastAuth => lastAuth + 1
  | none => 0

/-- What is promised of the gates in the order in which they run. -/
structure ReplayOrder (replay auth : α → Bool) (gates entries : List α) : Prop where
  perm : entries.Perm gates
  /-- A stored response is followed by an authentication hook only where both bundles are both. -/
  authFirst : entries.Pairwise fun a b =>
    replay a = true → auth b = true → auth a = true ∧ replay b = true
  both : (entries.filter fun e => replay e && auth e) = gates.filter fun e => replay e && auth e
  plain : (entries.filter fun e => !replay e) = gates.filter fun e => !replay e
  front : entries.take (gates.findIdx replay) = gates.take (gates.findIdx replay)
  back : entries.drop (behindLastAuth auth gates) = gates.drop (behindLastAuth auth gates)

/-- The span between the first stored response and the last authentication hook, when sorted. -/
def partsOf (replay auth : α → Bool) (span : List α) : List α :=
  (span.filter fun e => !replay e) ++ (span.filter fun e => replay e && auth e) ++
    span.filter fun e => replay e && !auth e

theorem partsOf_perm (span : List α) : (partsOf replay auth span).Perm span := by
  have hreplay : ((span.filter fun e => replay e && auth e) ++
      span.filter fun e => replay e && !auth e).Perm (span.filter replay) := by
    have h := List.filter_append_perm auth (span.filter replay)
    simpa only [List.filter_filter, Bool.and_comm] using h
  rw [partsOf, List.append_assoc]
  refine (hreplay.append_left _).trans ?_
  have h := List.filter_append_perm (fun e => !replay e) span
  simpa only [Bool.not_not] using h

/-- A list as what stands in front of the span that is sorted, the span, and the rest. -/
structure Span (replay auth : α → Bool) (gates front span back : List α) : Prop where
  eq : gates = front ++ (span ++ back)
  order : orderForReplay replay auth gates = front ++ (partsOf replay auth span ++ back)
  front_plain : ∀ e ∈ front, replay e = false
  back_open : ∀ e ∈ back, auth e = false
  first : ∃ e rest, span = e :: rest ∧ replay e = true
  last : ∃ rest e, span = rest ++ [e] ∧ auth e = true
  front_length : front.length = gates.findIdx replay
  behind : behindLastAuth auth gates = front.length + span.length

theorem orderForReplay_cases (replay auth : α → Bool) (gates : List α) :
    (orderForReplay replay auth gates = gates ∧
      ∀ e ∈ gates.drop (gates.findIdx replay + 1), auth e = false) ∨
    ∃ front span back, Span replay auth gates front span back := by
  cases hfirst : gates.findIdx? replay with
  | none =>
    have hlength : gates.findIdx replay = gates.length := by
      rw [List.findIdx_eq_length]
      intro x hx
      simpa using List.findIdx?_eq_none_iff.mp hfirst x hx
    left
    refine ⟨by rw [orderForReplay, hfirst], ?_⟩
    rw [hlength, List.drop_eq_nil_of_le (by omega)]
    simp
  | some first =>
    have hidx : gates.findIdx replay = first :=
      (List.findIdx?_eq_some_iff_findIdx_eq.mp hfirst).2
    cases hlast : lastIdx? auth gates with
    | none =>
      left
      refine ⟨by rw [orderForReplay, hfirst, hlast], ?_⟩
      intro e he
      exact forall_of_lastIdx?_eq_none hlast e (List.mem_of_mem_drop he)
    | some last =>
      obtain ⟨front, x, back, hgates, hfront, hx, hplain⟩ := split_of_findIdx? hfirst
      obtain ⟨front', y, back', hgates', hfront', hy, hopen⟩ := split_of_lastIdx? hlast
      have hback' : gates.drop (last + 1) = back' := by
        rw [hgates', ← List.singleton_append, ← List.append_assoc, List.drop_left']
        rw [List.length_append, hfront', List.length_singleton]
      by_cases hle : last ≤ first
      · left
        refine ⟨by simp only [orderForReplay, hfirst, hlast, if_pos hle], ?_⟩
        intro e he
        rw [hidx] at he
        apply hopen e
        rw [← hback']
        exact List.drop_subset_drop_left gates (by omega) he
      · right
        obtain ⟨mid, hmid, hrest⟩ : ∃ mid, front' = front ++ x :: mid ∧ back = mid ++ y :: back' := by
          have heq := hgates.symm.trans hgates'
          rcases List.append_eq_append_iff.mp heq with ⟨as, has, hx'⟩ | ⟨as, has, -⟩
          · cases as with
            | nil =>
              rw [List.append_nil] at has
              rw [has] at hfront'
              omega
            | cons a as =>
              rw [List.cons_append, List.cons.injEq] at hx'
              exact ⟨as, by rw [has, hx'.1], hx'.2⟩
          · have hlength := congrArg List.length has
            rw [List.length_append] at hlength
            omega
        have hspan : gates = front ++ ((x :: (mid ++ [y])) ++ back') := by
          rw [hgates, hrest, List.cons_append, List.append_assoc, List.singleton_append]
        have hlast' : last = front.length + (mid.length + 1) := by
          rw [← hfront', hmid, List.length_append, List.length_cons]
        have hslice : slice gates first (last + 1) = x :: (mid ++ [y]) := by
          rw [slice, hspan, List.drop_left' hfront, List.take_left']
          rw [List.length_cons, List.length_append, List.length_singleton]
          omega
        refine ⟨front, x :: (mid ++ [y]), back', hspan, ?_, hplain, hopen, ⟨x, _, rfl, hx⟩,
          ⟨x :: mid, y, rfl, hy⟩, by rw [hidx, hfront], ?_⟩
        · have hfront'' : slice gates 0 first = front := by
            rw [slice, List.drop_zero, Nat.sub_zero, hgates, List.take_left' hfront]
          simp only [orderForReplay, hfirst, hlast, if_neg hle]
          rw [hslice, hfront'', hback', partsOf]
          simp only [List.append_assoc]
        · rw [behindLastAuth, hlast, List.length_cons, List.length_append, List.length_singleton]
          show last + 1 = _
          omega

theorem filter_plain_partsOf (span : List α) :
    ((partsOf replay auth span).filter fun e => !replay e) = span.filter fun e => !replay e := by
  have hdrop (p : α → Bool) :
      ((span.filter fun e => replay e && p e).filter fun e => !replay e) = [] := by
    rw [List.filter_eq_nil_iff]
    intro e he
    have hreplay := (List.mem_filter.mp he).2
    rw [Bool.and_eq_true] at hreplay
    simp [hreplay.1]
  rw [partsOf, List.filter_append, List.filter_append, hdrop, hdrop, List.filter_filter]
  simp

theorem filter_both_partsOf (span : List α) :
    ((partsOf replay auth span).filter fun e => replay e && auth e) =
      span.filter fun e => replay e && auth e := by
  have hplain : ((span.filter fun e => !replay e).filter fun e => replay e && auth e) = [] := by
    rw [List.filter_eq_nil_iff]
    intro e he
    have hreplay := (List.mem_filter.mp he).2
    rw [Bool.not_eq_true'] at hreplay
    simp [hreplay]
  have honly : ((span.filter fun e => replay e && !auth e).filter fun e => replay e && auth e) =
      [] := by
    rw [List.filter_eq_nil_iff]
    intro e he
    have hauth := (List.mem_filter.mp he).2
    rw [Bool.and_eq_true, Bool.not_eq_true'] at hauth
    simp [hauth.2]
  rw [partsOf, List.filter_append, List.filter_append, hplain, honly, List.filter_filter]
  simp

/-- `ReplayOrder.authFirst`, for two gates. -/
def AuthFirst (replay auth : α → Bool) (a b : α) : Prop :=
  replay a = true → auth b = true → auth a = true ∧ replay b = true

theorem authFirst_partsOf (span : List α) :
    (partsOf replay auth span).Pairwise (AuthFirst replay auth) := by
  have hplain : ∀ a ∈ span.filter fun e => !replay e, ∀ b, AuthFirst replay auth a b := by
    intro a ha b hreplay
    have hnot := (List.mem_filter.mp ha).2
    rw [hreplay] at hnot
    simp at hnot
  have honly : ∀ b ∈ span.filter fun e => replay e && !auth e, ∀ a, AuthFirst replay auth a b := by
    intro b hb a _ hauth
    have hnot := (List.mem_filter.mp hb).2
    rw [hauth] at hnot
    simp at hnot
  have hboth : ∀ e ∈ span.filter fun e => replay e && auth e, replay e = true ∧ auth e = true := by
    intro e he
    simpa using (List.mem_filter.mp he).2
  rw [partsOf, List.append_assoc, List.pairwise_append, List.pairwise_append]
  refine ⟨?_, ⟨?_, ?_, ?_⟩, ?_⟩
  · exact List.pairwise_of_forall_mem_list fun a ha b _ => hplain a ha b
  · exact List.pairwise_of_forall_mem_list fun a ha b hb _ _ => ⟨(hboth a ha).2, (hboth b hb).1⟩
  · exact List.pairwise_of_forall_mem_list fun a _ b hb => honly b hb a
  · exact fun a _ b hb => honly b hb a
  · exact fun a ha b _ => hplain a ha b

/-- Of two stored responses or authentication hooks, the order is that of `ReplayOrder`. -/
theorem orderForReplay_ordered (replay auth : α → Bool) (gates : List α) :
    ReplayOrder replay auth gates (orderForReplay replay auth gates) := by
  rcases orderForReplay_cases replay auth gates with ⟨heq, hback⟩ | ⟨front, span, back, h⟩
  · rw [heq]
    refine ⟨.refl _, ?_, rfl, rfl, rfl, rfl⟩
    rw [List.pairwise_iff_getElem]
    intro i j hi hj hij hreplay hauth
    have hfirst : gates.findIdx replay ≤ i := by
      by_contra hlt
      have hnot := List.not_of_lt_findIdx (Nat.lt_of_not_le hlt)
      rw [hreplay] at hnot
      simp at hnot
    have hmem : gates[j] ∈ gates.drop (gates.findIdx replay + 1) := by
      rw [List.mem_iff_getElem]
      refine ⟨j - (gates.findIdx replay + 1), by rw [List.length_drop]; omega, ?_⟩
      rw [List.getElem_drop]
      congr 1
      omega
    rw [hback _ hmem] at hauth
    simp at hauth
  · have hspan : (partsOf replay auth span).Perm span := partsOf_perm span
    refine ⟨?_, ?_, ?_, ?_, ?_, ?_⟩
    · rw [h.order, h.eq]
      exact (hspan.append_right back).append_left front
    · rw [h.order, List.pairwise_append, List.pairwise_append]
      refine ⟨?_, ⟨authFirst_partsOf span, ?_, ?_⟩, ?_⟩
      · apply List.pairwise_of_forall_mem_list
        intro a ha b _ hreplay
        simp [h.front_plain a ha] at hreplay
      · apply List.pairwise_of_forall_mem_list
        intro a _ b hb _ hauth
        simp [h.back_open b hb] at hauth
      · intro a _ b hb _ hauth
        simp [h.back_open b hb] at hauth
      · intro a ha b _ hreplay
        simp [h.front_plain a ha] at hreplay
    · rw [h.order, h.eq]
      simp only [List.filter_append, filter_both_partsOf]
    · rw [h.order, h.eq]
      simp only [List.filter_append, filter_plain_partsOf]
    · rw [← h.front_length, h.order, h.eq, List.take_left, List.take_left]
    · rw [h.behind, h.order, h.eq, ← List.append_assoc, ← List.append_assoc,
        ← List.length_append, List.drop_left, List.length_append, ← hspan.length_eq,
        ← List.length_append, List.drop_left]

end Order

/-! ## Bundles -/

theorem collect_every (layers : List (Hooks T)) :
    collect (every layers) = layers.flatMap collect := by
  have hgates : orderBeforeHandleForReplay layers =
      (orderForReplay GateEntry.replay GateEntry.auth (layers.flatMap collect)).map GateEntry.fn := by
    rw [orderBeforeHandleForReplay, collectAll_eq]
  rw [every, mergeCombineHooks]
  cases hempty : (orderBeforeHandleForReplay layers).isEmpty with
  | true =>
    rw [hgates, List.isEmpty_iff, List.map_eq_nil_iff] at hempty
    have hperm := (orderForReplay_ordered GateEntry.replay GateEntry.auth (layers.flatMap collect)).perm
    rw [hempty, List.nil_perm] at hperm
    simp only [if_true, collect, hperm]
  | false =>
    simp only [Bool.false_eq_true, if_false, collect, collectAll_eq]

theorem flatMap_collect_hooks (bundles : List (Bundle T)) :
    (bundles.map Bundle.hooks).flatMap collect = (Bundle.layers bundles).flatMap entryOf := by
  have hgroup (bs : List (Bundle T)) : collect (Bundle.hooks (.group bs)) =
      bs.flatMap fun b => collect (Bundle.hooks b) := by
    rw [Bundle.hooks_group, collect_every, List.flatMap_map]
  rw [List.flatMap_map, Bracketed.flatMap_flattenAll hgroup, Bundle.layers, List.flatMap_map]
  congr 1
  funext layer
  rw [Bundle.hooks, collect_layer]

/-- **A stored response answers before authentication only between two bundles that are both.** -/
theorem replays_behind_auth (bundles : List (Bundle T)) :
    ∃ entries, orderBeforeHandleForReplay (bundles.map Bundle.hooks) = entries.map GateEntry.fn ∧
      ReplayOrder GateEntry.replay GateEntry.auth ((Bundle.layers bundles).flatMap entryOf)
        entries := by
  refine ⟨_, ?_, orderForReplay_ordered _ _ _⟩
  rw [orderBeforeHandleForReplay, collectAll_eq, flatMap_collect_hooks]

abbrev Noted : HookTypes where
  World := List ℕ
  Thrown := ℕ
  Request := Unit
  Response := ℕ
  Value := ℕ
  scopes _ := []
  setScopes _ noted := noted

/-- A bundle with an authentication hook and a stored response, wrapped into one function. -/
def answeringAuth (n : ℕ) : Layer Noted :=
  ⟨{ beforeHandle := some (modify (n :: ·) *> pure (some n)), responseCache := true, auth := true },
    rfl⟩

theorem combined_before_auth :
    ¬ ∀ bundles : List (Bundle Noted), ∃ entries : List (GateEntry Noted),
      orderBeforeHandleForReplay (bundles.map Bundle.hooks) = entries.map GateEntry.fn ∧
      entries.Perm ((Bundle.layers bundles).flatMap entryOf) ∧
      entries.Pairwise fun a b => a.replay = true → b.auth = false := by
  intro h
  obtain ⟨entries, -, hperm, hfirst⟩ := h [.item (answeringAuth 0), .item (answeringAuth 1)]
  have hboth : ∀ e ∈ entries, e.replay = true ∧ e.auth = true := by
    intro e he
    have hmem := hperm.mem_iff.mp he
    simp only [Bundle.layers, Bracketed.flattenAll, Bracketed.flatten, List.cons_append,
      List.nil_append, List.map_cons, List.map_nil, List.flatMap_cons, List.flatMap_nil, entryOf,
      answeringAuth, List.append_nil, List.mem_cons, List.not_mem_nil, or_false] at hmem
    rcases hmem with rfl | rfl
    · exact ⟨rfl, rfl⟩
    · exact ⟨rfl, rfl⟩
  have hlength : entries.length = 2 := hperm.length_eq
  rw [List.pairwise_iff_getElem] at hfirst
  have h01 := hfirst 0 1 (by omega) (by omega) Nat.zero_lt_one (hboth _ (List.getElem_mem _)).1
  rw [(hboth _ (List.getElem_mem _)).2] at h01
  simp at h01

end Daloy.Compose
