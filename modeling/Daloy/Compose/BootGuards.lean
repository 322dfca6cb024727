import Daloy.Compose.Markers
import Daloy.Compose.ReplayOrder
import Mathlib.Data.List.Basic

/-! # Boot guards for the order of hooks

* `guards_see_through`: the exact hook stacks for which `securityMarkersFromHooks` reports what the
  order of the flattened layers is.
* `budget_between_unseen`: a budget in front of a stored response hides the one behind it.
-/

namespace Daloy.Compose
set_option autoImplicit false

variable {T : HookTypes}

/-! ## `securityMarkersFromHooks` -/

inductive ReplayName
  | responseCache
  | idempotency
  deriving DecidableEq, Repr

structure RouteSecurityMarkers where
  hasSession : Bool
  hasCsrf : Bool
  hasAuth : Bool
  cacheBeforeTenancy : Bool
  replayBeforeBudget : Option ReplayName
  deriving DecidableEq, Repr

structure MarkerScan where
  hasSession : Bool := false
  hasCsrf : Bool := false
  hasAuth : Bool := false
  cacheIndex : Option ℕ := none
  tenancyIndex : Option ℕ := none
  replay : Option (ℕ × ReplayName) := none
  budgetIndex : Option ℕ := none

def scanLayer (scan : MarkerScan) (i : ℕ) (hooks : Hooks T) : MarkerScan where
  hasSession := hooks.session || scan.hasSession
  hasCsrf := hooks.csrf || scan.hasCsrf
  hasAuth := hooks.auth || scan.hasAuth
  cacheIndex := scan.cacheIndex <|>
    if hooks.responseCache || hooks.idempotency then some i else none
  tenancyIndex := scan.tenancyIndex <|> if hooks.tenancy then some i else none
  replay := scan.replay <|>
    if hooks.responseCache then some (i, .responseCache)
    else if hooks.idempotency then some (i, .idempotency) else none
  budgetIndex := scan.budgetIndex <|> if hooks.earlyRejection.isSome then some i else none

def scanLayers : MarkerScan → ℕ → List (Hooks T) → MarkerScan
  | scan, _, [] => scan
  | scan, i, hooks :: layers => scanLayers (scanLayer scan i hooks) (i + 1) layers

def securityMarkersFromHooks (layers : List (Hooks T)) : RouteSecurityMarkers :=
  let scan := scanLayers {} 0 layers
  { hasSession := scan.hasSession
    hasCsrf := scan.hasCsrf
    hasAuth := scan.hasAuth
    cacheBeforeTenancy :=
      match scan.cacheIndex, scan.tenancyIndex with
      | some cacheIndex, some tenancyIndex => cacheIndex < tenancyIndex
      | _, _ => false
    replayBeforeBudget :=
      match scan.replay, scan.budgetIndex with
      | some (replayIndex, replayName), some budgetIndex =>
        if replayIndex < budgetIndex then some replayName else none
      | _, _ => none }

/-! ## The order of the flattened layers -/

section Lists
variable {α : Type} {p q : α → Bool}

/-- Some `p` stands in front of some `q`. -/
def precedes (p q : α → Bool) : List α → Bool
  | [] => false
  | x :: xs => p x && xs.any q || precedes p q xs

theorem precedes_append (xs ys : List α) :
    precedes p q (xs ++ ys) = (precedes p q xs || precedes p q ys || xs.any p && ys.any q) := by
  induction xs with
  | nil => simp [precedes]
  | cons x xs ih =>
    rw [List.cons_append, precedes, precedes, ih, List.any_append, List.any_cons]
    cases p x <;> cases xs.any q <;> cases precedes p q xs <;> cases precedes p q ys <;>
      cases xs.any p <;> cases ys.any q <;> rfl

theorem precedes_eq_false {xs : List α} (h : ∀ x ∈ xs, p x = false) : precedes p q xs = false := by
  induction xs with
  | nil => rfl
  | cons x xs ih =>
    rw [precedes, h x List.mem_cons_self, Bool.false_and, Bool.false_or]
    exact ih fun y hy => h y (List.mem_cons_of_mem x hy)

theorem precedes_of_all {xs : List α} (h : ∀ x ∈ xs, p x = true) :
    precedes p q xs = xs.tail.any q := by
  induction xs with
  | nil => rfl
  | cons x xs ih =>
    rw [precedes, h x List.mem_cons_self, Bool.true_and, ih fun y hy => h y (List.mem_cons_of_mem x hy),
      List.tail_cons]
    cases xs with
    | nil => rfl
    | cons y ys =>
      rw [List.any_cons, List.tail_cons]
      cases q y <;> cases ys.any q <;> rfl

theorem precedes_iff {xs : List α} :
    precedes p q xs = true ↔ ∃ front x back, xs = front ++ x :: back ∧ p x = true ∧
      back.any q = true := by
  induction xs with
  | nil => simp [precedes]
  | cons x xs ih =>
    rw [precedes, Bool.or_eq_true, Bool.and_eq_true, ih]
    constructor
    · rintro (⟨hx, hxs⟩ | ⟨front, y, back, rfl, hy, hback⟩)
      · exact ⟨[], x, xs, rfl, hx, hxs⟩
      · exact ⟨x :: front, y, back, rfl, hy, hback⟩
    · rintro ⟨front, y, back, heq, hy, hback⟩
      cases front with
      | nil =>
        obtain ⟨rfl, rfl⟩ := List.cons.inj heq
        exact .inl ⟨hy, hback⟩
      | cons z front =>
        obtain ⟨rfl, rfl⟩ := List.cons.inj heq
        exact .inr ⟨front, y, back, rfl, hy, hback⟩

/-- The first `p` stands in front of the first `q`. -/
def firstBefore (p q : α → Bool) (xs : List α) : Bool :=
  match xs.findIdx? p, xs.findIdx? q with
  | some i, some j => i < j
  | _, _ => false

theorem firstBefore_cons (x : α) (xs : List α) :
    firstBefore p q (x :: xs) =
      if q x then false else if p x then xs.any q else firstBefore p q xs := by
  rw [firstBefore, firstBefore, List.findIdx?_cons, List.findIdx?_cons]
  cases hq : q x with
  | true =>
    cases p x with
    | true => rfl
    | false => cases xs.findIdx? p <;> rfl
  | false =>
    cases p x with
    | true =>
      cases hj : xs.findIdx? q with
      | none =>
        have hnone : xs.any q = false := by
          simpa using List.findIdx?_eq_none_iff.mp hj
        simp [hnone]
      | some j =>
        have hsome : xs.any q = true := by
          obtain ⟨hlt, hq, -⟩ := List.findIdx?_eq_some_iff_getElem.mp hj
          exact List.any_eq_true.mpr ⟨_, List.getElem_mem hlt, hq⟩
        simp [hsome]
    | false =>
      cases xs.findIdx? p with
      | none => simp
      | some i => cases xs.findIdx? q <;> simp

theorem firstBefore_append (xs ys : List α) :
    firstBefore p q (xs ++ ys) =
      if xs.any q then firstBefore p q xs else if xs.any p then ys.any q
      else firstBefore p q ys := by
  induction xs with
  | nil => rfl
  | cons x xs ih =>
    rw [List.cons_append, firstBefore_cons, firstBefore_cons, ih, List.any_append, List.any_cons,
      List.any_cons]
    cases q x with
    | true => rfl
    | false =>
      cases p x with
      | true => cases xs.any q <;> rfl
      | false => rfl

end Lists

/-! ## What is reported -/

section Scan

theorem scanLayers_first (marker : Hooks T → Bool) (index : MarkerScan → Option ℕ)
    (hstep : ∀ scan i hooks, index (scanLayer scan i hooks) =
      (index scan <|> if marker hooks then some i else none))
    (scan : MarkerScan) (i : ℕ) (layers : List (Hooks T)) :
    index (scanLayers scan i layers) =
      (index scan <|> (layers.findIdx? marker).map fun j => j + i) := by
  induction layers generalizing scan i with
  | nil => cases h : index scan <;> simp [scanLayers, h]
  | cons hooks layers ih =>
    rw [scanLayers, ih, hstep, List.findIdx?_cons]
    cases index scan with
    | some j => rfl
    | none =>
      cases marker hooks with
      | true => simp
      | false =>
        cases layers.findIdx? marker with
        | none => rfl
        | some j =>
          show some (j + (i + 1)) = some (j + 1 + i)
          congr 1
          omega

theorem cacheBeforeTenancy_eq (layers : List (Hooks T)) :
    (securityMarkersFromHooks layers).cacheBeforeTenancy =
      firstBefore Hooks.isReplay Hooks.tenancy layers := by
  have hcache := scanLayers_first Hooks.isReplay MarkerScan.cacheIndex (fun _ _ _ => rfl) {} 0 layers
  have htenancy := scanLayers_first Hooks.tenancy MarkerScan.tenancyIndex (fun _ _ _ => rfl) {} 0
    layers
  rw [securityMarkersFromHooks, hcache, htenancy, firstBefore]
  cases layers.findIdx? Hooks.isReplay <;> cases layers.findIdx? Hooks.tenancy <;> rfl

theorem replayBeforeBudget_isSome (layers : List (Hooks T)) :
    (securityMarkersFromHooks layers).replayBeforeBudget.isSome =
      firstBefore Hooks.isReplay Hooks.isBudget layers := by
  have hstep (scan : MarkerScan) (i : ℕ) (hooks : Hooks T) :
      (scanLayer scan i hooks).replay.map Prod.fst =
        (scan.replay.map Prod.fst <|> if hooks.isReplay then some i else none) := by
    rw [scanLayer, Hooks.isReplay]
    cases scan.replay <;> cases hooks.responseCache <;> cases hooks.idempotency <;> rfl
  have hreplay := scanLayers_first Hooks.isReplay (fun scan => scan.replay.map Prod.fst) hstep {} 0
    layers
  have hbudget := scanLayers_first Hooks.isBudget MarkerScan.budgetIndex (fun _ _ _ => rfl) {} 0
    layers
  rw [securityMarkersFromHooks, hbudget, firstBefore]
  change _ = (none <|> _) at hreplay
  cases hfirst : layers.findIdx? Hooks.isReplay with
  | none =>
    rw [hfirst] at hreplay
    obtain hnone := Option.map_eq_none_iff.mp hreplay
    rw [hnone]
    rfl
  | some i =>
    rw [hfirst] at hreplay
    obtain ⟨⟨i', name⟩, hsome, hi⟩ := Option.map_eq_some_iff.mp hreplay
    obtain rfl : i' = i := hi
    rw [hsome]
    cases layers.findIdx? Hooks.isBudget with
    | none => rfl
    | some j =>
      show (if i' < j then some name else none).isSome = decide (i' < j)
      split <;> simp [*]

theorem firstBefore_map {marker : Hooks T → Bool} {shows : Bundle T → Bool}
    (h : ∀ bundle : Bundle T, marker (Bundle.hooks bundle) = shows bundle)
    (bundles : List (Bundle T)) :
    firstBefore Hooks.isReplay marker (bundles.map Bundle.hooks) =
      firstBefore Bundle.hasReplay shows bundles := by
  induction bundles with
  | nil => rfl
  | cons b bs ih =>
    have hany : (bs.map Bundle.hooks).any marker = bs.any shows := by
      rw [List.any_map]
      congr 1
      funext b
      exact h b
    rw [List.map_cons, firstBefore_cons, firstBefore_cons, h, isReplay_hooks, hany, ih]

end Scan

/-! ## The order in which gates run -/

section Order
variable {α : Type} {replay auth : α → Bool}

/-- A budget is behind a stored response, and no authentication hook comes with it or after it. -/
def LeftBehind (replay auth budget : α → Bool) (gates : List α) : Prop :=
  ∃ front gate back, gates = front ++ gate :: back ∧ front.any replay = true ∧
    budget gate = true ∧ (gate :: back).any auth = false

theorem any_of_precedes {p q : α → Bool} {xs : List α} (h : precedes p q xs = true) :
    xs.any q = true := by
  obtain ⟨front, x, back, rfl, -, hback⟩ := precedes_iff.mp h
  rw [List.any_append, List.any_cons, hback, Bool.or_true, Bool.or_true]

theorem precedes_of_leftBehind {budget : α → Bool} {gates : List α}
    (h : LeftBehind replay auth budget gates) : precedes replay budget gates = true := by
  obtain ⟨front, gate, back, rfl, hfront, hgate, -⟩ := h
  rw [precedes_append, List.any_cons, hfront, hgate, Bool.true_or, Bool.true_and, Bool.or_true]

theorem leftBehind_of_any {budget : α → Bool} {front back : List α} (hfront : front.any replay = true)
    (hback : ∀ e ∈ back, auth e = false) (hany : back.any budget = true) :
    LeftBehind replay auth budget (front ++ back) := by
  obtain ⟨gate, hmem, hgate⟩ := List.any_eq_true.mp hany
  obtain ⟨before, after, rfl⟩ := List.append_of_mem hmem
  refine ⟨front ++ before, gate, after, (List.append_assoc ..).symm, ?_, hgate, ?_⟩
  · rw [List.any_append, hfront, Bool.true_or]
  · rw [List.any_eq_false]
    intro e he
    rw [hback e (List.mem_append_right before he)]
    exact Bool.false_ne_true

def replaysFirst (replay auth : α → Bool) (gates : List α) : List α :=
  (gates.filter fun e => replay e && auth e) ++ gates.filter fun e => replay e && !auth e

theorem filter_replay_eq_nil {gates : List α} (h : ∀ e ∈ gates, replay e = false) (p : α → Bool) :
    (gates.filter fun e => replay e && p e) = [] := by
  rw [List.filter_eq_nil_iff]
  intro e he
  rw [h e he, Bool.false_and]
  exact Bool.false_ne_true

theorem filter_open_auth {gates : List α} (h : ∀ e ∈ gates, auth e = false) :
    (gates.filter fun e => replay e && auth e) = [] := by
  rw [List.filter_eq_nil_iff]
  intro e he
  rw [h e he, Bool.and_false]
  exact Bool.false_ne_true

theorem any_of_any_filter {p q : α → Bool} {xs : List α} (h : (xs.filter p).any q = true) :
    xs.any q = true := by
  obtain ⟨x, hx, hq⟩ := List.any_eq_true.mp h
  exact List.any_eq_true.mpr ⟨x, (List.mem_filter.mp hx).1, hq⟩

theorem any_tail_append {p : α → Bool} {xs ys : List α} (h : xs ≠ []) :
    (xs ++ ys).tail.any p = (xs.tail.any p || ys.any p) := by
  rw [List.tail_append_of_ne_nil h, List.any_append]

theorem mem_replaysFirst {gates : List α} {e : α} :
    e ∈ replaysFirst replay auth gates ↔ e ∈ gates ∧ replay e = true := by
  simp only [replaysFirst, List.mem_append, List.mem_filter, Bool.and_eq_true, Bool.not_eq_true']
  cases auth e <;> simp

theorem any_eq_false_of_forall {p : α → Bool} {xs : List α} (h : ∀ x ∈ xs, p x = false) :
    xs.any p = false := by
  rw [List.any_eq_false]
  intro x hx
  rw [h x hx]
  exact Bool.false_ne_true

theorem precedes_sorted {front span back gates : List α} (budget : α → Bool)
    (h : Span replay auth gates front span back) :
    precedes replay budget (orderForReplay replay auth gates) =
      ((replaysFirst replay auth span).tail.any budget || back.any budget) := by
  have hplain : ∀ e ∈ span.filter fun e => !replay e, replay e = false := by
    intro e he
    simpa using (List.mem_filter.mp he).2
  have hparts : partsOf replay auth span =
      (span.filter fun e => !replay e) ++ replaysFirst replay auth span := by
    rw [partsOf, replaysFirst, List.append_assoc]
  have hany : (partsOf replay auth span).any replay = true := by
    obtain ⟨e, rest, hspan, he⟩ := h.first
    rw [hparts, List.any_append, Bool.or_eq_true]
    right
    apply List.any_eq_true.mpr
    exact ⟨e, mem_replaysFirst.mpr ⟨hspan ▸ List.mem_cons_self, he⟩, he⟩
  have hsorted : precedes replay budget (partsOf replay auth span) =
      (replaysFirst replay auth span).tail.any budget := by
    rw [hparts, precedes_append, precedes_eq_false hplain, any_eq_false_of_forall hplain,
      precedes_of_all fun e he => (mem_replaysFirst.mp he).2, Bool.false_or, Bool.false_and,
      Bool.or_false]
  rw [h.order, precedes_append, precedes_append, precedes_eq_false h.front_plain,
    any_eq_false_of_forall h.front_plain, hsorted, hany, Bool.false_or, Bool.false_and,
    Bool.or_false, Bool.true_and]
  cases hback : precedes replay budget back with
  | false => rw [Bool.or_false]
  | true => rw [any_of_precedes hback, Bool.or_true, Bool.or_true]

theorem precedes_orderForReplay (budget : α → Bool) (gates : List α) :
    precedes replay budget (orderForReplay replay auth gates) = true ↔
      LeftBehind replay auth budget gates ∨
        (replaysFirst replay auth gates).tail.any budget = true := by
  rcases orderForReplay_cases replay auth gates with ⟨heq, hopen⟩ | ⟨front, span, back, h⟩
  · rw [heq]
    cases hfirst : gates.findIdx? replay with
    | none =>
      have hplain : ∀ e ∈ gates, replay e = false := by
        simpa using List.findIdx?_eq_none_iff.mp hfirst
      have hnil : replaysFirst replay auth gates = [] := by
        rw [replaysFirst, filter_replay_eq_nil hplain, filter_replay_eq_nil hplain, List.append_nil]
      rw [precedes_eq_false hplain, hnil]
      constructor
      · intro h
        exact absurd h Bool.false_ne_true
      · rintro (h | h)
        · rw [← precedes_eq_false hplain, precedes_of_leftBehind h]
        · exact absurd h Bool.false_ne_true
    | some first =>
      obtain ⟨front, x, back, rfl, hlength, hx, hplain⟩ := split_of_findIdx? hfirst
      have hback : ∀ e ∈ back, auth e = false := by
        have hidx := (List.findIdx?_eq_some_iff_findIdx_eq.mp hfirst).2
        rw [hidx, ← List.singleton_append, ← List.append_assoc, List.drop_left'] at hopen
        · exact hopen
        · rw [List.length_append, hlength, List.length_singleton]
      have hafter : precedes replay budget (front ++ x :: back) = true ↔ back.any budget = true := by
        rw [precedes_append, precedes_eq_false hplain, any_eq_false_of_forall hplain, precedes, hx,
          Bool.true_and, Bool.false_or, Bool.false_and, Bool.or_false, Bool.or_eq_true]
        constructor
        · rintro (h | h)
          · exact h
          · exact any_of_precedes h
        · exact .inl
      constructor
      · intro h
        left
        rw [← List.singleton_append, ← List.append_assoc]
        apply leftBehind_of_any _ hback (hafter.mp h)
        rw [List.any_append, List.any_cons, hx, Bool.true_or, Bool.or_true]
      · rintro (h | h)
        · exact precedes_of_leftBehind h
        · have htail : (replaysFirst replay auth (front ++ x :: back)).tail =
              back.filter fun e => replay e && !auth e := by
            rw [replaysFirst, List.filter_append, List.filter_append, filter_replay_eq_nil hplain,
              filter_replay_eq_nil hplain, List.nil_append, List.nil_append, List.filter_cons,
              List.filter_cons, hx, filter_open_auth hback]
            cases auth x <;> rfl
          rw [htail] at h
          exact hafter.mpr (any_of_any_filter h)
  · have hfront : (front ++ span).any replay = true := by
      obtain ⟨e, rest, rfl, he⟩ := h.first
      rw [List.any_append, List.any_cons, he, Bool.true_or, Bool.or_true]
    have hrest : replaysFirst replay auth gates =
        replaysFirst replay auth span ++ back.filter fun e => replay e && !auth e := by
      rw [h.eq]
      simp only [replaysFirst, List.filter_append]
      rw [filter_replay_eq_nil h.front_plain, filter_replay_eq_nil h.front_plain,
        filter_open_auth h.back_open, List.nil_append, List.nil_append, List.append_nil,
        List.append_assoc]
    have hne : replaysFirst replay auth span ≠ [] := by
      obtain ⟨e, rest, hspan, he⟩ := h.first
      apply List.ne_nil_of_mem
      exact mem_replaysFirst.mpr ⟨hspan ▸ List.mem_cons_self, he⟩
    rw [precedes_sorted budget h, hrest, any_tail_append hne, Bool.or_eq_true, Bool.or_eq_true]
    constructor
    · rintro (htail | hback)
      · exact .inr (.inl htail)
      · left
        rw [h.eq, ← List.append_assoc]
        exact leftBehind_of_any hfront h.back_open hback
    · rintro (⟨before, gate, after, hgates, -, hgate, hopen⟩ | htail | hback)
      · right
        obtain ⟨rest, e, hspan, he⟩ := h.last
        have heq : (front ++ rest ++ [e]) ++ back = before ++ gate :: after := by
          rw [← hgates, h.eq, hspan]
          simp only [List.append_assoc]
        rcases List.append_eq_append_iff.mp heq with ⟨as, -, hback⟩ | ⟨as, has, hback⟩
        · rw [hback, List.any_append, List.any_cons, hgate, Bool.true_or, Bool.or_true]
        · rcases List.eq_nil_or_concat as with rfl | ⟨as, e', rfl⟩
          · rw [← List.nil_append back, ← hback, List.any_cons, hgate, Bool.true_or]
          · rw [List.concat_eq_append, ← List.append_assoc] at has
            obtain rfl : e = e' := (List.append_inj' has rfl).2 |> List.singleton_inj.mp
            rw [hback, List.any_append, List.concat_eq_append, List.any_append, List.any_cons, he,
              Bool.true_or, Bool.or_true, Bool.true_or] at hopen
            exact absurd hopen.symm Bool.false_ne_true
      · exact .inl htail
      · exact .inr (any_of_any_filter hback)

end Order

/-! ## The guards -/

section Guards

/-- The layers that have a `beforeHandle`. -/
def gatesOf (bundles : List (Bundle T)) : List (Hooks T) :=
  (Bundle.layers bundles).filter fun hooks => hooks.beforeHandle.isSome

/-- The layers, in the order in which the merged `beforeHandle` runs them. -/
def runOrder (bundles : List (Bundle T)) : List (Hooks T) :=
  orderForReplay Hooks.isReplay Hooks.auth (gatesOf bundles)

def replayRunsFirst (bundles : List (Bundle T)) : Bool :=
  precedes Hooks.isReplay Hooks.isBudget (runOrder bundles)

/-- Some stored response is registered before the tenancy hook, the first where there are more. -/
def replayBeforeTenancy (bundles : List (Bundle T)) : Bool :=
  ((Bundle.layers bundles).takeWhile fun hooks => !hooks.tenancy).any Hooks.isReplay &&
    (Bundle.layers bundles).any Hooks.tenancy

/-- A budget is left behind a stored response, or is one itself and another runs before it. -/
def Preempted (bundles : List (Bundle T)) : Prop :=
  LeftBehind Hooks.isReplay Hooks.auth Hooks.isBudget (gatesOf bundles) ∨
    (replaysFirst Hooks.isReplay Hooks.auth (gatesOf bundles)).tail.any Hooks.isBudget = true

theorem replayRunsFirst_iff (bundles : List (Bundle T)) :
    replayRunsFirst bundles = true ↔ Preempted bundles :=
  precedes_orderForReplay _ _

/-- A budget is in sight in the bundle of the first stored response, or in one before it. -/
def BudgetInFront (bundles : List (Bundle T)) : Prop :=
  ∃ before bundle after, bundles = before ++ bundle :: after ∧
    before.any Bundle.hasReplay = false ∧ bundle.showsBudget = true

/-- The first stored response and the tenancy hook are in one bundle, in this order. -/
def TenancyBehind (bundles : List (Bundle T)) : Prop :=
  ∃ before bundle after, bundles = before ++ bundle :: after ∧
    before.any Bundle.hasReplay = false ∧ before.any Bundle.hasTenancy = false ∧
    replayBeforeTenancy [bundle] = true

/-- The stacks on which a comparison of bundles goes wrong. -/
inductive Misjudged (bundles : List (Bundle T)) : Prop
  /-- The first budget in sight is not the one that is preempted. -/
  | masked (preempted : Preempted bundles) (front : BudgetInFront bundles)
  /-- Every budget is in an `every` with a `preBody`. -/
  | hidden (preempted : Preempted bundles) (unseen : bundles.any Bundle.showsBudget = false)
  /-- An authentication hook has the budgets moved in front of the stored responses. -/
  | moved (fine : ¬Preempted bundles) (replay : bundles.any Bundle.hasReplay = true)
      (seen : bundles.any Bundle.showsBudget = true) (behind : ¬BudgetInFront bundles)
  | sameBundle (tenancy : TenancyBehind bundles)

theorem layers_cons (bundle : Bundle T) (bundles : List (Bundle T)) :
    Bundle.layers (bundle :: bundles) = Bundle.layers [bundle] ++ Bundle.layers bundles := by
  simp only [Bundle.layers, Bracketed.flattenAll_cons, Bracketed.flattenAll_nil, List.append_nil,
    List.map_append]

theorem any_layers_singleton (marker : Hooks T → Bool) (bundle : Bundle T) :
    (Bundle.layers [bundle]).any marker =
      (Bracketed.flatten bundle).any fun layer => marker layer.1 := by
  rw [Bundle.layers, Bracketed.flattenAll_cons, Bracketed.flattenAll_nil, List.append_nil,
    List.any_map]
  rfl

theorem any_layers (marker : Hooks T → Bool) (bundles : List (Bundle T)) :
    (Bundle.layers bundles).any marker =
      bundles.any fun bundle => (Bracketed.flatten bundle).any fun layer => marker layer.1 := by
  induction bundles with
  | nil => rfl
  | cons b bs ih => rw [layers_cons, List.any_append, ih, any_layers_singleton, List.any_cons]

theorem exists_split_cons {α : Type} (p : List α → α → Prop) (x : α) (xs : List α) :
    (∃ before y after, x :: xs = before ++ y :: after ∧ p before y) ↔
      p [] x ∨ ∃ before y after, xs = before ++ y :: after ∧ p (x :: before) y := by
  constructor
  · rintro ⟨before, y, after, heq, h⟩
    cases before with
    | nil =>
      obtain ⟨rfl, rfl⟩ := List.cons.inj heq
      exact .inl h
    | cons z before =>
      obtain ⟨rfl, rfl⟩ := List.cons.inj heq
      exact .inr ⟨before, y, after, rfl, h⟩
  · rintro (h | ⟨before, y, after, rfl, h⟩)
    · exact ⟨[], x, xs, rfl, h⟩
    · exact ⟨x :: before, y, after, rfl, h⟩

theorem budgetInFront_cons (bundle : Bundle T) (bundles : List (Bundle T)) :
    BudgetInFront (bundle :: bundles) ↔
      bundle.showsBudget = true ∨ bundle.hasReplay = false ∧ BudgetInFront bundles := by
  rw [BudgetInFront, exists_split_cons fun before b => before.any Bundle.hasReplay = false ∧
    b.showsBudget = true, BudgetInFront]
  cases hreplay : bundle.hasReplay with
  | true => simp [hreplay]
  | false => simp [hreplay]

theorem firstBefore_budget (bundles : List (Bundle T)) :
    firstBefore Bundle.hasReplay Bundle.showsBudget bundles = true ↔
      bundles.any Bundle.hasReplay = true ∧ bundles.any Bundle.showsBudget = true ∧
        ¬BudgetInFront bundles := by
  induction bundles with
  | nil => simp [firstBefore]
  | cons b bs ih =>
    rw [firstBefore_cons, budgetInFront_cons, List.any_cons, List.any_cons]
    cases b.showsBudget with
    | true => simp
    | false =>
      cases b.hasReplay with
      | true => simp
      | false => simpa using ih

theorem replayBeforeTenancy_eq (bundles : List (Bundle T)) :
    replayBeforeTenancy bundles =
      firstBefore Hooks.isReplay Hooks.tenancy (Bundle.layers bundles) := by
  rw [replayBeforeTenancy]
  induction Bundle.layers bundles with
  | nil => rfl
  | cons hooks layers ih =>
    rw [firstBefore_cons, ← ih, List.takeWhile_cons, List.any_cons]
    cases hooks.tenancy with
    | true => rfl
    | false =>
      rw [Bool.not_false, if_pos rfl, List.any_cons, Bool.false_or]
      cases hooks.isReplay <;> simp

theorem replayBeforeTenancy_cons (bundle : Bundle T) (bundles : List (Bundle T)) :
    replayBeforeTenancy (bundle :: bundles) =
      if bundle.hasTenancy then replayBeforeTenancy [bundle]
      else if bundle.hasReplay then bundles.any Bundle.hasTenancy
      else replayBeforeTenancy bundles := by
  rw [replayBeforeTenancy_eq, layers_cons, firstBefore_append, any_layers_singleton,
    any_layers_singleton, any_layers, replayBeforeTenancy_eq, replayBeforeTenancy_eq]
  rfl

theorem tenancyBehind_cons (bundle : Bundle T) (bundles : List (Bundle T)) :
    TenancyBehind (bundle :: bundles) ↔
      replayBeforeTenancy [bundle] = true ∨
        bundle.hasReplay = false ∧ bundle.hasTenancy = false ∧ TenancyBehind bundles := by
  rw [TenancyBehind, exists_split_cons fun before b => before.any Bundle.hasReplay = false ∧
    before.any Bundle.hasTenancy = false ∧ replayBeforeTenancy [b] = true, TenancyBehind]
  cases hreplay : bundle.hasReplay with
  | true => simp [hreplay]
  | false =>
    cases htenancy : bundle.hasTenancy with
    | true => simp [htenancy]
    | false => simp [hreplay, htenancy]

theorem cacheBeforeTenancy_iff (bundles : List (Bundle T)) :
    firstBefore Bundle.hasReplay Bundle.hasTenancy bundles = replayBeforeTenancy bundles ↔
      ¬TenancyBehind bundles := by
  induction bundles with
  | nil => simp [firstBefore, replayBeforeTenancy, Bundle.layers, TenancyBehind]
  | cons b bs ih =>
    have hone : b.hasTenancy = false → replayBeforeTenancy [b] = false := by
      intro h
      rw [replayBeforeTenancy, any_layers_singleton]
      exact (congrArg _ h).trans (Bool.and_false _)
    rw [firstBefore_cons, replayBeforeTenancy_cons, tenancyBehind_cons]
    cases htenancy : b.hasTenancy with
    | true => simp
    | false =>
      rw [hone htenancy]
      cases b.hasReplay with
      | true => simp
      | false => simpa using ih

theorem hasReplay_of_preempted {bundles : List (Bundle T)} (h : Preempted bundles) :
    bundles.any Bundle.hasReplay = true := by
  have hgates : (gatesOf bundles).any Hooks.isReplay = true := by
    rcases h with ⟨front, gate, back, hgates, hfront, -, -⟩ | h
    · rw [hgates, List.any_append, hfront, Bool.true_or]
    · obtain ⟨hooks, hmem, -⟩ := List.any_eq_true.mp h
      obtain ⟨hgate, hreplay⟩ := mem_replaysFirst.mp (List.mem_of_mem_tail hmem)
      exact List.any_eq_true.mpr ⟨hooks, hgate, hreplay⟩
  exact (any_layers Hooks.isReplay bundles).symm.trans (any_of_any_filter hgates)

/-- **The guards report the order of the flattened layers unless the stack is misjudged.** -/
theorem guards_see_through (bundles : List (Bundle T)) :
    ((securityMarkersFromHooks (bundles.map Bundle.hooks)).replayBeforeBudget.isSome =
          replayRunsFirst bundles ∧
        (securityMarkersFromHooks (bundles.map Bundle.hooks)).cacheBeforeTenancy =
          replayBeforeTenancy bundles) ↔
      ¬Misjudged bundles := by
  rw [replayBeforeBudget_isSome, cacheBeforeTenancy_eq, firstBefore_map isBudget_hooks,
    firstBefore_map tenancy_hooks, cacheBeforeTenancy_iff, Bool.eq_iff_iff, firstBefore_budget,
    replayRunsFirst_iff]
  constructor
  · rintro ⟨hbudget, htenancy⟩ hmisjudged
    cases hmisjudged with
    | masked preempted front => exact (hbudget.mpr preempted).2.2 front
    | hidden preempted unseen =>
      rw [(hbudget.mpr preempted).2.1] at unseen
      exact absurd unseen.symm Bool.false_ne_true
    | moved fine replay seen behind => exact fine (hbudget.mp ⟨replay, seen, behind⟩)
    | sameBundle tenancy => exact htenancy tenancy
  · intro hfine
    refine ⟨⟨?_, ?_⟩, fun h => hfine (.sameBundle h)⟩
    · rintro ⟨hreplay, hseen, hbehind⟩
      by_contra hnot
      exact hfine (.moved hnot hreplay hseen hbehind)
    · intro hpreempted
      refine ⟨hasReplay_of_preempted hpreempted, ?_, fun h => hfine (.masked hpreempted h)⟩
      by_contra hunseen
      exact hfine (.hidden hpreempted (by simpa using hunseen))

/-- A budget, a stored response and a second budget, each a layer of its own. -/
def budgetBetween : List (Bundle Noted) :=
  [.item ⟨{ beforeHandle := some (pure none), earlyRejection := some [pure none] }, rfl⟩,
    .item ⟨{ beforeHandle := some (pure none), responseCache := true }, rfl⟩,
    .item ⟨{ beforeHandle := some (pure none), earlyRejection := some [pure none] }, rfl⟩]

theorem budget_between_unseen :
    replayRunsFirst budgetBetween = true ∧
      (securityMarkersFromHooks (budgetBetween.map Bundle.hooks)).replayBeforeBudget = none := by
  decide

end Guards

end Daloy.Compose
