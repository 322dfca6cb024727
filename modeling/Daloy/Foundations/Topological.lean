import Mathlib.Data.Fintype.Card
import Mathlib.Data.List.Nodup
import Mathlib.Data.Set.Finite.List
import Mathlib.Logic.Relation
import Mathlib.Order.WellFounded
import Mathlib.Tactic.Common

/-! # Topological sorting

Kahn's algorithm over any type of nodes. Nothing here mentions a program.

* `order`: the nodes as the algorithm puts them out.
* `Sound`: what holds of every state of a run.
* `length_order_iff`: every node is put out exactly when no node comes before itself.
* `sublist_order`: a node that is put out stands behind everything that comes before it.
-/

namespace Daloy.Topological
set_option autoImplicit false

open Relation

/-- A finite graph: its nodes, and behind each node those it comes before. -/
structure Graph (α : Type) where
  nodes : List α
  succ : α → List α
  nodup : nodes.Nodup
  succ_nodup : ∀ u, (succ u).Nodup
  succ_mem : ∀ u v, v ∈ succ u → u ∈ nodes ∧ v ∈ nodes

/-- What a run keeps: how many nodes are still to come before each node, the nodes that wait, and
those that are put out. -/
structure Kahn (α : Type) where
  indeg : α → ℤ
  queue : List α
  out : List α

variable {α : Type}

def Graph.Edge (g : Graph α) (u v : α) : Prop := v ∈ g.succ u

def Graph.Acyclic (g : Graph α) : Prop := ∀ v, ¬ TransGen g.Edge v v

variable [DecidableEq α]

/-! ## The algorithm -/

/-- One node less is to come before `v`. -/
def release (s : Kahn α) (v : α) : Kahn α where
  indeg := Function.update s.indeg v (s.indeg v - 1)
  queue := if s.indeg v - 1 = 0 then s.queue ++ [v] else s.queue
  out := s.out

def visit (g : Graph α) (s : Kahn α) (u : α) (queue : List α) : Kahn α :=
  (g.succ u).foldl release { s with queue := queue, out := s.out ++ [u] }

def run (g : Graph α) : ℕ → Kahn α → Kahn α
  | 0, s => s
  | fuel + 1, s => match s.queue with
    | [] => s
    | u :: queue => run g fuel (visit g s u queue)

def indegrees (g : Graph α) : α → ℤ :=
  g.nodes.foldl (fun d u => (g.succ u).foldl (fun d v => Function.update d v (d v + 1)) d) fun _ => 0

def start (g : Graph α) : Kahn α :=
  ⟨indegrees g, g.nodes.filter fun v => indegrees g v = 0, []⟩

def order (g : Graph α) : List α := (run g g.nodes.length (start g)).out

/-! ## Counting -/

/-- How many nodes that are not put out yet come before `v`. -/
def Graph.pending (g : Graph α) (out : List α) (v : α) : ℕ :=
  g.nodes.countP fun u => v ∈ g.succ u ∧ u ∉ out

theorem pending_eq_zero {g : Graph α} {out : List α} {v : α} :
    g.pending out v = 0 ↔ ∀ u, g.Edge u v → u ∈ out := by
  unfold Graph.pending Graph.Edge
  rw [List.countP_eq_zero]
  constructor
  · intro h u huv
    by_contra hout
    exact h u (g.succ_mem u v huv).1 (by simp [huv, hout])
  · intro h u _
    by_cases huv : v ∈ g.succ u
    · simp [h u huv]
    · simp [huv]

theorem pending_append {g : Graph α} {out : List α} {u : α} (hu : u ∈ g.nodes) (hout : u ∉ out)
    (v : α) : (g.pending (out ++ [u]) v : ℤ) =
      g.pending out v - if v ∈ g.succ u then 1 else 0 := by
  have herase : g.pending (out ++ [u]) v =
      (g.nodes.erase u).countP fun w => v ∈ g.succ w ∧ w ∉ out := by
    rw [g.nodup.erase_eq_filter, List.countP_filter]
    unfold Graph.pending
    refine List.countP_congr fun w _ => ?_
    simp only [List.mem_append, List.mem_singleton, decide_eq_true_eq, Bool.and_eq_true, bne_iff_ne,
      not_or, ne_eq]
    tauto
  have hcount := List.countP_erase (fun w => decide (v ∈ g.succ w ∧ w ∉ out)) g.nodes u
  rw [herase, hcount]
  by_cases hv : v ∈ g.succ u
  · have hpos : 0 < g.nodes.countP fun w => v ∈ g.succ w ∧ w ∉ out :=
      List.countP_pos_iff.mpr ⟨u, hu, by simp [hv, hout]⟩
    simp only [hu, hv, hout, not_false_eq_true, and_self, decide_true, if_true]
    unfold Graph.pending
    omega
  · simp [hv, Graph.pending]

theorem foldl_increment {vs : List α} (hvs : vs.Nodup) (d : α → ℤ) (w : α) :
    vs.foldl (fun d v => Function.update d v (d v + 1)) d w = d w + if w ∈ vs then 1 else 0 := by
  induction vs generalizing d with
  | nil => simp
  | cons v vs ih =>
    rw [List.nodup_cons] at hvs
    rw [List.foldl_cons, ih hvs.2, Function.update_apply]
    by_cases hw : w = v
    · subst hw
      simp [hvs.1]
    · simp [hw]

theorem foldl_indegrees (g : Graph α) (us : List α) (d : α → ℤ) (v : α) :
    us.foldl (fun d u => (g.succ u).foldl (fun d v => Function.update d v (d v + 1)) d) d v =
      d v + us.countP fun u => v ∈ g.succ u := by
  induction us generalizing d with
  | nil => simp
  | cons u us ih =>
    rw [List.foldl_cons, ih, foldl_increment (g.succ_nodup u), List.countP_cons]
    by_cases hv : v ∈ g.succ u
    · simp only [hv, if_true, decide_true]
      omega
    · simp [hv]

theorem indegrees_eq (g : Graph α) (v : α) : indegrees g v = g.pending [] v := by
  unfold indegrees
  rw [foldl_indegrees]
  simp [Graph.pending]

/-! ## What a run preserves -/

/-- The counts are right, what waits or is put out is what nothing is to come before, and what is
put out stands behind everything that comes before it. -/
structure Sound (g : Graph α) (s : Kahn α) : Prop where
  indeg : ∀ v, s.indeg v = g.pending s.out v
  ready : ∀ v, v ∈ s.out ++ s.queue ↔ v ∈ g.nodes ∧ s.indeg v = 0
  nodup : (s.out ++ s.queue).Nodup
  ordered : ∀ u v, TransGen g.Edge u v → v ∈ s.out → [u, v].Sublist s.out

theorem release_indeg (s : Kahn α) (v w : α) :
    (release s v).indeg w = if w = v then s.indeg v - 1 else s.indeg w :=
  Function.update_apply s.indeg v _ w

theorem foldl_release_out (vs : List α) (s : Kahn α) : (vs.foldl release s).out = s.out := by
  induction vs generalizing s with
  | nil => rfl
  | cons v vs ih => exact ih (release s v)

theorem foldl_release_indeg {vs : List α} (hvs : vs.Nodup) (s : Kahn α) (w : α) :
    (vs.foldl release s).indeg w = s.indeg w - if w ∈ vs then 1 else 0 := by
  induction vs generalizing s with
  | nil => simp
  | cons v vs ih =>
    rw [List.nodup_cons] at hvs
    rw [List.foldl_cons, ih hvs.2, release_indeg]
    by_cases hw : w = v
    · subst hw
      simp [hvs.1]
    · simp [hw]

theorem release_ready {g : Graph α} {s : Kahn α} {v : α} (hv : v ∈ g.nodes) (hpos : 1 ≤ s.indeg v)
    (hready : ∀ w, w ∈ s.out ++ s.queue ↔ w ∈ g.nodes ∧ s.indeg w = 0)
    (hnodup : (s.out ++ s.queue).Nodup) :
    (∀ w, w ∈ (release s v).out ++ (release s v).queue ↔
      w ∈ g.nodes ∧ (release s v).indeg w = 0) ∧
    ((release s v).out ++ (release s v).queue).Nodup := by
  have hnew : v ∉ s.out ++ s.queue := by
    rw [hready]
    omega
  unfold release
  by_cases hzero : s.indeg v - 1 = 0
  · simp only [hzero, if_true, ← List.append_assoc]
    constructor
    · intro w
      rw [List.mem_append, hready, List.mem_singleton, Function.update_apply]
      by_cases hw : w = v
      · simp [hw, hv]
      · simp [hw]
    · rw [List.nodup_append]
      refine ⟨hnodup, List.nodup_singleton v, ?_⟩
      intro a ha b hb hab
      rw [List.mem_singleton] at hb
      exact hnew (hb ▸ hab ▸ ha)
  · simp only [hzero, if_false]
    refine ⟨?_, hnodup⟩
    intro w
    rw [hready, Function.update_apply]
    by_cases hw : w = v
    · subst hw
      rw [if_pos rfl]
      omega
    · rw [if_neg hw]

theorem foldl_release_ready {g : Graph α} {vs : List α} (hvs : vs.Nodup) (s : Kahn α)
    (hmem : ∀ v ∈ vs, v ∈ g.nodes ∧ 1 ≤ s.indeg v)
    (hready : ∀ w, w ∈ s.out ++ s.queue ↔ w ∈ g.nodes ∧ s.indeg w = 0)
    (hnodup : (s.out ++ s.queue).Nodup) :
    (∀ w, w ∈ (vs.foldl release s).out ++ (vs.foldl release s).queue ↔
      w ∈ g.nodes ∧ (vs.foldl release s).indeg w = 0) ∧
    ((vs.foldl release s).out ++ (vs.foldl release s).queue).Nodup := by
  induction vs generalizing s with
  | nil => exact ⟨hready, hnodup⟩
  | cons v vs ih =>
    rw [List.nodup_cons] at hvs
    obtain ⟨hv, hpos⟩ := hmem v List.mem_cons_self
    obtain ⟨hready', hnodup'⟩ := release_ready hv hpos hready hnodup
    refine ih hvs.2 (release s v) ?_ hready' hnodup'
    intro w hw
    obtain ⟨hnode, hposw⟩ := hmem w (List.mem_cons_of_mem v hw)
    refine ⟨hnode, ?_⟩
    have hne : w ≠ v := fun h => hvs.1 (h ▸ hw)
    rw [release_indeg, if_neg hne]
    exact hposw

theorem sound_start (g : Graph α) : Sound g (start g) := by
  constructor
  · intro v
    exact indegrees_eq g v
  · intro v
    simp [start]
  · simpa [start] using g.nodup.filter _
  · intro u v _ hv
    simp [start] at hv

omit [DecidableEq α] in
theorem ordered_append {g : Graph α} {out : List α} {w : α}
    (hbefore : ∀ u, g.Edge u w → u ∈ out)
    (hordered : ∀ u v, TransGen g.Edge u v → v ∈ out → [u, v].Sublist out)
    (u v : α) (huv : TransGen g.Edge u v) (hv : v ∈ out ++ [w]) : [u, v].Sublist (out ++ [w]) := by
  rw [List.mem_append, List.mem_singleton] at hv
  cases hv with
  | inl hv => exact (hordered u v huv hv).trans (List.sublist_append_left out [w])
  | inr hv =>
    subst hv
    have hu : u ∈ out := by
      cases huv with
      | single hedge => exact hbefore u hedge
      | tail htrans hedge =>
        exact (hordered u _ htrans (hbefore _ hedge)).subset List.mem_cons_self
    exact (List.singleton_sublist.mpr hu).append (List.Sublist.refl [v])

theorem sound_visit {g : Graph α} {s : Kahn α} {u : α} {queue : List α} (hs : Sound g s)
    (hqueue : s.queue = u :: queue) : Sound g (visit g s u queue) := by
  have hmem := (hs.ready u).mp (by simp [hqueue])
  have hnodup := hs.nodup
  rw [hqueue, List.append_cons] at hnodup
  have hout : u ∉ s.out := by
    intro h
    rw [List.append_assoc, List.nodup_append] at hnodup
    exact hnodup.2.2 u h u (by simp) rfl
  have hbefore : ∀ w, g.Edge w u → w ∈ s.out := by
    rw [← pending_eq_zero, ← Int.natCast_eq_zero, ← hs.indeg]
    exact hmem.2
  have hindeg : ∀ v, v ∈ g.succ u → 1 ≤ s.indeg v := by
    intro v hv
    have hne : g.pending s.out v ≠ 0 := fun h => hout (pending_eq_zero.mp h u hv)
    rw [hs.indeg]
    omega
  obtain ⟨hready, hnodup'⟩ := foldl_release_ready (g := g) (g.succ_nodup u)
    { s with queue := queue, out := s.out ++ [u] }
    (fun v hv => ⟨(g.succ_mem u v hv).2, hindeg v hv⟩)
    (by
      intro w
      rw [← hs.ready w, hqueue]
      simp)
    hnodup
  constructor
  · intro v
    unfold visit
    rw [foldl_release_indeg (g.succ_nodup u), foldl_release_out, pending_append hmem.1 hout]
    simp only [hs.indeg]
  · exact hready
  · exact hnodup'
  · unfold visit
    rw [foldl_release_out]
    exact ordered_append hbefore hs.ordered

theorem sound_run {g : Graph α} {fuel : ℕ} {s : Kahn α} (hs : Sound g s)
    (hfuel : g.nodes.length ≤ fuel + s.out.length) :
    Sound g (run g fuel s) ∧ (run g fuel s).queue = [] := by
  induction fuel generalizing s with
  | zero =>
    have hsub : s.out ++ s.queue ⊆ g.nodes := fun v hv => ((hs.ready v).mp hv).1
    have hlength := (hs.nodup.subperm hsub).length_le
    rw [List.length_append] at hlength
    have hnone : s.queue.length = 0 := by omega
    exact ⟨hs, List.length_eq_zero_iff.mp hnone⟩
  | succ fuel ih =>
    unfold run
    split
    · next hqueue => exact ⟨hs, hqueue⟩
    · next u queue hqueue =>
      refine ih (sound_visit hs hqueue) ?_
      unfold visit
      rw [foldl_release_out, List.length_append, List.length_singleton]
      omega

/-! ## The order -/

theorem nodup_order (g : Graph α) : (order g).Nodup := by
  obtain ⟨hsound, hqueue⟩ := sound_run (sound_start g) (Nat.le_add_right g.nodes.length _)
  have hnodup := hsound.nodup
  rw [hqueue, List.append_nil] at hnodup
  exact hnodup

theorem mem_order (g : Graph α) (v : α) :
    v ∈ order g ↔ v ∈ g.nodes ∧ ∀ u, g.Edge u v → u ∈ order g := by
  obtain ⟨hsound, hqueue⟩ := sound_run (sound_start g) (Nat.le_add_right g.nodes.length _)
  have hready := hsound.ready v
  rw [hqueue, List.append_nil, hsound.indeg, Int.natCast_eq_zero, pending_eq_zero] at hready
  exact hready

theorem order_subset (g : Graph α) : order g ⊆ g.nodes := fun v hv => ((mem_order g v).mp hv).1

theorem sublist_order {g : Graph α} {u v : α} (huv : TransGen g.Edge u v) (hv : v ∈ order g) :
    [u, v].Sublist (order g) := by
  obtain ⟨hsound, _⟩ := sound_run (sound_start g) (Nat.le_add_right g.nodes.length _)
  exact hsound.ordered u v huv hv

theorem mem_order_of_acyclic {g : Graph α} (hg : g.Acyclic) (v : α) (hv : v ∈ g.nodes) :
    v ∈ order g := by
  have hwf : WellFounded fun a b : {x // x ∈ g.nodes} => TransGen g.Edge a.1 b.1 := by
    have : IsTrans {x // x ∈ g.nodes} fun a b => TransGen g.Edge a.1 b.1 :=
      ⟨fun _ _ _ hab hbc => hab.trans hbc⟩
    have : Std.Irrefl fun a b : {x // x ∈ g.nodes} => TransGen g.Edge a.1 b.1 :=
      ⟨fun a => hg a.1⟩
    have : Finite {x // x ∈ g.nodes} := (List.finite_toSet g.nodes).to_subtype
    exact Finite.wellFounded_of_trans_of_irrefl _
  have hall : ∀ a : {x // x ∈ g.nodes}, a.1 ∈ order g := by
    intro a
    induction a using hwf.induction with
    | h a ih =>
      rw [mem_order]
      exact ⟨a.2, fun u hu => ih ⟨u, (g.succ_mem u a.1 hu).1⟩ (TransGen.single hu)⟩
  exact hall ⟨v, hv⟩

theorem order_perm {g : Graph α} (h : (order g).length = g.nodes.length) :
    (order g).Perm g.nodes :=
  ((nodup_order g).subperm (order_subset g)).perm_of_length_le h.ge

theorem length_order_iff (g : Graph α) : (order g).length = g.nodes.length ↔ g.Acyclic := by
  constructor
  · intro h v hv
    have hnode : v ∈ g.nodes := by
      cases hv with
      | single hedge => exact (g.succ_mem v v hedge).2
      | tail _ hedge => exact (g.succ_mem _ v hedge).2
    have hpair := sublist_order hv ((order_perm h).mem_iff.mpr hnode)
    have hnodup := (nodup_order g).sublist hpair
    simp at hnodup
  · intro hg
    refine le_antisymm ((nodup_order g).subperm (order_subset g)).length_le ?_
    exact (g.nodup.subperm fun v hv => mem_order_of_acyclic hg v hv).length_le

end Daloy.Topological
