import Daloy.Foundations.Fallible
import Daloy.Foundations.Text
import Daloy.Foundations.Topological

/-! # The order of plugin extensions

`topoSortExtensions` of `src/app.ts`.

* `Precedes`: one extension declares that it runs before the other, or the other that it runs after.
* `Refused`: repeated names, a cycle, or a shared response header without a declaration.
* `topoSortExtensions_ok`: what the sorted extensions are.
* `topoSortExtensions_refused`: the sort throws exactly on what is `Refused`.
-/

namespace Daloy.App.Extensions
set_option autoImplicit false

open Daloy.Json Daloy.Unicode Daloy.Topological Relation

inductive Event
  | onRequest | preBody | beforeHandle | afterHandle | onSend | onError
  deriving DecidableEq, Repr

structure PluginExtension (H : Type) where
  name : JsString
  event : Event
  handler : H
  before : Option (List JsString)
  after : Option (List JsString)
  responseHeaders : Option (List JsString)
  deriving DecidableEq

inductive ExtensionError
  | duplicateName (name : JsString)
  | cycle (remaining : List JsString)
  | headerConflict (a b : JsString) (overlap : List JsString)
  deriving DecidableEq, Repr

def quoteAll (texts : List JsString) : JsString := (js ", ").intercalate (texts.map quote)

def ExtensionError.message : ExtensionError → JsString
  | .duplicateName name => js "Duplicate plugin extension name: " ++ quote name ++ js "."
  | .cycle remaining =>
    js "Plugin extension cycle detected among: " ++ quoteAll remaining ++ js "."
  | .headerConflict a b overlap =>
    js "Plugin extension header conflict: " ++ quote a ++ js " and " ++ quote b ++
      js " both mutate response header(s) " ++ quoteAll overlap ++
      js " but neither declares a `before` or `after` relationship to the other. Add the " ++
      js "missing ordering to make the merged header value deterministic."

variable {H : Type}

/-! ## The graph of the extensions -/

/-- `byName`: extensions with distinct names, in the order they came. -/
structure ByName (H : Type) where
  exts : List (PluginExtension H)
  distinct : (exts.map PluginExtension.name).Nodup

def ByName.names (m : ByName H) : List JsString := m.exts.map PluginExtension.name

def ByName.get? (m : ByName H) (name : JsString) : Option (PluginExtension H) :=
  m.exts.find? fun e => e.name = name

def ByName.set (m : ByName H) (e : PluginExtension H) : Except ExtensionError (ByName H) :=
  if h : e.name ∈ m.names then .error (.duplicateName e.name)
  else .ok ⟨m.exts ++ [e], by
    rw [List.map_append, List.nodup_append]
    refine ⟨m.distinct, List.nodup_singleton _, ?_⟩
    rintro a ha b hb rfl
    rw [List.map_singleton, List.mem_singleton] at hb
    exact h (hb ▸ ha)⟩

def byName (exts : List (PluginExtension H)) : Except ExtensionError (ByName H) :=
  exts.foldlM ByName.set ⟨[], List.nodup_nil⟩

/-- `edges.get(u).add(v)` where the other name is there. -/
def addEdge (present : Bool) (u v : JsString) (edges : JsString → List JsString) :
    JsString → List JsString :=
  if present ∧ v ∉ edges u then Function.update edges u (edges u ++ [v]) else edges

def declareEdges (names : List JsString) (edges : JsString → List JsString)
    (e : PluginExtension H) : JsString → List JsString :=
  (e.after.getD []).foldl (fun edges a => addEdge (a ∈ names) a e.name edges)
    ((e.before.getD []).foldl (fun edges b => addEdge (b ∈ names) e.name b edges) edges)

def ByName.edges (m : ByName H) : JsString → List JsString :=
  m.exts.foldl (declareEdges m.names) fun _ => []

def Precedes (a b : PluginExtension H) : Prop := b.name ∈ a.before.getD [] ∨ a.name ∈ b.after.getD []

instance (a b : PluginExtension H) : Decidable (Precedes a b) := by
  unfold Precedes
  infer_instance

theorem mem_addEdge {present : Bool} {u v x y : JsString} {edges : JsString → List JsString} :
    y ∈ addEdge present u v edges x ↔ y ∈ edges x ∨ (present = true ∧ x = u ∧ y = v) := by
  unfold addEdge
  split
  · next h =>
    rw [Function.update_apply]
    by_cases hx : x = u
    · subst hx
      simp [h.1]
    · simp [hx]
  · next h =>
    rw [not_and, not_not] at h
    constructor
    · exact Or.inl
    · intro hmem
      cases hmem with
      | inl hmem => exact hmem
      | inr hnew =>
        obtain ⟨hpresent, rfl, rfl⟩ := hnew
        exact h hpresent

theorem nodup_addEdge {present : Bool} {u v : JsString} {edges : JsString → List JsString}
    (h : ∀ x, (edges x).Nodup) (x : JsString) : (addEdge present u v edges x).Nodup := by
  unfold addEdge
  split
  · next hnew =>
    rw [Function.update_apply]
    split
    · rw [List.nodup_append]
      refine ⟨h u, List.nodup_singleton v, ?_⟩
      intro a ha b hb hab
      rw [List.mem_singleton] at hb
      exact hnew.2 (hb ▸ hab ▸ ha)
    · exact h x
  · exact h x

theorem mem_foldl_addEdge {β : Type} (bs : List β) (present : β → Bool) (u v : β → JsString)
    (edges : JsString → List JsString) (x y : JsString) :
    y ∈ bs.foldl (fun edges b => addEdge (present b) (u b) (v b) edges) edges x ↔
      y ∈ edges x ∨ ∃ b ∈ bs, present b = true ∧ x = u b ∧ y = v b := by
  induction bs generalizing edges with
  | nil => simp
  | cons b bs ih =>
    rw [List.foldl_cons, ih, mem_addEdge, or_assoc]
    simp

theorem nodup_foldl_addEdge {β : Type} (bs : List β) (present : β → Bool) (u v : β → JsString)
    {edges : JsString → List JsString} (h : ∀ x, (edges x).Nodup) (x : JsString) :
    (bs.foldl (fun edges b => addEdge (present b) (u b) (v b) edges) edges x).Nodup := by
  induction bs generalizing edges with
  | nil => exact h x
  | cons b bs ih => exact ih (nodup_addEdge h)

theorem mem_declareEdges {names : List JsString} {edges : JsString → List JsString}
    {e : PluginExtension H} {x y : JsString} :
    y ∈ declareEdges names edges e x ↔ y ∈ edges x ∨
      (x = e.name ∧ y ∈ e.before.getD [] ∧ y ∈ names) ∨
      (y = e.name ∧ x ∈ e.after.getD [] ∧ x ∈ names) := by
  unfold declareEdges
  rw [mem_foldl_addEdge, mem_foldl_addEdge, or_assoc]
  simp only [decide_eq_true_eq]
  grind

theorem mem_foldl_declareEdges (names : List JsString) (exts : List (PluginExtension H))
    (edges : JsString → List JsString) (x y : JsString) :
    y ∈ exts.foldl (declareEdges names) edges x ↔ y ∈ edges x ∨ ∃ e ∈ exts,
      (x = e.name ∧ y ∈ e.before.getD [] ∧ y ∈ names) ∨
      (y = e.name ∧ x ∈ e.after.getD [] ∧ x ∈ names) := by
  induction exts generalizing edges with
  | nil => simp
  | cons e exts ih =>
    rw [List.foldl_cons, ih, mem_declareEdges, or_assoc]
    simp

theorem nodup_foldl_declareEdges (names : List JsString) (exts : List (PluginExtension H))
    {edges : JsString → List JsString} (h : ∀ x, (edges x).Nodup) (x : JsString) :
    (exts.foldl (declareEdges names) edges x).Nodup := by
  induction exts generalizing edges with
  | nil => exact h x
  | cons e exts ih =>
    refine ih fun y => ?_
    unfold declareEdges
    exact nodup_foldl_addEdge _ _ _ _ (nodup_foldl_addEdge _ _ _ _ h) y

theorem ByName.mem_names {m : ByName H} {name : JsString} :
    name ∈ m.names ↔ ∃ e ∈ m.exts, e.name = name := by
  simp [names]

theorem ByName.mem_edges {m : ByName H} {x y : JsString} :
    y ∈ m.edges x ↔ ∃ a ∈ m.exts, ∃ b ∈ m.exts, a.name = x ∧ b.name = y ∧ Precedes a b := by
  unfold edges
  rw [mem_foldl_declareEdges]
  simp only [List.not_mem_nil, false_or, mem_names]
  constructor
  · rintro ⟨e, he, ⟨rfl, hbefore, b, hb, rfl⟩ | ⟨rfl, hafter, a, ha, rfl⟩⟩
    · exact ⟨e, he, b, hb, rfl, rfl, .inl hbefore⟩
    · exact ⟨a, ha, e, he, rfl, rfl, .inr hafter⟩
  · rintro ⟨a, ha, b, hb, rfl, rfl, hbefore | hafter⟩
    · exact ⟨a, ha, .inl ⟨rfl, hbefore, b, hb, rfl⟩⟩
    · exact ⟨b, hb, .inr ⟨rfl, hafter, a, ha, rfl⟩⟩

def ByName.graph (m : ByName H) : Graph JsString where
  nodes := m.names
  succ := m.edges
  nodup := m.distinct
  succ_nodup := nodup_foldl_declareEdges m.names m.exts fun _ => List.nodup_nil
  succ_mem := by
    intro u v h
    obtain ⟨a, ha, b, hb, rfl, rfl, _⟩ := mem_edges.mp h
    exact ⟨mem_names.mpr ⟨a, ha, rfl⟩, mem_names.mpr ⟨b, hb, rfl⟩⟩

/-! ## Shared response headers -/

section Sorting

variable (toLowerCase : JsString → JsString)

/-- The headers of `b` that `a` mutates as well. -/
def headerOverlap (a b : PluginExtension H) : List JsString :=
  ((b.responseHeaders.getD []).map toLowerCase).filter fun h =>
    h ∈ (a.responseHeaders.getD []).map toLowerCase

def isDeclared (a b : PluginExtension H) : Bool :=
  b.name ∈ a.before.getD [] || b.name ∈ a.after.getD [] || a.name ∈ b.before.getD [] ||
    a.name ∈ b.after.getD []

def conflictOf (a b : PluginExtension H) : Option ExtensionError :=
  if headerOverlap toLowerCase a b = [] then none
  else if isDeclared a b then none
  else some (.headerConflict a.name b.name (headerOverlap toLowerCase a b))

def headerConflict? : List (PluginExtension H) → Option ExtensionError
  | [] => none
  | a :: rest => (rest.findSome? (conflictOf toLowerCase a)).or (headerConflict? rest)

def topoSortExtensions (exts : List (PluginExtension H)) :
    Except ExtensionError (List (PluginExtension H)) := do
  let byName ← byName exts
  let out := (order byName.graph).filterMap byName.get?
  if out.length ≠ exts.length then
    .error (.cycle (byName.names.filter fun n => n ∉ out.map PluginExtension.name))
  else match headerConflict? toLowerCase exts with
    | some e => .error e
    | none => .ok out

def SharesHeader (a b : PluginExtension H) : Prop :=
  ∃ h ∈ a.responseHeaders.getD [], ∃ k ∈ b.responseHeaders.getD [], toLowerCase h = toLowerCase k

/-! ## What the sort refuses -/

def Repeats (exts : List (PluginExtension H)) : Prop := ¬ (exts.map PluginExtension.name).Nodup

def Constraint (exts : List (PluginExtension H)) (a b : PluginExtension H) : Prop :=
  a ∈ exts ∧ b ∈ exts ∧ Precedes a b

def Cyclic (exts : List (PluginExtension H)) : Prop := ∃ a, TransGen (Constraint exts) a a

/-- Two extensions mutate one header, and neither declares a relation to the other. -/
def Conflicting (exts : List (PluginExtension H)) : Prop :=
  ∃ a ∈ exts, ∃ b ∈ exts, a.name ≠ b.name ∧ SharesHeader toLowerCase a b ∧
    ¬ Precedes a b ∧ ¬ Precedes b a

/-! ## Distinct names -/

theorem ByName.set_eq_ok {m m' : ByName H} {e : PluginExtension H} :
    m.set e = .ok m' ↔ e.name ∉ m.names ∧ m'.exts = m.exts ++ [e] := by
  unfold ByName.set
  split
  · next h => simp [h]
  · next h =>
    cases m'
    simp [h, eq_comm]

theorem foldlM_set_eq_ok {exts : List (PluginExtension H)} {m m' : ByName H} :
    exts.foldlM ByName.set m = .ok m' ↔ m'.exts = m.exts ++ exts := by
  induction exts generalizing m with
  | nil =>
    obtain ⟨exts', hdistinct'⟩ := m'
    cases m
    simp [pure, Except.pure, eq_comm]
  | cons e exts ih =>
    rw [List.foldlM_cons, Fallible.bind_eq_ok]
    constructor
    · rintro ⟨m'', hset, h⟩
      rw [ih, (ByName.set_eq_ok.mp hset).2, List.append_assoc] at h
      exact h
    · intro h
      have hdistinct := m'.distinct
      rw [h, List.map_append, List.nodup_append] at hdistinct
      have hnew : e.name ∉ m.names := fun hmem => hdistinct.2.2 e.name hmem e.name (by simp) rfl
      cases hset : m.set e with
      | error err => simp [ByName.set, hnew] at hset
      | ok m'' =>
        refine ⟨m'', rfl, ih.mpr ?_⟩
        rw [(ByName.set_eq_ok.mp hset).2, List.append_assoc]
        exact h

theorem byName_eq_ok {exts : List (PluginExtension H)} {m : ByName H} :
    byName exts = .ok m ↔ m.exts = exts := foldlM_set_eq_ok

theorem byName_cases (exts : List (PluginExtension H)) :
    (∃ e, byName exts = .error e ∧ Repeats exts) ∨ ∃ m, byName exts = .ok m ∧ m.exts = exts := by
  by_cases h : (exts.map PluginExtension.name).Nodup
  · exact .inr ⟨⟨exts, h⟩, byName_eq_ok.mpr rfl, rfl⟩
  · cases hm : byName exts with
    | error e => exact .inl ⟨e, rfl, h⟩
    | ok m => exact absurd (byName_eq_ok.mp hm ▸ m.distinct) h

/-! ## Names and extensions -/

namespace ByName

variable {m : ByName H}

theorem get?_name {e : PluginExtension H} (he : e ∈ m.exts) : m.get? e.name = some e := by
  have hsome : (m.get? e.name).isSome := by
    unfold get?
    rw [List.find?_isSome]
    exact ⟨e, he, by simp⟩
  obtain ⟨e', he'⟩ := Option.isSome_iff_exists.mp hsome
  have hname : e'.name = e.name := by simpa using List.find?_some he'
  rw [he', List.inj_on_of_nodup_map m.distinct (List.mem_of_find?_eq_some he') he hname]

theorem filterMap_names {exts : List (PluginExtension H)} (h : exts ⊆ m.exts) :
    (exts.map PluginExtension.name).filterMap m.get? = exts := by
  induction exts with
  | nil => rfl
  | cons e exts ih =>
    rw [List.cons_subset] at h
    rw [List.map_cons, List.filterMap_cons, get?_name h.1, ih h.2]

theorem length_filterMap {names : List JsString} (h : names ⊆ m.names) :
    (names.filterMap m.get?).length = names.length := by
  induction names with
  | nil => rfl
  | cons name names ih =>
    rw [List.cons_subset] at h
    obtain ⟨e, he, rfl⟩ := mem_names.mp h.1
    rw [List.filterMap_cons, get?_name he, List.length_cons, ih h.2, List.length_cons]

theorem edge_iff {a b : PluginExtension H} (ha : a ∈ m.exts) (hb : b ∈ m.exts) :
    m.graph.Edge a.name b.name ↔ Precedes a b := by
  show b.name ∈ m.edges a.name ↔ _
  rw [mem_edges]
  constructor
  · rintro ⟨a', ha', b', hb', haname, hbname, h⟩
    rw [← List.inj_on_of_nodup_map m.distinct ha' ha haname,
      ← List.inj_on_of_nodup_map m.distinct hb' hb hbname]
    exact h
  · intro h
    exact ⟨a, ha, b, hb, rfl, rfl, h⟩

theorem transGen_constraint {a : PluginExtension H} (ha : a ∈ m.exts) {v : JsString}
    (h : TransGen m.graph.Edge a.name v) :
    ∃ b ∈ m.exts, b.name = v ∧ TransGen (Constraint m.exts) a b := by
  induction h with
  | single hedge =>
    obtain ⟨_, _, b, hb, _, rfl, _⟩ := mem_edges.mp hedge
    exact ⟨b, hb, rfl, .single ⟨ha, hb, (edge_iff ha hb).mp hedge⟩⟩
  | tail _ hedge ih =>
    obtain ⟨b, hb, rfl, htrans⟩ := ih
    obtain ⟨_, _, c, hc, _, rfl, _⟩ := mem_edges.mp hedge
    exact ⟨c, hc, rfl, htrans.tail ⟨hb, hc, (edge_iff hb hc).mp hedge⟩⟩

theorem acyclic_iff : m.graph.Acyclic ↔ ¬ Cyclic m.exts := by
  constructor
  · rintro h ⟨a, ha⟩
    refine h a.name (ha.lift PluginExtension.name ?_)
    intro a b hab
    exact (edge_iff hab.1 hab.2.1).mpr hab.2.2
  · intro h v hv
    have hmem : v ∈ m.names := by
      cases hv with
      | single hedge => exact (m.graph.succ_mem v v hedge).1
      | tail _ hedge => exact (m.graph.succ_mem _ v hedge).2
    obtain ⟨a, ha, rfl⟩ := mem_names.mp hmem
    obtain ⟨b, hb, hname, htrans⟩ := transGen_constraint ha hv
    rw [List.inj_on_of_nodup_map m.distinct hb ha hname] at htrans
    exact h ⟨a, htrans⟩

theorem length_out_iff :
    ((order m.graph).filterMap m.get?).length = m.exts.length ↔ ¬ Cyclic m.exts := by
  rw [← acyclic_iff, ← length_order_iff, length_filterMap (order_subset m.graph)]
  show _ ↔ _ = (m.exts.map PluginExtension.name).length
  rw [List.length_map]

end ByName

/-! ## Conflicts -/

theorem headerOverlap_eq_nil {a b : PluginExtension H} :
    headerOverlap toLowerCase a b = [] ↔ ¬ SharesHeader toLowerCase a b := by
  unfold headerOverlap SharesHeader
  simp only [List.filter_eq_nil_iff, List.mem_map, decide_eq_true_eq]
  grind

theorem isDeclared_iff {a b : PluginExtension H} :
    isDeclared a b = true ↔ Precedes a b ∨ Precedes b a := by
  unfold isDeclared Precedes
  simp only [Bool.or_eq_true, decide_eq_true_eq]
  tauto

theorem conflictOf_eq_none {a b : PluginExtension H} :
    conflictOf toLowerCase a b = none ↔
      (SharesHeader toLowerCase a b → Precedes a b ∨ Precedes b a) := by
  unfold conflictOf
  rw [← isDeclared_iff]
  by_cases hshares : SharesHeader toLowerCase a b
  · rw [if_neg (by simpa [headerOverlap_eq_nil] using hshares)]
    by_cases hdeclared : isDeclared a b = true <;> simp [hshares, hdeclared]
  · rw [if_pos ((headerOverlap_eq_nil toLowerCase).mpr hshares)]
    simp [hshares]

theorem headerConflict?_eq_none {exts : List (PluginExtension H)} :
    headerConflict? toLowerCase exts = none ↔
      exts.Pairwise fun a b => conflictOf toLowerCase a b = none := by
  induction exts with
  | nil => simp [headerConflict?]
  | cons a rest ih =>
    rw [List.pairwise_cons, headerConflict?, Option.or_eq_none_iff, ih, List.findSome?_eq_none_iff]

theorem headerConflict?_eq_none_iff {exts : List (PluginExtension H)}
    (h : (exts.map PluginExtension.name).Nodup) :
    headerConflict? toLowerCase exts = none ↔ ¬ Conflicting toLowerCase exts := by
  have hsymm : Std.Symm fun a b : PluginExtension H =>
      SharesHeader toLowerCase a b → Precedes a b ∨ Precedes b a := by
    refine ⟨?_⟩
    rintro a b hab ⟨h, hh, k, hk, heq⟩
    exact (hab ⟨k, hk, h, hh, heq.symm⟩).symm
  rw [headerConflict?_eq_none]
  simp only [conflictOf_eq_none]
  constructor
  · rintro hall ⟨a, ha, b, hb, hne, hshares, hab, hba⟩
    have hdeclared := hall.forall ha hb (fun heq => hne (heq ▸ rfl)) hshares
    exact hdeclared.elim hab hba
  · intro hnone
    refine (List.Nodup.of_map _ h).pairwise_of_forall_ne ?_
    intro a ha b hb hne hshares
    by_contra hdeclared
    rw [not_or] at hdeclared
    refine hnone ⟨a, ha, b, hb, ?_, hshares, hdeclared⟩
    intro hname
    exact hne (List.inj_on_of_nodup_map h ha hb hname)

/-! ## The sort -/

theorem topoSortExtensions_ok {exts out : List (PluginExtension H)}
    (h : topoSortExtensions toLowerCase exts = .ok out) :
    out.Perm exts ∧ ∀ a b, Constraint exts a b → [a, b].Sublist out := by
  obtain ⟨m, hm, h⟩ := Fallible.bind_eq_ok.mp h
  obtain rfl := byName_eq_ok.mp hm
  rw [Fallible.check_eq_ok, not_not, ByName.length_out_iff] at h
  obtain ⟨hacyclic, h⟩ := h
  split at h
  · cases h
  · cases h
    have hlength : (order m.graph).length = m.graph.nodes.length :=
      (length_order_iff m.graph).mpr (ByName.acyclic_iff.mpr hacyclic)
    have hperm := order_perm hlength
    constructor
    · have hmap := hperm.filterMap m.get?
      rw [show m.graph.nodes.filterMap m.get? = m.exts from
        ByName.filterMap_names (List.Subset.refl m.exts)] at hmap
      exact hmap
    · rintro a b ⟨ha, hb, hab⟩
      have hedge := (ByName.edge_iff ha hb).mpr hab
      have hmem : b.name ∈ order m.graph := hperm.mem_iff.mpr (ByName.mem_names.mpr ⟨b, hb, rfl⟩)
      have hpair := (sublist_order (TransGen.single hedge) hmem).filterMap m.get?
      rw [List.filterMap_cons, ByName.get?_name ha, List.filterMap_cons, ByName.get?_name hb] at hpair
      exact hpair

theorem topoSortExtensions_refused (exts : List (PluginExtension H)) :
    (∃ e, topoSortExtensions toLowerCase exts = .error e) ↔
      Repeats exts ∨ Cyclic exts ∨ Conflicting toLowerCase exts := by
  unfold topoSortExtensions
  cases byName_cases exts with
  | inl h =>
    obtain ⟨e, he, hrepeats⟩ := h
    rw [he]
    exact ⟨fun _ => .inl hrepeats, fun _ => ⟨e, rfl⟩⟩
  | inr h =>
    obtain ⟨m, hm, rfl⟩ := h
    have hdistinct : ¬ Repeats m.exts := not_not.mpr m.distinct
    rw [hm]
    rw [or_iff_right hdistinct]
    simp only [bind, Except.bind]
    by_cases hcyclic : Cyclic m.exts
    · rw [if_pos (fun hlength => ByName.length_out_iff.mp hlength hcyclic)]
      exact ⟨fun _ => .inl hcyclic, fun _ => ⟨_, rfl⟩⟩
    · rw [if_neg (not_not.mpr (ByName.length_out_iff.mpr hcyclic)), or_iff_right hcyclic]
      have hconflict := headerConflict?_eq_none_iff toLowerCase m.distinct
      cases hfound : headerConflict? toLowerCase m.exts with
      | none => simpa [hfound] using hconflict
      | some e => simpa [hfound] using hconflict

end Sorting

end Daloy.App.Extensions
