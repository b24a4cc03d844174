import Mathlib.Data.List.Nodup
import Mathlib.Data.List.Sort
import Mathlib.Order.Compare
import PatchTyping.FeedbackCycles
import PatchTyping.Proofs.ComponentSearches

/-!
# What the cycle reports say

A cycle is reported for every node that can be reached from itself, with all nodes that can be reached
from it and reach it. It is illegal when one of them can be reached from itself without ever entering a
block that reads the previous frame.
-/

namespace PatchTyping

open Relation

theorem compare_eq_lt_iff {u v : NodeId} : compare u v = .lt ↔ u < v :=
  Batteries.compareOfLessAndEq_eq_lt

/-! ## Mutual reachability -/

section Mutual

variable {A : Type} {R S : A → A → Prop} {P : A → Prop} {root : A}

/-- Any member of a component will do in place of the one it was found from. -/
theorem mutual_iff_of_mem (hP : ∀ w, P w ↔ ReflTransGen R root w ∧ ReflTransGen R w root) {u v : A}
    (hu : P u) : P v ↔ ReflTransGen R u v ∧ ReflTransGen R v u := by
  obtain ⟨hru, hur⟩ := (hP u).mp hu
  rw [hP v]
  constructor
  · rintro ⟨hrv, hvr⟩
    exact ⟨hur.trans hrv, hvr.trans hru⟩
  · rintro ⟨huv, hvu⟩
    exact ⟨hru.trans huv, hvu.trans hur⟩

/-- A way back to where it started stays among the nodes that lead to and from there. -/
theorem transGen_within {v w : A} (hP : ∀ x, ReflTransGen R v x → ReflTransGen R x v → P x)
    (hvw : TransGen R v w) (hwv : ReflTransGen R w v) :
    TransGen (fun a b => P a ∧ P b ∧ R a b) v w := by
  induction hvw with
  | single h => exact .single ⟨hP v .refl .refl, hP _ (.single h) hwv, h⟩
  | tail hvb hbc ih =>
    have hbv := hwv.head hbc
    exact (ih hbv).tail ⟨hP _ hvb.to_reflTransGen hbv, hP _ (hvb.to_reflTransGen.tail hbc) hwv, hbc⟩

/-- So a component loses none of its cycles when it is looked at alone. -/
theorem exists_transGen_within_iff
    (hP : ∀ w, P w ↔ ReflTransGen R root w ∧ ReflTransGen R w root) (hSR : ∀ a b, S a b → R a b) :
    (∃ v, TransGen (fun a b => P a ∧ P b ∧ S a b) v v) ↔ ∃ v, P v ∧ TransGen S v v := by
  constructor
  · rintro ⟨v, hv⟩
    obtain ⟨w, hvw, -⟩ := TransGen.head'_iff.mp hv
    exact ⟨v, hvw.1, TransGen.mono (fun _ _ h => h.2.2) _ _ hv⟩
  · rintro ⟨v, hv, hpath⟩
    have hlift : ∀ {a b}, ReflTransGen S a b → ReflTransGen R a b :=
      fun h => ReflTransGen.mono hSR _ _ h
    refine ⟨v, transGen_within (fun x hvx hxv => (mutual_iff_of_mem hP hv).mpr ?_) hpath .refl⟩
    exact ⟨hlift hvx, hlift hxv⟩

end Mutual

/-! ## Components of a successor map -/

section Components

variable {succ : SuccessorMap} {c d : List NodeId} {u v : NodeId}

theorem SuccessorMap.Components.mem_iff {cs : List (List NodeId)}
    (h : succ.Components cs) (hc : c ∈ cs) (hu : u ∈ c) :
    v ∈ c ↔ succ.Reaches u v ∧ succ.Reaches v u := by
  induction cs with
  | nil => simp at hc
  | cons d ds ih =>
    obtain ⟨-, ⟨root, -, hroot⟩, -, -, hds⟩ := h
    rcases List.mem_cons.mp hc with rfl | hc
    · exact mutual_iff_of_mem hroot hu
    · exact ih hds hc

theorem components_run (succ : SuccessorMap) : succ.Components (ComponentSearch.run succ).closed :=
  (ComponentSearch.run_spec succ).1.components

theorem mem_strongComponent_iff (hc : c ∈ strongComponents succ) (hu : u ∈ c) :
    v ∈ c ↔ succ.Reaches u v ∧ succ.Reaches v u :=
  (components_run succ).mem_iff (List.mem_reverse.mp hc) hu

theorem exists_strongComponent (hv : v ∈ succ.occurring) : ∃ c ∈ strongComponents succ, v ∈ c := by
  obtain ⟨hsound, hkeys⟩ := ComponentSearch.run_spec succ
  have hmet : v ∈ (ComponentSearch.run succ).numbers := by
    rcases List.mem_append.mp hv with hv | hv
    · exact hkeys v hv
    · obtain ⟨u, hu, huv⟩ := List.mem_flatMap.mp hv
      exact hsound.scanned u (hkeys u hu) List.not_mem_nil v (SuccessorMap.mem_targets_iff.mp huv)
  rcases (hsound.met_iff v).mp hmet with hopen | ⟨c, hc, hvc⟩
  · rw [hsound.stack_eq_nil] at hopen
    simp at hopen
  · exact ⟨c, List.mem_reverse.mpr hc, hvc⟩

theorem SuccessorMap.Components.ordered {cs : List (List NodeId)} (h : succ.Components cs)
    (hc : c ∈ cs) : c.Pairwise fun a b => compare a b = .lt := by
  induction cs with
  | nil => simp at hc
  | cons d ds ih =>
    obtain ⟨hd, -, -, -, hds⟩ := h
    rcases List.mem_cons.mp hc with rfl | hc
    · exact hd
    · exact ih hds hc

theorem ordered_strongComponent (hc : c ∈ strongComponents succ) :
    c.Pairwise fun a b => compare a b = .lt :=
  (components_run succ).ordered (List.mem_reverse.mp hc)

theorem SuccessorMap.Components.nonempty {cs : List (List NodeId)}
    (h : succ.Components cs) (hc : c ∈ cs) : ∃ v, v ∈ c := by
  induction cs with
  | nil => simp at hc
  | cons d ds ih =>
    obtain ⟨-, ⟨root, hroot, -⟩, -, -, hds⟩ := h
    rcases List.mem_cons.mp hc with rfl | hc
    · exact ⟨root, hroot⟩
    · exact ih hds hc

theorem eq_of_ordered (hc : c.Pairwise fun a b => compare a b = .lt)
    (hd : d.Pairwise fun a b => compare a b = .lt) (hmem : ∀ v, v ∈ c ↔ v ∈ d) : c = d := by
  have hirrefl : Std.Irrefl fun a b : NodeId => compare a b = .lt :=
    ⟨fun a => by simp [Std.ReflOrd.compare_self]⟩
  have hanti : Std.Antisymm fun a b : NodeId => compare a b = .lt :=
    ⟨fun a b hab hba => by simp [Std.OrientedCmp.gt_iff_lt.mpr hba] at hab⟩
  exact hc.eq_of_mem_iff hd hmem

theorem nodup_of_ordered (hc : c.Pairwise fun a b => compare a b = .lt) : c.Nodup :=
  hc.imp fun hlt heq => by simp [heq, Std.ReflOrd.compare_self] at hlt

theorem one_lt_length_iff (hnodup : c.Nodup) (hv : v ∈ c) : 1 < c.length ↔ ∃ w ∈ c, w ≠ v := by
  constructor
  · intro hlength
    by_contra hall
    push Not at hall
    have hle := (List.subperm_of_subset hnodup fun w hw => List.mem_singleton.mpr (hall w hw)).length_le
    exact absurd hlength (Nat.not_lt.mpr hle)
  · rintro ⟨w, hw, hne⟩
    have hpair : [v, w].Nodup := by simp [hne.symm]
    have hle := (List.subperm_of_subset hpair (show [v, w] ⊆ c by simp [hv, hw])).length_le
    exact hle

/-- The cyclic components are the components of the nodes that can be reached from themselves. -/
theorem mem_cyclicComponents_iff : c ∈ cyclicComponents succ ↔
    (c.Pairwise fun a b => compare a b = .lt) ∧
      ∃ v, TransGen succ.Leads v v ∧ ∀ w, w ∈ c ↔ succ.Reaches v w ∧ succ.Reaches w v := by
  have hcyclic : (decide (1 < c.length) || c.any fun v => (succ.targets v).contains v) = true ↔
      1 < c.length ∨ ∃ v ∈ c, succ.Leads v v := by
    simp [SuccessorMap.mem_targets_iff]
  rw [cyclicComponents, List.mem_filter, hcyclic]
  constructor
  · rintro ⟨hc, hlength | ⟨v, hv, hself⟩⟩
    · have hordered := ordered_strongComponent hc
      obtain ⟨v, hv⟩ := (components_run succ).nonempty (List.mem_reverse.mp hc)
      obtain ⟨w, hw, hne⟩ := (one_lt_length_iff (nodup_of_ordered hordered) hv).mp hlength
      obtain ⟨hvw, hwv⟩ := (mem_strongComponent_iff hc hv).mp hw
      have hpath := (reflTransGen_iff_eq_or_transGen.mp hvw).resolve_left hne
      exact ⟨hordered, v, hpath.trans_left hwv, fun x => mem_strongComponent_iff hc hv⟩
    · exact ⟨ordered_strongComponent hc, v, .single hself, fun x => mem_strongComponent_iff hc hv⟩
  · rintro ⟨hordered, v, hloop, hmem⟩
    obtain ⟨w, hvw, hwv⟩ := TransGen.head'_iff.mp hloop
    obtain ⟨d, hd, hvd⟩ :=
      exists_strongComponent (SuccessorMap.mem_occurring_of_leads hvw).1
    have hcd : d = c := eq_of_ordered (ordered_strongComponent hd) hordered fun x =>
      (mem_strongComponent_iff hd hvd).trans (hmem x).symm
    refine ⟨hcd ▸ hd, ?_⟩
    by_cases hwv' : w = v
    · exact .inr ⟨v, (hmem v).mpr ⟨.refl, .refl⟩, hwv' ▸ hvw⟩
    · exact .inl ((one_lt_length_iff (nodup_of_ordered hordered)
        ((hmem v).mpr ⟨.refl, .refl⟩)).mpr ⟨w, (hmem w).mpr ⟨.single hvw, hwv⟩, hwv'⟩)

theorem exists_cyclicComponent_iff :
    (∃ c, c ∈ cyclicComponents succ) ↔ ∃ v, TransGen succ.Leads v v := by
  constructor
  · rintro ⟨c, hc⟩
    obtain ⟨-, v, hv, -⟩ := mem_cyclicComponents_iff.mp hc
    exact ⟨v, hv⟩
  · rintro ⟨v, hv⟩
    obtain ⟨w, hvw, -⟩ := TransGen.head'_iff.mp hv
    obtain ⟨c, hc, hvc⟩ := exists_strongComponent (SuccessorMap.mem_occurring_of_leads hvw).1
    exact ⟨c, mem_cyclicComponents_iff.mpr
      ⟨ordered_strongComponent hc, v, hv, fun w => mem_strongComponent_iff hc hvc⟩⟩

end Components

/-! ## The successor maps of a patch -/

namespace Patch

/-- An edge between two nodes of the patch leads from the one to the other. -/
def Leads (g : Patch) (u v : NodeId) : Prop :=
  u ∈ g.nodes ∧ v ∈ g.nodes ∧
    ∃ (id : EdgeId) (e : Edge), g.edges[id]? = some e ∧ e.source.node = u ∧ e.target.node = v

/-- The edge carries values within a frame. -/
def LeadsAtOnce (g : Patch) (catalog : Catalog) (u v : NodeId) : Prop :=
  g.Leads u v ∧ g.readsPreviousFrame catalog v = false

end Patch

namespace SuccessorMap

theorem leads_modify {succ : SuccessorMap} {a b u v : NodeId} :
    Leads (succ.modify a (·.insert b)) u v ↔ succ.Leads u v ∨ (a ∈ succ ∧ u = a ∧ v = b) := by
  simp only [Leads, Std.ExtTreeMap.getElem?_modify, Std.LawfulEqCmp.compare_eq_iff_eq]
  by_cases ha : a = u
  · subst ha
    cases hs : succ[a]? with
    | none =>
      have : a ∉ succ := fun h => by
        rw [Std.ExtTreeMap.mem_iff_isSome_getElem?, hs] at h
        cases h
      simp [this]
    | some out =>
      have : a ∈ succ := by
        rw [Std.ExtTreeMap.mem_iff_isSome_getElem?, hs]
        rfl
      simp [this, Std.ExtTreeSet.mem_insert, or_comm, eq_comm (a := b)]
  · simp [ha, Ne.symm ha]

theorem leads_restrict {succ : SuccessorMap} {members : Std.ExtTreeSet NodeId} {u v : NodeId} :
    (succ.restrict members).Leads u v ↔ u ∈ members ∧ v ∈ members ∧ succ.Leads u v := by
  simp only [Leads, restrict, Std.ExtTreeMap.getElem?_map, Std.ExtTreeMap.getElem?_filter']
  cases succ[u]? with
  | none => simp
  | some out =>
    by_cases hu : u ∈ members
    · simp [Option.filter, hu, Std.ExtTreeSet.mem_filter, and_comm]
    · simp [Option.filter, hu]

end SuccessorMap

namespace Patch

variable {g : Patch} {catalog : Catalog} {u v : NodeId}

/-- The edge counts and leads from `u` to `v`. -/
def Joins (g : Patch) (keep : Edge → Bool) (e : Edge) (u v : NodeId) : Prop :=
  v ∈ g.nodes ∧ e.source.node = u ∧ e.target.node = v ∧ keep e = true

/-- What one edge adds to the successors. -/
def addStep (g : Patch) (keep : Edge → Bool) (succ : SuccessorMap) (x : EdgeId × Edge) :
    SuccessorMap :=
  if g.nodes.contains x.2.target.node && keep x.2 then
    succ.modify x.2.source.node (·.insert x.2.target.node)
  else succ

theorem mem_addStep {keep : Edge → Bool} {succ : SuccessorMap} {x : EdgeId × Edge} :
    u ∈ g.addStep keep succ x ↔ u ∈ succ := by
  unfold addStep
  split
  · exact Std.ExtTreeMap.mem_modify
  · rfl

theorem leads_addStep {keep : Edge → Bool} {succ : SuccessorMap} {x : EdgeId × Edge} :
    (g.addStep keep succ x).Leads u v ↔ succ.Leads u v ∨ (u ∈ succ ∧ g.Joins keep x.2 u v) := by
  unfold addStep Joins
  split
  · rename_i hx
    rw [Bool.and_eq_true, ← Std.ExtTreeMap.mem_iff_contains] at hx
    rw [SuccessorMap.leads_modify]
    refine or_congr_right ⟨?_, ?_⟩
    · rintro ⟨hmem, rfl, rfl⟩
      exact ⟨hmem, hx.1, rfl, rfl, hx.2⟩
    · rintro ⟨hmem, -, rfl, rfl, -⟩
      exact ⟨hmem, rfl, rfl⟩
  · rename_i hx
    rw [Bool.and_eq_true, ← Std.ExtTreeMap.mem_iff_contains] at hx
    refine ⟨.inl, ?_⟩
    rintro (h | ⟨-, hv, -, rfl, hkeep⟩)
    · exact h
    · exact absurd ⟨hv, hkeep⟩ hx

theorem leads_foldl_addStep (keep : Edge → Bool) (l : List (EdgeId × Edge)) (succ : SuccessorMap) :
    (l.foldl (g.addStep keep) succ).Leads u v ↔
      succ.Leads u v ∨ (u ∈ succ ∧ ∃ x ∈ l, g.Joins keep x.2 u v) := by
  induction l generalizing succ with
  | nil => simp
  | cons x l ih =>
    rw [List.foldl_cons, ih, leads_addStep, mem_addStep]
    simp only [List.mem_cons, exists_eq_or_imp]
    tauto

theorem leads_successors {keep : Edge → Bool} : (g.successors keep).Leads u v ↔
    u ∈ g.nodes ∧ ∃ (id : EdgeId) (e : Edge), g.edges[id]? = some e ∧ g.Joins keep e u v := by
  have hinit : ∀ u v, ¬ SuccessorMap.Leads
      (Std.ExtTreeMap.ofList (g.nodes.keys.map fun id => (id, (∅ : Std.ExtTreeSet NodeId)))) u v := by
    intro u v h
    obtain ⟨out, hout, hv⟩ := h
    obtain ⟨id, -, hid⟩ := List.mem_map.mp (OrderedMaps.mem_of_getElem?_ofList hout)
    cases hid
    simp at hv
  have hkeys : u ∈ (Std.ExtTreeMap.ofList
      (g.nodes.keys.map fun id => (id, (∅ : Std.ExtTreeSet NodeId))) : SuccessorMap) ↔
      u ∈ g.nodes := by
    simp [Std.ExtTreeMap.mem_ofList]
  change (g.edges.toList.foldl (g.addStep keep) _).Leads u v ↔ _
  rw [leads_foldl_addStep, hkeys, or_iff_right (hinit u v)]
  simp [Std.ExtTreeMap.mem_toList_iff_getElem?_eq_some]

theorem leads_successors_all : (g.successors fun _ => true).Leads = g.Leads := by
  funext u v
  rw [leads_successors, eq_iff_iff]
  simp only [Joins, Leads]
  tauto

theorem leads_instantaneous : (g.instantaneous catalog).Leads = g.LeadsAtOnce catalog := by
  funext u v
  rw [instantaneous, leads_successors, eq_iff_iff]
  simp only [Joins, LeadsAtOnce, Leads]
  constructor
  · rintro ⟨hu, id, e, he, hv, hsource, rfl, hkeep⟩
    exact ⟨⟨hu, hv, id, e, he, hsource, rfl⟩, by simpa using hkeep⟩
  · rintro ⟨⟨hu, hv, id, e, he, hsource, rfl⟩, hkeep⟩
    exact ⟨hu, id, e, he, hv, hsource, rfl, by simpa using hkeep⟩

/-! ## The reports -/

/-- What a report says about the patch. -/
structure Reports (g : Patch) (catalog : Catalog) (r : CycleReport) : Prop where
  ordered : r.nodes.Pairwise fun a b => compare a b = .lt
  component : ∃ v, TransGen g.Leads v v ∧
    ∀ w, w ∈ r.nodes ↔ ReflTransGen g.Leads v w ∧ ReflTransGen g.Leads w v
  illegal_iff : r.cycleClass = .illegalInstantaneous ↔
    ∃ v ∈ r.nodes, TransGen (g.LeadsAtOnce catalog) v v

namespace Reports

variable {r r' : CycleReport}

theorem mem_iff (h : g.Reports catalog r) (hu : u ∈ r.nodes) :
    v ∈ r.nodes ↔ ReflTransGen g.Leads u v ∧ ReflTransGen g.Leads v u := by
  obtain ⟨root, -, hroot⟩ := h.component
  exact mutual_iff_of_mem hroot hu

theorem ext (h : g.Reports catalog r) (h' : g.Reports catalog r')
    (hmem : ∀ v, v ∈ r.nodes ↔ v ∈ r'.nodes) : r = r' := by
  have hnodes : r.nodes = r'.nodes := eq_of_ordered h.ordered h'.ordered hmem
  have hclass : r.cycleClass = .illegalInstantaneous ↔ r'.cycleClass = .illegalInstantaneous := by
    rw [h.illegal_iff, h'.illegal_iff, hnodes]
  obtain ⟨nodes, class₁⟩ := r
  obtain ⟨nodes', class₂⟩ := r'
  cases hnodes
  cases class₁ <;> cases class₂ <;> simp_all

/-- Two reports do not overlap. -/
theorem eq_of_mem (h : g.Reports catalog r) (h' : g.Reports catalog r') (hv : v ∈ r.nodes)
    (hv' : v ∈ r'.nodes) : r = r' :=
  h.ext h' fun _ => (h.mem_iff hv).trans (h'.mem_iff hv').symm

theorem mem_nodes (h : g.Reports catalog r) (hv : v ∈ r.nodes) : v ∈ g.nodes := by
  obtain ⟨root, hloop, hroot⟩ := h.component
  rcases reflTransGen_iff_eq_or_transGen.mp ((hroot v).mp hv).1 with rfl | hpath
  · obtain ⟨w, hvw, -⟩ := TransGen.head'_iff.mp hloop
    exact hvw.1
  · obtain ⟨w, -, hwv⟩ := TransGen.tail'_iff.mp hpath
    exact hwv.2.1

theorem nonempty (h : g.Reports catalog r) : ∃ v ∈ r.nodes, TransGen g.Leads v v := by
  obtain ⟨root, hloop, hroot⟩ := h.component
  exact ⟨root, (hroot root).mpr ⟨.refl, .refl⟩, hloop⟩

end Reports

variable {r : CycleReport} {c : List NodeId}

theorem reports_reportCycle (catalog : Catalog)
    (hc : c ∈ cyclicComponents (g.successors fun _ => true)) :
    g.Reports catalog (reportCycle (g.instantaneous catalog) c) := by
  obtain ⟨hordered, root, hloop, hroot⟩ := mem_cyclicComponents_iff.mp hc
  simp only [SuccessorMap.Reaches, leads_successors_all] at hloop hroot
  refine ⟨hordered, ⟨root, hloop, hroot⟩, ?_⟩
  have hrestrict : ((g.instantaneous catalog).restrict (.ofList c)).Leads =
      fun u v => u ∈ c ∧ v ∈ c ∧ g.LeadsAtOnce catalog u v := by
    funext u v
    rw [SuccessorMap.leads_restrict, leads_instantaneous, Std.ExtTreeSet.mem_ofList,
      Std.ExtTreeSet.mem_ofList, List.contains_iff_mem, List.contains_iff_mem]
  have hclass : (reportCycle (g.instantaneous catalog) c).cycleClass = .illegalInstantaneous ↔
      ∃ d, d ∈ cyclicComponents ((g.instantaneous catalog).restrict (.ofList c)) := by
    cases hl : cyclicComponents ((g.instantaneous catalog).restrict (.ofList c)) <;>
      simp [reportCycle, hl]
  rw [hclass, exists_cyclicComponent_iff, hrestrict, exists_transGen_within_iff hroot fun _ _ h => h.1]
  rfl

/-- A cyclic component is found through its smallest member. -/
theorem mem_cycles : r ∈ g.cycles catalog ↔ ∃ c ∈ cyclicComponents (g.successors fun _ => true),
    reportCycle (g.instantaneous catalog) c = r := by
  unfold cycles
  simp only [List.mem_filterMap, Option.map_eq_some_iff]
  constructor
  · rintro ⟨id, -, c, hfind, rfl⟩
    exact ⟨c, List.mem_of_find?_eq_some hfind, rfl⟩
  · rintro ⟨c, hc, rfl⟩
    have hreport := reports_reportCycle catalog hc
    obtain ⟨v, hv, -⟩ := hreport.nonempty
    obtain ⟨id, hid⟩ : ∃ id, c.head? = some id :=
      Option.isSome_iff_exists.mp (List.isSome_head?.mpr (List.ne_nil_of_mem hv))
    have hidc : id ∈ c := List.mem_of_mem_head? hid
    refine ⟨id, Std.ExtTreeMap.mem_keys.mpr (hreport.mem_nodes hidc), c, ?_, rfl⟩
    cases hfind : (cyclicComponents (g.successors fun _ => true)).find? fun c => c.head? = some id with
    | none => exact absurd (List.find?_eq_none.mp hfind c hc) (by simp [hid])
    | some d =>
      have hd := List.mem_of_find?_eq_some hfind
      have hidd : id ∈ d := List.mem_of_mem_head? (by simpa using List.find?_some hfind)
      have hsame : d = c := eq_of_ordered (mem_cyclicComponents_iff.mp hd).1
        (mem_cyclicComponents_iff.mp hc).1 fun w =>
          (mem_strongComponent_iff (List.mem_of_mem_filter hd) hidd).trans
            (mem_strongComponent_iff (List.mem_of_mem_filter hc) hidc).symm
      rw [hsame]

/-- The cycles of a patch are all that can be said in a report. -/
theorem mem_cycles_iff : r ∈ g.cycles catalog ↔ g.Reports catalog r := by
  rw [mem_cycles]
  constructor
  · rintro ⟨c, hc, rfl⟩
    exact reports_reportCycle catalog hc
  · intro h
    obtain ⟨root, hloop, hroot⟩ := h.component
    have hc : r.nodes ∈ cyclicComponents (g.successors fun _ => true) := by
      refine mem_cyclicComponents_iff.mpr ⟨h.ordered, root, ?_, fun w => ?_⟩
      · rwa [leads_successors_all]
      · rw [SuccessorMap.Reaches, leads_successors_all, hroot]
    exact ⟨_, hc, (reports_reportCycle catalog hc).ext h fun w => .rfl⟩

/-- The reports come in the order of their smallest members, which no two of them share. -/
theorem cycles_ascending (g : Patch) (catalog : Catalog) :
    (g.cycles catalog).Pairwise fun r r' => r.nodes < r'.nodes := by
  refine List.pairwise_filterMap.mpr (g.nodes.ordered_keys.imp fun hlt r hr r' hr' => ?_)
  have hhead : ∀ {id : NodeId} {r : CycleReport}, Option.map (reportCycle (g.instantaneous catalog))
      ((cyclicComponents (g.successors fun _ => true)).find? fun c => c.head? = some id) = some r →
      ∃ rest, r.nodes = id :: rest := by
    intro id r hr
    obtain ⟨c, hc, rfl⟩ := Option.map_eq_some_iff.mp hr
    have hhead : c.head? = some id := by simpa using List.find?_some hc
    exact List.head?_eq_some_iff.mp hhead
  obtain ⟨rest, hnodes⟩ := hhead hr
  obtain ⟨rest', hnodes'⟩ := hhead hr'
  rw [hnodes, hnodes']
  exact List.cons_lt_cons_iff.mpr (.inl (compare_eq_lt_iff.mp hlt))

theorem nodup_cycles (g : Patch) (catalog : Catalog) : (g.cycles catalog).Nodup := by
  refine (cycles_ascending g catalog).imp fun hlt heq => ?_
  rw [heq] at hlt
  exact List.lt_irrefl _ hlt

end Patch

end PatchTyping
