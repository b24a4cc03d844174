import PatchTyping.Proofs.SplicedConstraints
import PatchTyping.Proofs.SweepAgreement

/-!
# Cardinalities after splicing

The ports of an adapter are equated with each other and with the ends of the edge it replaces, so they
join a class that is there already. Groups, pins and held back members are those of the patch before.
Inference therefore finds the same cardinalities for all ports that were there.
-/

namespace PatchTyping

open ValuedPartition CardinalityInference Relation

namespace ConstraintSet

/-- A constraint that is a broadcast group. -/
private def groupOf? : CardinalityConstraint → Option BroadcastGroup
  | .zipBroadcast node members => some ⟨node, members⟩
  | _ => none

private theorem broadcastGroups_eq (s : ConstraintSet) :
    s.broadcastGroups = s.cardinality.filterMap groupOf? := rfl

private theorem filterMap_declaredCardinalities (node : NodeId) (infos : List (PortKey × PortInfo)) :
    (declaredCardinalities node ∅ infos).filterMap groupOf? = [] := by
  apply List.filterMap_eq_nil_iff.mpr
  intro c hc
  rcases mem_declaredCardinalities hc with ⟨_, _, _, _, rfl⟩ | ⟨_, _, _, _, _, rfl, _⟩
  · rfl
  · rfl

/-- The groups of a node. -/
private def groupsOf (catalog : Catalog) (ports : PortTable) (x : NodeId × Node) :
    List BroadcastGroup :=
  match catalog.lookup? x.2.block with
  | some b => (b.templates.flatMap (ports.templateCardinality x.1)).filterMap groupOf?
  | none => []

private theorem broadcastGroups_eq_flatMap (g : Patch) (catalog : Catalog) :
    (g.constraints catalog).broadcastGroups =
      g.nodes.toList.flatMap (groupsOf catalog (g.portTable catalog)) := by
  have hpairs : ((g.edgePairs (g.portTable catalog)).map fun p =>
      CardinalityConstraint.equal p.source p.target (.edge p.edge)).filterMap groupOf? = [] := by
    apply List.filterMap_eq_nil_iff.mpr
    intro c hc
    obtain ⟨p, -, rfl⟩ := List.mem_map.mp hc
    rfl
  rw [broadcastGroups_eq, Patch.constraints, Patch.cardinalityConstraints, List.filterMap_append,
    hpairs, List.append_nil, List.filterMap_flatMap, Patch.knownNodes]
  induction g.nodes.toList with
  | nil => rfl
  | cons x l ih =>
    rw [List.flatMap_cons, ← ih, groupsOf]
    cases hb : catalog.lookup? x.2.block with
    | none => simp [hb]
    | some b => simp [hb, filterMap_declaredCardinalities]

end ConstraintSet

namespace Patch.Rerouted

variable {catalog : Catalog} {g g' : Patch} {rs : List Replacement} {types : PortTyping}
  (h : Rerouted catalog types g g' rs)
include h

/-- What adapters add to the constraints of nodes is that their two ports have the same cardinality. -/
theorem mem_cardinality_spliced_iff {c : CardinalityConstraint} :
    c ∈ (g'.constraints catalog).cardinality ↔
      (∃ id n b, g.Instantiates catalog id n b ∧
        (c ∈ declaredCardinalities id ∅ (n.portInfos id b) ∨
          ∃ t ∈ b.templates, c ∈ (g.portTable catalog).templateCardinality id t)) ∨
      (∃ r ∈ rs, c = .equal r.input r.output (.template r.id)) ∨
      ∃ p ∈ g'.edgePairs (g'.portTable catalog), c = .equal p.source p.target (.edge p.edge) := by
  have hsame : ∀ {id : NodeId} {n : Node} {b : Block}, g.Instantiates catalog id n b → ∀ t,
      (g'.portTable catalog).templateCardinality id t =
        (g.portTable catalog).templateCardinality id t := by
    intro id n b hi t
    have hid : id ∈ g.nodes := Std.ExtTreeMap.mem_iff_isSome_getElem?.mpr (by simp [hi.1])
    apply PortTable.templateCardinality_congr
    rintro k rfl
    exact h.spliced.getElem?_portTable h.built hid
  rw [mem_cardinality_iff, ← or_assoc]
  refine or_congr_left ?_
  constructor
  · rintro ⟨id, n, b, hi, hmem⟩
    rcases h.instantiates_cases hi with hold | ⟨r, hr, rfl, rfl⟩
    · simp only [hsame hold] at hmem
      exact .inl ⟨id, n, b, hold, hmem⟩
    · obtain ⟨b', s, t, hi', hnil, ⟨⟨v, hv, hv'⟩, -, -⟩, hinfos⟩ := h.exists_adapter hr
      cases hi.2.symm.trans hi'.2
      refine .inr ⟨r, hr, ?_⟩
      simpa [hinfos, hnil, declaredCardinalities, hv, hv'] using hmem
  · rintro (⟨id, n, b, hi, hmem⟩ | ⟨r, hr, rfl⟩)
    · have hid : id ∈ g.nodes := Std.ExtTreeMap.mem_iff_isSome_getElem?.mpr (by simp [hi.1])
      simp only [← hsame hi] at hmem
      exact ⟨id, n, b, (h.spliced.instantiates_iff hid n b).mpr hi, hmem⟩
    · obtain ⟨b, s, t, hi, -, ⟨⟨v, hv, hv'⟩, -, -⟩, hinfos⟩ := h.exists_adapter hr
      refine ⟨r.id, r.node, b, hi, .inl ?_⟩
      simp [hinfos, declaredCardinalities, hv, hv']

theorem fixed_mem_spliced_iff {k : PortKey} {c : Cardinality} :
    .fixed k c ∈ (g'.constraints catalog).cardinality ↔
      .fixed k c ∈ (g.constraints catalog).cardinality := by
  rw [h.mem_cardinality_spliced_iff, mem_cardinality_iff]
  constructor
  · rintro (hnode | ⟨r, -, heq⟩ | ⟨p, -, heq⟩)
    · exact .inl hnode
    · cases heq
    · cases heq
  · rintro (hnode | ⟨p, -, heq⟩)
    · exact .inl hnode
    · cases heq

theorem heldBack_eq {k : PortKey} (hk : k.node ∈ g.nodes) (c : Cardinality) :
    (g'.constraints catalog).heldBack k c = (g.constraints catalog).heldBack k c := by
  have hports : (g'.constraints catalog).ports[k]? = (g.constraints catalog).ports[k]? :=
    h.spliced.getElem?_portTable h.built hk
  rw [ConstraintSet.heldBack, ConstraintSet.heldBack, hports]

omit h in
private theorem node_mem_of_port {k : PortKey} (hk : k ∈ (g.constraints catalog).ports) :
    k.node ∈ g.nodes := by
  obtain ⟨info, hinfo⟩ := Option.isSome_iff_exists.mp
    (Std.ExtTreeMap.mem_iff_isSome_getElem?.mp hk)
  exact node_mem_of_portTable hinfo

omit h in
private theorem node_mem_of_fixed (hc : catalog.Built) {k : PortKey} {c : Cardinality}
    (hk : .fixed k c ∈ (g.constraints catalog).cardinality) : k.node ∈ g.nodes :=
  node_mem_of_port ((constraints_closed hc).fixed_mem k c hk)

theorem holds_mem_spliced_iff {k : PortKey} {c : Cardinality} :
    .holds k c ∈ (g'.constraints catalog).demands ↔ .holds k c ∈ (g.constraints catalog).demands := by
  rw [ConstraintSet.holds_mem_demands_iff, ConstraintSet.holds_mem_demands_iff,
    h.fixed_mem_spliced_iff]
  refine and_congr_right fun hk => ?_
  rw [h.heldBack_eq (node_mem_of_fixed h.built hk)]

theorem pendingPorts_eq :
    (g'.constraints catalog).pendingPorts = (g.constraints catalog).pendingPorts := by
  apply Std.ExtTreeSet.ext_contains
  intro k
  rw [Bool.eq_iff_iff, ConstraintSet.mem_pendingPorts_iff, ConstraintSet.mem_pendingPorts_iff]
  refine exists_congr fun c => ?_
  rw [h.fixed_mem_spliced_iff]
  refine and_congr_right fun hk => ?_
  rw [h.heldBack_eq (node_mem_of_fixed h.built hk)]

theorem broadcastGroups_eq :
    (g'.constraints catalog).broadcastGroups = (g.constraints catalog).broadcastGroups := by
  rw [ConstraintSet.broadcastGroups_eq_flatMap, ConstraintSet.broadcastGroups_eq_flatMap]
  have hold : g.nodes.toList.flatMap (ConstraintSet.groupsOf catalog (g'.portTable catalog)) =
      g.nodes.toList.flatMap (ConstraintSet.groupsOf catalog (g.portTable catalog)) := by
    apply List.flatMap_congr
    rintro ⟨id, n⟩ hx
    have hn := Std.ExtTreeMap.mem_toList_iff_getElem?_eq_some.mp hx
    have hid : id ∈ g.nodes := Std.ExtTreeMap.mem_iff_isSome_getElem?.mpr (by simp [hn])
    have hports : (g'.portTable catalog).templateCardinality id =
        (g.portTable catalog).templateCardinality id := by
      funext t
      apply PortTable.templateCardinality_congr
      rintro k rfl
      exact h.spliced.getElem?_portTable h.built hid
    simp only [ConstraintSet.groupsOf, hports]
  rw [← hold]
  apply OrderedMaps.flatMap_toList_of_extends
  · exact fun id hid => h.spliced.getElem?_nodes hid
  · intro id n hn hnot
    rcases (h.spliced.node_iff id n).mp hn with hn | ⟨r, hr, rfl, rfl⟩
    · exact absurd (Std.ExtTreeMap.mem_iff_isSome_getElem?.mpr (by simp [hn])) hnot
    · obtain ⟨b, s, t, hi, hnil, -⟩ := h.exists_adapter hr
      simp [ConstraintSet.groupsOf, hi.2, hnil]

theorem equal_mem_cases {a b : PortKey} (hab : .equal a b ∈ (g.constraints catalog).demands) :
    .equal a b ∈ (g'.constraints catalog).demands ∨
      ∃ r ∈ rs, a = r.pair.source ∧ b = r.pair.target := by
  obtain ⟨origin, horigin⟩ := ConstraintSet.equal_mem_demands_iff.mp hab
  rcases mem_cardinality_iff.mp horigin with hnode | ⟨p, hp, heq⟩
  · left
    exact ConstraintSet.equal_mem_demands_iff.mpr
      ⟨origin, h.mem_cardinality_spliced_iff.mpr (.inl hnode)⟩
  · cases heq
    by_cases hrep : ∃ r ∈ rs, r.pair = p
    · obtain ⟨r, hr, rfl⟩ := hrep
      exact .inr ⟨r, hr, rfl, rfl⟩
    · left
      have hmem := h.mem_edgePairs_spliced_iff.mpr
        (.inl ⟨hp, fun r hr heq => hrep ⟨r, hr, heq⟩⟩)
      exact ConstraintSet.equal_mem_demands_iff.mpr
        ⟨_, h.mem_cardinality_spliced_iff.mpr (.inr (.inr ⟨p, hmem, rfl⟩))⟩

theorem equal_mem_spliced_cases {a b : PortKey}
    (hab : .equal a b ∈ (g'.constraints catalog).demands) :
    .equal a b ∈ (g.constraints catalog).demands ∨
      ∃ r ∈ rs, (a = r.pair.source ∧ b = r.input) ∨ (a = r.input ∧ b = r.output) ∨
        (a = r.output ∧ b = r.pair.target) := by
  obtain ⟨origin, horigin⟩ := ConstraintSet.equal_mem_demands_iff.mp hab
  rcases h.mem_cardinality_spliced_iff.mp horigin with hnode | ⟨r, hr, heq⟩ | ⟨p, hp, heq⟩
  · left
    exact ConstraintSet.equal_mem_demands_iff.mpr ⟨origin, mem_cardinality_iff.mpr (.inl hnode)⟩
  · cases heq
    exact .inr ⟨r, hr, .inr (.inl ⟨rfl, rfl⟩)⟩
  · cases heq
    rcases h.mem_edgePairs_spliced_iff.mp hp with ⟨hp, -⟩ | ⟨r, hr, rfl | rfl⟩
    · left
      exact ConstraintSet.equal_mem_demands_iff.mpr
        ⟨_, mem_cardinality_iff.mpr (.inr ⟨p, hp, rfl⟩)⟩
    · exact .inr ⟨r, hr, .inl ⟨rfl, rfl⟩⟩
    · exact .inr ⟨r, hr, .inr (.inr ⟨rfl, rfl⟩)⟩

theorem way_mem {r : Replacement} (hr : r ∈ rs) :
    .equal r.pair.source r.input ∈ (g'.constraints catalog).demands ∧
      .equal r.input r.output ∈ (g'.constraints catalog).demands ∧
      .equal r.output r.pair.target ∈ (g'.constraints catalog).demands := by
  have hentry := h.mem_edgePairs_spliced_iff.mpr (.inr ⟨r, hr, .inl rfl⟩)
  have hexit := h.mem_edgePairs_spliced_iff.mpr (.inr ⟨r, hr, .inr rfl⟩)
  refine ⟨?_, ?_, ?_⟩
  · exact ConstraintSet.equal_mem_demands_iff.mpr
      ⟨_, h.mem_cardinality_spliced_iff.mpr (.inr (.inr ⟨_, hentry, rfl⟩))⟩
  · exact ConstraintSet.equal_mem_demands_iff.mpr
      ⟨_, h.mem_cardinality_spliced_iff.mpr (.inr (.inl ⟨r, hr, rfl⟩))⟩
  · exact ConstraintSet.equal_mem_demands_iff.mpr
      ⟨_, h.mem_cardinality_spliced_iff.mpr (.inr (.inr ⟨_, hexit, rfl⟩))⟩

omit h in
/-- The port that feeds an adapter stands for the ports of the adapter. -/
private def feeding (rs : List Replacement) (k : PortKey) : PortKey :=
  Replacement.atNode rs (·.pair.source) k k.node

private theorem feeding_of_mem {k : PortKey} (hk : k.node ∈ g.nodes) : feeding rs k = k :=
  h.spliced.atNode_of_mem hk _ _

private theorem feeding_adapter {r : Replacement} (hr : r ∈ rs) {k : PortKey} (hk : k.node = r.id) :
    feeding rs k = r.pair.source := by
  rw [feeding, hk, h.spliced.atNode_adapter hr]

/-- Ports that are connected now were connected before, adapters being taken for what feeds them. -/
private theorem eqvGen_feeding {a b : PortKey}
    (hab : EqvGen (fun a b => .equal a b ∈ (g'.constraints catalog).demands) a b) :
    EqvGen (fun a b => .equal a b ∈ (g.constraints catalog).demands) (feeding rs a)
      (feeding rs b) := by
  have hclosed := constraints_closed h.built (g := g)
  induction hab with
  | rel a b hab =>
    rcases h.equal_mem_spliced_cases hab with hab | ⟨r, hr, hway⟩
    · obtain ⟨origin, horigin⟩ := ConstraintSet.equal_mem_demands_iff.mp hab
      obtain ⟨ha, hb⟩ := hclosed.equal_mem a b origin horigin
      rw [h.feeding_of_mem (node_mem_of_port ha), h.feeding_of_mem (node_mem_of_port hb)]
      exact .rel _ _ hab
    · have hs := h.feeding_of_mem (node_mem_of_faces (h.pair_faces hr).1)
      have ht := h.feeding_of_mem (node_mem_of_faces (h.pair_faces hr).2)
      have hin : feeding rs r.input = r.pair.source := h.feeding_adapter hr rfl
      have hout : feeding rs r.output = r.pair.source := h.feeding_adapter hr rfl
      rcases hway with ⟨rfl, rfl⟩ | ⟨rfl, rfl⟩ | ⟨rfl, rfl⟩
      · rw [hs, hin]
        exact .refl _
      · rw [hin, hout]
        exact .refl _
      · rw [hout, ht]
        have hedge := mem_cardinality_iff.mpr (.inr ⟨r.pair, h.pair_mem r hr, rfl⟩)
        exact .rel _ _ (ConstraintSet.equal_mem_demands_iff.mpr ⟨_, hedge⟩)
  | refl a => exact .refl _
  | symm a b _ ih => exact .symm _ _ ih
  | trans a b c _ _ ih ih' => exact .trans _ _ _ ih ih'

private theorem eqvGen_spliced {a b : PortKey}
    (hab : EqvGen (fun a b => .equal a b ∈ (g.constraints catalog).demands) a b) :
    EqvGen (fun a b => .equal a b ∈ (g'.constraints catalog).demands) a b := by
  induction hab with
  | rel a b hab =>
    rcases h.equal_mem_cases hab with hab | ⟨r, hr, rfl, rfl⟩
    · exact .rel _ _ hab
    · obtain ⟨hentry, hthrough, hexit⟩ := h.way_mem hr
      exact .trans _ _ _ (.rel _ _ hentry) (.trans _ _ _ (.rel _ _ hthrough) (.rel _ _ hexit))
  | refl a => exact .refl _
  | symm a b _ ih => exact .symm _ _ ih
  | trans a b c _ _ ih ih' => exact .trans _ _ _ ih ih'

theorem eqvGen_spliced_iff {a b : PortKey} (ha : a.node ∈ g.nodes) (hb : b.node ∈ g.nodes) :
    EqvGen (fun a b => .equal a b ∈ (g'.constraints catalog).demands) a b ↔
      EqvGen (fun a b => .equal a b ∈ (g.constraints catalog).demands) a b := by
  refine ⟨fun hab => ?_, h.eqvGen_spliced⟩
  have hfeed := h.eqvGen_feeding hab
  rwa [h.feeding_of_mem ha, h.feeding_of_mem hb] at hfeed

theorem port_mem_spliced {k : PortKey} (hk : k ∈ (g.constraints catalog).ports) :
    k ∈ (g'.constraints catalog).ports := by
  have hports : (g'.constraints catalog).ports[k]? = (g.constraints catalog).ports[k]? :=
    h.spliced.getElem?_portTable h.built (node_mem_of_port hk)
  rw [Std.ExtTreeMap.mem_iff_isSome_getElem?, hports]
  exact Std.ExtTreeMap.mem_iff_isSome_getElem?.mp hk

section Inference

variable (ha : Demand.Accepted (g.constraints catalog).demands (start (g.constraints catalog).ports))
include ha

/-- No equation is refused, since what satisfied the demands before satisfies those now, adapters being
given the value of what feeds them. -/
theorem demands_accepted_spliced :
    Demand.Accepted (g'.constraints catalog).demands (start (g'.constraints catalog).ports) := by
  have hclosed := constraints_closed h.built (g := g')
  obtain ⟨hpres, -⟩ := imposed_presents (constraints_closed h.built) ha
  obtain ⟨σ, hσ, -⟩ := hpres.exists_satisfies .zero
  obtain ⟨hstart, hreg⟩ := start_presents (g'.constraints catalog).ports
  apply hstart.accepted (σ := fun k => σ (feeding rs k))
  · exact fun d hd k hk => (hreg k).mpr (hclosed.demand_keys d hd k hk)
  · constructor
    · rintro a b (hab | hab)
      · exact hab.elim
      · have hfeed := h.eqvGen_feeding (.rel _ _ hab)
        exact hσ.eqvGen (EqvGen.mono (fun _ _ => .inr) _ _ hfeed)
    · rintro k v (hk | hk)
      · exact hk.elim
      · have hk' := h.holds_mem_spliced_iff.mp hk
        have hfixed := (ConstraintSet.holds_mem_demands_iff.mp hk').1
        simp only [h.feeding_of_mem (node_mem_of_fixed h.built hfixed)]
        exact hσ.value (.inr hk')

/-- Before the groups are looked at, the ports that were there have the classes and values they had. -/
theorem imposed_alike :
    Alike (· ∈ (g.constraints catalog).ports) (imposed (g.constraints catalog)).partition
      (imposed (g'.constraints catalog)).partition := by
  obtain ⟨hpres, hreg⟩ := imposed_presents (constraints_closed h.built) ha
  obtain ⟨hpres', hreg'⟩ := imposed_presents (constraints_closed h.built)
    (h.demands_accepted_spliced ha)
  simp only [false_or] at hpres hpres'
  have hregs : ∀ k ∈ (g.constraints catalog).ports,
      (imposed (g.constraints catalog)).partition.Registered k ∧
        (imposed (g'.constraints catalog)).partition.Registered k :=
    fun k hk => ⟨(hreg k).mpr hk, (hreg' k).mpr (h.port_mem_spliced hk)⟩
  refine ⟨hpres.wellFormed, hpres'.wellFormed, hregs, fun a b hka hkb => ?_, fun k hk => ?_⟩
  · rw [hpres.same_iff_eqvGen (hregs a hka).1, hpres'.same_iff_eqvGen (hregs a hka).2]
    exact h.eqvGen_spliced_iff (node_mem_of_port hka) (node_mem_of_port hkb)
  · apply Option.ext
    intro c
    rw [hpres.value_iff, hpres'.value_iff]
    refine exists_congr fun l => ?_
    rw [h.holds_mem_spliced_iff]
    refine and_congr_right fun hl => ?_
    have hfixed := (ConstraintSet.holds_mem_demands_iff.mp hl).1
    exact h.eqvGen_spliced_iff (node_mem_of_fixed h.built hfixed) (node_mem_of_port hk)

theorem resolved_spliced :
    Resolution.Alike (· ∈ (g.constraints catalog).ports) (resolved (g.constraints catalog))
      (resolved (g'.constraints catalog)) := by
  refine resolved_alike (constraints_closed h.built) (constraints_closed h.built)
    h.broadcastGroups_eq h.pendingPorts_eq ⟨h.imposed_alike ha, rfl, ?_⟩
  rw [imposed_diagnostics_eq_nil_iff.mpr ha,
    imposed_diagnostics_eq_nil_iff.mpr (h.demands_accepted_spliced ha)]

end Inference

/-- Cardinalities that were found are found again, and those of adapters are those of what feeds them. -/
theorem cardinalities_spliced
    (hnil : (g.constraints catalog).solveCardinality.diagnostics = []) :
    (g'.constraints catalog).solveCardinality.diagnostics = [] ∧
      (∀ k ∈ g.portTable catalog, (resolved (g'.constraints catalog)).partition.value? k =
        (resolved (g.constraints catalog)).partition.value? k) ∧
      ∀ r ∈ rs, ∀ k, k = r.input ∨ k = r.output →
        (resolved (g'.constraints catalog)).partition.value? k =
          (resolved (g.constraints catalog)).partition.value? r.pair.source := by
  have hclosed := constraints_closed h.built (g := g)
  have hno : ∀ d ∈ (g.constraints catalog).solveCardinality.diagnostics,
      d.kind ≠ .cardinalityConflict := by simp [hnil]
  have ha := ConstraintSet.demands_accepted hclosed hno
  have halike := h.resolved_spliced ha
  have hold : ∀ k ∈ g.portTable catalog, (resolved (g'.constraints catalog)).partition.value? k =
      (resolved (g.constraints catalog)).partition.value? k := halike.partition.value_eq
  have hnew : ∀ r ∈ rs, ∀ k, k = r.input ∨ k = r.output →
      (resolved (g'.constraints catalog)).partition.value? k =
        (resolved (g.constraints catalog)).partition.value? r.pair.source := by
    intro r hr k hk
    obtain ⟨info, hinfo, -⟩ := PortTable.faces_iff.mp (h.pair_faces hr).1
    have hmem : r.pair.source ∈ g.portTable catalog :=
      Std.ExtTreeMap.mem_iff_isSome_getElem?.mpr (by simp [hinfo])
    obtain ⟨hentry, hthrough, -⟩ := h.way_mem hr
    have hconn : EqvGen (fun a b => .equal a b ∈ (g'.constraints catalog).demands)
        r.pair.source k := by
      rcases hk with rfl | rfl
      · exact .rel _ _ hentry
      · exact .trans _ _ _ (.rel _ _ hentry) (.rel _ _ hthrough)
    have heq := ConstraintSet.resolved_value?_eq (constraints_closed h.built)
      (h.demands_accepted_spliced ha) (h.port_mem_spliced hmem) hconn
    rw [← heq, hold _ hmem]
  refine ⟨ConstraintSet.solveCardinality_eq_nil ?_ fun k hk => ?_, hold, hnew⟩
  · rw [halike.diagnostics, ConstraintSet.resolved_diagnostics_eq_nil hclosed hno]
  · obtain ⟨info, hinfo⟩ := Option.isSome_iff_exists.mp
      (Std.ExtTreeMap.mem_iff_isSome_getElem?.mp hk)
    rcases h.port_cases hinfo with hnode | ⟨r, hr, hkr⟩
    · have hmem : k ∈ g.portTable catalog := by
        rw [Std.ExtTreeMap.mem_iff_isSome_getElem?,
          ← h.spliced.getElem?_portTable h.built hnode]
        exact Std.ExtTreeMap.mem_iff_isSome_getElem?.mp hk
      rw [hold k hmem]
      exact exists_resolved_value hclosed hnil hmem
    · obtain ⟨i, hi, -⟩ := PortTable.faces_iff.mp (h.pair_faces hr).1
      rw [hnew r hr k hkr]
      exact exists_resolved_value hclosed hnil
        (Std.ExtTreeMap.mem_iff_isSome_getElem?.mpr (by simp [constraints, hi]))

end Patch.Rerouted

end PatchTyping
