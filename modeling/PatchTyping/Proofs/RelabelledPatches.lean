import PatchTyping.Proofs.SettledNodes

/-!
# Edges under other names

The names of edges decide in which order their demands are imposed and their ends are looked at, and
nothing else. If all demands on the nodes that have settled can be met, and the edges of other nodes keep
their names, a round finds the same types whatever the edges are called.
-/

namespace PatchTyping

open ValuedPartition CardinalityInference AxisInference Relation

/-- The node without the name of the edge that it replaced. -/
def Node.unnamed (n : Node) : Node :=
  { n with
    provenance :=
      match n.provenance with
      | .authored => .authored
      | .inserted rule _ => .inserted rule "" }

theorem Node.isAuthored_unnamed (n : Node) :
    n.unnamed.provenance.isAuthored = n.provenance.isAuthored := by
  unfold unnamed
  cases n.provenance <;> rfl

def EdgePair.relabel (f : EdgeId → EdgeId) (p : EdgePair) : EdgePair := { p with edge := f p.edge }

namespace Patch

/-- The second patch is the first one with its edges under other names. Nodes may differ in the names of
the edges that they replaced. -/
structure Relabelled (f : EdgeId → EdgeId) (g g' : Patch) : Prop where
  nodes_eq : (g'.nodes.map fun _ n => n.unnamed) = g.nodes.map fun _ n => n.unnamed
  edge : ∀ {id : EdgeId} {e : Edge}, g.edges[id]? = some e → g'.edges[f id]? = some e
  exists_edge : ∀ {id : EdgeId} {e : Edge}, g'.edges[id]? = some e →
    ∃ o, g.edges[o]? = some e ∧ f o = id
  injective : ∀ {a b : EdgeId} {d e : Edge}, g.edges[a]? = some d → g.edges[b]? = some e →
    f a = f b → a = b

/-- An edge as one that counts. -/
def pairOf (x : EdgeId × Edge) : EdgePair := ⟨x.1, x.2.source, x.2.target⟩

theorem Extracted.edgePairs_eq {g : Patch} {catalog : Catalog} (h : g.Extracted catalog) :
    g.edgePairs (g.portTable catalog) =
      (g.edges.filter fun _ e => (g.portTable catalog).joins e).toList.map pairOf := by
  have hcount : ∀ x ∈ g.edges.toList, (if (g.portTable catalog).joins x.2 &&
        decide ((g.drivers (g.portTable catalog))[x.2.target]? = some x.1) then some (pairOf x)
      else none) = if (g.portTable catalog).joins x.2 then some (pairOf x) else none := by
    intro x hx
    have he := Std.ExtTreeMap.mem_toList_iff_getElem?_eq_some.mp hx
    cases hj : (g.portTable catalog).joins x.2 with
    | false => rfl
    | true => simp [h.oneDriver.driver he hj]
  rw [Std.ExtTreeMap.toList_filter, ← List.filterMap_eq_map, List.filterMap_filter]
  exact List.filterMap_congr hcount

namespace Relabelled

variable {f : EdgeId → EdgeId} {g g' : Patch} {catalog : Catalog} (h : Relabelled f g g')
include h

theorem getElem?_unnamed (id : NodeId) :
    g'.nodes[id]?.map Node.unnamed = g.nodes[id]?.map Node.unnamed := by
  have hmap := congrArg (fun m : Std.ExtTreeMap NodeId Node => m[id]?) h.nodes_eq
  simpa only [Std.ExtTreeMap.getElem?_map] using hmap

theorem exists_node {id : NodeId} {n : Node} (hn : g'.nodes[id]? = some n) :
    ∃ m, g.nodes[id]? = some m ∧ m.unnamed = n.unnamed := by
  have hmap := h.getElem?_unnamed id
  rw [hn, Option.map_some, eq_comm, Option.map_eq_some_iff] at hmap
  exact hmap

theorem node_mem_iff {id : NodeId} : id ∈ g'.nodes ↔ id ∈ g.nodes := by
  have hmap := congrArg Option.isSome (h.getElem?_unnamed id)
  rw [Option.isSome_map, Option.isSome_map] at hmap
  rw [Std.ExtTreeMap.mem_iff_isSome_getElem?, Std.ExtTreeMap.mem_iff_isSome_getElem?, hmap]

theorem flatMap_knownNodes {β : Type} {F : NodeId × Node × Block → List β}
    (hF : ∀ id n b, F (id, n.unnamed, b) = F (id, n, b)) :
    (g'.knownNodes catalog).flatMap F = (g.knownNodes catalog).flatMap F := by
  rw [← flatMap_knownNodes_map g' catalog Node.unnamed (fun _ => rfl) hF,
    ← flatMap_knownNodes_map g catalog Node.unnamed (fun _ => rfl) hF, h.nodes_eq]
  rfl

theorem portTable_eq : g'.portTable catalog = g.portTable catalog := by
  rw [portTable, portTable, h.flatMap_knownNodes fun _ _ _ => rfl]

theorem exists_instantiates {id : NodeId} {n : Node} {b : Block}
    (hi : g'.Instantiates catalog id n b) :
    ∃ m, g.Instantiates catalog id m b ∧ m.unnamed = n.unnamed := by
  obtain ⟨m, hm, heq⟩ := h.exists_node hi.1
  have hblock : m.block = n.block := (congrArg Node.block heq :)
  exact ⟨m, ⟨hm, hblock ▸ hi.2⟩, heq⟩

theorem portless_iff {id : NodeId} : g'.Portless catalog id ↔ g.Portless catalog id := by
  constructor
  · rintro ⟨n, b, hi, hnil⟩
    obtain ⟨m, hm, -⟩ := h.exists_instantiates hi
    exact ⟨m, b, hm, hnil⟩
  · rintro ⟨n, b, hi, hnil⟩
    have hmap := h.getElem?_unnamed id
    rw [hi.1, Option.map_some, Option.map_eq_some_iff] at hmap
    obtain ⟨m, hm, heq⟩ := hmap
    have hblock : m.block = n.block := (congrArg Node.block heq :)
    exact ⟨m, b, ⟨hm, hblock ▸ hi.2⟩, hnil⟩

variable (hg : g.Extracted catalog)
include hg

theorem extracted : g'.Extracted catalog where
  known id n hn := by
    obtain ⟨m, hm, heq⟩ := h.exists_node hn
    have hblock : m.block = n.block := (congrArg Node.block heq :)
    exact hblock ▸ hg.known id m hm
  attached id e he := by
    obtain ⟨o, ho, -⟩ := h.exists_edge he
    simp only [Attached, h.portTable_eq, h.portless_iff]
    exact hg.attached o e ho
  oneDriver id e id' e' he he' hj hj' ht := by
    obtain ⟨o, ho, rfl⟩ := h.exists_edge he
    obtain ⟨o', ho', rfl⟩ := h.exists_edge he'
    rw [h.portTable_eq] at hj hj'
    rw [hg.oneDriver o e o' e' ho ho' hj hj' ht]

theorem mem_edgePairs_iff {p : EdgePair} : p ∈ g'.edgePairs (g'.portTable catalog) ↔
    ∃ q ∈ g.edgePairs (g.portTable catalog), p = q.relabel f := by
  rw [(h.extracted hg).mem_edgePairs_iff, h.portTable_eq]
  simp only [hg.mem_edgePairs_iff]
  constructor
  · rintro ⟨he, hj⟩
    obtain ⟨o, ho, hid⟩ := h.exists_edge he
    exact ⟨⟨o, p.source, p.target⟩, ⟨ho, hj⟩, by rw [EdgePair.relabel, hid]⟩
  · rintro ⟨q, ⟨he, hj⟩, rfl⟩
    exact ⟨h.edge he, hj⟩

theorem edgePairs_perm : (g'.edgePairs (g'.portTable catalog)).Perm
    ((g.edgePairs (g.portTable catalog)).map (EdgePair.relabel f)) := by
  have hnodup : ((g.edgePairs (g.portTable catalog)).map (EdgePair.relabel f)).Nodup := by
    refine (g.edgePairs_nodup _).of_map.map_on fun p hp q hq heq => ?_
    have hp' := (hg.mem_edgePairs_iff.mp hp).1
    have hq' := (hg.mem_edgePairs_iff.mp hq).1
    have hedge := h.injective hp' hq' (congrArg EdgePair.edge heq)
    cases p
    cases q
    simp_all [EdgePair.relabel]
  refine (List.perm_ext_iff_of_nodup (g'.edgePairs_nodup _).of_map hnodup).mpr fun p => ?_
  rw [h.mem_edgePairs_iff hg, List.mem_map]
  simp only [eq_comm]

/-- Edges that keep their names stand in the same order as before. -/
theorem edgePairs_filter {P : Edge → Bool}
    (hfix : ∀ {id : EdgeId} {e : Edge}, g.edges[id]? = some e → P e = true → f id = id) :
    ((g'.edgePairs (g'.portTable catalog)).filter fun p => P ⟨p.source, p.target⟩) =
      (g.edgePairs (g.portTable catalog)).filter fun p => P ⟨p.source, p.target⟩ := by
  have hsame : ((g'.edges.filter fun _ e => (g.portTable catalog).joins e).filter fun _ e => P e) =
      (g.edges.filter fun _ e => (g.portTable catalog).joins e).filter fun _ e => P e := by
    apply Std.ExtTreeMap.ext_getElem?
    intro id
    apply Option.ext
    intro e
    simp only [Std.ExtTreeMap.getElem?_filter', Option.filter_eq_some_iff]
    constructor
    · rintro ⟨⟨he, hj⟩, hP⟩
      obtain ⟨o, ho, hid⟩ := h.exists_edge he
      rw [hfix ho hP] at hid
      exact ⟨⟨hid ▸ ho, hj⟩, hP⟩
    · rintro ⟨⟨he, hj⟩, hP⟩
      exact ⟨⟨hfix he hP ▸ h.edge he, hj⟩, hP⟩
  have hlist := congrArg (fun m : Std.ExtTreeMap EdgeId Edge => m.toList.map pairOf) hsame
  simp only [Std.ExtTreeMap.toList_filter, List.filter_filter] at hlist
  rw [(h.extracted hg).edgePairs_eq, hg.edgePairs_eq, h.portTable_eq, List.filter_map,
    List.filter_map, Std.ExtTreeMap.toList_filter, Std.ExtTreeMap.toList_filter, List.filter_filter,
    List.filter_filter]
  exact hlist

section Axes

variable {α : Type} [DecidableEq α] {F : Facet α} {firm : NodeId → Bool} {σ : VarKey → α}
  {old : NodeId → Bool}

omit h hg in
/-- What an edge demands, which does not depend on its name. -/
private def pairDemand (F : Facet α) (ports : PortTable) (p : EdgePair) : Option (Demand VarKey α) :=
  (ports.relate F.declared p.source p.target (.edge "")).map AxisConstraint.demand

omit h hg in
private theorem pairDemand_eq (ports : PortTable) (p : EdgePair) :
    (ports.relate F.declared p.source p.target (.edge p.edge)).map AxisConstraint.demand =
      pairDemand F ports p := by
  unfold pairDemand PortTable.relate
  split
  · next i j hi hj => cases F.declared i.type <;> cases F.declared j.type <;> rfl
  · rfl

omit h hg in
private theorem demands_eq (F : Facet α) (catalog : Catalog) (g : Patch) :
    (F.constraints catalog g).map AxisConstraint.demand =
      ((g.knownNodes catalog).flatMap fun (id, _, b) =>
        b.templates.flatMap ((g.portTable catalog).templateAxis F.which F.declared id)).map
          AxisConstraint.demand ++
        (g.edgePairs (g.portTable catalog)).filterMap (pairDemand F (g.portTable catalog)) := by
  rw [Facet.constraints, axisConstraints, List.map_append, List.map_filterMap]
  exact congrArg _ (List.filterMap_congr fun p _ => pairDemand_eq _ p)

theorem mem_demands_iff {d : Demand VarKey α} :
    d ∈ (F.constraints catalog g').map AxisConstraint.demand ↔
      d ∈ (F.constraints catalog g).map AxisConstraint.demand := by
  rw [demands_eq, demands_eq, List.mem_append, List.mem_append, h.flatMap_knownNodes fun _ _ _ => rfl,
    List.mem_filterMap, List.mem_filterMap]
  simp only [h.mem_edgePairs_iff hg]
  simp only [h.portTable_eq]
  refine or_congr_right ⟨?_, ?_⟩
  · rintro ⟨_, ⟨q, hq, rfl⟩, hd⟩
    exact ⟨q, hq, hd⟩
  · rintro ⟨q, hq, hd⟩
    exact ⟨_, ⟨q, hq, rfl⟩, hd⟩

variable (hold : ∀ id, old id = true → firm id = true)
include hold

omit h hg in
/-- Edges between old nodes demand nothing of nodes that have not settled. -/
private theorem filter_pairDemand (ports : PortTable) (l : List EdgePair) :
    (l.filterMap (pairDemand F ports)).filter (·.within fun x => !firm x.node) =
      ((l.filter fun p => !(old p.source.node && old p.target.node)).filterMap
        (pairDemand F ports)).filter (·.within fun x => !firm x.node) := by
  rw [List.filter_filterMap, List.filter_filterMap, List.filterMap_filter]
  apply List.filterMap_congr
  intro p _
  cases hp : old p.source.node && old p.target.node with
  | false => rfl
  | true =>
    obtain ⟨hs, ht⟩ := Bool.and_eq_true_iff.mp hp
    rw [Bool.not_true, if_neg Bool.false_ne_true, Option.filter_eq_none_iff]
    intro d hd hwithin
    obtain ⟨c, hc, rfl⟩ := Option.map_eq_some_iff.mp hd
    obtain ⟨i, j, -, -, hrel⟩ := PortTable.relate_eq_some hc
    have hfirm : ∀ v ∈ c.vars, firm v.node = true := by
      intro v hv
      rcases relate_vars hrel hv with ⟨hnode, -⟩ | ⟨hnode, -⟩
      · rw [hnode, hold _ hs]
      · rw [hnode, hold _ ht]
    have hnone : c.within (!firm ·) = false :=
      AxisConstraint.within_of_vars _ fun v hv => by rw [hfirm v hv, Bool.not_true]
    exact Bool.false_ne_true (hnone.symm.trans hwithin)

variable (hfix : ∀ {id : EdgeId} {e : Edge}, g.edges[id]? = some e →
  (!(old e.source.node && old e.target.node)) = true → f id = id)
include hfix

theorem filter_demands :
    ((F.constraints catalog g').map AxisConstraint.demand).filter (·.within fun x => !firm x.node) =
      ((F.constraints catalog g).map AxisConstraint.demand).filter
        (·.within fun x => !firm x.node) := by
  rw [demands_eq, demands_eq, List.filter_append, List.filter_append,
    h.flatMap_knownNodes fun _ _ _ => rfl, filter_pairDemand hold (g'.portTable catalog),
    filter_pairDemand hold (g.portTable catalog), h.edgePairs_filter hg hfix]
  simp only [h.portTable_eq]

theorem solution_eq (hset : Settled F catalog g firm σ) :
    (F.solution catalog g').values = (F.solution catalog g).values ∧
      ((F.solution catalog g').diagnostics = [] ↔ (F.solution catalog g).diagnostics = []) := by
  have hcov := F.constraints_covers catalog g
  have hcov' := F.constraints_covers catalog g'
  have hsolution : F.solution catalog g' = solve F.wording ((g.portTable catalog).bindings F.declared)
      (F.constraints catalog g') := by rw [Facet.solution, h.portTable_eq]
  rw [h.portTable_eq] at hcov'
  have hmodels : Models ((F.constraints catalog g).filter (·.within firm)) σ :=
    fun c hc => hset.holds c (List.mem_of_mem_filter hc) (List.mem_filter.mp hc).2
  have hsat := models_iff_satisfies.mp hmodels
  rw [map_demand_filter] at hsat
  obtain ⟨hvalues, haccepted⟩ := Demand.run_of_rearranged
    (start_presents ((g.portTable catalog).bindings F.declared)).1 (covered_keys hcov)
    (demand_split firm hset.split) (fun _ => h.mem_demands_iff hg) (h.filter_demands hg hold hfix) hsat
  rw [hsolution, Facet.solution]
  constructor
  · apply Std.ExtTreeMap.ext_getElem?
    intro x
    rw [values_solve, values_solve]
    exact hvalues x
  · rw [diagnostics_solve_eq_nil_iff, diagnostics_solve_eq_nil_iff, haccepted]
    simp only [registered_solved_iff hcov, registered_solved_iff hcov']
    refine and_congr_right fun _ => forall₂_congr fun x _ => ?_
    rw [solved, solved, hvalues]

end Axes

section Cardinalities

omit h hg in
/-- What the nodes of a patch demand of cardinalities. -/
private def ownCardinalities (catalog : Catalog) (g : Patch) : List CardinalityConstraint :=
  (g.knownNodes catalog).flatMap fun (id, n, b) =>
    declaredCardinalities id ∅ (n.portInfos id b)
      ++ b.templates.flatMap ((g.portTable catalog).templateCardinality id)

omit h hg in
private theorem cardinality_eq (catalog : Catalog) (g : Patch) :
    (g.constraints catalog).cardinality = ownCardinalities catalog g ++
      (g.edgePairs (g.portTable catalog)).map fun p => .equal p.source p.target (.edge p.edge) := rfl

omit hg in
private theorem ownCardinalities_eq : ownCardinalities catalog g' = ownCardinalities catalog g := by
  rw [ownCardinalities, ownCardinalities, h.portTable_eq]
  exact h.flatMap_knownNodes fun _ _ _ => rfl

omit hg in
theorem broadcastGroups_eq :
    (g'.constraints catalog).broadcastGroups = (g.constraints catalog).broadcastGroups := by
  rw [ConstraintSet.broadcastGroups, ConstraintSet.broadcastGroups, cardinality_eq, cardinality_eq,
    h.ownCardinalities_eq]
  simp [List.filterMap_append, List.filterMap_map]

omit hg in
theorem fixed_mem_iff {k : PortKey} {c : Cardinality} :
    .fixed k c ∈ (g'.constraints catalog).cardinality ↔
      .fixed k c ∈ (g.constraints catalog).cardinality := by
  simp [cardinality_eq, h.ownCardinalities_eq]

omit hg in
theorem heldBack_eq (k : PortKey) (c : Cardinality) :
    (g'.constraints catalog).heldBack k c = (g.constraints catalog).heldBack k c := by
  have hports : (g'.constraints catalog).ports = (g.constraints catalog).ports := h.portTable_eq
  rw [ConstraintSet.heldBack, ConstraintSet.heldBack, hports]

omit hg in
theorem pendingPorts_eq :
    (g'.constraints catalog).pendingPorts = (g.constraints catalog).pendingPorts := by
  apply Std.ExtTreeSet.ext_contains
  intro k
  rw [Bool.eq_iff_iff, ConstraintSet.mem_pendingPorts_iff, ConstraintSet.mem_pendingPorts_iff]
  simp only [h.fixed_mem_iff, h.heldBack_eq]

theorem cardinality_demand_mem_iff {d : Demand PortKey Cardinality} :
    d ∈ (g'.constraints catalog).demands ↔ d ∈ (g.constraints catalog).demands := by
  cases d with
  | equal a b =>
    simp only [ConstraintSet.equal_mem_demands_iff, cardinality_eq, h.ownCardinalities_eq,
      List.mem_append, List.mem_map, exists_or, h.mem_edgePairs_iff hg]
    refine or_congr_right ⟨?_, ?_⟩
    · rintro ⟨_, _, ⟨q, hq, rfl⟩, heq⟩
      cases heq
      exact ⟨_, q, hq, rfl⟩
    · rintro ⟨_, q, hq, heq⟩
      cases heq
      exact ⟨_, _, ⟨q, hq, rfl⟩, rfl⟩
  | holds k c =>
    rw [ConstraintSet.holds_mem_demands_iff, ConstraintSet.holds_mem_demands_iff, h.fixed_mem_iff,
      h.heldBack_eq]

variable (hc : catalog.Built)
  (ha : Demand.Accepted (g.constraints catalog).demands (start (g.constraints catalog).ports))
include hc ha

theorem demands_accepted :
    Demand.Accepted (g'.constraints catalog).demands (start (g'.constraints catalog).ports) :=
  demands_accepted_of_mem_iff (constraints_closed hc) h.portTable_eq
    (fun _ => h.cardinality_demand_mem_iff hg) ha

theorem imposed_alike :
    Alike (· ∈ (g.constraints catalog).ports) (imposed (g.constraints catalog)).partition
      (imposed (g'.constraints catalog)).partition :=
  imposed_alike_of_mem_iff (constraints_closed hc) h.portTable_eq
    (fun _ => h.cardinality_demand_mem_iff hg) ha (constraints_closed hc)

theorem resolved_relabelled :
    Resolution.Alike (· ∈ (g.constraints catalog).ports) (resolved (g.constraints catalog))
      (resolved (g'.constraints catalog)) := by
  refine resolved_alike (constraints_closed hc) (constraints_closed hc) h.broadcastGroups_eq
    h.pendingPorts_eq ⟨h.imposed_alike hg hc ha, rfl, ?_⟩
  rw [imposed_diagnostics_eq_nil_iff.mpr ha,
    imposed_diagnostics_eq_nil_iff.mpr (h.demands_accepted hg hc ha)]

theorem solveCardinality_eq_nil_iff : (g'.constraints catalog).solveCardinality.diagnostics = [] ↔
    (g.constraints catalog).solveCardinality.diagnostics = [] := by
  have halike := h.resolved_relabelled hg hc ha
  have hports : (g'.constraints catalog).ports = (g.constraints catalog).ports := h.portTable_eq
  rw [ConstraintSet.solveCardinality_eq_nil_iff (constraints_closed hc),
    ConstraintSet.solveCardinality_eq_nil_iff (constraints_closed hc), halike.conflicted,
    h.broadcastGroups_eq, and_iff_right ha, and_iff_right (h.demands_accepted hg hc ha), hports]
  refine and_congr_right fun _ => forall₂_congr fun k hk => ?_
  rw [halike.partition.value_eq k hk]

end Cardinalities

end Relabelled

/-- In what order edges between old nodes are looked at makes no difference to a round. -/
structure OrderFree (catalog : Catalog) (old : NodeId → Bool) (g : Patch) : Prop where
  extracted : g.Extracted catalog
  accepted : Demand.Accepted (g.constraints catalog).demands (start (g.constraints catalog).ports)
  payload : ∃ firm σ, Settled Facet.payload catalog g firm σ ∧ ∀ id, old id = true → firm id = true
  unit : ∃ firm σ, Settled Facet.unit catalog g firm σ ∧ ∀ id, old id = true → firm id = true

theorem OrderFree.of_clean {catalog : Catalog} {g : Patch} (hc : catalog.Built)
    (hclean : (Round.ofPatch catalog g).Clean) (old : NodeId → Bool) : g.OrderFree catalog old where
  extracted := hclean.extracted
  accepted := (hclean.solved hc).demands_accepted hc
  payload := ⟨_, _, .of_models hclean.payloads_models, fun _ _ => rfl⟩
  unit := ⟨_, _, .of_models hclean.units_models, fun _ _ => rfl⟩

theorem Resumed.orderFree {catalog : Catalog} {g : Patch} {old : NodeId → Bool}
    (h : g.Resumed catalog old) : g.OrderFree catalog old where
  extracted := h.extracted
  accepted := h.accepted
  payload :=
    let ⟨firm, σ, hset, hfirm, _⟩ := h.payload
    ⟨firm, σ, hset, hfirm⟩
  unit :=
    let ⟨firm, σ, hset, hfirm, _⟩ := h.unit
    ⟨firm, σ, hset, hfirm⟩

namespace Relabelled

variable {f : EdgeId → EdgeId} {g g' : Patch} {catalog : Catalog} {old : NodeId → Bool}
  (h : Relabelled f g g') (hc : catalog.Built) (ho : g.OrderFree catalog old)
  (hfix : ∀ {id : EdgeId} {e : Edge}, g.edges[id]? = some e →
    (!(old e.source.node && old e.target.node)) = true → f id = id)
include h hc ho hfix

omit hc in
theorem payload_eq :
    (Round.ofPatch catalog g').payload.values = (Round.ofPatch catalog g).payload.values ∧
      ((Round.ofPatch catalog g').payload.diagnostics = [] ↔
        (Round.ofPatch catalog g).payload.diagnostics = []) := by
  obtain ⟨firm, σ, hset, hfirm⟩ := ho.payload
  exact h.solution_eq (F := Facet.payload) ho.extracted hfirm hfix hset

omit hc in
theorem unit_eq :
    (Round.ofPatch catalog g').unit.values = (Round.ofPatch catalog g).unit.values ∧
      ((Round.ofPatch catalog g').unit.diagnostics = [] ↔
        (Round.ofPatch catalog g).unit.diagnostics = []) := by
  obtain ⟨firm, σ, hset, hfirm⟩ := ho.unit
  exact h.solution_eq (F := Facet.unit) ho.extracted hfirm hfix hset

theorem applied_eq : Round.applied catalog g' = Round.applied catalog g := by
  have hvalues := (h.resolved_relabelled ho.extracted hc ho.accepted).partition.value_eq
  have hvars : (g'.constraints catalog).solveCardinality.vars =
      (g.constraints catalog).solveCardinality.vars := by
    change variableValues (g'.portTable catalog) _ = _
    rw [h.portTable_eq]
    exact variableValues_congr hvalues
  have hoverrides : (g'.constraints catalog).solveCardinality.overrides =
      (g.constraints catalog).solveCardinality.overrides := by
    change changedValues (g'.portTable catalog) _ = _
    rw [h.portTable_eq]
    exact changedValues_congr hvalues
  rw [Round.applied, Round.applied, Round.substitution, Round.substitution,
    (h.payload_eq ho hfix).1, (h.unit_eq ho hfix).1]
  exact congrArg₂ (Substitution.mk _ _) hvars hoverrides

/-- A round finds the same types. -/
theorem typing_eq : (Round.ofPatch catalog g').typing = (Round.ofPatch catalog g).typing := by
  change (Round.applied catalog g').typing (g'.portTable catalog) = _
  rw [h.applied_eq hc ho hfix, h.portTable_eq]
  rfl

theorem invalidTypes_eq :
    (Round.ofPatch catalog g').invalidTypes = (Round.ofPatch catalog g).invalidTypes := by
  change (Round.applied catalog g').diagnostics (g'.portTable catalog) = _
  rw [h.applied_eq hc ho hfix, h.portTable_eq]
  rfl

/-- A round has nothing to complain of and nothing to splice exactly if this is so with the names that the
edges had. -/
theorem clean_and_quiet_iff :
    (Round.ofPatch catalog g').Clean ∧ (Round.ofPatch catalog g').isQuiet = true ↔
      (Round.ofPatch catalog g).Clean ∧ (Round.ofPatch catalog g).isQuiet = true := by
  have hkept : (∀ p ∈ g'.edgePairs (g'.portTable catalog),
        p.Kept (Round.ofPatch catalog g').typing) ↔
      ∀ p ∈ g.edgePairs (g.portTable catalog), p.Kept (Round.ofPatch catalog g).typing := by
    rw [h.typing_eq hc ho hfix]
    simp only [h.mem_edgePairs_iff ho.extracted]
    constructor
    · exact fun hall p hp => hall (p.relabel f) ⟨p, hp, rfl⟩
    · rintro hall _ ⟨p, hp, rfl⟩
      exact hall p hp
  rw [Round.clean_and_quiet_iff hc, Round.clean_and_quiet_iff hc, (h.payload_eq ho hfix).2,
    (h.unit_eq ho hfix).2, h.solveCardinality_eq_nil_iff ho.extracted hc ho.accepted,
    h.invalidTypes_eq hc ho hfix, hkept]
  simp only [ho.extracted, h.extracted ho.extracted]

end Relabelled

end Patch

end PatchTyping
