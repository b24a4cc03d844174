import PatchTyping.Proofs.BackendReadiness
import PatchTyping.Proofs.PatchParts
import PatchTyping.Proofs.SweepLocality

/-!
# Inference on a part of a patch

Where no edge leads from some nodes to the others, a round gives the ports of those nodes the types that a
round on their part alone gives them, also where demands are refused and groups are reported. Inference on
the whole is without complaint exactly if it is on the part and on the rest.
-/

namespace PatchTyping

open ValuedPartition CardinalityInference AxisInference

namespace AxisInference

variable {α : Type} [DecidableEq α] (mine : NodeId → Bool) {bindings : Bindings}
  {cs : List (AxisConstraint α)}

theorem registered_solved_iff (hcov : Covers bindings cs) {x : VarKey} :
    (solved bindings cs).Registered x ↔ Bound bindings x := by
  obtain ⟨hpres, hreg⟩ := start_presents (α := α) bindings
  rw [solved, hpres.wellFormed.registered_run (covered_keys hcov), hreg]

section Splitting

variable (hcov : Covers bindings cs)
  (hown : ∀ (k : PortKey) (x : VarKey), bindings[k]? = some x → x.node = k.node)
  (hsplit : ∀ c ∈ cs, ∀ x ∈ c.vars, mine x.node = c.within mine)

omit [DecidableEq α] in
include hown in
theorem bound_part_iff {x : VarKey} :
    Bound (bindings.filter fun k _ => mine k.node) x ↔ Bound bindings x ∧ mine x.node = true := by
  simp only [Bound, Std.ExtTreeMap.getElem?_filter', Option.filter_eq_some_iff]
  constructor
  · rintro ⟨k, hk, hmine⟩
    exact ⟨⟨k, hk⟩, (hown k x hk).symm ▸ hmine⟩
  · rintro ⟨⟨k, hk⟩, hmine⟩
    exact ⟨k, hk, hown k x hk ▸ hmine⟩

omit [DecidableEq α] in
include hsplit in
theorem demand_split : ∀ d ∈ cs.map AxisConstraint.demand, ∀ x ∈ d.keys,
    mine x.node = d.within fun x => mine x.node := by
  intro d hd x hx
  obtain ⟨c, hc, rfl⟩ := List.mem_map.mp hd
  rw [AxisConstraint.keys_demand] at hx
  exact hsplit c hc x hx

omit [DecidableEq α] in
theorem map_demand_filter :
    (cs.filter (·.within mine)).map AxisConstraint.demand =
      (cs.map AxisConstraint.demand).filter (·.within fun x => mine x.node) := by
  rw [List.filter_map]
  rfl

omit [DecidableEq α] in
include hcov hown in
theorem covers_part : Covers (bindings.filter fun k _ => mine k.node)
    (cs.filter (·.within mine)) := by
  intro c hc x hx
  obtain ⟨hc, hmine⟩ := List.mem_filter.mp hc
  refine (bound_part_iff mine hown).mpr ⟨hcov c hc x hx, ?_⟩
  exact List.all_eq_true.mp hmine x (AxisConstraint.keys_demand c ▸ hx)

omit [DecidableEq α] in
include hown in
private theorem start_restricts :
    (start bindings : ValuedPartition VarKey α).Restricts (fun x => mine x.node = true)
      (start (bindings.filter fun k _ => mine k.node)) := by
  obtain ⟨hpres, hreg⟩ := start_presents (α := α) bindings
  obtain ⟨hpres', hreg'⟩ := start_presents (α := α) (bindings.filter fun k _ => mine k.node)
  refine .of_initial hpres hpres' fun x hx => ?_
  rw [hreg, hreg', bound_part_iff mine hown, and_iff_left hx]

include hcov hown hsplit

/-- The constraints on some nodes do to their variables what all constraints do. -/
theorem solved_restricts :
    (solved bindings cs).Restricts (fun x => mine x.node = true)
      (solved (bindings.filter fun k _ => mine k.node) (cs.filter (·.within mine))) := by
  rw [solved, solved, map_demand_filter mine]
  exact (start_restricts mine hown).run (covered_keys hcov) (demand_split mine hsplit)

theorem values_solve_part (w : AxisWording α) {x : VarKey} (hx : mine x.node = true) :
    (solve w (bindings.filter fun k _ => mine k.node) (cs.filter (·.within mine))).values[x]? =
      (solve w bindings cs).values[x]? := by
  rw [values_solve, values_solve]
  exact (solved_restricts mine hcov hown hsplit).value_eq hx

/-- There is a complaint about an axis exactly if there is one about the part or about the rest. -/
theorem diagnostics_solve_parts (w : AxisWording α) :
    (solve w bindings cs).diagnostics = [] ↔
      (solve w (bindings.filter fun k _ => mine k.node)
          (cs.filter (·.within mine))).diagnostics = [] ∧
        (solve w (bindings.filter fun k _ => !mine k.node)
          (cs.filter (·.within (!mine ·)))).diagnostics = [] := by
  have hsplit' : ∀ c ∈ cs, ∀ x ∈ c.vars, (!mine x.node) = c.within (!mine ·) := by
    intro c hc x hx
    have hall : ∀ y ∈ c.vars, (!mine y.node) = !c.within mine :=
      fun y hy => congrArg Bool.not (hsplit c hc y hy)
    rw [hall x hx, AxisConstraint.within_of_vars (!mine ·) hall]
  have hin := solved_restricts mine hcov hown hsplit
  have hout := solved_restricts (!mine ·) hcov hown hsplit'
  rw [diagnostics_solve_eq_nil_iff, diagnostics_solve_eq_nil_iff, diagnostics_solve_eq_nil_iff,
    map_demand_filter mine, map_demand_filter (!mine ·),
    (start_restricts mine hown).accepted_iff (covered_keys hcov)
      (demand_split mine hsplit) (start_restricts (!mine ·) hown)]
  rw [and_and_and_comm]
  refine and_congr_right fun _ => ⟨fun hall => ⟨fun x hx => ?_, fun x hx => ?_⟩, fun hall x hx => ?_⟩
  · have hmine := ((bound_part_iff mine hown).mp
      ((registered_solved_iff (covers_part mine hcov hown)).mp hx)).2
    rw [hin.value_eq hmine]
    exact hall x ((hin.registered_iff hmine).mp hx)
  · have hmine := ((bound_part_iff (!mine ·) hown).mp
      ((registered_solved_iff (covers_part (!mine ·) hcov hown)).mp hx)).2
    rw [hout.value_eq hmine]
    exact hall x ((hout.registered_iff hmine).mp hx)
  · cases hmine : mine x.node with
    | true =>
      rw [← hin.value_eq hmine]
      exact hall.1 x ((hin.registered_iff hmine).mpr hx)
    | false =>
      have hmine' : (!mine x.node) = true := by simp [hmine]
      rw [← hout.value_eq hmine']
      exact hall.2 x ((hout.registered_iff hmine').mpr hx)

end Splitting

end AxisInference

namespace ConstraintSet

variable {s : ConstraintSet} {mine : NodeId → Bool}

/-- The constraints on cardinality do not reach from some nodes to others. -/
structure Parted (mine : NodeId → Bool) (s : ConstraintSet) : Prop where
  equal : ∀ a b origin, .equal a b origin ∈ s.cardinality → mine b.node = mine a.node
  group : ∀ n ms, .zipBroadcast n ms ∈ s.cardinality → ∀ m ∈ ms, m.port.node = n

theorem mem_cardinality_part {c : CardinalityConstraint} :
    c ∈ (s.part mine).cardinality ↔ c ∈ s.cardinality ∧ mine c.site = true :=
  List.mem_filter

theorem mem_ports_part {k : PortKey} : k ∈ (s.part mine).ports ↔ k ∈ s.ports ∧ mine k.node = true :=
  PortTable.mem_part_iff

theorem Closed.part (h : s.Closed) (hp : s.Parted mine) : (s.part mine).Closed where
  equal_mem a b origin hab := by
    obtain ⟨hab, hmine⟩ := mem_cardinality_part.mp hab
    obtain ⟨ha, hb⟩ := h.equal_mem a b origin hab
    exact ⟨PortTable.mem_part_iff.mpr ⟨ha, hmine⟩,
      PortTable.mem_part_iff.mpr ⟨hb, (hp.equal a b origin hab).trans hmine⟩⟩
  fixed_mem k c hk := by
    obtain ⟨hk, hmine⟩ := mem_cardinality_part.mp hk
    exact PortTable.mem_part_iff.mpr ⟨h.fixed_mem k c hk, hmine⟩
  member_mem n ms hn m hm := by
    obtain ⟨hn, hmine⟩ := mem_cardinality_part.mp hn
    exact PortTable.mem_part_iff.mpr ⟨h.member_mem n ms hn m hm, (hp.group n ms hn m hm).symm ▸ hmine⟩
  zipMember k info hk hzip := by
    have hmine : mine k.node = true := (PortTable.mem_part_iff.mp
      (OrderedMaps.mem_iff_exists.mpr ⟨info, hk⟩)).2
    have hwhole : s.ports[k]? = some info := (PortTable.getElem?_part hmine).symm.trans hk
    obtain ⟨n, ms, hn, m, hm, rfl⟩ := h.zipMember k info hwhole hzip
    exact ⟨n, ms, mem_cardinality_part.mpr ⟨hn, hp.group n ms hn m hm ▸ hmine⟩, m, hm, rfl⟩

theorem heldBack_part {k : PortKey} (hk : mine k.node = true) (c : Cardinality) :
    (s.part mine).heldBack k c = s.heldBack k c := by
  rw [heldBack, heldBack, ConstraintSet.part, PortTable.getElem?_part hk]

theorem fixedValues_part :
    (s.part mine).fixedValues = s.fixedValues.filter fun x => mine x.1.node := by
  apply filterMap_filter_of
  intro c _ x hx
  split at hx <;> cases hx
  rfl

theorem seeds_part : (s.part mine).seeds = s.seeds.filter fun x => mine x.1.node := by
  rw [seeds, seeds, fixedValues_part, List.filter_comm]
  rw [List.filter_filter, List.filter_filter]
  apply List.filter_congr
  intro x _
  cases hx : mine x.1.node with
  | true => simp [heldBack_part hx]
  | false => simp

theorem broadcastGroups_part :
    (s.part mine).broadcastGroups = s.broadcastGroups.filter fun g => mine g.node := by
  apply filterMap_filter_of
  intro c _ x hx
  split at hx <;> cases hx
  rfl

theorem mem_pendingPorts_part {k : PortKey} (hk : mine k.node = true) :
    k ∈ (s.part mine).pendingPorts ↔ k ∈ s.pendingPorts := by
  rw [Std.ExtTreeSet.mem_iff_contains, Std.ExtTreeSet.mem_iff_contains, mem_pendingPorts_iff,
    mem_pendingPorts_iff]
  refine exists_congr fun c => ?_
  rw [mem_cardinality_part, heldBack_part hk]
  exact and_congr_left fun _ => and_iff_left hk

section Splitting

variable (hp : s.Parted mine)
include hp

theorem Parted.not : s.Parted (!mine ·) :=
  ⟨fun a b origin h => congrArg Bool.not (hp.equal a b origin h), hp.group⟩

private theorem equations_part {f : CardinalityConstraint → Option PortEquation}
    (hf : ∀ c q, f c = some q → ∃ origin, c = .equal q.a q.b origin) :
    ((s.cardinality.filter fun c => mine c.site).filterMap f).map PortEquation.demand =
      ((s.cardinality.filterMap f).map PortEquation.demand).filter (·.within fun k => mine k.node) := by
  rw [List.map_filterMap, List.map_filterMap]
  apply filterMap_filter_of
  intro c hc d hd
  obtain ⟨q, hq, rfl⟩ := Option.map_eq_some_iff.mp hd
  obtain ⟨origin, rfl⟩ := hf c q hq
  simp [Demand.within, PortEquation.demand, Demand.keys, hp.equal _ _ _ hc,
    CardinalityConstraint.site]

theorem demands_part :
    (s.part mine).demands = s.demands.filter (·.within fun k => mine k.node) := by
  rw [demands, demands, List.filter_append, List.filter_append, seeds_part]
  refine congrArg₂ (· ++ ·) (congrArg₂ (· ++ ·) ?_ ?_) ?_
  · apply equations_part hp
    intro c q hq
    split at hq <;> cases hq
    exact ⟨_, rfl⟩
  · rw [List.filter_map]
    congr 1
    apply List.filter_congr
    intro x _
    simp [Demand.within, seedDemand, Demand.keys]
  · apply equations_part hp
    intro c q hq
    split at hq <;> cases hq
    exact ⟨_, rfl⟩

private theorem demands_split {d : Demand PortKey Cardinality} (hd : d ∈ s.demands) :
    ∀ k ∈ d.keys, mine k.node = d.within fun k => mine k.node := by
  cases d with
  | equal a b =>
    obtain ⟨origin, hab⟩ := equal_mem_demands_iff.mp hd
    simp [Demand.keys, Demand.within, hp.equal a b origin hab]
  | holds k c => simp [Demand.keys, Demand.within]

variable (h : s.Closed)

omit hp in
private theorem start_restricts (mine : NodeId → Bool) (s : ConstraintSet) :
    (CardinalityInference.start s.ports).Restricts (fun k => mine k.node = true)
      (CardinalityInference.start (s.part mine).ports) := by
  obtain ⟨hpres, hreg⟩ := CardinalityInference.start_presents s.ports
  obtain ⟨hpres', hreg'⟩ := CardinalityInference.start_presents (s.part mine).ports
  refine .of_initial hpres hpres' fun k hk => ?_
  rw [hreg, hreg']
  exact PortTable.mem_part_iff.trans (and_iff_left hk)

omit hp in
include h in
private theorem demand_keys_registered : ∀ d ∈ s.demands, ∀ k ∈ d.keys,
    (CardinalityInference.start s.ports).Registered k := fun d hd k hk =>
  ((CardinalityInference.start_presents s.ports).2 k).mpr (h.demand_keys d hd k hk)

include h

theorem imposed_restricts : Resolution.Restricts mine (imposed s) (imposed (s.part mine)) := by
  refine ⟨?_, fun _ => Iff.rfl⟩
  rw [imposed_partition, imposed_partition, demands_part hp]
  exact (start_restricts mine s).run (demand_keys_registered h) fun d hd => demands_split hp hd

/-- What is resolved for the ports of some nodes is what their constraints alone come to. -/
theorem resolved_restricts : Resolution.Restricts mine (resolved s) (resolved (s.part mine)) := by
  have hreg : ∀ g ∈ s.broadcastGroups, ∀ m ∈ g.members, (imposed s).partition.Registered m.port :=
    fun g hg m hm => imposed_registered (h.member_mem _ _ (broadcastGroups_iff.mp hg) m hm)
  have hown : ∀ g ∈ s.broadcastGroups, ∀ m ∈ g.members, m.port.node = g.node :=
    fun g hg m hm => hp.group _ _ (broadcastGroups_iff.mp hg) m hm
  have hreg' : ∀ g ∈ s.broadcastGroups.filter fun g => mine g.node, ∀ m ∈ g.members,
      (imposed (s.part mine)).partition.Registered m.port := by
    rw [← broadcastGroups_part]
    exact fun g hg m hm =>
      imposed_registered ((h.part hp).member_mem _ _ (broadcastGroups_iff.mp hg) m hm)
  have hn : s.ports.size < s.ports.size + (s.part mine).ports.size + 1 := by omega
  have hn' : (s.part mine).ports.size < s.ports.size + (s.part mine).ports.size + 1 := by omega
  rw [resolved_eq_saturate h hn, resolved_eq_saturate (h.part hp) hn', broadcastGroups_part]
  generalize s.ports.size + (s.part mine).ports.size + 1 = n
  have hmany := (imposed_restricts hp h).saturate (Resolution.spreadMany_agreeOn mine)
    (imposed_accounted s) (imposed_accounted (s.part mine)) hreg hown n
  obtain ⟨hacc, hafter⟩ := Resolution.saturate_after (imposed_accounted s) hreg n
  obtain ⟨hacc', -⟩ := Resolution.saturate_after (imposed_accounted (s.part mine)) hreg' n
  refine hmany.saturate ?_ hacc hacc' (fun g hg m hm => ?_) hown n
  · exact Resolution.commitOne_agreeOn fun k hk => mem_pendingPorts_part hk
  · exact (hafter.fills.registered_iff _).mpr (hreg g hg m hm)

theorem resolved_value_part {k : PortKey} (hk : mine k.node = true) :
    (resolved (s.part mine)).partition.value? k = (resolved s).partition.value? k :=
  (resolved_restricts hp h).partition.value_eq hk

omit hp in
/-- No complaint about cardinalities: all demands are met, no group is given up, every port has a
value. -/
theorem solveCardinality_eq_nil_iff :
    s.solveCardinality.diagnostics = [] ↔
      Demand.Accepted s.demands (CardinalityInference.start s.ports) ∧
        (∀ g ∈ s.broadcastGroups, g.node ∉ (resolved s).conflicted) ∧
        ∀ k ∈ s.ports, ∃ c, (resolved s).partition.value? k = some c := by
  constructor
  · intro hnil
    have hno : ∀ d ∈ s.solveCardinality.diagnostics, d.kind ≠ .cardinalityConflict := by simp [hnil]
    exact ⟨demands_accepted h hno, fun g _ => not_mem_conflicted h hno g.node,
      fun k hk => exists_resolved_value h hnil hk⟩
  · rintro ⟨hacc, hconf, hval⟩
    refine solveCardinality_eq_nil ((resolved_diagnostics_eq_nil_iff h).mpr ⟨?_, hconf⟩) hval
    exact imposed_diagnostics_eq_nil_iff.mpr hacc

theorem diagnostics_solveCardinality_parts :
    s.solveCardinality.diagnostics = [] ↔
      (s.part mine).solveCardinality.diagnostics = [] ∧
        (s.part (!mine ·)).solveCardinality.diagnostics = [] := by
  have hin := resolved_restricts hp h
  have hout := resolved_restricts hp.not h
  rw [solveCardinality_eq_nil_iff h, solveCardinality_eq_nil_iff (h.part hp),
    solveCardinality_eq_nil_iff (h.part hp.not), demands_part hp, demands_part hp.not,
    (start_restricts mine s).accepted_iff (demand_keys_registered h)
      (fun d hd => demands_split hp hd) (start_restricts (!mine ·) s)]
  simp only [broadcastGroups_part, List.mem_filter, and_imp, mem_ports_part]
  constructor
  · rintro ⟨⟨hacc, hacc'⟩, hconf, hval⟩
    refine ⟨⟨hacc, fun g hg hm => ?_, fun k hk hm => ?_⟩, hacc', fun g hg hm => ?_, fun k hk hm => ?_⟩
    · exact mt (hin.conflicted_iff hm).mp (hconf g hg)
    · obtain ⟨c, hc⟩ := hval k hk
      exact ⟨c, (hin.partition.value_eq hm).trans hc⟩
    · exact mt (hout.conflicted_iff hm).mp (hconf g hg)
    · obtain ⟨c, hc⟩ := hval k hk
      exact ⟨c, (hout.partition.value_eq hm).trans hc⟩
  · rintro ⟨⟨hacc, hconf, hval⟩, hacc', hconf', hval'⟩
    refine ⟨⟨hacc, hacc'⟩, fun g hg => ?_, fun k hk => ?_⟩
    · cases hm : mine g.node with
      | true => exact mt (hin.conflicted_iff hm).mpr (hconf g hg hm)
      | false =>
        have hm' : (!mine g.node) = true := by simp [hm]
        exact mt (hout.conflicted_iff hm').mpr (hconf' g hg hm')
    · cases hm : mine k.node with
      | true =>
        obtain ⟨c, hc⟩ := hval k hk hm
        exact ⟨c, (hin.partition.value_eq hm).symm.trans hc⟩
      | false =>
        have hm' : (!mine k.node) = true := by simp [hm]
        obtain ⟨c, hc⟩ := hval' k hk hm'
        exact ⟨c, (hout.partition.value_eq hm').symm.trans hc⟩

end Splitting

end ConstraintSet

end PatchTyping
