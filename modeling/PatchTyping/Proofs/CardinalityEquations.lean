import PatchTyping.Proofs.BroadcastSweeps
import PatchTyping.Proofs.ExtractedPorts

/-!
# Equations and seeds of the cardinality axis

Before the groups are looked at, equations and known values are imposed on the partition of the ports as
one list of demands. The constraints of a patch speak only of ports in its table, every member that is
held back is in some group, and ports of a node that share a variable are equated.
-/

namespace PatchTyping

open ValuedPartition

namespace PortEquation

def demand (q : PortEquation) : Demand PortKey Cardinality := .equal q.a q.b

theorem imposeAll_partition (qs : List PortEquation) (p : PortPartition) :
    (imposeAll qs p).2 = Demand.run p (qs.map demand) := by
  induction qs generalizing p with
  | nil => rfl
  | cons q qs ih => simp [imposeAll, ih, demand, Demand.impose]

theorem imposeAll_eq_nil_iff (qs : List PortEquation) (p : PortPartition) :
    (imposeAll qs p).1 = [] ↔ Demand.Accepted (qs.map demand) p := by
  induction qs generalizing p with
  | nil => simp [imposeAll, Demand.Accepted]
  | cons q qs ih => simp [imposeAll, Demand.Accepted, ih, demand, Demand.impose]

theorem kind_of_mem_imposeAll {qs : List PortEquation} {p : PortPartition} {d : Diagnostic}
    (hd : d ∈ (imposeAll qs p).1) : d.kind = .cardinalityConflict := by
  induction qs generalizing p with
  | nil => cases hd
  | cons q qs ih =>
    rcases List.mem_append.mp hd with hd | hd
    · obtain ⟨c, -, rfl⟩ := Option.map_eq_some_iff.mp (Option.mem_toList.mp hd)
      rfl
    · exact ih hd

end PortEquation

namespace CardinalityInference

def seedDemand (x : PortKey × Cardinality) : Demand PortKey Cardinality := .holds x.1 x.2

theorem seedAll_partition (seeds : List (PortKey × Cardinality)) (p : PortPartition) :
    (seedAll seeds p).2 = Demand.run p (seeds.map seedDemand) := by
  induction seeds generalizing p with
  | nil => rfl
  | cons x seeds ih => simp [seedAll, ih, seedDemand, Demand.impose]

theorem seedAll_eq_nil_iff (seeds : List (PortKey × Cardinality)) (p : PortPartition) :
    (seedAll seeds p).1 = [] ↔ Demand.Accepted (seeds.map seedDemand) p := by
  induction seeds generalizing p with
  | nil => simp [seedAll, Demand.Accepted]
  | cons x seeds ih => simp [seedAll, Demand.Accepted, ih, seedDemand, Demand.impose]

theorem kind_of_mem_seedAll {seeds : List (PortKey × Cardinality)} {p : PortPartition}
    {d : Diagnostic} (hd : d ∈ (seedAll seeds p).1) : d.kind = .cardinalityConflict := by
  induction seeds generalizing p with
  | nil => cases hd
  | cons x seeds ih =>
    rcases List.mem_append.mp hd with hd | hd
    · obtain ⟨c, -, rfl⟩ := Option.map_eq_some_iff.mp (Option.mem_toList.mp hd)
      rfl
    · exact ih hd

end CardinalityInference

namespace ConstraintSet

open CardinalityInference

variable {s : ConstraintSet}

/-- Equations of templates, then known values, then equations of edges. -/
def demands (s : ConstraintSet) : List (Demand PortKey Cardinality) :=
  s.templateEquations.map PortEquation.demand ++ s.seeds.map seedDemand
    ++ s.edgeEquations.map PortEquation.demand

theorem fixedValues_iff {k : PortKey} {c : Cardinality} :
    (k, c) ∈ s.fixedValues ↔ .fixed k c ∈ s.cardinality := by
  simp only [fixedValues, List.mem_filterMap]
  constructor
  · rintro ⟨x, hx, heq⟩
    split at heq <;> cases heq
    exact hx
  · exact fun h => ⟨_, h, rfl⟩

theorem broadcastGroups_iff {g : BroadcastGroup} :
    g ∈ s.broadcastGroups ↔ .zipBroadcast g.node g.members ∈ s.cardinality := by
  simp only [broadcastGroups, List.mem_filterMap]
  constructor
  · rintro ⟨x, hx, heq⟩
    split at heq <;> cases heq
    exact hx
  · exact fun h => ⟨_, h, rfl⟩

theorem equal_mem_demands_iff {a b : PortKey} :
    .equal a b ∈ s.demands ↔ ∃ origin, .equal a b origin ∈ s.cardinality := by
  simp only [demands, List.mem_append, List.mem_map, templateEquations, edgeEquations,
    List.mem_filterMap, PortEquation.demand, seedDemand]
  constructor
  · rintro ((⟨q, ⟨x, hx, hq⟩, heq⟩ | ⟨x, -, heq⟩) | ⟨q, ⟨x, hx, hq⟩, heq⟩)
    · split at hq <;> cases hq
      cases heq
      exact ⟨_, hx⟩
    · cases heq
    · split at hq <;> cases hq
      cases heq
      exact ⟨_, hx⟩
  · rintro ⟨origin, h⟩
    cases origin with
    | template n => exact .inl (.inl ⟨⟨a, b, .template n⟩, ⟨_, h, rfl⟩, rfl⟩)
    | edge e => exact .inr ⟨⟨a, b, .edge e⟩, ⟨_, h, rfl⟩, rfl⟩

theorem holds_mem_demands_iff {k : PortKey} {c : Cardinality} :
    .holds k c ∈ s.demands ↔ .fixed k c ∈ s.cardinality ∧ s.heldBack k c = false := by
  have hseed : (k, c) ∈ s.seeds ↔ .fixed k c ∈ s.cardinality ∧ s.heldBack k c = false := by
    simp [seeds, fixedValues_iff]
  rw [← hseed]
  simp only [demands, List.mem_append, List.mem_map, PortEquation.demand, seedDemand]
  constructor
  · rintro ((⟨q, -, heq⟩ | ⟨x, hx, heq⟩) | ⟨q, -, heq⟩)
    · cases heq
    · cases heq
      exact hx
    · cases heq
  · exact fun h => .inl (.inr ⟨_, h, rfl⟩)

theorem mem_pendingPorts_iff {k : PortKey} :
    s.pendingPorts.contains k = true ↔ ∃ c, .fixed k c ∈ s.cardinality ∧ s.heldBack k c = true := by
  simp only [pendingPorts, Std.ExtTreeSet.contains_ofList, List.contains_eq_mem,
    decide_eq_true_eq, List.mem_map, List.mem_filter, Prod.exists, fixedValues_iff]
  constructor
  · rintro ⟨_, c, h, rfl⟩
    exact ⟨c, h⟩
  · rintro ⟨c, h⟩
    exact ⟨k, c, h, rfl⟩

theorem heldBack_iff {k : PortKey} {c : Cardinality} :
    s.heldBack k c = true ↔ c = .one ∧
      ∃ info, s.ports[k]? = some info ∧ info.zipMember = true ∧ info.pinned = false := by
  simp [heldBack, Option.any_eq_true]

end ConstraintSet

namespace CardinalityInference

variable {s : ConstraintSet}

theorem start_presents (ports : PortTable) :
    (start ports).Presents (fun _ _ => False) (fun _ _ => False) ∧
      ∀ k, (start ports).Registered k ↔ k ∈ ports := by
  obtain ⟨h, hreg⟩ := Presents.registerAll (V := Cardinality) ports.keys
  exact ⟨h, fun k => (hreg k).trans Std.ExtTreeMap.mem_keys⟩

theorem imposed_partition (s : ConstraintSet) :
    (imposed s).partition = Demand.run (start s.ports) s.demands := by
  simp only [imposed, PortEquation.imposeAll_partition, seedAll_partition, ConstraintSet.demands,
    Demand.run_append]

theorem imposed_diagnostics_eq_nil_iff :
    (imposed s).diagnostics = [] ↔ Demand.Accepted s.demands (start s.ports) := by
  simp only [imposed, List.append_eq_nil_iff, PortEquation.imposeAll_eq_nil_iff, seedAll_eq_nil_iff,
    PortEquation.imposeAll_partition, seedAll_partition, ConstraintSet.demands,
    Demand.accepted_append, Demand.run_append]

theorem imposed_accounted (s : ConstraintSet) : (imposed s).Accounted where
  wellFormed := by
    rw [imposed_partition]
    exact ((start_presents s.ports).1.wellFormed.run s.demands).1
  kind d hd := by
    rcases List.mem_append.mp hd with hd | hd
    · rcases List.mem_append.mp hd with hd | hd
      · exact PortEquation.kind_of_mem_imposeAll hd
      · exact kind_of_mem_seedAll hd
    · exact PortEquation.kind_of_mem_imposeAll hd
  reported n hn := absurd hn (by simp [imposed])

theorem imposed_registered {k : PortKey} (hk : k ∈ s.ports) : (imposed s).partition.Registered k := by
  rw [imposed_partition]
  exact ((start_presents s.ports).1.wellFormed.run s.demands).2 k
    (((start_presents s.ports).2 k).mpr hk)

end CardinalityInference

/-- The constraints speak of ports in the table, and what is held back is in some group. -/
structure ConstraintSet.Closed (s : ConstraintSet) : Prop where
  equal_mem : ∀ a b origin, .equal a b origin ∈ s.cardinality → a ∈ s.ports ∧ b ∈ s.ports
  fixed_mem : ∀ k c, .fixed k c ∈ s.cardinality → k ∈ s.ports
  member_mem : ∀ n ms, .zipBroadcast n ms ∈ s.cardinality → ∀ m ∈ ms, m.port ∈ s.ports
  zipMember : ∀ (k : PortKey) (info : PortInfo), s.ports[k]? = some info → info.zipMember = true →
    ∃ n ms, .zipBroadcast n ms ∈ s.cardinality ∧ ∃ m ∈ ms, m.port = k

theorem ConstraintSet.Closed.demand_keys {s : ConstraintSet} (h : s.Closed) :
    ∀ d ∈ s.demands, ∀ k ∈ d.keys, k ∈ s.ports := by
  intro d hd k hk
  cases d with
  | equal a b =>
    obtain ⟨origin, horigin⟩ := equal_mem_demands_iff.mp hd
    obtain ⟨ha, hb⟩ := h.equal_mem a b origin horigin
    rcases List.mem_cons.mp hk with rfl | hk
    · exact ha
    · rw [List.mem_singleton.mp hk]
      exact hb
  | holds l c =>
    rw [List.mem_singleton.mp hk]
    exact h.fixed_mem l c (holds_mem_demands_iff.mp hd).1

/-- Demands that are all accepted present the imposed partition. -/
theorem CardinalityInference.imposed_presents {s : ConstraintSet} (h : s.Closed)
    (ha : Demand.Accepted s.demands (start s.ports)) :
    (imposed s).partition.Presents (fun a b => False ∨ .equal a b ∈ s.demands)
        (fun k c => False ∨ .holds k c ∈ s.demands) ∧
      ∀ k, (imposed s).partition.Registered k ↔ k ∈ s.ports := by
  obtain ⟨hstart, hreg⟩ := start_presents s.ports
  obtain ⟨hrun, hreg'⟩ := hstart.run
    (fun d hd k hk => (hreg k).mpr (h.demand_keys d hd k hk)) ha
  rw [imposed_partition]
  exact ⟨hrun, fun k => (hreg' k).trans (hreg k)⟩

section Declared

variable {node : NodeId} {first : Std.ExtTreeMap String PortKey} {infos : List (PortKey × PortInfo)}

theorem mem_declaredCardinalities {c : CardinalityConstraint}
    (h : c ∈ declaredCardinalities node first infos) :
    (∃ x ∈ infos, ∃ v, x.2.type.cardinality = .inst v ∧ c = .fixed x.1 v) ∨
      ∃ x ∈ infos, ∃ name a, x.2.type.cardinality = .var name ∧
        c = .equal a x.1 (.template node) ∧
        (first[name]? = some a ∨ ∃ y ∈ infos, y.1 = a ∧ y.2.type.cardinality = .var name) := by
  induction infos generalizing first with
  | nil => cases h
  | cons x infos ih =>
    have hrest : ∀ {first' : Std.ExtTreeMap String PortKey},
        (∀ name a, first'[name]? = some a →
          first[name]? = some a ∨ x.1 = a ∧ x.2.type.cardinality = .var name) →
        c ∈ declaredCardinalities node first' infos →
        (∃ x' ∈ x :: infos, ∃ v, x'.2.type.cardinality = .inst v ∧ c = .fixed x'.1 v) ∨
          ∃ x' ∈ x :: infos, ∃ name a, x'.2.type.cardinality = .var name ∧
            c = .equal a x'.1 (.template node) ∧
            (first[name]? = some a ∨
              ∃ y ∈ x :: infos, y.1 = a ∧ y.2.type.cardinality = .var name) := by
      intro first' hfirst hmem
      rcases ih hmem with ⟨y, hy, hyc⟩ | ⟨y, hy, name, a, hyc, rfl, hsrc⟩
      · exact .inl ⟨y, List.mem_cons_of_mem _ hy, hyc⟩
      · refine .inr ⟨y, List.mem_cons_of_mem _ hy, name, a, hyc, rfl, ?_⟩
        rcases hsrc with hsrc | ⟨z, hz, hzc⟩
        · rcases hfirst name a hsrc with hold | hx
          · exact .inl hold
          · exact .inr ⟨x, List.mem_cons_self, hx⟩
        · exact .inr ⟨z, List.mem_cons_of_mem _ hz, hzc⟩
    unfold declaredCardinalities at h
    split at h
    · next v hv =>
      rcases List.mem_cons.mp h with rfl | h
      · exact .inl ⟨x, List.mem_cons_self, v, hv, rfl⟩
      · exact hrest (fun _ _ => .inl) h
    · next name hv =>
      split at h
      · next a ha =>
        rcases List.mem_cons.mp h with rfl | h
        · exact .inr ⟨x, List.mem_cons_self, name, a, hv, rfl, .inl ha⟩
        · exact hrest (fun _ _ => .inl) h
      · refine hrest (fun name' a ha => ?_) h
        rw [Std.ExtTreeMap.getElem?_insert] at ha
        split at ha
        · next heq =>
          cases (Std.LawfulEqOrd.eq_of_compare heq : name = name')
          exact .inr ⟨Option.some.inj ha, hv⟩
        · exact .inl ha

theorem fixed_mem_declaredCardinalities {x : PortKey × PortInfo} (hx : x ∈ infos) {v : Cardinality}
    (hv : x.2.type.cardinality = .inst v) : .fixed x.1 v ∈ declaredCardinalities node first infos := by
  induction infos generalizing first with
  | nil => cases hx
  | cons y infos ih =>
    unfold declaredCardinalities
    rcases List.mem_cons.mp hx with rfl | hx
    · simp [hv]
    · split
      · exact List.mem_cons_of_mem _ (ih hx)
      · split
        · exact List.mem_cons_of_mem _ (ih hx)
        · exact ih hx

private theorem equal_mem_declaredCardinalities {name : String} {a : PortKey}
    (ha : first[name]? = some a) {x : PortKey × PortInfo} (hx : x ∈ infos)
    (hv : x.2.type.cardinality = .var name) :
    .equal a x.1 (.template node) ∈ declaredCardinalities node first infos := by
  induction infos generalizing first with
  | nil => cases hx
  | cons y infos ih =>
    unfold declaredCardinalities
    rcases List.mem_cons.mp hx with rfl | hx
    · simp [hv, ha]
    · split
      · exact List.mem_cons_of_mem _ (ih ha hx)
      · next name' _ =>
        split
        · exact List.mem_cons_of_mem _ (ih ha hx)
        · next hnone =>
          refine ih ?_ hx
          have hne : name' ≠ name := by
            rintro rfl
            rw [ha] at hnone
            cases hnone
          simpa [Std.ExtTreeMap.getElem?_insert, hne] using ha

/-- All ports with a variable are equated with one of them. -/
theorem exists_first_of_var (node : NodeId) (first : Std.ExtTreeMap String PortKey)
    (infos : List (PortKey × PortInfo)) (name : String) :
    ∃ a, ∀ x ∈ infos, x.2.type.cardinality = .var name →
      x.1 = a ∨ .equal a x.1 (.template node) ∈ declaredCardinalities node first infos := by
  cases ha : first[name]? with
  | some a => exact ⟨a, fun x hx hv => .inr (equal_mem_declaredCardinalities ha hx hv)⟩
  | none =>
    induction infos generalizing first with
    | nil => exact ⟨⟨node, name⟩, by simp⟩
    | cons y infos ih =>
      cases hy : y.2.type.cardinality with
      | inst v =>
        obtain ⟨a, h⟩ := ih first ha
        refine ⟨a, fun x hx hv => ?_⟩
        rcases List.mem_cons.mp hx with rfl | hx
        · rw [hy] at hv
          cases hv
        · refine (h x hx hv).imp_right fun hmem => ?_
          simp [declaredCardinalities, hy, hmem]
      | var name' =>
        by_cases hname : name' = name
        · subst hname
          refine ⟨y.1, fun x hx hv => ?_⟩
          rcases List.mem_cons.mp hx with rfl | hx
          · exact .inl rfl
          · have hins : (first.insert name' y.1)[name']? = some y.1 := by simp
            have hmem : .equal y.1 x.1 (.template node) ∈
                declaredCardinalities node (first.insert name' y.1) infos :=
              equal_mem_declaredCardinalities hins hx hv
            exact .inr (by simp [declaredCardinalities, hy, ha, hmem])
        · cases hf : first[name']? with
          | some b =>
            obtain ⟨a, h⟩ := ih first ha
            refine ⟨a, fun x hx hv => ?_⟩
            rcases List.mem_cons.mp hx with rfl | hx
            · rw [hy] at hv
              cases hv
              exact absurd rfl hname
            · refine (h x hx hv).imp_right fun hmem => ?_
              simp [declaredCardinalities, hy, hf, hmem]
          | none =>
            have hins : (first.insert name' y.1)[name]? = none := by
              simpa [Std.ExtTreeMap.getElem?_insert, hname] using ha
            obtain ⟨a, h⟩ := ih _ hins
            refine ⟨a, fun x hx hv => ?_⟩
            rcases List.mem_cons.mp hx with rfl | hx
            · rw [hy] at hv
              cases hv
              exact absurd rfl hname
            · refine (h x hx hv).imp_right fun hmem => ?_
              simp [declaredCardinalities, hy, hf, hmem]

end Declared

theorem mem_of_mem_consecutive {α : Type} {l : List α} {x : α × α} (h : x ∈ consecutive l) :
    x.1 ∈ l ∧ x.2 ∈ l := by
  induction l with
  | nil => cases h
  | cons a l ih =>
    cases l with
    | nil => cases h
    | cons b l =>
      rcases List.mem_cons.mp h with rfl | h
      · simp
      · exact ⟨List.mem_cons_of_mem _ (ih h).1, List.mem_cons_of_mem _ (ih h).2⟩

theorem consecutive_map {α β : Type} (f : α → β) (l : List α) :
    consecutive (l.map f) = (consecutive l).map (Prod.map f f) := by
  induction l with
  | nil => rfl
  | cons a l ih =>
    cases l with
    | nil => rfl
    | cons b l => exact congrArg (List.cons (f a, f b)) ih

namespace Patch

variable {g : Patch} {catalog : Catalog}

theorem mem_cardinality_iff {c : CardinalityConstraint} :
    c ∈ (g.constraints catalog).cardinality ↔
      (∃ id n b, g.Instantiates catalog id n b ∧
        (c ∈ declaredCardinalities id ∅ (n.portInfos id b) ∨
          ∃ t ∈ b.templates, c ∈ (g.portTable catalog).templateCardinality id t)) ∨
      ∃ p ∈ g.edgePairs (g.portTable catalog), c = .equal p.source p.target (.edge p.edge) := by
  simp only [constraints, cardinalityConstraints, List.mem_append, List.mem_flatMap, Prod.exists,
    mem_knownNodes_iff, List.mem_map, eq_comm]

theorem mem_portTable_iff {k : PortKey} :
    k ∈ g.portTable catalog ↔ ∃ n b, g.Instantiates catalog k.node n b ∧ k.port ∈ b.portNames := by
  rw [Std.ExtTreeMap.mem_iff_isSome_getElem?, Option.isSome_iff_exists]
  constructor
  · rintro ⟨info, hinfo⟩
    obtain ⟨n, b, hi, hmem⟩ := exists_of_getElem?_portTable hinfo
    obtain ⟨x, hx, hk, -⟩ := Node.mem_portInfos_iff.mp hmem
    exact ⟨n, b, hi, List.mem_map.mpr ⟨x, hx, (congrArg PortKey.port hk).symm⟩⟩
  · rintro ⟨n, b, hi, hport⟩
    obtain ⟨x, hx, hname⟩ := List.mem_map.mp hport
    obtain ⟨info, hinfo⟩ := exists_getElem?_portTable hi hx
    exact ⟨info, by rwa [hname] at hinfo⟩

theorem mem_portTable_of_template (hc : catalog.Built) {id : NodeId} {n : Node} {b : Block}
    (hi : g.Instantiates catalog id n b) {t : Template} (ht : t ∈ b.templates) {p : String}
    (hp : p ∈ t.ports) : PortKey.mk id p ∈ g.portTable catalog :=
  mem_portTable_iff.mpr ⟨n, b, hi, (hc.valid hi.2).template_ports t ht p hp⟩

private theorem mem_portTable_of_mem_portInfos {id : NodeId} {n : Node} {b : Block}
    (hi : g.Instantiates catalog id n b) {x : PortKey × PortInfo} (hx : x ∈ n.portInfos id b) :
    x.1 ∈ g.portTable catalog := by
  obtain ⟨y, hy, hk, -⟩ := Node.mem_portInfos_iff.mp (show (x.1, x.2) ∈ _ from hx)
  rw [hk]
  exact mem_portTable_iff.mpr ⟨n, b, hi, List.mem_map.mpr ⟨y, hy, rfl⟩⟩

theorem mem_portTable_of_faces {k : PortKey} {d : PortDirection}
    (h : (g.portTable catalog).faces k d = true) : k ∈ g.portTable catalog := by
  obtain ⟨info, hinfo, -⟩ := PortTable.faces_iff.mp h
  exact Std.ExtTreeMap.mem_iff_isSome_getElem?.mpr (by simp [hinfo])

theorem zipBroadcast_mem_iff {node : NodeId} {members : List ZipMember} :
    .zipBroadcast node members ∈ (g.constraints catalog).cardinality ↔
      ∃ n b ps, g.Instantiates catalog node n b ∧ .zipBroadcast ps ∈ b.templates ∧
        members = ps.filterMap fun p =>
          (g.portTable catalog)[PortKey.mk node p]?.map fun info => ⟨⟨node, p⟩, info.direction⟩ := by
  rw [mem_cardinality_iff]
  constructor
  · rintro (⟨id, n, b, hi, h | ⟨t, ht, h⟩⟩ | ⟨p, -, h⟩)
    · rcases mem_declaredCardinalities h with ⟨_, _, _, _, h⟩ | ⟨_, _, _, _, _, h, _⟩ <;> cases h
    · unfold PortTable.templateCardinality at h
      split at h
      · obtain ⟨x, -, h⟩ := List.mem_map.mp h
        cases h
      · cases h
      · next ps =>
        cases List.mem_singleton.mp h
        exact ⟨n, b, ps, hi, ht, rfl⟩
      · cases h
    · cases h
  · rintro ⟨n, b, ps, hi, ht, rfl⟩
    exact .inl ⟨node, n, b, hi, .inr ⟨_, ht, List.mem_singleton.mpr rfl⟩⟩

theorem fixed_mem_iff {k : PortKey} {c : Cardinality} :
    .fixed k c ∈ (g.constraints catalog).cardinality ↔
      ∃ n b info, g.Instantiates catalog k.node n b ∧ (k, info) ∈ n.portInfos k.node b ∧
        info.type.cardinality = .inst c := by
  rw [mem_cardinality_iff]
  constructor
  · rintro (⟨id, n, b, hi, h | ⟨t, ht, h⟩⟩ | ⟨p, -, h⟩)
    · rcases mem_declaredCardinalities h with ⟨x, hx, v, hv, heq⟩ | ⟨_, _, _, _, _, heq, _⟩
      · cases heq
        obtain ⟨y, hy, hk, -⟩ := Node.mem_portInfos_iff.mp (show (x.1, x.2) ∈ _ from hx)
        have hnode : x.1.node = id := congrArg PortKey.node hk
        subst hnode
        exact ⟨n, b, x.2, hi, hx, hv⟩
      · cases heq
    · unfold PortTable.templateCardinality at h
      split at h
      · obtain ⟨x, -, h⟩ := List.mem_map.mp h
        cases h
      · cases h
      · cases List.mem_singleton.mp h
      · cases h
    · cases h
  · rintro ⟨n, b, info, hi, hmem, hv⟩
    exact .inl ⟨k.node, n, b, hi, .inl (fixed_mem_declaredCardinalities hmem hv)⟩

theorem constraints_closed (hc : catalog.Built) : (g.constraints catalog).Closed where
  equal_mem a b origin h := by
    rcases mem_cardinality_iff.mp h with ⟨id, n, bl, hi, h | ⟨t, ht, h⟩⟩ | ⟨p, hp, h⟩
    · rcases mem_declaredCardinalities h with ⟨_, _, _, _, heq⟩ | ⟨x, hx, name, a', _, heq, hsrc⟩
      · cases heq
      · cases heq
        refine ⟨?_, mem_portTable_of_mem_portInfos hi hx⟩
        rcases hsrc with hsrc | ⟨y, hy, rfl, -⟩
        · simp at hsrc
        · exact mem_portTable_of_mem_portInfos hi hy
    · unfold PortTable.templateCardinality at h
      split at h
      · next ps =>
        obtain ⟨x, hx, heq⟩ := List.mem_map.mp h
        cases heq
        have hname : ∀ k ∈ ps.map (PortKey.mk id), k ∈ g.portTable catalog := by
          intro k hk
          obtain ⟨p, hp, rfl⟩ := List.mem_map.mp hk
          exact mem_portTable_of_template hc hi ht hp
        exact ⟨hname _ (mem_of_mem_consecutive hx).1, hname _ (mem_of_mem_consecutive hx).2⟩
      · cases h
      · cases List.mem_singleton.mp h
      · cases h
    · cases h
      obtain ⟨-, hj, -⟩ := mem_edgePairs_iff.mp hp
      obtain ⟨hs, ht⟩ := PortTable.joins_iff.mp hj
      exact ⟨mem_portTable_of_faces hs, mem_portTable_of_faces ht⟩
  fixed_mem k c h := by
    obtain ⟨n, b, info, hi, hmem, -⟩ := fixed_mem_iff.mp h
    exact mem_portTable_of_mem_portInfos hi hmem
  member_mem node ms h m hm := by
    obtain ⟨n, b, ps, -, -, rfl⟩ := zipBroadcast_mem_iff.mp h
    obtain ⟨p, -, hp⟩ := List.mem_filterMap.mp hm
    obtain ⟨info, hinfo, rfl⟩ := Option.map_eq_some_iff.mp hp
    exact Std.ExtTreeMap.mem_iff_isSome_getElem?.mpr (by simp [constraints, hinfo])
  zipMember k info hinfo hzip := by
    obtain ⟨n, b, hi, hmem⟩ := exists_of_getElem?_portTable hinfo
    obtain ⟨x, hx, hk, rfl⟩ := Node.mem_portInfos_iff.mp hmem
    obtain ⟨t, ht, hp⟩ := List.mem_flatMap.mp
      (by simpa [Node.infoOf] using hzip : x.2.name ∈ b.zipMembers)
    split at hp
    · next ps =>
      refine ⟨k.node, _, zipBroadcast_mem_iff.mpr ⟨n, b, ps, hi, ht, rfl⟩, ⟨k, x.1⟩, ?_, rfl⟩
      refine List.mem_filterMap.mpr ⟨x.2.name, hp, ?_⟩
      rw [← hk]
      exact Option.map_eq_some_iff.mpr ⟨_, hinfo, rfl⟩
    · cases hp

theorem eqvGen_of_sameVariable {k l : PortKey} {i j : PortInfo} {name : String}
    (hk : (g.portTable catalog)[k]? = some i) (hl : (g.portTable catalog)[l]? = some j)
    (hnode : k.node = l.node) (hi : i.type.cardinality = .var name)
    (hj : j.type.cardinality = .var name) :
    Relation.EqvGen (fun a b => .equal a b ∈ (g.constraints catalog).demands) k l := by
  obtain ⟨n, b, hinst, hmem⟩ := exists_of_getElem?_portTable hk
  obtain ⟨n', b', hinst', hmem'⟩ := exists_of_getElem?_portTable hl
  rw [← hnode] at hinst' hmem'
  cases hinst.1.symm.trans hinst'.1
  cases hinst.2.symm.trans hinst'.2
  obtain ⟨a, ha⟩ := exists_first_of_var k.node ∅ (n.portInfos k.node b) name
  have hto : ∀ {x : PortKey} {info : PortInfo}, (x, info) ∈ n.portInfos k.node b →
      info.type.cardinality = .var name →
      Relation.EqvGen (fun a b => .equal a b ∈ (g.constraints catalog).demands) a x := by
    intro x info hx hv
    rcases ha _ hx hv with rfl | heq
    · exact .refl _
    · have hmem := mem_cardinality_iff.mpr (.inl ⟨k.node, n, b, hinst, .inl heq⟩)
      exact .rel _ _ (ConstraintSet.equal_mem_demands_iff.mpr ⟨_, hmem⟩)
  exact .trans _ _ _ (.symm _ _ (hto hmem hi)) (hto hmem' hj)

end Patch

end PatchTyping
