import PatchTyping.Proofs.PartitionLocality
import PatchTyping.Proofs.RoundTypes

/-!
# Parts of a patch

A part of a patch consists of some of its nodes with the edges that start there. Where no edge leads from
the part to the rest or back, extraction treats the part as it treats the whole: the ports, the edges that
count and the constraints of the part are those of the whole that belong to it, in the same order.
-/

namespace PatchTyping

section Lists

variable {A B : Type} {l : List A} {p : A → Bool} {q : B → Bool}

/-- What some entries contribute can be told by looking at the contributions. -/
theorem flatMap_filter_of {f : A → List B} (h : ∀ x ∈ l, ∀ y ∈ f x, q y = p x) :
    (l.filter p).flatMap f = (l.flatMap f).filter q := by
  induction l with
  | nil => rfl
  | cons x l ih =>
    have hx := h x List.mem_cons_self
    have hrest := ih fun y hy => h y (List.mem_cons_of_mem _ hy)
    rw [List.flatMap_cons, List.filter_append, ← hrest]
    cases hp : p x with
    | true =>
      rw [List.filter_cons_of_pos hp, List.flatMap_cons,
        List.filter_eq_self.mpr fun y hy => (hx y hy).trans hp]
    | false =>
      have hnil : (f x).filter q = [] := by
        apply List.filter_eq_nil_iff.mpr
        intro y hy
        simp [hx y hy, hp]
      rw [List.filter_cons_of_neg (by simp [hp]), hnil, List.nil_append]

theorem filterMap_filter_of {f : A → Option B} (h : ∀ x ∈ l, ∀ y, f x = some y → q y = p x) :
    (l.filter p).filterMap f = (l.filterMap f).filter q := by
  rw [List.filterMap_eq_flatMap_toList, List.filterMap_eq_flatMap_toList]
  apply flatMap_filter_of
  intro x hx y hy
  exact h x hx y (Option.mem_toList.mp hy)

end Lists

namespace PortTable

/-- The ports of some nodes. -/
def part (mine : NodeId → Bool) (ports : PortTable) : PortTable := ports.filter fun k _ => mine k.node

variable {mine : NodeId → Bool} {ports : PortTable} {a b k : PortKey} {α : Type}

theorem getElem?_part (hk : mine k.node = true) : (ports.part mine)[k]? = ports[k]? := by
  rw [part, Std.ExtTreeMap.getElem?_filter', hk]
  cases ports[k]? <;> rfl

theorem getElem?_part_eq_none (hk : mine k.node = false) : (ports.part mine)[k]? = none := by
  rw [part, Std.ExtTreeMap.getElem?_filter', hk]
  cases ports[k]? <;> rfl

theorem mem_part_iff : k ∈ ports.part mine ↔ k ∈ ports ∧ mine k.node = true := by
  rw [Std.ExtTreeMap.mem_iff_isSome_getElem?, Std.ExtTreeMap.mem_iff_isSome_getElem?]
  cases hk : mine k.node with
  | true => simp [getElem?_part hk]
  | false => simp [getElem?_part_eq_none hk]

theorem faces_part (hk : mine k.node = true) (d : PortDirection) :
    (ports.part mine).faces k d = ports.faces k d := by
  rw [faces, faces, getElem?_part hk]

theorem joins_part {e : Edge} (hs : mine e.source.node = true) (ht : mine e.target.node = true) :
    (ports.part mine).joins e = ports.joins e := by
  rw [joins, joins, faces_part hs, faces_part ht]

theorem relate_part (axis : PortType → Axis α) (ha : mine a.node = true) (hb : mine b.node = true)
    (origin : Origin) :
    (ports.part mine).relate axis a b origin = ports.relate axis a b origin := by
  rw [relate, relate, getElem?_part ha, getElem?_part hb]

theorem templateAxis_part {id : NodeId} (hid : mine id = true) (which : AxisName)
    (axis : PortType → Axis α) (t : Template) :
    (ports.part mine).templateAxis which axis id t = ports.templateAxis which axis id t := by
  cases t with
  | equal name ps =>
    simp only [templateAxis]
    split
    · apply List.filterMap_congr
      intro x hx
      obtain ⟨h₁, h₂⟩ := mem_of_mem_consecutive hx
      obtain ⟨_, -, h₁⟩ := List.mem_map.mp h₁
      obtain ⟨_, -, h₂⟩ := List.mem_map.mp h₂
      exact relate_part axis (h₁ ▸ hid) (h₂ ▸ hid) _
    · rfl
  | zipBroadcast ps => rfl
  | fixed ps v => rfl

theorem templateCardinality_part {id : NodeId} (hid : mine id = true) (t : Template) :
    (ports.part mine).templateCardinality id t = ports.templateCardinality id t := by
  cases t with
  | equal name ps => cases name <;> rfl
  | zipBroadcast ps =>
    have hlook : ∀ p : String, (ports.part mine)[PortKey.mk id p]? = ports[PortKey.mk id p]? :=
      fun p => getElem?_part hid
    simp only [templateCardinality, hlook]
  | fixed ps v => rfl

theorem bindings_part (axis : PortType → Axis α) :
    (ports.part mine).bindings axis = (ports.bindings axis).filter fun k _ => mine k.node := by
  apply Std.ExtTreeMap.ext_getElem?
  intro k
  rw [bindings, bindings, Std.ExtTreeMap.getElem?_filter', Std.ExtTreeMap.getElem?_filterMap',
    Std.ExtTreeMap.getElem?_filterMap']
  generalize hx : (ports[k]?.bind fun info => (axis info.type).name?.map (VarKey.mk k.node)) = x
  cases hk : mine k.node with
  | true =>
    rw [getElem?_part hk, hx]
    cases x <;> rfl
  | false =>
    rw [getElem?_part_eq_none hk]
    cases x <;> rfl

end PortTable

namespace AxisConstraint

variable {α : Type} {c : AxisConstraint α}

/-- The constraint is about variables of some nodes. -/
def within (mine : NodeId → Bool) (c : AxisConstraint α) : Bool :=
  c.demand.within fun x => mine x.node

theorem within_of_vars (mine : NodeId → Bool) {t : Bool} (h : ∀ x ∈ c.vars, mine x.node = t) : c.within mine = t := by
  cases c with
  | equal a b lhs rhs origin =>
    simp [within, ValuedPartition.Demand.within, demand, ValuedPartition.Demand.keys,
      h lhs (by simp [vars]), h rhs (by simp [vars])]
  | fixed port var value source origin =>
    simp [within, ValuedPartition.Demand.within, demand, ValuedPartition.Demand.keys,
      h var (by simp [vars])]

end AxisConstraint

namespace PortTable

variable {mine : NodeId → Bool} {ports : PortTable} {α : Type} {axis : PortType → Axis α}
  {c : AxisConstraint α}

theorem vars_of_relate {a b : PortKey} {origin : Origin} (h : ports.relate axis a b origin = some c)
    (hab : mine b.node = mine a.node) : ∀ v ∈ c.vars, mine v.node = mine a.node := by
  intro v hv
  obtain ⟨i, j, -, -, hrel⟩ := relate_eq_some h
  rcases relate_vars hrel hv with ⟨hnode, -⟩ | ⟨hnode, -⟩
  · rw [hnode]
  · rw [hnode, hab]

theorem vars_of_templateAxis (mine : NodeId → Bool) {which : AxisName} {id : NodeId} {t : Template}
    (h : c ∈ ports.templateAxis which axis id t) : ∀ v ∈ c.vars, mine v.node = mine id := by
  obtain ⟨ps, -, x, -, hrel⟩ := mem_templateAxis_iff.mp h
  exact vars_of_relate hrel rfl

end PortTable

namespace CardinalityConstraint

/-- The node that a constraint is put down to: for an equation that of its first port. -/
def site : CardinalityConstraint → NodeId
  | equal a _ _ => a.node
  | fixed port _ => port.node
  | zipBroadcast group _ => group

/-- All ports of the constraint are ports of one node. -/
def IsAt (id : NodeId) : CardinalityConstraint → Prop
  | equal a b _ => a.node = id ∧ b.node = id
  | fixed port _ => port.node = id
  | zipBroadcast group members => group = id ∧ ∀ m ∈ members, m.port.node = id

theorem IsAt.site_eq {id : NodeId} {c : CardinalityConstraint} (h : c.IsAt id) : c.site = id := by
  cases c with
  | equal a b origin => exact h.1
  | fixed port value => exact h
  | zipBroadcast group members => exact h.1

end CardinalityConstraint

theorem isAt_of_mem_declaredCardinalities {n : Node} {id : NodeId} {b : Block}
    {c : CardinalityConstraint} (h : c ∈ declaredCardinalities id ∅ (n.portInfos id b)) :
    c.IsAt id := by
  have hnode : ∀ x ∈ n.portInfos id b, x.1.node = id := by
    intro x hx
    obtain ⟨y, -, hk, -⟩ := Node.mem_portInfos_iff.mp (show (x.1, x.2) ∈ _ from hx)
    rw [hk]
  rcases mem_declaredCardinalities h with ⟨x, hx, v, -, rfl⟩ | ⟨x, hx, name, a, -, rfl, ha | ⟨y, hy, rfl, -⟩⟩
  · exact hnode x hx
  · simp at ha
  · exact ⟨hnode y hy, hnode x hx⟩

theorem PortTable.isAt_of_mem_templateCardinality {ports : PortTable} {id : NodeId} {t : Template}
    {c : CardinalityConstraint} (h : c ∈ ports.templateCardinality id t) : c.IsAt id := by
  cases t with
  | equal name ps =>
    cases name <;> simp only [templateCardinality] at h
    · cases h
    · cases h
    · obtain ⟨x, hx, rfl⟩ := List.mem_map.mp h
      obtain ⟨h₁, h₂⟩ := mem_of_mem_consecutive hx
      obtain ⟨_, -, h₁⟩ := List.mem_map.mp h₁
      obtain ⟨_, -, h₂⟩ := List.mem_map.mp h₂
      exact ⟨h₁ ▸ rfl, h₂ ▸ rfl⟩
  | zipBroadcast ps =>
    cases List.mem_singleton.mp h
    refine ⟨rfl, fun m hm => ?_⟩
    obtain ⟨p, -, hp⟩ := List.mem_filterMap.mp hm
    obtain ⟨info, -, rfl⟩ := Option.map_eq_some_iff.mp hp
    rfl
  | fixed ps v => cases h

/-- The constraints that belong to some nodes. -/
def ConstraintSet.part (mine : NodeId → Bool) (s : ConstraintSet) : ConstraintSet where
  payload := s.payload.filter (·.within mine)
  unit := s.unit.filter (·.within mine)
  cardinality := s.cardinality.filter fun c => mine c.site
  edgePairs := s.edgePairs.filter fun p => mine p.source.node
  ports := s.ports.part mine

namespace Patch

/-- Some nodes of a patch and the edges that start there. -/
def part (mine : NodeId → Bool) (g : Patch) : Patch where
  nodes := g.nodes.filter fun id _ => mine id
  edges := g.edges.filter fun _ e => mine e.source.node

/-- No edge leads from some nodes to others. -/
def Parted (mine : NodeId → Bool) (g : Patch) : Prop :=
  ∀ (id : EdgeId) (e : Edge), g.edges[id]? = some e → mine e.target.node = mine e.source.node

variable {g : Patch} {mine : NodeId → Bool} {catalog : Catalog}

theorem Parted.not (h : g.Parted mine) : g.Parted (!mine ·) :=
  fun id e he => congrArg Bool.not (h id e he)

theorem getElem?_nodes_part {id : NodeId} :
    (g.part mine).nodes[id]? = if mine id = true then g.nodes[id]? else none := by
  rw [part, Std.ExtTreeMap.getElem?_filter']
  cases mine id <;> cases g.nodes[id]? <;> rfl

theorem getElem?_edges_part_iff {id : EdgeId} {e : Edge} :
    (g.part mine).edges[id]? = some e ↔ g.edges[id]? = some e ∧ mine e.source.node = true := by
  rw [part, Std.ExtTreeMap.getElem?_filter', Option.filter_eq_some_iff]

theorem knownNodes_part :
    (g.part mine).knownNodes catalog = (g.knownNodes catalog).filter fun x => mine x.1 := by
  rw [knownNodes, part, Std.ExtTreeMap.toList_filter]
  apply filterMap_filter_of
  intro x _ y hy
  obtain ⟨b, -, rfl⟩ := Option.map_eq_some_iff.mp hy
  rfl

theorem portTable_part : (g.part mine).portTable catalog = (g.portTable catalog).part mine := by
  rw [portTable, portTable, PortTable.part, ← OrderedMaps.ofList_filter, knownNodes_part]
  apply congrArg (Std.ExtTreeMap.ofList · compare)
  apply flatMap_filter_of
  intro x _ y hy
  obtain ⟨_, -, hk, -⟩ := Node.mem_portInfos_iff.mp (show (y.1, y.2) ∈ _ from hy)
  rw [hk]

section Edges

variable {ports : PortTable}

private def noteFirst (ports : PortTable) (first : Std.ExtTreeMap PortKey EdgeId)
    (x : EdgeId × Edge) : Std.ExtTreeMap PortKey EdgeId :=
  if ports.joins x.2 then first.insertIfNew x.2.target x.1 else first

/-- Edges of other nodes have no part in who drives an input of these. -/
private theorem getElem?_foldl_noteFirst {k : PortKey} (hk : mine k.node = true)
    {l : List (EdgeId × Edge)} (hl : ∀ x ∈ l, mine x.2.target.node = mine x.2.source.node)
    {first first' : Std.ExtTreeMap PortKey EdgeId} (h : first'[k]? = first[k]?) :
    ((l.filter fun x => mine x.2.source.node).foldl (noteFirst (ports.part mine)) first')[k]? =
      (l.foldl (noteFirst ports) first)[k]? := by
  induction l generalizing first first' with
  | nil => exact h
  | cons x l ih =>
    have hx := hl x List.mem_cons_self
    have hrest := fun y hy => hl y (List.mem_cons_of_mem _ hy)
    cases hs : mine x.2.source.node with
    | true =>
      rw [List.filter_cons_of_pos (p := fun x : EdgeId × Edge => mine x.2.source.node) hs]
      refine ih hrest ?_
      rw [noteFirst, noteFirst, PortTable.joins_part hs (hx.trans hs)]
      split
      · rw [Std.ExtTreeMap.getElem?_insertIfNew, Std.ExtTreeMap.getElem?_insertIfNew, h]
        by_cases hkx : x.2.target = k
        · simp only [hkx, Std.ExtTreeMap.mem_iff_isSome_getElem?, h]
        · simp [hkx]
      · exact h
    | false =>
      rw [List.filter_cons_of_neg (p := fun x : EdgeId × Edge => mine x.2.source.node) (by simp [hs])]
      refine ih hrest ?_
      have hne : x.2.target ≠ k := by
        rintro rfl
        rw [hx, hs] at hk
        cases hk
      rw [noteFirst]
      split
      · rw [Std.ExtTreeMap.getElem?_insertIfNew, h]
        simp [hne]
      · exact h

variable (h : g.Parted mine)
include h

theorem getElem?_drivers_part {k : PortKey} (hk : mine k.node = true) :
    ((g.part mine).drivers (ports.part mine))[k]? = (g.drivers ports)[k]? := by
  change ((g.part mine).edges.toList.foldl (noteFirst (ports.part mine)) ∅)[k]? =
    (g.edges.toList.foldl (noteFirst ports) ∅)[k]?
  rw [part, Std.ExtTreeMap.toList_filter]
  refine getElem?_foldl_noteFirst hk (fun x hx => ?_) rfl
  exact h x.1 x.2 (Std.ExtTreeMap.mem_toList_iff_getElem?_eq_some.mp hx)

theorem edgePairs_part :
    (g.part mine).edgePairs (ports.part mine) =
      (g.edgePairs ports).filter fun p => mine p.source.node := by
  have hparts : ∀ x ∈ g.edges.toList, mine x.2.target.node = mine x.2.source.node := fun x hx =>
    h x.1 x.2 (Std.ExtTreeMap.mem_toList_iff_getElem?_eq_some.mp hx)
  have hlist : (g.part mine).edges.toList = g.edges.toList.filter fun x => mine x.2.source.node := by
    rw [part, Std.ExtTreeMap.toList_filter]
  simp only [edgePairs, hlist]
  rw [← filterMap_filter_of (p := fun x : EdgeId × Edge => mine x.2.source.node)]
  · apply List.filterMap_congr
    intro x hx
    obtain ⟨hx, hs⟩ := List.mem_filter.mp hx
    have ht := (hparts x hx).trans hs
    rw [PortTable.joins_part hs ht, getElem?_drivers_part h ht]
  · intro x _ y hy
    split at hy
    · cases hy
      rfl
    · cases hy

theorem mem_edgePairs_parted {p : EdgePair} (hp : p ∈ g.edgePairs ports) :
    mine p.target.node = mine p.source.node :=
  h p.edge _ (mem_edgePairs_iff.mp hp).1

variable {α : Type}

theorem axisConstraints_part (which : AxisName) (axis : PortType → Axis α) :
    (g.part mine).axisConstraints catalog (ports.part mine)
        ((g.edgePairs ports).filter fun p => mine p.source.node) which axis =
      (g.axisConstraints catalog ports (g.edgePairs ports) which axis).filter (·.within mine) := by
  rw [axisConstraints, axisConstraints, List.filter_append, knownNodes_part]
  congr 1
  · rw [← flatMap_filter_of (p := fun x : NodeId × Node × Block => mine x.1)]
    · apply List.flatMap_congr
      intro x hx
      apply List.flatMap_congr
      intro t _
      exact PortTable.templateAxis_part (List.mem_filter.mp hx).2 which axis t
    · intro x _ c hc
      obtain ⟨t, -, hc⟩ := List.mem_flatMap.mp hc
      exact AxisConstraint.within_of_vars mine (PortTable.vars_of_templateAxis mine hc)
  · rw [← filterMap_filter_of (p := fun p : EdgePair => mine p.source.node)]
    · apply List.filterMap_congr
      intro p hp
      obtain ⟨hp, hs⟩ := List.mem_filter.mp hp
      exact PortTable.relate_part axis hs ((mem_edgePairs_parted h hp).trans hs) _
    · intro p hp c hc
      exact AxisConstraint.within_of_vars mine (PortTable.vars_of_relate hc (mem_edgePairs_parted h hp))

omit h in
theorem cardinalityConstraints_part :
    (g.part mine).cardinalityConstraints catalog (ports.part mine)
        ((g.edgePairs ports).filter fun p => mine p.source.node) =
      (g.cardinalityConstraints catalog ports (g.edgePairs ports)).filter fun c => mine c.site := by
  rw [cardinalityConstraints, cardinalityConstraints, List.filter_append, knownNodes_part]
  congr 1
  · rw [← flatMap_filter_of (p := fun x : NodeId × Node × Block => mine x.1)]
    · apply List.flatMap_congr
      rintro ⟨id, n, b⟩ hx
      apply congrArg (declaredCardinalities id ∅ (n.portInfos id b) ++ ·)
      apply List.flatMap_congr
      intro t _
      exact PortTable.templateCardinality_part (List.mem_filter.mp hx).2 t
    · intro x _ c hc
      rcases List.mem_append.mp hc with hc | hc
      · rw [(isAt_of_mem_declaredCardinalities hc).site_eq]
      · obtain ⟨t, -, hc⟩ := List.mem_flatMap.mp hc
        rw [(PortTable.isAt_of_mem_templateCardinality hc).site_eq]
  · rw [List.filter_map]
    rfl

theorem constraints_part : (g.part mine).constraints catalog = (g.constraints catalog).part mine := by
  simp only [constraints, ConstraintSet.part, portTable_part, axisConstraints_part h,
    cardinalityConstraints_part, edgePairs_part h]

end Edges

end Patch

end PatchTyping
