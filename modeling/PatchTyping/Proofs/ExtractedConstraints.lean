import PatchTyping.Proofs.RoundTypes

/-!
# What the extracted constraints say

The constraints of a patch account for it exactly. Their table has the declared ports and no others, no
constraint names a port outside it, and an edge counts exactly if it is the first that leads from an
output to its input. On payload and unit the solutions are those of the equations that the patch stands
for: both ends of an edge that counts, and neighbours in a template, agree wherever one of the two is
open.
-/

namespace PatchTyping

open AxisInference

theorem mem_consecutive_iff {α : Type} {l : List α} {x y : α} :
    (x, y) ∈ consecutive l ↔ [x, y] <:+: l := by
  induction l with
  | nil => simp [consecutive]
  | cons a l ih =>
    cases l with
    | nil => simp [consecutive, List.infix_cons_iff]
    | cons b l => simp [consecutive, List.infix_cons_iff (a := a), ← ih]

section Names

variable {α : Type}

/-- The ports that a constraint names. -/
def AxisConstraint.ports : AxisConstraint α → List PortKey
  | equal a b _ _ _ => [a, b]
  | fixed port _ _ source _ => [port, source]

/-- The ports that a constraint names. -/
def CardinalityConstraint.ports : CardinalityConstraint → List PortKey
  | equal a b _ => [a, b]
  | fixed port _ => [port]
  | zipBroadcast _ members => members.map (·.port)

/-- All ports that are named other than as entries of the table. -/
def ConstraintSet.named (s : ConstraintSet) : List PortKey :=
  s.payload.flatMap (·.ports) ++ s.unit.flatMap (·.ports) ++ s.cardinality.flatMap (·.ports)
    ++ s.edgePairs.flatMap fun p => [p.source, p.target]

theorem relate_ports {a b : PortKey} {x y : Axis α} {origin : Origin} {c : AxisConstraint α}
    (h : relate a x b y origin = some c) {k : PortKey} (hk : k ∈ c.ports) : k = a ∨ k = b := by
  cases x <;> cases y <;> cases h <;>
    simp only [AxisConstraint.ports, List.mem_cons, List.not_mem_nil, or_false] at hk
  · exact hk.symm
  · exact hk
  · exact hk

theorem PortTable.mem_of_relate {ports : PortTable} {axis : PortType → Axis α} {a b : PortKey}
    {origin : Origin} {c : AxisConstraint α} (h : ports.relate axis a b origin = some c)
    {k : PortKey} (hk : k ∈ c.ports) : k ∈ ports := by
  obtain ⟨i, j, hi, hj, hrel⟩ := relate_eq_some h
  rw [Std.ExtTreeMap.mem_iff_isSome_getElem?]
  rcases relate_ports hrel hk with rfl | rfl
  · rw [hi]; rfl
  · rw [hj]; rfl

theorem ConstraintSet.Closed.mem_of_cardinality {s : ConstraintSet} (h : s.Closed)
    {c : CardinalityConstraint} (hc : c ∈ s.cardinality) {k : PortKey} (hk : k ∈ c.ports) :
    k ∈ s.ports := by
  cases c with
  | equal a b origin =>
    obtain ⟨ha, hb⟩ := h.equal_mem a b origin hc
    rcases List.mem_cons.mp hk with rfl | hk
    · exact ha
    · rwa [List.mem_singleton.mp hk]
  | fixed port value =>
    rw [List.mem_singleton.mp hk]
    exact h.fixed_mem port value hc
  | zipBroadcast node members =>
    obtain ⟨m, hm, rfl⟩ := List.mem_map.mp hk
    exact h.member_mem node members hc m hm

end Names

/-- Both ports are there, and if one of them is open on the axis, they have the same value when
variables have values. -/
def PortTable.Meet {α : Type} (ports : PortTable) (axis : PortType → Axis α) (σ : VarKey → α)
    (a b : PortKey) : Prop :=
  ∃ i j, ports[a]? = some i ∧ ports[b]? = some j ∧
    ((axis i.type).isVar = true ∨ (axis j.type).isVar = true →
      (axis i.type).under σ a.node = (axis j.type).under σ b.node)

/-- Two known sides yield no constraint, and nothing is asked of them. -/
theorem PortTable.meet_iff {α : Type} {ports : PortTable} {axis : PortType → Axis α} {σ : VarKey → α}
    {a b : PortKey} (ha : a ∈ ports) (hb : b ∈ ports) (origin : Origin) :
    ports.Meet axis σ a b ↔ ∀ c, ports.relate axis a b origin = some c → c.Holds σ := by
  obtain ⟨i, hi⟩ := Option.isSome_iff_exists.mp (Std.ExtTreeMap.mem_iff_isSome_getElem?.mp ha)
  obtain ⟨j, hj⟩ := Option.isSome_iff_exists.mp (Std.ExtTreeMap.mem_iff_isSome_getElem?.mp hb)
  rw [relate_holds_iff hi hj]
  constructor
  · rintro ⟨i', j', hi', hj', h⟩
    cases hi.symm.trans hi'
    cases hj.symm.trans hj'
    exact h
  · exact fun h => ⟨i, j, hi, hj, h⟩

namespace Patch

variable {g : Patch} {catalog : Catalog}

/-- The block of the node declares the port, facing the given way. -/
def Declares (g : Patch) (catalog : Catalog) (k : PortKey) (d : PortDirection) : Prop :=
  ∃ n b p, g.Instantiates catalog k.node n b ∧ (d, p) ∈ b.ports ∧ p.name = k.port

/-- The edge leads from a declared output to a declared input. -/
def EndsDeclared (g : Patch) (catalog : Catalog) (e : Edge) : Prop :=
  g.Declares catalog e.source .output ∧ g.Declares catalog e.target .input

/-- The ports whose axis the patch wants to be equal, and why: the ends of an edge that counts, and
neighbours in a template. -/
inductive Relates (g : Patch) (catalog : Catalog) (pairs : List EdgePair) (which : AxisName) :
    Origin → PortKey → PortKey → Prop where
  | edge {p : EdgePair} (hp : p ∈ pairs) :
    Relates g catalog pairs which (.edge p.edge) p.source p.target
  | template {id : NodeId} {n : Node} {b : Block} {ps : List String} {x y : String}
    (hi : g.Instantiates catalog id n b) (ht : .equal which ps ∈ b.templates)
    (hxy : [x, y] <:+: ps) : Relates g catalog pairs which (.template id) ⟨id, x⟩ ⟨id, y⟩

/-- What it means that constraints account for a patch exactly. -/
structure AccountedBy (g : Patch) (catalog : Catalog) (s : ConstraintSet) : Prop where
  port_iff : ∀ (k : PortKey) (info : PortInfo), s.ports[k]? = some info ↔
    ∃ n b x, g.Instantiates catalog k.node n b ∧ x ∈ b.ports ∧ x.2.name = k.port ∧
      info = n.infoOf b x
  named_mem : ∀ k ∈ s.named, k ∈ s.ports
  edgePair_iff : ∀ p : EdgePair, p ∈ s.edgePairs ↔
    g.edges[p.edge]? = some ⟨p.source, p.target⟩ ∧ g.EndsDeclared catalog ⟨p.source, p.target⟩ ∧
      ∀ (id : EdgeId) (e : Edge), g.edges[id]? = some e → id < p.edge → g.EndsDeclared catalog e →
        e.target ≠ p.target
  payload_iff : ∀ σ : VarKey → Payload, Models s.payload σ ↔
    ∀ origin a b, g.Relates catalog s.edgePairs .payload origin a b →
      s.ports.Meet PortType.payload σ a b
  unit_iff : ∀ σ : VarKey → UnitTag, Models s.unit σ ↔
    ∀ origin a b, g.Relates catalog s.edgePairs .unit origin a b →
      s.ports.Meet PortType.unit σ a b

section Axes

variable {α : Type} {which : AxisName} {axis : PortType → Axis α} {ports : PortTable}
  {pairs : List EdgePair}

theorem mem_axisConstraints_iff_relates {c : AxisConstraint α} :
    c ∈ g.axisConstraints catalog ports pairs which axis ↔
      ∃ origin a b, g.Relates catalog pairs which origin a b ∧
        ports.relate axis a b origin = some c := by
  rw [mem_axisConstraints_iff]
  constructor
  · rintro (⟨id, n, b, hi, t, ht, hmem⟩ | ⟨p, hp, hrel⟩)
    · obtain ⟨ps, rfl, x, hx, hrel⟩ := PortTable.mem_templateAxis_iff.mp hmem
      exact ⟨_, _, _, .template hi ht (mem_consecutive_iff.mp hx), hrel⟩
    · exact ⟨_, _, _, .edge hp, hrel⟩
  · rintro ⟨_, _, _, hab, hrel⟩
    cases hab with
    | edge hp => exact .inr ⟨_, hp, hrel⟩
    | template hi ht hxy =>
      exact .inl ⟨_, _, _, hi, _, ht,
        PortTable.mem_templateAxis_iff.mpr ⟨_, rfl, _, mem_consecutive_iff.mpr hxy, hrel⟩⟩

theorem mem_of_axisConstraints {c : AxisConstraint α}
    (h : c ∈ g.axisConstraints catalog ports pairs which axis) {k : PortKey} (hk : k ∈ c.ports) :
    k ∈ ports := by
  obtain ⟨_, _, _, -, hrel⟩ := mem_axisConstraints_iff_relates.mp h
  exact PortTable.mem_of_relate hrel hk

theorem Relates.mem (hc : catalog.Built) {origin : Origin} {a b : PortKey}
    (h : g.Relates catalog (g.edgePairs (g.portTable catalog)) which origin a b) :
    a ∈ g.portTable catalog ∧ b ∈ g.portTable catalog := by
  cases h with
  | edge hp =>
    obtain ⟨-, hj, -⟩ := mem_edgePairs_iff.mp hp
    obtain ⟨hs, ht⟩ := PortTable.joins_iff.mp hj
    exact ⟨mem_portTable_of_faces hs, mem_portTable_of_faces ht⟩
  | template hi ht hxy =>
    exact ⟨mem_portTable_of_template hc hi ht (hxy.subset (by simp)),
      mem_portTable_of_template hc hi ht (hxy.subset (by simp))⟩

/-- Solutions of the constraints are solutions of the equations between related ports. -/
theorem models_axisConstraints_iff (hc : catalog.Built) {σ : VarKey → α} :
    Models (g.axisConstraints catalog (g.portTable catalog)
        (g.edgePairs (g.portTable catalog)) which axis) σ ↔
      ∀ origin a b, g.Relates catalog (g.edgePairs (g.portTable catalog)) which origin a b →
        (g.portTable catalog).Meet axis σ a b := by
  constructor
  · intro hσ origin a b hab
    rw [PortTable.meet_iff (hab.mem hc).1 (hab.mem hc).2 origin]
    intro c hrel
    exact hσ c (mem_axisConstraints_iff_relates.mpr ⟨origin, a, b, hab, hrel⟩)
  · intro h c hmem
    obtain ⟨origin, a, b, hab, hrel⟩ := mem_axisConstraints_iff_relates.mp hmem
    exact (PortTable.meet_iff (hab.mem hc).1 (hab.mem hc).2 origin).mp (h origin a b hab) c hrel

end Axes

theorem faces_portTable_iff (hc : catalog.Built) {k : PortKey} {d : PortDirection} :
    (g.portTable catalog).faces k d = true ↔ g.Declares catalog k d := by
  rw [PortTable.faces_iff]
  constructor
  · rintro ⟨info, hinfo, rfl⟩
    obtain ⟨n, b, hi, hmem⟩ := exists_of_getElem?_portTable hinfo
    obtain ⟨x, hx, hk, rfl⟩ := Node.mem_portInfos_iff.mp hmem
    exact ⟨n, b, x.2, hi, hx, (congrArg PortKey.port hk).symm⟩
  · rintro ⟨n, b, p, hi, hp, hname⟩
    have hmem : (k, n.infoOf b (d, p)) ∈ n.portInfos k.node b :=
      Node.mem_portInfos_iff.mpr ⟨(d, p), hp, by rw [hname], rfl⟩
    exact ⟨_, (getElem?_portTable_iff hc).mpr ⟨n, b, hi, hmem⟩, rfl⟩

theorem joins_iff_endsDeclared (hc : catalog.Built) {e : Edge} :
    (g.portTable catalog).joins e = true ↔ g.EndsDeclared catalog e := by
  rw [PortTable.joins_iff, faces_portTable_iff hc, faces_portTable_iff hc]
  rfl

/-- An edge counts exactly if no earlier edge with declared ends has its target. -/
theorem mem_edgePairs_portTable_iff (hc : catalog.Built) {p : EdgePair} :
    p ∈ g.edgePairs (g.portTable catalog) ↔
      g.edges[p.edge]? = some ⟨p.source, p.target⟩ ∧ g.EndsDeclared catalog ⟨p.source, p.target⟩ ∧
        ∀ (id : EdgeId) (e : Edge), g.edges[id]? = some e → id < p.edge → g.EndsDeclared catalog e →
          e.target ≠ p.target := by
  simp only [← joins_iff_endsDeclared hc, mem_edgePairs_iff, driver_iff]
  constructor
  · rintro ⟨he, hj, -, -, -, -, hfirst⟩
    exact ⟨he, hj, hfirst⟩
  · rintro ⟨he, hj, hfirst⟩
    exact ⟨he, hj, _, he, hj, rfl, hfirst⟩

theorem named_mem_portTable (hc : catalog.Built) {k : PortKey}
    (hk : k ∈ (g.constraints catalog).named) : k ∈ g.portTable catalog := by
  simp only [ConstraintSet.named, List.mem_append, List.mem_flatMap] at hk
  rcases hk with ((⟨c, hmem, hk⟩ | ⟨c, hmem, hk⟩) | ⟨c, hmem, hk⟩) | ⟨p, hp, hk⟩
  · exact mem_of_axisConstraints hmem hk
  · exact mem_of_axisConstraints hmem hk
  · exact (constraints_closed hc).mem_of_cardinality hmem hk
  · have hends : g.Relates catalog (g.edgePairs (g.portTable catalog)) .payload (.edge p.edge)
        p.source p.target := .edge hp
    obtain ⟨hs, ht⟩ := hends.mem hc
    rcases List.mem_cons.mp hk with rfl | hk
    · exact hs
    · rwa [List.mem_singleton.mp hk]

/-- Extraction accounts for every patch exactly, whatever is wrong with its edges and nodes. -/
theorem constraints_account (g : Patch) {catalog : Catalog} (hc : catalog.Built) :
    g.AccountedBy catalog (g.constraints catalog) where
  port_iff k info := by
    refine (getElem?_portTable_iff hc).trans (exists₂_congr fun n b => ?_)
    rw [Node.mem_portInfos_iff]
    constructor
    · rintro ⟨hi, x, hx, hk, hinfo⟩
      exact ⟨x, hi, hx, (congrArg PortKey.port hk).symm, hinfo⟩
    · rintro ⟨x, hi, hx, hname, hinfo⟩
      exact ⟨hi, x, hx, by rw [hname], hinfo⟩
  named_mem _ := named_mem_portTable hc
  edgePair_iff _ := mem_edgePairs_portTable_iff hc
  payload_iff _ := models_axisConstraints_iff hc
  unit_iff _ := models_axisConstraints_iff hc

/-- The one block `Join`, whose template equates the payloads of two of its ports. -/
def joinCatalog : Catalog := (Catalog.empty.insertAll [
  { name := "Join"
    inputs := [⟨"a", ⟨.var "A", .inst .ms, .inst .one, .continuous⟩⟩,
      ⟨"b", ⟨.var "B", .inst .ms, .inst .one, .continuous⟩⟩]
    outputs := [⟨"out", ⟨.var "C", .inst .ms, .inst .one, .continuous⟩⟩]
    templates := [.equal .payload ["a", "out"]] }]).1

/-- Two edges to one input, an edge from an input, and an override. -/
def crowdedJoin : Patch where
  nodes := (∅ : Std.ExtTreeMap NodeId Node).insert "j" {
    block := "Join"
    overrides := (∅ : Std.ExtTreeMap String PortType).insert "a"
      ⟨.inst .float, .inst .ms, .inst .one, .continuous⟩ }
  edges := (∅ : Std.ExtTreeMap EdgeId Edge).insert "e1" ⟨⟨"j", "a"⟩, ⟨"j", "b"⟩⟩
    |>.insert "e2" ⟨⟨"j", "out"⟩, ⟨"j", "b"⟩⟩ |>.insert "e3" ⟨⟨"j", "out"⟩, ⟨"j", "b"⟩⟩

/-- Only the second edge counts, and every solution carries the overridden payload along it. -/
theorem crowdedJoin_accounted :
    let s := crowdedJoin.constraints joinCatalog
    joinCatalog.Built ∧ crowdedJoin.AccountedBy joinCatalog s ∧
      s.edgePairs.map (·.edge) = ["e2"] ∧
      ∀ σ, Models s.payload σ ↔ σ ⟨"j", "C"⟩ = .float ∧ σ ⟨"j", "B"⟩ = .float := by
  intro s
  have hbuilt : joinCatalog.Built := Catalog.Built.empty.insertAll _
  have hpayload : s.payload =
      [.fixed ⟨"j", "out"⟩ ⟨"j", "C"⟩ .float ⟨"j", "a"⟩ (.template "j"),
        .equal ⟨"j", "out"⟩ ⟨"j", "b"⟩ ⟨"j", "C"⟩ ⟨"j", "B"⟩ (.edge "e2")] := by
    decide +kernel
  refine ⟨hbuilt, constraints_account crowdedJoin hbuilt, by decide +kernel, fun σ => ?_⟩
  simp only [hpayload, Models, List.forall_mem_cons, AxisConstraint.Holds]
  constructor
  · rintro ⟨hfixed, hequal, -⟩
    exact ⟨hfixed, hequal ▸ hfixed⟩
  · rintro ⟨hC, hB⟩
    exact ⟨hC, hC.trans hB.symm, by simp⟩

end Patch

end PatchTyping
