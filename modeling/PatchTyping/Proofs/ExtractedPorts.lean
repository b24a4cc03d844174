import Mathlib.Data.List.Nodup
import PatchTyping.ConstraintExtraction
import PatchTyping.Proofs.CatalogValidity
import PatchTyping.Proofs.OrderedMaps

/-!
# What extraction finds

The table of ports has exactly the ports that the blocks of the nodes declare, and an edge counts exactly
if it leads from an output to an input of which it is the first driver. Extraction reports no error
exactly if every block is known, no two edges drive one input, and every edge leads from an output to an
input, except that an end at a node whose block has no ports at all is passed over.
-/

namespace PatchTyping

theorem hasErrors_eq_false_iff {ds : List Diagnostic} :
    hasErrors ds = false ↔ ∀ d ∈ ds, d.isError = false := by
  simp [hasErrors]

@[simp] theorem hasErrors_append (ds es : List Diagnostic) :
    hasErrors (ds ++ es) = (hasErrors ds || hasErrors es) := by
  simp [hasErrors]

theorem eq_nil_of_hasErrors {ds : List Diagnostic} (h : hasErrors ds = false)
    (hall : ∀ d ∈ ds, d.isError = true) : ds = [] := by
  cases ds with
  | nil => rfl
  | cons d ds => simp [hasErrors, hall d] at h

namespace Node

/-- What is known of a port that the block of a node declares. -/
def infoOf (n : Node) (b : Block) (x : PortDirection × PortDeclaration) : PortInfo where
  type := n.overrides[x.2.name]?.getD (b.baseType x.2)
  direction := x.1
  zipMember := b.zipMembers.contains x.2.name
  pinned := n.overrides[x.2.name]?.isNone && b.pinsCardinality x.2.name

theorem portInfos_eq (n : Node) (id : NodeId) (b : Block) :
    n.portInfos id b = b.ports.map fun x => (⟨id, x.2.name⟩, n.infoOf b x) := rfl

theorem mem_portInfos_iff {n : Node} {id : NodeId} {b : Block} {k : PortKey} {info : PortInfo} :
    (k, info) ∈ n.portInfos id b ↔
      ∃ x ∈ b.ports, k = ⟨id, x.2.name⟩ ∧ info = n.infoOf b x := by
  simp [portInfos_eq, eq_comm]

end Node

namespace PortTable

theorem faces_iff {ports : PortTable} {k : PortKey} {d : PortDirection} :
    ports.faces k d = true ↔ ∃ info, ports[k]? = some info ∧ info.direction = d := by
  simp [faces, Option.any_eq_true]

theorem joins_iff {ports : PortTable} {e : Edge} :
    ports.joins e = true ↔ ports.faces e.source .output = true ∧ ports.faces e.target .input = true := by
  simp [joins]

theorem knows_iff {ports : PortTable} {id : NodeId} :
    ports.knows id = true ↔ ∃ k : PortKey, k ∈ ports ∧ k.node = id := by
  simp [knows]

end PortTable

namespace Patch

variable {g : Patch} {catalog : Catalog}

/-- The node is in the patch, and its block is known. -/
def Instantiates (g : Patch) (catalog : Catalog) (id : NodeId) (n : Node) (b : Block) : Prop :=
  g.nodes[id]? = some n ∧ catalog.lookup? n.block = some b

theorem mem_knownNodes_iff {id : NodeId} {n : Node} {b : Block} :
    (id, n, b) ∈ g.knownNodes catalog ↔ g.Instantiates catalog id n b := by
  simp only [knownNodes, List.mem_filterMap, Option.map_eq_some_iff, Prod.exists,
    Std.ExtTreeMap.mem_toList_iff_getElem?_eq_some, Instantiates]
  constructor
  · rintro ⟨_, _, hn, _, hb, heq⟩
    cases heq
    exact ⟨hn, hb⟩
  · rintro ⟨hn, hb⟩
    exact ⟨id, n, hn, b, hb, rfl⟩

/-- Nodes that are changed in ways that neither their blocks nor the function show. -/
theorem flatMap_knownNodes_map {β : Type} (g : Patch) (catalog : Catalog) (f : Node → Node)
    {F : NodeId × Node × Block → List β} (hblock : ∀ n, (f n).block = n.block)
    (hF : ∀ id n b, F (id, f n, b) = F (id, n, b)) :
    ((⟨g.nodes.map fun _ n => f n, g.edges⟩ : Patch).knownNodes catalog).flatMap F =
      (g.knownNodes catalog).flatMap F := by
  unfold knownNodes
  rw [Std.ExtTreeMap.toList_map]
  induction g.nodes.toList with
  | nil => rfl
  | cons x l ih =>
    cases hb : catalog.lookup? x.2.block with
    | none => simpa [hblock, hb] using ih
    | some b => simpa [hblock, hb, hF] using ih

private theorem mem_portEntries_iff {k : PortKey} {info : PortInfo} :
    (k, info) ∈ (g.knownNodes catalog).flatMap (fun (id, n, b) => n.portInfos id b) ↔
      ∃ n b, g.Instantiates catalog k.node n b ∧ (k, info) ∈ n.portInfos k.node b := by
  simp only [List.mem_flatMap, Prod.exists, mem_knownNodes_iff]
  constructor
  · rintro ⟨id, n, b, hi, hk⟩
    obtain ⟨x, hx, rfl, rfl⟩ := Node.mem_portInfos_iff.mp hk
    exact ⟨n, b, hi, hk⟩
  · rintro ⟨n, b, hi, hk⟩
    exact ⟨k.node, n, b, hi, hk⟩

theorem exists_of_getElem?_portTable {k : PortKey} {info : PortInfo}
    (h : (g.portTable catalog)[k]? = some info) :
    ∃ n b, g.Instantiates catalog k.node n b ∧ (k, info) ∈ n.portInfos k.node b :=
  mem_portEntries_iff.mp (OrderedMaps.mem_of_getElem?_ofList h)

theorem exists_getElem?_portTable {id : NodeId} {n : Node} {b : Block}
    (h : g.Instantiates catalog id n b) {x : PortDirection × PortDeclaration} (hx : x ∈ b.ports) :
    ∃ info, (g.portTable catalog)[PortKey.mk id x.2.name]? = some info :=
  OrderedMaps.exists_getElem?_ofList
    (mem_portEntries_iff.mpr ⟨n, b, h, Node.mem_portInfos_iff.mpr ⟨x, hx, rfl, rfl⟩⟩)

/-- Blocks of a catalog repeat no port name, so no port hides another. -/
theorem getElem?_portTable_iff (hc : catalog.Built) {k : PortKey} {info : PortInfo} :
    (g.portTable catalog)[k]? = some info ↔
      ∃ n b, g.Instantiates catalog k.node n b ∧ (k, info) ∈ n.portInfos k.node b := by
  rw [portTable, OrderedMaps.getElem?_ofList_iff, mem_portEntries_iff]
  intro v w hv hw
  obtain ⟨n, b, hi, hv⟩ := mem_portEntries_iff.mp hv
  obtain ⟨n', b', hi', hw⟩ := mem_portEntries_iff.mp hw
  cases hi.1.symm.trans hi'.1
  cases hi.2.symm.trans hi'.2
  obtain ⟨x, hx, hkx, rfl⟩ := Node.mem_portInfos_iff.mp hv
  obtain ⟨y, hy, hky, rfl⟩ := Node.mem_portInfos_iff.mp hw
  have hname : x.2.name = y.2.name := congrArg PortKey.port (hkx.symm.trans hky)
  rw [List.inj_on_of_nodup_map (hc.valid hi.2).names_nodup hx hy hname]

theorem node_mem_of_portTable {k : PortKey} {info : PortInfo}
    (hk : (g.portTable catalog)[k]? = some info) : k.node ∈ g.nodes := by
  obtain ⟨n, b, ⟨hn, -⟩, -⟩ := exists_of_getElem?_portTable hk
  exact Std.ExtTreeMap.mem_iff_isSome_getElem?.mpr (by simp [hn])

theorem node_mem_of_faces {k : PortKey} {d : PortDirection}
    (hk : (g.portTable catalog).faces k d = true) : k.node ∈ g.nodes := by
  obtain ⟨info, hinfo, -⟩ := PortTable.faces_iff.mp hk
  exact node_mem_of_portTable hinfo

/-- A node whose block has no ports. -/
def Portless (g : Patch) (catalog : Catalog) (id : NodeId) : Prop :=
  ∃ n b, g.Instantiates catalog id n b ∧ b.ports = []

theorem knows_portTable_iff {id : NodeId} :
    (g.portTable catalog).knows id = true ↔ ∃ n b, g.Instantiates catalog id n b ∧ b.ports ≠ [] := by
  rw [PortTable.knows_iff]
  constructor
  · rintro ⟨k, hk, rfl⟩
    obtain ⟨info, hinfo⟩ := Option.isSome_iff_exists.mp
      (Std.ExtTreeMap.mem_iff_isSome_getElem?.mp hk)
    obtain ⟨n, b, hi, hmem⟩ := exists_of_getElem?_portTable hinfo
    obtain ⟨x, hx, -⟩ := Node.mem_portInfos_iff.mp hmem
    exact ⟨n, b, hi, List.ne_nil_of_mem hx⟩
  · rintro ⟨n, b, hi, hne⟩
    obtain ⟨x, hx⟩ := List.exists_mem_of_ne_nil _ hne
    obtain ⟨info, hinfo⟩ := exists_getElem?_portTable hi hx
    exact ⟨⟨id, x.2.name⟩, Std.ExtTreeMap.mem_iff_isSome_getElem?.mpr (by simp [hinfo]), rfl⟩

section Drivers

variable {ports : PortTable}

/-- The driver of an input is the first edge that leads there from an output. -/
theorem getElem?_drivers (g : Patch) (ports : PortTable) (k : PortKey) :
    (g.drivers ports)[k]? =
      (g.edges.toList.find? fun x => ports.joins x.2 && decide (x.2.target = k)).map (·.1) := by
  have hfold : ∀ (l : List (EdgeId × Edge)) (first : Std.ExtTreeMap PortKey EdgeId),
      (l.foldl (fun first x =>
          if ports.joins x.2 then first.insertIfNew x.2.target x.1 else first) first)[k]? =
        first[k]?.or ((l.find? fun x => ports.joins x.2 && decide (x.2.target = k)).map (·.1)) := by
    intro l
    induction l with
    | nil => simp
    | cons x l ih =>
      intro first
      rw [List.foldl_cons, ih, List.find?_cons]
      by_cases hj : ports.joins x.2 = true
      · rw [if_pos hj, OrderedMaps.getElem?_insertIfNew_eq_or, Option.or_assoc]
        by_cases hk : x.2.target = k
        · simp [hj, hk]
        · simp [hj, hk]
      · simp [hj]
  exact (hfold g.edges.toList ∅).trans (by simp)

theorem driver_iff {k : PortKey} {id : EdgeId} :
    (g.drivers ports)[k]? = some id ↔ ∃ e, g.edges[id]? = some e ∧ ports.joins e = true ∧ e.target = k ∧
      ∀ id' e', g.edges[id']? = some e' → id' < id → ports.joins e' = true → e'.target ≠ k := by
  rw [getElem?_drivers, Option.map_eq_some_iff]
  constructor
  · rintro ⟨⟨id', e⟩, hfind, rfl⟩
    obtain ⟨he, hx, hfirst⟩ := OrderedMaps.find?_toList_eq_some_iff.mp hfind
    rw [Bool.and_eq_true, decide_eq_true_eq] at hx
    refine ⟨e, he, hx.1, hx.2, fun id' e' he' hlt hj ht => ?_⟩
    have hno := hfirst id' e' he' hlt
    simp [hj, ht] at hno
  · rintro ⟨e, he, hj, ht, hfirst⟩
    refine ⟨(id, e), OrderedMaps.find?_toList_eq_some_iff.mpr ⟨he, by simp [hj, ht], ?_⟩, rfl⟩
    intro id' e' he' hlt
    rw [Bool.and_eq_false_imp]
    exact fun hj' => decide_eq_false (hfirst id' e' he' hlt hj')

theorem exists_of_driver {k : PortKey} {id : EdgeId} (h : (g.drivers ports)[k]? = some id) :
    ∃ e, g.edges[id]? = some e ∧ ports.joins e = true ∧ e.target = k := by
  obtain ⟨e, he, hj, ht, -⟩ := driver_iff.mp h
  exact ⟨e, he, hj, ht⟩

theorem exists_driver {id : EdgeId} {e : Edge} (he : g.edges[id]? = some e)
    (hj : ports.joins e = true) : ∃ id', (g.drivers ports)[e.target]? = some id' := by
  rw [← Option.isSome_iff_exists, getElem?_drivers, Option.isSome_map, List.find?_isSome]
  exact ⟨(id, e), Std.ExtTreeMap.mem_toList_iff_getElem?_eq_some.mpr he, by simp [hj]⟩

/-- No two edges that lead from an output to an input lead to the same input. -/
def OneDriver (g : Patch) (ports : PortTable) : Prop :=
  ∀ (id : EdgeId) (e : Edge) (id' : EdgeId) (e' : Edge), g.edges[id]? = some e →
    g.edges[id']? = some e' → ports.joins e = true → ports.joins e' = true →
    e.target = e'.target → id = id'

theorem OneDriver.driver (h : g.OneDriver ports) {id : EdgeId} {e : Edge}
    (he : g.edges[id]? = some e) (hj : ports.joins e = true) :
    (g.drivers ports)[e.target]? = some id := by
  obtain ⟨id', hid'⟩ := exists_driver he hj
  obtain ⟨e', he', hj', ht⟩ := exists_of_driver hid'
  rw [hid', h id e id' e' he he' hj hj' ht.symm]

theorem OneDriver.targets_nodup (h : g.OneDriver ports)
    (hjoins : ∀ x ∈ g.edges.toList, ports.joins x.2 = true) :
    (g.edges.toList.map (·.2.target)).Nodup := by
  apply List.Nodup.map_on _ (OrderedMaps.nodup_keys g.edges).of_map
  rintro ⟨id, e⟩ he ⟨id', e'⟩ he' heq
  have hfirst := Std.ExtTreeMap.mem_toList_iff_getElem?_eq_some.mp he
  have hsecond := Std.ExtTreeMap.mem_toList_iff_getElem?_eq_some.mp he'
  have hid := h id e id' e' hfirst hsecond (hjoins _ he) (hjoins _ he') heq
  subst hid
  rw [hfirst] at hsecond
  rw [Option.some.inj hsecond]

theorem oneDriver_iff :
    g.OneDriver ports ↔ ∀ id e, g.edges[id]? = some e →
      driverDiagnostics ports (g.drivers ports) id e = [] := by
  constructor
  · intro h id e he
    by_cases hj : ports.joins e = true
    · simp [driverDiagnostics, hj, h.driver he hj]
    · simp [driverDiagnostics, hj]
  · intro h id e id' e' he he' hj hj' ht
    have hfirst : ∀ {i f}, g.edges[i]? = some f → ports.joins f = true →
        (g.drivers ports)[f.target]? = some i := by
      intro i f hf hjf
      obtain ⟨j, hj⟩ := exists_driver hf hjf
      have hnil := h i f hf
      simp only [driverDiagnostics, hjf, if_true, hj] at hnil
      split at hnil
      · next hji => rw [hj, hji]
      · cases hnil
    have hid := hfirst he hj
    rw [ht, hfirst he' hj'] at hid
    exact (Option.some.inj hid).symm

theorem mem_edgePairs_iff {p : EdgePair} :
    p ∈ g.edgePairs ports ↔ g.edges[p.edge]? = some ⟨p.source, p.target⟩ ∧
      ports.joins ⟨p.source, p.target⟩ = true ∧ (g.drivers ports)[p.target]? = some p.edge := by
  simp only [edgePairs, List.mem_filterMap, Prod.exists,
    Std.ExtTreeMap.mem_toList_iff_getElem?_eq_some]
  constructor
  · rintro ⟨id, e, he, hp⟩
    split at hp
    · next hcond =>
      cases hp
      simp only [Bool.and_eq_true, decide_eq_true_eq] at hcond
      exact ⟨he, hcond⟩
    · cases hp
  · rintro ⟨he, hj, hd⟩
    exact ⟨p.edge, _, he, by simp [hj, hd]⟩

end Drivers

section Extraction

/-- An end of an edge that extraction does not complain of. -/
def Attached (g : Patch) (catalog : Catalog) (k : PortKey) (d : PortDirection) : Prop :=
  (g.portTable catalog).faces k d = true ∨ g.Portless catalog k.node

theorem node_mem_of_attached {k : PortKey} {d : PortDirection} (hk : g.Attached catalog k d) :
    k.node ∈ g.nodes := by
  rcases hk with hk | ⟨n, b, ⟨hn, -⟩, -⟩
  · exact node_mem_of_faces hk
  · exact Std.ExtTreeMap.mem_iff_isSome_getElem?.mpr (by simp [hn])

/-- What it means that extraction reports no error. -/
structure Extracted (g : Patch) (catalog : Catalog) : Prop where
  known : ∀ (id : NodeId) (n : Node), g.nodes[id]? = some n →
    ∃ b, catalog.lookup? n.block = some b
  attached : ∀ (id : EdgeId) (e : Edge), g.edges[id]? = some e →
    g.Attached catalog e.source .output ∧ g.Attached catalog e.target .input
  oneDriver : g.OneDriver (g.portTable catalog)

private theorem endpointDiagnostics_eq_nil_iff
    (hknown : ∀ (id : NodeId) (n : Node), g.nodes[id]? = some n →
      ∃ b, catalog.lookup? n.block = some b) (id : EdgeId)
    (k : PortKey) (d : PortDirection) (side : String) :
    g.endpointDiagnostics (g.portTable catalog) id k d side = [] ↔ g.Attached catalog k d := by
  unfold endpointDiagnostics Attached
  by_cases hf : (g.portTable catalog).faces k d = true
  · simp [hf]
  · rw [if_neg hf, or_iff_right hf]
    constructor
    · intro h
      split at h
      · cases h
      · split at h
        · cases h
        · next hnode =>
          split at h
          · cases h
          · next hknows =>
            have hmem : k.node ∈ g.nodes := by simpa using hnode
            obtain ⟨n, hn⟩ := Option.isSome_iff_exists.mp
              (Std.ExtTreeMap.mem_iff_isSome_getElem?.mp hmem)
            obtain ⟨b, hb⟩ := hknown _ n hn
            refine ⟨n, b, ⟨hn, hb⟩, ?_⟩
            by_contra hne
            exact hknows (knows_portTable_iff.mpr ⟨n, b, ⟨hn, hb⟩, hne⟩)
    · rintro ⟨n, b, hi, hnil⟩
      have hknows : ¬ (g.portTable catalog).knows k.node = true := by
        intro hk
        obtain ⟨n', b', hi', hne⟩ := knows_portTable_iff.mp hk
        cases hi.1.symm.trans hi'.1
        cases hi.2.symm.trans hi'.2
        exact hne hnil
      have hport : k ∉ g.portTable catalog :=
        fun h => hknows (PortTable.knows_iff.mpr ⟨k, h, rfl⟩)
      have hnode : k.node ∈ g.nodes :=
        Std.ExtTreeMap.mem_iff_isSome_getElem?.mpr (by simp [hi.1])
      simp [hport, hnode, hknows]

private theorem isError_of_mem_endpointDiagnostics {ports : PortTable} {id : EdgeId} {k : PortKey}
    {d : PortDirection} {side : String} {x : Diagnostic}
    (hx : x ∈ g.endpointDiagnostics ports id k d side) : x.isError = true := by
  unfold endpointDiagnostics at hx
  split at hx
  · cases hx
  · split at hx
    · cases List.mem_singleton.mp hx; rfl
    · split at hx
      · cases List.mem_singleton.mp hx; rfl
      · split at hx
        · cases List.mem_singleton.mp hx; rfl
        · cases hx

private theorem isError_of_mem_driverDiagnostics {ports : PortTable}
    {first : Std.ExtTreeMap PortKey EdgeId} {id : EdgeId} {e : Edge} {x : Diagnostic}
    (hx : x ∈ driverDiagnostics ports first id e) : x.isError = true := by
  unfold driverDiagnostics at hx
  split at hx
  · split at hx
    · split at hx
      · cases hx
      · cases List.mem_singleton.mp hx; rfl
    · cases hx
  · cases hx

private theorem isError_of_mem_edgeDiagnostics {ports : PortTable} {x : Diagnostic}
    (hx : x ∈ g.edgeDiagnostics ports) : x.isError = true := by
  obtain ⟨⟨id, e⟩, -, hx⟩ := List.mem_flatMap.mp hx
  rcases List.mem_append.mp hx with hx | hx
  · rcases List.mem_append.mp hx with hx | hx
    · exact isError_of_mem_endpointDiagnostics hx
    · exact isError_of_mem_endpointDiagnostics hx
  · exact isError_of_mem_driverDiagnostics hx

private theorem edgeDiagnostics_eq_nil_iff {ports : PortTable} :
    g.edgeDiagnostics ports = [] ↔
      (∀ id e, g.edges[id]? = some e →
        g.endpointDiagnostics ports id e.source .output "source" = [] ∧
          g.endpointDiagnostics ports id e.target .input "target" = []) ∧ g.OneDriver ports := by
  rw [oneDriver_iff]
  simp only [edgeDiagnostics, List.flatMap_eq_nil_iff, List.append_eq_nil_iff, Prod.forall,
    Std.ExtTreeMap.mem_toList_iff_getElem?_eq_some]
  exact ⟨fun h => ⟨fun id e he => (h id e he).1, fun id e he => (h id e he).2⟩,
    fun h id e he => ⟨h.1 id e he, h.2 id e he⟩⟩

private theorem hasErrors_nodeDiagnostics_iff {n : Node} {id : NodeId} :
    hasErrors (n.diagnostics catalog id) = false ↔ ∃ b, catalog.lookup? n.block = some b := by
  unfold Node.diagnostics
  cases h : catalog.lookup? n.block with
  | none => simp [hasErrors, Node.unknownBlock, Diagnostic.isError, DiagnosticKind.severity]
  | some b =>
    simp [hasErrors, Node.overrideDiagnostics, Diagnostic.isError, DiagnosticKind.severity]

/-- Extraction reports an error exactly if something other than a portless node is in the way. -/
theorem extracted_iff :
    hasErrors (g.extractionDiagnostics catalog) = false ↔ g.Extracted catalog := by
  have hnodes : hasErrors (g.nodes.toList.flatMap fun x => x.2.diagnostics catalog x.1) = false ↔
      ∀ (id : NodeId) (n : Node), g.nodes[id]? = some n →
        ∃ b, catalog.lookup? n.block = some b := by
    simp only [hasErrors, List.any_flatMap, List.any_eq_false, Prod.forall,
      Std.ExtTreeMap.mem_toList_iff_getElem?_eq_some, Bool.not_eq_true]
    exact forall₃_congr fun id n _ => hasErrors_eq_false_iff.symm.trans hasErrors_nodeDiagnostics_iff
  have hedges : hasErrors (g.edgeDiagnostics (g.portTable catalog)) = false ↔
      g.edgeDiagnostics (g.portTable catalog) = [] :=
    ⟨fun h => eq_nil_of_hasErrors h fun _ => isError_of_mem_edgeDiagnostics, fun h => by rw [h]; rfl⟩
  change hasErrors ((g.nodes.toList.flatMap fun x => x.2.diagnostics catalog x.1) ++ _) = false ↔ _
  rw [hasErrors_append, Bool.or_eq_false_iff, hnodes, hedges, edgeDiagnostics_eq_nil_iff]
  constructor
  · rintro ⟨hk, ha, hd⟩
    refine ⟨hk, fun id e he => ?_, hd⟩
    obtain ⟨hs, ht⟩ := ha id e he
    exact ⟨(endpointDiagnostics_eq_nil_iff hk id _ _ _).mp hs,
      (endpointDiagnostics_eq_nil_iff hk id _ _ _).mp ht⟩
  · rintro ⟨hk, ha, hd⟩
    refine ⟨hk, fun id e he => ?_, hd⟩
    obtain ⟨hs, ht⟩ := ha id e he
    exact ⟨(endpointDiagnostics_eq_nil_iff hk id _ _ _).mpr hs,
      (endpointDiagnostics_eq_nil_iff hk id _ _ _).mpr ht⟩

theorem Extracted.mem_edgePairs_iff (h : g.Extracted catalog) {p : EdgePair} :
    p ∈ g.edgePairs (g.portTable catalog) ↔ g.edges[p.edge]? = some ⟨p.source, p.target⟩ ∧
      (g.portTable catalog).joins ⟨p.source, p.target⟩ = true := by
  rw [Patch.mem_edgePairs_iff]
  exact ⟨fun hp => ⟨hp.1, hp.2.1⟩, fun hp => ⟨hp.1, hp.2, h.oneDriver.driver hp.1 hp.2⟩⟩

end Extraction

end Patch

end PatchTyping
