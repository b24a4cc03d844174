import PatchTyping.Proofs.RoundTypes

/-!
# Constraints after splicing

An adapter has two ports that carry what the ends of the replaced edge carry. All other ports are as they
were, and so are the edges that count, except that each replaced edge is now a way through its adapter.
On payload and unit the constraints before and after have the same solution, which is that of the round
that called for the adapters.
-/

namespace PatchTyping

open AxisInference

/-- On every adapter block payload and unit of both ports are known. -/
def Catalog.FixedAdapters (catalog : Catalog) : Prop :=
  ∀ (name : String) (b : Block), catalog.lookup? name = some b → b.adapter.isSome = true →
    ∀ x ∈ b.ports, x.2.type.payload.isVar = false ∧ x.2.type.unit.isVar = false

/-- The type with its cardinality left open. -/
def ConcreteType.opened (t : ConcreteType) (v : String) : PortType :=
  ⟨.inst t.payload, .inst t.unit, .var v, t.temporality⟩

theorem PortType.eq_opened {t : PortType} {c : ConcreteType} {v : String}
    (hpay : t.payload.isVar = false) (hunit : t.unit.isVar = false) (hcard : t.cardinality = .var v)
    (h : (TypePattern.ofPortType t).admits c = true) : t = c.opened v := by
  obtain ⟨payload, unit, cardinality, temporality⟩ := t
  cases payload with
  | var name => cases hpay
  | inst p =>
    cases unit with
    | var name => cases hunit
    | inst u =>
      simp only [TypePattern.admits, TypePattern.ofPortType, Axis.value?, Bool.and_eq_true,
        decide_eq_true_eq] at h
      obtain ⟨⟨rfl, rfl⟩, htemp⟩ := h
      cases of_decide_eq_true htemp
      cases hcard
      rfl

section Relations

variable {α : Type}

namespace PortTable

variable {ports ports' : PortTable} {axis : PortType → Axis α} {node : NodeId}

theorem templateAxis_congr (h : ∀ k : PortKey, k.node = node → ports'[k]? = ports[k]?)
    (which : AxisName) (t : Template) :
    ports'.templateAxis which axis node t = ports.templateAxis which axis node t := by
  cases t with
  | equal name ps =>
    simp only [templateAxis]
    split
    · apply List.filterMap_congr
      intro x hx
      obtain ⟨ha, hb⟩ := mem_of_mem_consecutive hx
      obtain ⟨p, -, hp⟩ := List.mem_map.mp ha
      obtain ⟨q, -, hq⟩ := List.mem_map.mp hb
      rw [relate, relate, h x.1 (by rw [← hp]), h x.2 (by rw [← hq])]
    · rfl
  | zipBroadcast ps => rfl
  | fixed p type => rfl

theorem templateCardinality_congr (h : ∀ k : PortKey, k.node = node → ports'[k]? = ports[k]?)
    (t : Template) : ports'.templateCardinality node t = ports.templateCardinality node t := by
  cases t with
  | equal name ps => cases name <;> rfl
  | zipBroadcast ps =>
    have hps : ∀ p, ports'[PortKey.mk node p]? = ports[PortKey.mk node p]? := fun p => h _ rfl
    simp only [templateCardinality, hps]
  | fixed p type => rfl

end PortTable

end Relations

namespace Replacement

/-- The port at which the adapter takes in what the source carries. -/
def input (r : Replacement) : PortKey := ⟨r.id, r.rule.inputPort⟩

/-- The port at which the adapter gives out what the target expects. -/
def output (r : Replacement) : PortKey := ⟨r.id, r.rule.outputPort⟩

def entryPair (r : Replacement) : EdgePair := ⟨r.entry.1, r.pair.source, r.input⟩

def exitPair (r : Replacement) : EdgePair := ⟨r.exit.1, r.output, r.pair.target⟩

/-- What is given for the adapter of that name, and something else for any other node. -/
def atNode {β : Type} (rs : List Replacement) (new : Replacement → β) (other : β) (id : NodeId) : β :=
  match rs.find? fun r => decide (r.id = id) with
  | some r => new r
  | none => other

/-- Types that the two ports of the adapter may declare: one cardinality, and nothing known that the ends
of the edge do not carry. -/
structure Sides (r : Replacement) (input output : PortType) : Prop where
  cardinality : ∃ v, input.cardinality = .var v ∧ output.cardinality = .var v
  source : (TypePattern.ofPortType input).admits r.source = true
  target : (TypePattern.ofPortType output).admits r.target = true

/-- The block of an adapter has no templates, and its ports can carry what the rule converts. -/
theorem Fits.exists_adapter {catalog : Catalog} (hc : catalog.Built) {types : PortTyping}
    {r : Replacement} (h : r.Fits catalog.adapterRules types) :
    ∃ b s t, catalog.lookup? r.rule.block = some b ∧ b.adapter.isSome = true ∧ b.templates = [] ∧
      b.ports.map (·.2.type) = [s, t] ∧ r.Sides s t ∧
      r.node.portInfos r.id b = [(r.input, ⟨s, .input, false, false⟩),
        (r.output, ⟨t, .output, false, false⟩)] := by
  obtain ⟨b, input, output, hb, hconv, hs, ht, hin, hout, hadapter⟩ := hc.exists_block h.rule_mem
  have hports := hconv.ports_eq
  have hadmits := h.converts
  simp only [AdapterRule.converts, Bool.and_eq_true, hs, ht] at hadmits
  refine ⟨b, input.type, output.type, hb, hadapter, hconv.templates, by simp [hports],
    ⟨hconv.cardinality, hadmits.1.2, hadmits.2⟩, ?_⟩
  simp [Node.portInfos_eq, hports, Node.infoOf, node, hconv.baseType_eq,
    hconv.zipMembers_eq, Block.pinsCardinality, hconv.pins_eq, Replacement.input, Replacement.output,
    hin, hout]

end Replacement

namespace Patch

variable {catalog : Catalog} {g g' : Patch} {rs : List Replacement} {types : PortTyping}

namespace Spliced

section Ports

variable (h : g.Spliced g' rs)
include h

theorem not_mem {r : Replacement} (hr : r ∈ rs) : r.id ∉ g.nodes := by
  intro hmem
  rw [Std.ExtTreeMap.mem_iff_isSome_getElem?, h.fresh r hr] at hmem
  cases hmem

theorem atNode_of_mem {β : Type} {id : NodeId} (hid : id ∈ g.nodes) (new : Replacement → β)
    (other : β) : Replacement.atNode rs new other id = other := by
  have hnone : rs.find? (fun r => decide (r.id = id)) = none := by
    rw [List.find?_eq_none]
    intro r hr heq
    rw [← of_decide_eq_true heq] at hid
    exact h.not_mem hr hid
  rw [Replacement.atNode, hnone]

theorem atNode_adapter {β : Type} {r : Replacement} (hr : r ∈ rs) (new : Replacement → β)
    (other : β) : Replacement.atNode rs new other r.id = new r := by
  cases hfind : rs.find? (fun r' => decide (r'.id = r.id)) with
  | none =>
    have hno := List.find?_eq_none.mp hfind r hr
    exact absurd (decide_eq_true rfl) hno
  | some r' =>
    have hfound := List.find?_some hfind
    have hid : r'.id = r.id := of_decide_eq_true hfound
    have heq := List.inj_on_of_nodup_map h.ids_nodup (List.mem_of_find?_eq_some hfind) hr hid
    rw [Replacement.atNode, hfind, heq]

theorem getElem?_nodes {id : NodeId} (hid : id ∈ g.nodes) : g'.nodes[id]? = g.nodes[id]? := by
  apply Option.ext
  intro n
  rw [h.node_iff]
  constructor
  · rintro (hn | ⟨r, hr, rfl, -⟩)
    · exact hn
    · exact absurd hid (h.not_mem hr)
  · exact .inl

theorem instantiates_iff {id : NodeId} (hid : id ∈ g.nodes) (n : Node) (b : Block) :
    g'.Instantiates catalog id n b ↔ g.Instantiates catalog id n b := by
  rw [Instantiates, Instantiates, h.getElem?_nodes hid]

theorem getElem?_portTable (hc : catalog.Built) {k : PortKey} (hk : k.node ∈ g.nodes) :
    (g'.portTable catalog)[k]? = (g.portTable catalog)[k]? := by
  apply Option.ext
  intro info
  rw [getElem?_portTable_iff hc, getElem?_portTable_iff hc]
  simp only [h.instantiates_iff hk]

theorem faces_eq (hc : catalog.Built) {k : PortKey} (hk : k.node ∈ g.nodes) (d : PortDirection) :
    (g'.portTable catalog).faces k d = (g.portTable catalog).faces k d := by
  rw [PortTable.faces, PortTable.faces, h.getElem?_portTable hc hk]

end Ports

end Spliced

/-- A patch in which adapters have taken the place of edges that count. -/
structure Rerouted (catalog : Catalog) (types : PortTyping) (g g' : Patch) (rs : List Replacement) :
    Prop where
  built : catalog.Built
  extracted : g.Extracted catalog
  spliced : g.Spliced g' rs
  pair_mem : ∀ r ∈ rs, r.pair ∈ g.edgePairs (g.portTable catalog)
  fits : ∀ r ∈ rs, r.Fits catalog.adapterRules types

namespace Rerouted

variable (h : Rerouted catalog types g g' rs)
include h

theorem exists_adapter {r : Replacement} (hr : r ∈ rs) :
    ∃ b s t, g'.Instantiates catalog r.id r.node b ∧ b.templates = [] ∧ r.Sides s t ∧
      r.node.portInfos r.id b = [(r.input, ⟨s, .input, false, false⟩),
        (r.output, ⟨t, .output, false, false⟩)] := by
  obtain ⟨b, s, t, hb, -, htemplates, -, hsides, hinfos⟩ := (h.fits r hr).exists_adapter h.built
  have hnode := (h.spliced.node_iff r.id r.node).mpr (.inr ⟨r, hr, rfl, rfl⟩)
  exact ⟨b, s, t, ⟨hnode, hb⟩, htemplates, hsides, hinfos⟩

theorem exists_getElem?_adapter {r : Replacement} (hr : r ∈ rs) :
    ∃ s t, r.Sides s t ∧
      (g'.portTable catalog)[r.input]? = some ⟨s, .input, false, false⟩ ∧
      (g'.portTable catalog)[r.output]? = some ⟨t, .output, false, false⟩ := by
  obtain ⟨b, s, t, hi, -, hsides, hinfos⟩ := h.exists_adapter hr
  refine ⟨s, t, hsides, ?_, ?_⟩
  · exact (getElem?_portTable_iff h.built).mpr ⟨r.node, b, hi, by
      change (r.input, _) ∈ r.node.portInfos r.id b
      simp [hinfos]⟩
  · exact (getElem?_portTable_iff h.built).mpr ⟨r.node, b, hi, by
      change (r.output, _) ∈ r.node.portInfos r.id b
      simp [hinfos]⟩

/-- A node that was not there is an adapter. -/
theorem instantiates_cases {id : NodeId} {n : Node} {b : Block}
    (hi : g'.Instantiates catalog id n b) :
    g.Instantiates catalog id n b ∨ ∃ r ∈ rs, id = r.id ∧ n = r.node := by
  rcases (h.spliced.node_iff id n).mp hi.1 with hn | hn
  · exact .inl ⟨hn, hi.2⟩
  · exact .inr hn

theorem port_cases {k : PortKey} {info : PortInfo} (hk : (g'.portTable catalog)[k]? = some info) :
    k.node ∈ g.nodes ∨ ∃ r ∈ rs, k = r.input ∨ k = r.output := by
  obtain ⟨n, b, hi, hmem⟩ := exists_of_getElem?_portTable hk
  rcases h.instantiates_cases hi with hold | ⟨r, hr, hid, rfl⟩
  · exact .inl (Std.ExtTreeMap.mem_iff_isSome_getElem?.mpr (by simp [hold.1]))
  · right
    obtain ⟨b', s, t, hi', -, -, hinfos⟩ := h.exists_adapter hr
    rw [hid] at hi hmem
    cases hi.2.symm.trans hi'.2
    rw [hinfos] at hmem
    refine ⟨r, hr, ?_⟩
    simp only [List.mem_cons, Prod.mk.injEq, List.not_mem_nil, or_false] at hmem
    exact hmem.imp And.left And.left

theorem pair_faces {r : Replacement} (hr : r ∈ rs) :
    (g.portTable catalog).faces r.pair.source .output = true ∧
      (g.portTable catalog).faces r.pair.target .input = true := by
  obtain ⟨-, hj, -⟩ := mem_edgePairs_iff.mp (h.pair_mem r hr)
  exact PortTable.joins_iff.mp hj

theorem joins_eq {id : EdgeId} {e : Edge} (he : g.edges[id]? = some e) :
    (g'.portTable catalog).joins e = (g.portTable catalog).joins e := by
  obtain ⟨hs, ht⟩ := h.extracted.attached id e he
  rw [PortTable.joins, PortTable.joins, h.spliced.faces_eq h.built (node_mem_of_attached hs),
    h.spliced.faces_eq h.built (node_mem_of_attached ht)]

theorem adapter_faces {r : Replacement} (hr : r ∈ rs) :
    (g'.portTable catalog).faces r.input .input = true ∧
      (g'.portTable catalog).faces r.output .output = true := by
  obtain ⟨s, t, -, hin, hout⟩ := h.exists_getElem?_adapter hr
  exact ⟨PortTable.faces_iff.mpr ⟨_, hin, rfl⟩, PortTable.faces_iff.mpr ⟨_, hout, rfl⟩⟩

theorem ends_face {r : Replacement} (hr : r ∈ rs) :
    (g'.portTable catalog).faces r.pair.source .output = true ∧
      (g'.portTable catalog).faces r.pair.target .input = true := by
  obtain ⟨hs, ht⟩ := h.pair_faces hr
  rw [h.spliced.faces_eq h.built (node_mem_of_faces hs),
    h.spliced.faces_eq h.built (node_mem_of_faces ht)]
  exact ⟨hs, ht⟩

omit h in
private theorem edge_cases (h : g.Spliced g' rs) {id : EdgeId} {e : Edge}
    (he : g'.edges[id]? = some e) :
    (g.edges[id]? = some e ∧ ∀ r ∈ rs, r.pair.edge ≠ id) ∨
      ∃ r ∈ rs, (id = r.entry.1 ∧ e = ⟨r.pair.source, r.input⟩) ∨
        (id = r.exit.1 ∧ e = ⟨r.output, r.pair.target⟩) := by
  rcases (h.edge_iff id e).mp he with hold | ⟨r, hr, heq | heq⟩
  · exact .inl hold
  · exact .inr ⟨r, hr, .inl (Prod.ext_iff.mp heq)⟩
  · exact .inr ⟨r, hr, .inr (Prod.ext_iff.mp heq)⟩

/-- An edge into a port that was there drives it in place of one that did so before, itself or the one
its adapter replaces. -/
private theorem driver_cases {id : EdgeId} {e : Edge} (he : g'.edges[id]? = some e)
    (hj : (g'.portTable catalog).joins e = true) :
    (∃ r ∈ rs, id = r.entry.1 ∧ e.target = r.input) ∨
      e.target.node ∈ g.nodes ∧ ∃ (o : EdgeId) (f : Edge), g.edges[o]? = some f ∧
        (g.portTable catalog).joins f = true ∧ f.target = e.target ∧
        ((o = id ∧ ∀ r ∈ rs, r.pair.edge ≠ id) ∨ ∃ r ∈ rs, r.pair.edge = o ∧ id = r.exit.1) := by
  rcases edge_cases h.spliced he with ⟨hold, hkept⟩ | ⟨r, hr, ⟨rfl, rfl⟩ | ⟨rfl, rfl⟩⟩
  · right
    rw [h.joins_eq hold] at hj
    have hnode := node_mem_of_faces (PortTable.joins_iff.mp hj).2
    exact ⟨hnode, id, e, hold, hj, rfl, .inl ⟨rfl, hkept⟩⟩
  · exact .inl ⟨r, hr, rfl, rfl⟩
  · right
    obtain ⟨hedge, hjoin, -⟩ := mem_edgePairs_iff.mp (h.pair_mem r hr)
    have hnode := node_mem_of_faces (h.pair_faces hr).2
    exact ⟨hnode, r.pair.edge, _, hedge, hjoin, rfl, .inr ⟨r, hr, rfl, rfl⟩⟩

theorem oneDriver : g'.OneDriver (g'.portTable catalog) := by
  intro id e id' e' he he' hj hj' ht
  rcases h.driver_cases he hj with ⟨r, hr, rfl, hin⟩ | ⟨hnode, o, f, hf, hjf, hft, hof⟩
  · rcases h.driver_cases he' hj' with ⟨r', hr', rfl, hin'⟩ | ⟨hnode', -⟩
    · have hid : r.id = r'.id := congrArg PortKey.node (hin.symm.trans (ht.trans hin'))
      rw [List.inj_on_of_nodup_map h.spliced.ids_nodup hr hr' hid]
    · rw [← ht, hin] at hnode'
      exact absurd hnode' (h.spliced.not_mem hr)
  · rcases h.driver_cases he' hj' with ⟨r', hr', rfl, hin'⟩ | ⟨-, o', f', hf', hjf', hft', hof'⟩
    · rw [ht, hin'] at hnode
      exact absurd hnode (h.spliced.not_mem hr')
    · have ho : o = o' := h.extracted.oneDriver o f o' f' hf hf' hjf hjf'
        (hft.trans (ht.trans hft'.symm))
      subst ho
      rcases hof with ⟨rfl, hkept⟩ | ⟨r, hr, hro, rfl⟩
      · rcases hof' with ⟨rfl, -⟩ | ⟨r', hr', hro', -⟩
        · rfl
        · exact absurd hro' (hkept r' hr')
      · rcases hof' with ⟨rfl, hkept⟩ | ⟨r', hr', hro', rfl⟩
        · exact absurd hro (hkept r hr)
        · rw [List.inj_on_of_nodup_map h.spliced.pairs_nodup hr hr' (hro.trans hro'.symm)]

private theorem attached_mono {k : PortKey} {d : PortDirection} (hk : g.Attached catalog k d) :
    g'.Attached catalog k d := by
  have hnode := node_mem_of_attached hk
  rcases hk with hk | ⟨n, b, hi, hnil⟩
  · rw [← h.spliced.faces_eq h.built hnode] at hk
    exact .inl hk
  · exact .inr ⟨n, b, (h.spliced.instantiates_iff hnode n b).mpr hi, hnil⟩

/-- Splicing gives extraction nothing to complain of. -/
theorem extracted_spliced : g'.Extracted catalog where
  known id n hn := by
    rcases (h.spliced.node_iff id n).mp hn with hn | ⟨r, hr, rfl, rfl⟩
    · exact h.extracted.known id n hn
    · obtain ⟨b, s, t, hi, -⟩ := h.exists_adapter hr
      exact ⟨b, hi.2⟩
  attached id e he := by
    rcases edge_cases h.spliced he with ⟨hold, -⟩ | ⟨r, hr, ⟨-, rfl⟩ | ⟨-, rfl⟩⟩
    · obtain ⟨hs, ht⟩ := h.extracted.attached id e hold
      exact ⟨h.attached_mono hs, h.attached_mono ht⟩
    · exact ⟨.inl (h.ends_face hr).1, .inl (h.adapter_faces hr).1⟩
    · exact ⟨.inl (h.adapter_faces hr).2, .inl (h.ends_face hr).2⟩
  oneDriver := h.oneDriver

/-- The edges that count after splicing. -/
theorem mem_edgePairs_spliced_iff {p : EdgePair} :
    p ∈ g'.edgePairs (g'.portTable catalog) ↔
      (p ∈ g.edgePairs (g.portTable catalog) ∧ ∀ r ∈ rs, r.pair ≠ p) ∨
        ∃ r ∈ rs, p = r.entryPair ∨ p = r.exitPair := by
  rw [h.extracted_spliced.mem_edgePairs_iff, h.extracted.mem_edgePairs_iff]
  constructor
  · rintro ⟨he, hj⟩
    rcases edge_cases h.spliced he with ⟨hold, hkept⟩ | ⟨r, hr, ⟨hid, heq⟩ | ⟨hid, heq⟩⟩
    · rw [h.joins_eq hold] at hj
      refine .inl ⟨⟨hold, hj⟩, fun r hr heq => ?_⟩
      exact hkept r hr (congrArg EdgePair.edge heq)
    · refine .inr ⟨r, hr, .inl ?_⟩
      cases p
      cases heq
      cases hid
      rfl
    · refine .inr ⟨r, hr, .inr ?_⟩
      cases p
      cases heq
      cases hid
      rfl
  · rintro (⟨⟨he, hj⟩, hkept⟩ | ⟨r, hr, rfl | rfl⟩)
    · rw [h.joins_eq he]
      refine ⟨(h.spliced.edge_iff _ _).mpr (.inl ⟨he, fun r hr heq => ?_⟩), hj⟩
      obtain ⟨hedge, -, -⟩ := mem_edgePairs_iff.mp (h.pair_mem r hr)
      rw [heq, he] at hedge
      apply hkept r hr
      cases p
      cases hr' : r.pair
      simp_all
    · refine ⟨(h.spliced.edge_iff _ _).mpr (.inr ⟨r, hr, .inl rfl⟩), ?_⟩
      exact PortTable.joins_iff.mpr ⟨(h.ends_face hr).1, (h.adapter_faces hr).1⟩
    · refine ⟨(h.spliced.edge_iff _ _).mpr (.inr ⟨r, hr, .inr rfl⟩), ?_⟩
      exact PortTable.joins_iff.mpr ⟨(h.adapter_faces hr).2, (h.ends_face hr).2⟩

section Axes

variable {α : Type} {which : AxisName} {axis : PortType → Axis α}

theorem template_mem_iff {c : AxisConstraint α} :
    (∃ id n b, g'.Instantiates catalog id n b ∧
        ∃ t ∈ b.templates, c ∈ (g'.portTable catalog).templateAxis which axis id t) ↔
      ∃ id n b, g.Instantiates catalog id n b ∧
        ∃ t ∈ b.templates, c ∈ (g.portTable catalog).templateAxis which axis id t := by
  have hsame : ∀ {id : NodeId}, id ∈ g.nodes → ∀ t,
      (g'.portTable catalog).templateAxis which axis id t =
        (g.portTable catalog).templateAxis which axis id t := by
    intro id hid t
    apply PortTable.templateAxis_congr
    rintro k rfl
    exact h.spliced.getElem?_portTable h.built hid
  constructor
  · rintro ⟨id, n, b, hi, t, ht, hc⟩
    rcases h.instantiates_cases hi with hold | ⟨r, hr, rfl, rfl⟩
    · have hid : id ∈ g.nodes := Std.ExtTreeMap.mem_iff_isSome_getElem?.mpr (by simp [hold.1])
      rw [hsame hid] at hc
      exact ⟨id, n, b, hold, t, ht, hc⟩
    · obtain ⟨b', s, t', hi', hnil, -⟩ := h.exists_adapter hr
      cases hi.2.symm.trans hi'.2
      rw [hnil] at ht
      cases ht
  · rintro ⟨id, n, b, hi, t, ht, hc⟩
    have hid : id ∈ g.nodes := Std.ExtTreeMap.mem_iff_isSome_getElem?.mpr (by simp [hi.1])
    rw [← hsame hid] at hc
    exact ⟨id, n, b, (h.spliced.instantiates_iff hid n b).mpr hi, t, ht, hc⟩

theorem relate_eq {p : EdgePair} (hp : p ∈ g.edgePairs (g.portTable catalog)) (origin : Origin) :
    (g'.portTable catalog).relate axis p.source p.target origin =
      (g.portTable catalog).relate axis p.source p.target origin := by
  obtain ⟨-, hj, -⟩ := mem_edgePairs_iff.mp hp
  obtain ⟨hs, ht⟩ := PortTable.joins_iff.mp hj
  rw [PortTable.relate, PortTable.relate,
    h.spliced.getElem?_portTable h.built (node_mem_of_faces hs),
    h.spliced.getElem?_portTable h.built (node_mem_of_faces ht)]

end Axes

end Rerouted

/-- A patch in which adapters that leave only the cardinality open have taken the place of edges that
count. -/
structure Mended (catalog : Catalog) (types : PortTyping) (g g' : Patch) (rs : List Replacement) :
    Prop where
  built : catalog.Built
  fixedAdapters : catalog.FixedAdapters
  extracted : g.Extracted catalog
  spliced : g.Spliced g' rs
  pair_mem : ∀ r ∈ rs, r.pair ∈ g.edgePairs (g.portTable catalog)
  fits : ∀ r ∈ rs, r.Fits catalog.adapterRules types

namespace Mended

variable (h : Mended catalog types g g' rs)
include h

theorem rerouted : Rerouted catalog types g g' rs :=
  ⟨h.built, h.extracted, h.spliced, h.pair_mem, h.fits⟩

theorem exists_getElem?_adapter {r : Replacement} (hr : r ∈ rs) :
    ∃ v, (g'.portTable catalog)[r.input]? =
        some ⟨r.source.opened v, .input, false, false⟩ ∧
      (g'.portTable catalog)[r.output]? = some ⟨r.target.opened v, .output, false, false⟩ := by
  obtain ⟨b, s, t, hb, hadapter, -, htypes, ⟨⟨v, hv, hv'⟩, hs, ht⟩, hinfos⟩ :=
    (h.fits r hr).exists_adapter h.built
  have hknown : ∀ u ∈ [s, t], u.payload.isVar = false ∧ u.unit.isVar = false := by
    rw [← htypes]
    intro u hu
    obtain ⟨x, hx, rfl⟩ := List.mem_map.mp hu
    exact h.fixedAdapters _ b hb hadapter x hx
  have hnode := (h.spliced.node_iff r.id r.node).mpr (.inr ⟨r, hr, rfl, rfl⟩)
  have hport : ∀ k info, (k, info) ∈ r.node.portInfos r.id b → k.node = r.id →
      (g'.portTable catalog)[k]? = some info := by
    rintro k info hmem hk
    exact (getElem?_portTable_iff h.built).mpr ⟨r.node, b, ⟨hk ▸ hnode, hb⟩, hk ▸ hmem⟩
  refine ⟨v, ?_, ?_⟩
  · rw [← PortType.eq_opened (hknown s (by simp)).1 (hknown s (by simp)).2 hv hs]
    exact hport _ _ (by simp [hinfos]) rfl
  · rw [← PortType.eq_opened (hknown t (by simp)).1 (hknown t (by simp)).2 hv' ht]
    exact hport _ _ (by simp [hinfos]) rfl

section Axes

variable {α : Type} {which : AxisName} {axis : PortType → Axis α} {value : ConcreteType → α}
  (hopen : ∀ t v, axis (ConcreteType.opened t v) = .inst (value t))
include hopen

theorem bound_iff {x : VarKey} :
    Bound ((g'.portTable catalog).bindings axis) x ↔
      Bound ((g.portTable catalog).bindings axis) x := by
  rw [bound_bindings_iff, bound_bindings_iff]
  constructor
  · rintro ⟨k, info, hk, hnode, hvar⟩
    rcases h.rerouted.port_cases hk with hold | ⟨r, hr, hkr⟩
    · rw [h.spliced.getElem?_portTable h.built hold] at hk
      exact ⟨k, info, hk, hnode, hvar⟩
    · exfalso
      obtain ⟨v, hin, hout⟩ := h.exists_getElem?_adapter hr
      rcases hkr with rfl | rfl
      · cases hin.symm.trans hk
        rw [hopen] at hvar
        cases hvar
      · cases hout.symm.trans hk
        rw [hopen] at hvar
        cases hvar
  · rintro ⟨k, info, hk, hnode, hvar⟩
    rw [← h.spliced.getElem?_portTable h.built (node_mem_of_portTable hk)] at hk
    exact ⟨k, info, hk, hnode, hvar⟩

variable {σ : VarKey → α}
  (htyped : ∀ (k : PortKey) (t : ConcreteType) (info : PortInfo), types.concrete? k = some t →
    (g.portTable catalog)[k]? = some info → (axis info.type).under σ k.node = value t)
include htyped

omit htyped in
/-- The way through an adapter demands that the ends of the replaced edge keep their values, as far as
they are variables. -/
private theorem way_holds_iff {r : Replacement} (hr : r ∈ rs) {i j : PortInfo}
    (hi : (g.portTable catalog)[r.pair.source]? = some i)
    (hj : (g.portTable catalog)[r.pair.target]? = some j) {τ : VarKey → α} :
    ((∀ c, (g'.portTable catalog).relate axis r.pair.source r.input (.edge r.entryPair.edge) =
        some c → c.Holds τ) ∧
      ∀ c, (g'.portTable catalog).relate axis r.output r.pair.target (.edge r.exitPair.edge) =
        some c → c.Holds τ) ↔
      ((axis i.type).isVar = true → (axis i.type).under τ r.pair.source.node = value r.source) ∧
        ((axis j.type).isVar = true → (axis j.type).under τ r.pair.target.node = value r.target) := by
  obtain ⟨v, hin, hout⟩ := h.exists_getElem?_adapter hr
  have hi' := hi
  have hj' := hj
  rw [← h.spliced.getElem?_portTable h.built (node_mem_of_portTable hi)] at hi'
  rw [← h.spliced.getElem?_portTable h.built (node_mem_of_portTable hj)] at hj'
  rw [PortTable.relate_holds_iff hi' hin, PortTable.relate_holds_iff hout hj']
  simp only [hopen, Axis.under, Axis.isVar, Bool.false_eq_true, or_false, false_or]
  rw [eq_comm (a := value r.target)]

/-- What solves the constraints before splicing solves those after it. -/
theorem models_spliced
    (hσ : Models (g.axisConstraints catalog (g.portTable catalog)
      (g.edgePairs (g.portTable catalog)) which axis) σ) :
    Models (g'.axisConstraints catalog (g'.portTable catalog)
      (g'.edgePairs (g'.portTable catalog)) which axis) σ := by
  intro c hc
  rcases mem_axisConstraints_iff.mp hc with hc | ⟨p, hp, hc⟩
  · exact hσ c (mem_axisConstraints_iff.mpr (.inl (h.rerouted.template_mem_iff.mp hc)))
  · rcases h.rerouted.mem_edgePairs_spliced_iff.mp hp with ⟨hp, -⟩ | ⟨r, hr, hpr⟩
    · rw [h.rerouted.relate_eq hp] at hc
      exact hσ c (mem_axisConstraints_iff.mpr (.inr ⟨p, hp, hc⟩))
    · obtain ⟨hs, ht⟩ := h.rerouted.pair_faces hr
      obtain ⟨i, hi, -⟩ := PortTable.faces_iff.mp hs
      obtain ⟨j, hj, -⟩ := PortTable.faces_iff.mp ht
      have hway := (h.way_holds_iff hopen hr hi hj).mpr
        ⟨fun _ => htyped _ _ i (h.fits r hr).source_eq hi,
          fun _ => htyped _ _ j (h.fits r hr).target_eq hj⟩
      rcases hpr with rfl | rfl
      · exact hway.1 c hc
      · exact hway.2 c hc

/-- What solves the constraints after splicing solves those before it. Where a replaced edge demanded
that its ends agree, they had one value, and the adapter still demands that of both. -/
theorem models_of_spliced
    (hσ : Models (g.axisConstraints catalog (g.portTable catalog)
      (g.edgePairs (g.portTable catalog)) which axis) σ) {τ : VarKey → α}
    (hτ : Models (g'.axisConstraints catalog (g'.portTable catalog)
      (g'.edgePairs (g'.portTable catalog)) which axis) τ) :
    Models (g.axisConstraints catalog (g.portTable catalog)
      (g.edgePairs (g.portTable catalog)) which axis) τ := by
  intro c hc
  rcases mem_axisConstraints_iff.mp hc with htemp | ⟨p, hp, hrel⟩
  · exact hτ c (mem_axisConstraints_iff.mpr (.inl (h.rerouted.template_mem_iff.mpr htemp)))
  · by_cases hrep : ∃ r ∈ rs, r.pair = p
    · obtain ⟨r, hr, rfl⟩ := hrep
      obtain ⟨i, j, hi, hj, -⟩ := PortTable.relate_eq_some hrel
      have hentry : ∀ c, (g'.portTable catalog).relate axis r.pair.source r.input
          (.edge r.entryPair.edge) = some c → c.Holds τ := by
        intro c hc
        have hmem := h.rerouted.mem_edgePairs_spliced_iff.mpr (.inr ⟨r, hr, .inl rfl⟩)
        exact hτ c (mem_axisConstraints_iff.mpr (.inr ⟨_, hmem, hc⟩))
      have hexit : ∀ c, (g'.portTable catalog).relate axis r.output r.pair.target
          (.edge r.exitPair.edge) = some c → c.Holds τ := by
        intro c hc
        have hmem := h.rerouted.mem_edgePairs_spliced_iff.mpr (.inr ⟨r, hr, .inr rfl⟩)
        exact hτ c (mem_axisConstraints_iff.mpr (.inr ⟨_, hmem, hc⟩))
      obtain ⟨hs, ht⟩ := (h.way_holds_iff hopen hr hi hj).mp ⟨hentry, hexit⟩
      have hfixed : ∀ {x : Axis α} {node : NodeId} {a : α}, x.under σ node = a →
          (x.isVar = true → x.under τ node = a) → x.under τ node = a := by
        intro x node a hxσ hxτ
        cases x with
        | inst b => exact hxσ
        | var name => exact hxτ rfl
      have hsource := htyped _ _ i (h.fits r hr).source_eq hi
      have htarget := htyped _ _ j (h.fits r hr).target_eq hj
      have hs' := hfixed hsource hs
      have ht' := hfixed htarget ht
      have hold : ∀ c', (g.portTable catalog).relate axis r.pair.source r.pair.target
          (.edge r.pair.edge) = some c' → c'.Holds σ :=
        fun c' hc' => hσ c' (mem_axisConstraints_iff.mpr (.inr ⟨r.pair, hp, hc'⟩))
      refine (PortTable.relate_holds_iff hi hj).mpr (fun hvar => ?_) c hrel
      have hagree := (PortTable.relate_holds_iff hi hj).mp hold hvar
      rw [hsource, htarget] at hagree
      rw [hs', ht', hagree]
    · have hkept : ∀ r ∈ rs, r.pair ≠ p := fun r hr heq => hrep ⟨r, hr, heq⟩
      rw [← h.rerouted.relate_eq hp] at hrel
      have hmem := h.rerouted.mem_edgePairs_spliced_iff.mpr (.inl ⟨hp, hkept⟩)
      exact hτ c (mem_axisConstraints_iff.mpr (.inr ⟨p, hmem, hrel⟩))

end Axes

/-- An axis that was solved is solved again, and ports that were there have the same values on it. -/
theorem solve_spliced {α : Type} [DecidableEq α] [Nontrivial α] (w : AxisWording α) {which : AxisName}
    {axis : PortType → Axis α} (value : ConcreteType → α) {σ : VarKey → α}
    (hopen : ∀ t v, axis (ConcreteType.opened t v) = .inst (value t))
    (hnil : (solve w ((g.portTable catalog).bindings axis) (g.axisConstraints catalog
      (g.portTable catalog) (g.edgePairs (g.portTable catalog)) which axis)).diagnostics = [])
    (hσ : Models (g.axisConstraints catalog (g.portTable catalog)
      (g.edgePairs (g.portTable catalog)) which axis) σ)
    (htyped : ∀ (k : PortKey) (t : ConcreteType) (info : PortInfo), types.concrete? k = some t →
      (g.portTable catalog)[k]? = some info → (axis info.type).under σ k.node = value t) (d : α) :
    let again := solve w ((g'.portTable catalog).bindings axis) (g'.axisConstraints catalog
      (g'.portTable catalog) (g'.edgePairs (g'.portTable catalog)) which axis)
    again.diagnostics = [] ∧ ∀ (k : PortKey) (info : PortInfo), (g.portTable catalog)[k]? = some info →
      (axis info.type).under (fun x => (again.values[x]?).getD d) k.node =
        (axis info.type).under σ k.node := by
  intro again
  have hσ' := h.models_spliced hopen htyped hσ
  have huniq : ∀ τ, Models (g'.axisConstraints catalog (g'.portTable catalog)
      (g'.edgePairs (g'.portTable catalog)) which axis) τ →
      ∀ x, Bound ((g'.portTable catalog).bindings axis) x → τ x = σ x := by
    intro τ hτ x hx
    have hτ' := h.models_of_spliced hopen htyped hσ hτ
    obtain ⟨a, -, ha⟩ := values_of_clean (axisConstraints_covers _ _) hnil
      ((h.bound_iff hopen).mp hx)
    rw [ha τ hτ', ha σ hσ]
  obtain ⟨hdiag, hvals⟩ := solve_of_determined w (axisConstraints_covers _ _) hσ' huniq
  refine ⟨hdiag, fun k info hk => Axis.under_congr fun name hname => ?_⟩
  have hbound : Bound ((g.portTable catalog).bindings axis) ⟨k.node, name⟩ :=
    bound_bindings_iff.mpr ⟨k, info, hk, rfl, hname⟩
  rw [hvals _ ((h.bound_iff hopen).mpr hbound), Option.getD_some]

end Mended

end Patch

end PatchTyping
