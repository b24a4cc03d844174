import PatchTyping.Proofs.AdapterInstances
import PatchTyping.Proofs.SplicingRuns

/-!
# Taking adapters out again

What was spliced in is noted down in order, and the notes are enough to undo it: taken back to front,
each of them gives the adapter to take out, the edges to take out with it, and the edge to put back. So
splicing loses nothing, however often an edge that it made was itself replaced later on.
-/

namespace PatchTyping

/-- The rule of the given name. -/
def Catalog.rule? (c : Catalog) (name : String) : Option AdapterRule :=
  (c.lookup? name).bind AdapterRule.ofBlock?

theorem Catalog.Built.rule?_eq {c : Catalog} (h : c.Built) {rule : AdapterRule}
    (hr : rule ∈ c.adapterRules) : c.rule? rule.block = some rule := by
  obtain ⟨b, hb, hrule⟩ := List.mem_filterMap.mp hr
  obtain ⟨⟨name, b'⟩, hmem, rfl⟩ := List.mem_map.mp hb
  have hlookup : c.lookup? name = some b' :=
    Std.ExtTreeMap.mem_toList_iff_getElem?_eq_some.mp hmem
  have hname : rule.block = name := by
    rw [← (h.allValid name b' hlookup).1]
    simp only [AdapterRule.ofBlock?, Option.bind_eq_bind, Option.bind_eq_some_iff] at hrule
    obtain ⟨_, -, _, -, _, -, _, -, heq⟩ := hrule
    cases heq
    rfl
  rw [rule?, hname, hlookup, Option.bind_some, hrule]

namespace Patch

/-- Take an adapter out, with the edges at its two ports, and put the edge back that it replaced. There
is nothing to undo if one of them is missing, or if the name of the replaced edge has been taken. -/
def unsplice (catalog : Catalog) (g : Patch) (s : Splice) : Option Patch := do
  let rule ← catalog.rule? s.rule
  let entryId := adapterEdgeId s.node rule.inputPort
  let exitId := adapterEdgeId s.node rule.outputPort
  let _ ← g.node? s.node
  let entry ← g.edge? entryId
  let exit ← g.edge? exitId
  let rest : Patch := ⟨g.nodes.erase s.node, (g.edges.erase exitId).erase entryId⟩
  (rest.addEdge s.replacedEdge ⟨entry.source, exit.target⟩).toOption

/-- The second patch is what is left of the first when adapters are taken out, the last one first. -/
structure Unwinds (catalog : Catalog) (g' : Patch) (ss : List Splice) (g : Patch) : Prop where
  undone : ss.reverse.foldlM (unsplice catalog) g' = some g
  node_stays : ∀ (id : NodeId) (n : Node), g.nodes[id]? = some n → g'.nodes[id]? = some n
  nodes_size : g'.nodes.size = g.nodes.size + ss.length
  edges_size : g'.edges.size = g.edges.size + ss.length

theorem Unwinds.refl (catalog : Catalog) (g : Patch) : g.Unwinds catalog [] g :=
  ⟨rfl, fun _ _ => id, rfl, rfl⟩

theorem Unwinds.trans {catalog : Catalog} {g g' g'' : Patch} {ss ss' : List Splice}
    (h' : g''.Unwinds catalog ss' g') (h : g'.Unwinds catalog ss g) :
    g''.Unwinds catalog (ss ++ ss') g where
  undone := by
    rw [List.reverse_append, List.foldlM_append, h'.undone]
    exact h.undone
  node_stays id n hn := h'.node_stays id n (h.node_stays id n hn)
  nodes_size := by
    rw [h'.nodes_size, h.nodes_size, List.length_append, Nat.add_assoc]
  edges_size := by
    rw [h'.edges_size, h.edges_size, List.length_append, Nat.add_assoc]

section Step

variable {catalog : Catalog} {g g' : Patch} {r : Replacement}
  (hedge : g.edges[r.pair.edge]? = some ⟨r.pair.source, r.pair.target⟩)
  (hs : r.pair.spliceInto r.rule g = .ok g')
include hedge hs

omit hedge in
private theorem free_names :
    (g.edges.erase r.pair.edge)[r.entry.1]? = none ∧
      ((g.edges.erase r.pair.edge).insert r.entry.1 r.entry.2)[r.exit.1]? = none := by
  obtain ⟨-, hentry, hexit, hne, -, -⟩ := Replacement.spliceInto_ok hs
  have hgone : ∀ {id : EdgeId}, g.edges[id]? = none → (g.edges.erase r.pair.edge)[id]? = none := by
    intro id hid
    rw [Std.ExtTreeMap.getElem?_erase, hid, ite_self]
  refine ⟨hgone hentry, ?_⟩
  have hcmp : compare r.entry.1 r.exit.1 ≠ .eq := fun heq => hne (Std.LawfulEqOrd.eq_of_compare heq)
  rw [Std.ExtTreeMap.getElem?_insert, if_neg hcmp]
  exact hgone hexit

/-- One adapter can be taken out right after it was put in. -/
theorem unsplice_spliceInto (hrule : catalog.rule? r.rule.block = some r.rule) :
    g'.unsplice catalog r.splice = some g := by
  obtain ⟨hnode, -, -, -, hnodes, hedges⟩ := Replacement.spliceInto_ok hs
  obtain ⟨hfreeEntry, hfreeExit⟩ := free_names hs
  have hadapter : g'.node? r.id = some r.node := by
    rw [node?, hnodes]
    exact Std.ExtTreeMap.getElem?_insert_self
  have hin : g'.edge? r.entry.1 = some r.entry.2 :=
    (Spliced.edges_step hs _ _).mpr (.inr (.inl rfl))
  have hout : g'.edge? r.exit.1 = some r.exit.2 :=
    (Spliced.edges_step hs _ _).mpr (.inr (.inr rfl))
  have holdNodes : g'.nodes.erase r.id = g.nodes := by
    rw [hnodes, OrderedMaps.erase_insert_of_fresh hnode]
  have holdEdges : (g'.edges.erase r.exit.1).erase r.entry.1 = g.edges.erase r.pair.edge := by
    rw [hedges, OrderedMaps.erase_insert_of_fresh hfreeExit,
      OrderedMaps.erase_insert_of_fresh hfreeEntry]
  have hback : (Patch.mk g.nodes (g.edges.erase r.pair.edge)).addEdge r.pair.edge
      ⟨r.pair.source, r.pair.target⟩ = .ok g := by
    rw [addEdge, if_neg (by simp), OrderedMaps.insert_erase_of_getElem? hedge]
  calc g'.unsplice catalog r.splice
      = ((Patch.mk (g'.nodes.erase r.id) ((g'.edges.erase r.exit.1).erase r.entry.1)).addEdge
          r.pair.edge ⟨r.entry.2.source, r.exit.2.target⟩).toOption := by
        simp only [unsplice, Replacement.splice, hrule, hadapter, Option.bind_eq_bind, Option.bind_some]
        rw [show adapterEdgeId r.id r.rule.inputPort = r.entry.1 from rfl,
          show adapterEdgeId r.id r.rule.outputPort = r.exit.1 from rfl, hin, hout]
        rfl
    _ = some g := by
        rw [holdNodes, holdEdges]
        exact congrArg Except.toOption hback

theorem size_spliceInto :
    g'.nodes.size = g.nodes.size + 1 ∧ g'.edges.size = g.edges.size + 1 := by
  obtain ⟨hnode, -, -, -, hnodes, hedges⟩ := Replacement.spliceInto_ok hs
  obtain ⟨hfreeEntry, hfreeExit⟩ := free_names hs
  have hreplaced : g.edges.size = (g.edges.erase r.pair.edge).size + 1 := by
    rw [← OrderedMaps.size_insert_of_fresh Std.ExtTreeMap.getElem?_erase_self,
      OrderedMaps.insert_erase_of_getElem? hedge]
  constructor
  · rw [hnodes, OrderedMaps.size_insert_of_fresh hnode]
  · rw [hedges, OrderedMaps.size_insert_of_fresh hfreeExit,
      OrderedMaps.size_insert_of_fresh hfreeEntry, hreplaced]

theorem unwinds_spliceInto (hrule : catalog.rule? r.rule.block = some r.rule) :
    g'.Unwinds catalog [r.splice] g where
  undone := by
    rw [List.reverse_singleton, List.foldlM_cons, unsplice_spliceInto hedge hs hrule]
    rfl
  node_stays id n hn := by
    obtain ⟨hnode, -, -, -, hnodes, -⟩ := Replacement.spliceInto_ok hs
    have hid : r.id ≠ id := by
      rintro rfl
      rw [hnode] at hn
      cases hn
    rw [hnodes, Std.ExtTreeMap.getElem?_insert]
    simp [hid, hn]
  nodes_size := (size_spliceInto hedge hs).1
  edges_size := (size_spliceInto hedge hs).2

end Step

section Runs

variable {catalog : Catalog} (hc : catalog.Built)
include hc

theorem unwinds_chain : SpliceChain catalog fun g ss g' => g'.Unwinds catalog ss g where
  none := .refl catalog
  one hedge hr hs := unwinds_spliceInto hedge hs (hc.rule?_eq hr)
  append h h' := h'.trans h

/-- A whole run can be taken back, adapter by adapter. -/
theorem unwinds_converge (n : Nat) (g : Patch) :
    (converge catalog n g).patch.Unwinds catalog (converge catalog n g).inserted g :=
  (unwinds_chain hc).converge n g

end Runs

/-- Normalization is undone by taking out the adapters that it has noted down, back to front. No node is
lost, and each adapter adds one node and one edge. -/
theorem normalize_unwinds (g : Patch) {catalog : Catalog} (hc : catalog.Built)
    (options : NormalizationOptions) :
    let r := g.normalize catalog options
    r.inserted.reverse.foldlM (unsplice catalog) r.patch = some g ∧
      (∀ (id : NodeId) (n : Node), g.node? id = some n → r.patch.node? id = some n) ∧
      r.patch.nodes.size = g.nodes.size + r.inserted.length ∧
      r.patch.edges.size = g.edges.size + r.inserted.length := by
  intro r
  have h : r.patch.Unwinds catalog r.inserted g := unwinds_converge hc _ g
  exact ⟨h.undone, h.node_stays, h.nodes_size, h.edges_size⟩

/-- A clock that drives a timer. -/
def timedClock : Patch where
  nodes := (∅ : Std.ExtTreeMap NodeId Node).insert "clock" { block := "Clock" }
    |>.insert "timer" { block := "Timer" }
  edges := (∅ : Std.ExtTreeMap EdgeId Edge).insert "e" ⟨⟨"clock", "t"⟩, ⟨"timer", "t"⟩⟩

/-- Three rounds splice in two relays, the second of them into an edge that came with the first. -/
theorem timedClock_unwinds :
    let r := timedClock.normalize .relays { maxIterations := 3 }
    Catalog.relays.Built ∧
      r.inserted.map (·.replacedEdge) =
        ["e", adapterEdgeId (adapterNodeId ⟨"clock", "t"⟩ ⟨"timer", "t"⟩ "Relay") "out"] ∧
      r.inserted.reverse.foldlM (unsplice .relays) r.patch = some timedClock := by
  intro r
  refine ⟨Catalog.relays_built, by decide +kernel, ?_⟩
  exact (normalize_unwinds timedClock Catalog.relays_built { maxIterations := 3 }).1

end Patch

end PatchTyping
