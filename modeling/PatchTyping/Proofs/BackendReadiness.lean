import Mathlib.Data.List.Nodup
import PatchTyping.Proofs.RoundTypes

/-!
# What readiness promises

A patch that is ready for the backend has been lowered, and what the backend gets is the patch itself:
the same nodes and edges, each port of the block of each node with the type that was inferred for it,
edges that lead from an output to an input of one type, and at most one edge into each input.
-/

namespace PatchTyping

open AxisInference

section OptionLists

variable {α β γ : Type} {f : α → Option β}

private theorem mapM_eq_some_iff {l : List α} {ys : List β} :
    l.mapM f = some ys ↔ l.map f = ys.map some := by
  induction l generalizing ys with
  | nil => cases ys <;> simp
  | cons x l ih =>
    rw [List.mapM_cons]
    cases hx : f x with
    | none => cases ys <;> simp [hx]
    | some y =>
      cases ys with
      | nil => cases hl : l.mapM f <;> simp
      | cons z ys =>
        cases hl : l.mapM f with
        | none =>
          have hno : l.map f ≠ ys.map some := fun h => by simp [ih.mpr h] at hl
          simp [hx, hno]
        | some zs => simp [hx, ← ih, hl]

private theorem exists_mapM {l : List α} (h : ∀ x ∈ l, (f x).isSome) : ∃ ys, l.mapM f = some ys := by
  induction l with
  | nil => exact ⟨[], rfl⟩
  | cons x l ih =>
    obtain ⟨y, hy⟩ := Option.isSome_iff_exists.mp (h x List.mem_cons_self)
    obtain ⟨ys, hys⟩ := ih fun z hz => h z (List.mem_cons_of_mem _ hz)
    exact ⟨y :: ys, by simp [hy, hys]⟩

private theorem mem_mapM {l : List α} {ys : List β} (h : l.mapM f = some ys) {y : β} :
    y ∈ ys ↔ ∃ x ∈ l, f x = some y := by
  have hmem : some y ∈ ys.map some ↔ y ∈ ys := by simp
  rw [← hmem, ← mapM_eq_some_iff.mp h, List.mem_map]

private theorem exists_mem_mapM {l : List α} {ys : List β} (h : l.mapM f = some ys) {x : α}
    (hx : x ∈ l) : ∃ y ∈ ys, f x = some y := by
  have hmem : f x ∈ ys.map some := by
    rw [← mapM_eq_some_iff.mp h]
    exact List.mem_map.mpr ⟨x, hx, rfl⟩
  obtain ⟨y, hy, hfy⟩ := List.mem_map.mp hmem
  exact ⟨y, hy, hfy.symm⟩

private theorem map_mapM {l : List α} {ys : List β} (h : l.mapM f = some ys) {p : β → γ} {q : α → γ}
    (hpq : ∀ x y, f x = some y → p y = q x) : ys.map p = l.map q := by
  have hmap := mapM_eq_some_iff.mp h
  clear h
  induction l generalizing ys with
  | nil =>
    cases ys with
    | nil => rfl
    | cons y ys => simp at hmap
  | cons x l ih =>
    cases ys with
    | nil => simp at hmap
    | cons y ys =>
      simp only [List.map_cons, List.cons.injEq] at hmap ⊢
      exact ⟨hpq x y hmap.1, ih hmap.2⟩

end OptionLists

theorem PortType.exists_concrete {t : PortType} (hconc : t.isConcrete = true)
    (hpair : t.disallowedPair? = none) : ∃ c : ConcreteType, t = c.toPortType := by
  obtain ⟨payload, unit, cardinality, temporality⟩ := t
  cases payload with
  | var name => simp [isConcrete, Axis.isVar] at hconc
  | inst p =>
    cases unit with
    | var name => simp [isConcrete, Axis.isVar] at hconc
    | inst u =>
      cases cardinality with
      | var name => simp [isConcrete, Axis.isVar] at hconc
      | inst c =>
        have hadm : p.admits u = true := by
          by_contra hno
          simp [disallowedPair?, hno] at hpair
        exact ⟨⟨p, u, c, temporality, hadm⟩, rfl⟩

namespace PortTyping

theorem getElem?_ofNode {types : PortTyping} {id : NodeId} {name : String} :
    (types.ofNode id)[name]? = types[PortKey.mk id name]? := by
  have hentry : ∀ t, (name, t) ∈ types.toList.filterMap (fun x =>
      if x.1.node = id then some (x.1.port, x.2) else none) ↔ types[PortKey.mk id name]? = some t := by
    intro t
    simp only [List.mem_filterMap, Prod.exists, Std.ExtTreeMap.mem_toList_iff_getElem?_eq_some]
    constructor
    · rintro ⟨k, t', hk, heq⟩
      split at heq
      · next hid =>
        cases heq
        subst hid
        exact hk
      · cases heq
    · intro ht
      exact ⟨⟨id, name⟩, t, ht, by simp⟩
  apply Option.ext
  intro t
  refine (OrderedMaps.getElem?_ofList_iff ?_).trans (hentry t)
  intro v w hv hw
  rw [hentry] at hv hw
  exact Option.some.inj (hv.symm.trans hw)

theorem concrete?_eq_some_iff {types : PortTyping} {k : PortKey} {t : ConcreteType} :
    types.concrete? k = some t ↔ types[k]? = some t.toPortType := by
  simp only [concrete?, Option.bind_eq_some_iff, PortType.concrete?_eq_some_iff]
  constructor
  · rintro ⟨_, h, rfl⟩
    exact h
  · exact fun h => ⟨_, h, rfl⟩

theorem carried?_eq_some_iff {types : PortTyping} {e : Edge} {t : ConcreteType} :
    types.carried? e = some t ↔
      types[e.source]? = some t.toPortType ∧ types[e.target]? = some t.toPortType := by
  rw [← concrete?_eq_some_iff, ← concrete?_eq_some_iff]
  unfold carried?
  cases ha : types.concrete? e.source with
  | none => simp
  | some a =>
    cases hb : types.concrete? e.target with
    | none => simp
    | some b =>
      by_cases hab : a = b
      · simp [hab]
      · simp only [hab, if_false, reduceCtorEq, Option.some.injEq, false_iff, not_and]
        rintro rfl rfl
        exact hab rfl

end PortTyping

namespace Patch

theorem getElem?_typed_nodes (g : Patch) (types : PortTyping) (id : NodeId) :
    (g.typed types).nodes[id]? =
      g.nodes[id]?.map fun n => ⟨n.block, n.provenance, types.ofNode id⟩ := by
  simp [typed]

theorem portType?_typed {g : Patch} {types : PortTyping} {k : PortKey} {n : Node}
    (hn : g.nodes[k.node]? = some n) : (g.typed types).portType? k = types[k]? := by
  simp [TypedPatch.portType?, getElem?_typed_nodes, hn, PortTyping.getElem?_ofNode]

end Patch

namespace TypedNode

theorem concretePorts?_spec {n : TypedNode} {ports : Std.ExtTreeMap String ConcreteType}
    (h : n.concretePorts? = some ports) (name : String) :
    n.ports[name]? = ports[name]?.map ConcreteType.toPortType := by
  obtain ⟨ps, hps, rfl⟩ := Option.map_eq_some_iff.mp h
  have hentry : ∀ t, (name, t) ∈ ps ↔ n.ports[name]? = some t.toPortType := by
    intro t
    simp only [mem_mapM hps, Prod.exists, Option.map_eq_some_iff,
      Std.ExtTreeMap.mem_toList_iff_getElem?_eq_some, PortType.concrete?_eq_some_iff]
    constructor
    · rintro ⟨name', _, hp, t', rfl, heq⟩
      cases heq
      exact hp
    · exact fun hp => ⟨name, _, hp, t, rfl, rfl⟩
  have hfun : ∀ v w, (name, v) ∈ ps → (name, w) ∈ ps → v = w := by
    intro v w hv hw
    rw [hentry] at hv hw
    have heq := congrArg PortType.concrete? (Option.some.inj (hv.symm.trans hw))
    simpa [PortType.concrete?, Except.toOption] using heq
  cases hp : (Std.ExtTreeMap.ofList ps)[name]? with
  | some t =>
    rw [OrderedMaps.getElem?_ofList_iff hfun, hentry] at hp
    exact hp
  | none =>
    cases ht : n.ports[name]? with
    | none => rfl
    | some t =>
      have hmem := Std.ExtTreeMap.mem_toList_iff_getElem?_eq_some.mpr ht
      obtain ⟨y, hy, hfy⟩ := exists_mem_mapM hps hmem
      obtain ⟨c, -, rfl⟩ := Option.map_eq_some_iff.mp hfy
      obtain ⟨w, hw⟩ := OrderedMaps.exists_getElem?_ofList hy
      rw [hp] at hw
      cases hw

end TypedNode

/-- The last round is a round on the patch that comes out. -/
theorem converge_last (catalog : Catalog) (n : Nat) (g : Patch) :
    (converge catalog n g).last = Round.ofPatch catalog (converge catalog n g).patch := by
  induction n generalizing g with
  | zero => rfl
  | succ n ih =>
    simp only [converge]
    split
    · rfl
    · exact ih _

theorem Convergence.hasErrors_lastLog (c : Convergence) :
    hasErrors (c.lastLog Pass.all).diagnostics = false ↔ c.last.Clean ∧ c.last.isQuiet = true := by
  have hnon : hasErrors c.nonConvergence = false ↔ c.last.isQuiet = true := by
    unfold nonConvergence
    split
    · next hq => simp [hasErrors, hq]
    · next hq => simp [hasErrors, Diagnostic.isError, DiagnosticKind.severity, hq]
  have hlog : (c.lastLog Pass.all).diagnostics =
      c.last.diagnosticsOf .extract ++ (c.last.diagnosticsOf .solvePayloadUnit ++
        (c.last.diagnosticsOf .solveCardinality ++
          (c.last.diagnosticsOf .insertAdapters ++ c.nonConvergence))) := by
    have hpasses : Pass.all.filter Pass.perIteration =
        [.extract, .solvePayloadUnit, .solveCardinality, .insertAdapters] := rfl
    simp [lastLog, hpasses, PassLog.diagnostics, lastDiagnosticsOf]
  rw [hlog]
  simp only [hasErrors_append, Bool.or_eq_false_iff, hnon]
  constructor
  · rintro ⟨h₁, h₂, h₃, h₄, hq⟩
    refine ⟨fun p => ?_, hq⟩
    cases p with
    | extract => exact h₁
    | solvePayloadUnit => exact h₂
    | solveCardinality => exact h₃
    | insertAdapters => exact h₄
    | classifyCycles => rfl
    | lower => rfl
  · rintro ⟨h, hq⟩
    exact ⟨h .extract, h .solvePayloadUnit, h .solveCardinality, h .insertAdapters, hq⟩

/-- What the backend may rely on. -/
structure BackendPatch.Sound (b : BackendPatch) (catalog : Catalog) (g : Patch) (typed : TypedPatch) :
    Prop where
  nodes_eq : b.nodes.map (fun n => (n.id, n.block)) = g.nodes.toList.map fun x => (x.1, x.2.block)
  edges_eq : b.edges.map (fun e => (e.id, Edge.mk e.source e.target)) = g.edges.toList
  /-- The ports of a node are those its block declares. -/
  ports_iff : ∀ n ∈ b.nodes, ∃ block, catalog.lookup? n.block = some block ∧
    ∀ name : String, name ∈ n.ports ↔ name ∈ block.portNames
  /-- They have the types that were inferred, and those are admitted. -/
  types_eq : ∀ n ∈ b.nodes, ∀ (name : String) (t : ConcreteType), n.ports[name]? = some t →
    t.payload.admits t.unit = true ∧ typed.portType? ⟨n.id, name⟩ = some t.toPortType
  source_eq : ∀ e ∈ b.edges, ∃ n ∈ b.nodes, n.id = e.source.node ∧
    n.ports[e.source.port]? = some e.type ∧
    ∃ block, catalog.lookup? n.block = some block ∧ ∃ p ∈ block.outputs, p.name = e.source.port
  target_eq : ∀ e ∈ b.edges, ∃ n ∈ b.nodes, n.id = e.target.node ∧
    n.ports[e.target.port]? = some e.type ∧
    ∃ block, catalog.lookup? n.block = some block ∧ ∃ p ∈ block.inputs, p.name = e.target.port
  targets_nodup : (b.edges.map (·.target)).Nodup

section Lowering

variable {catalog : Catalog} {g : Patch} (h : (Round.ofPatch catalog g).Clean)
  (hcert : (g.typed (Round.ofPatch catalog g).typing).certificate.allPass = true)
include h hcert

omit h in
/-- Under the obligations every edge carries a type and every type is concrete. -/
theorem certificate_parts :
    (∀ (id : EdgeId) (e : Edge), g.edges[id]? = some e →
        ∃ t, (Round.ofPatch catalog g).typing.carried? e = some t) ∧
      ∀ (k : PortKey) (t : PortType), (Round.ofPatch catalog g).typing[k]? = some t →
        t.isConcrete = true := by
  obtain ⟨⟨hedges, hconc⟩, -⟩ := by
    simpa only [Certificate.allPass, Bool.and_eq_true] using hcert
  constructor
  · intro id e he
    have hall := List.all_eq_true.mp hedges
      ⟨e.source, e.target, (Round.ofPatch catalog g).typing.carried? e⟩
      (OrderedMaps.mem_values_iff.mpr ⟨id, by simp [Patch.typed, he]⟩)
    simp only [TypedPatch.isConsistent, Bool.and_eq_true] at hall
    exact Option.isSome_iff_exists.mp hall.1.1
  · intro k t ht
    have hport : ((g.portTable catalog)[k]?).isSome := by
      rw [Round.getElem?_typing] at ht
      obtain ⟨info, hinfo, -⟩ := Option.map_eq_some_iff.mp ht
      simp [hinfo]
    obtain ⟨info, hinfo⟩ := Option.isSome_iff_exists.mp hport
    obtain ⟨n, b, hi, -⟩ := Patch.exists_of_getElem?_portTable hinfo
    have hnode := List.all_eq_true.mp hconc
      ⟨n.block, n.provenance, (Round.ofPatch catalog g).typing.ofNode k.node⟩
      (OrderedMaps.mem_values_iff.mpr ⟨k.node, by simp [Patch.typed, hi.1]⟩)
    exact List.all_eq_true.mp hnode t
      (OrderedMaps.mem_values_iff.mpr ⟨k.port, by simpa [PortTyping.getElem?_ofNode] using ht⟩)

/-- All types are concrete, since an open axis and a disallowed pair would both have been noticed. -/
private theorem exists_concreteType {k : PortKey} {info : PortInfo}
    (hk : (g.portTable catalog)[k]? = some info) :
    ∃ t : ConcreteType, (Round.ofPatch catalog g).typing[k]? = some t.toPortType := by
  obtain ⟨hres, hpair⟩ := h.resolve_eq hk
  have htyping := Round.getElem?_typing catalog g k
  rw [hk, Option.map_some, hres] at htyping
  have hconc := (certificate_parts hcert).2 k _ htyping
  obtain ⟨t, ht⟩ := PortType.exists_concrete hconc hpair
  exact ⟨t, by rw [htyping, ht]⟩

private theorem exists_lowered (id : NodeId) (n : Node) :
    ∃ ports, (TypedNode.mk n.block n.provenance
      ((Round.ofPatch catalog g).typing.ofNode id)).concretePorts? = some ports := by
  have hall : ∀ x ∈ ((Round.ofPatch catalog g).typing.ofNode id).toList,
      ((PortType.concrete? x.2).map (Prod.mk x.1)).isSome := by
    rintro ⟨name, t⟩ hx
    have ht := Std.ExtTreeMap.mem_toList_iff_getElem?_eq_some.mp hx
    rw [PortTyping.getElem?_ofNode, Round.getElem?_typing] at ht
    obtain ⟨info, hinfo, -⟩ := Option.map_eq_some_iff.mp ht
    obtain ⟨c, hc⟩ := exists_concreteType h hcert hinfo
    rw [Round.getElem?_typing, ht] at hc
    cases Option.some.inj hc
    simp [PortType.concrete?_eq_some_iff.mpr rfl]
  obtain ⟨ps, hps⟩ := exists_mapM hall
  exact ⟨_, Option.map_eq_some_iff.mpr ⟨ps, hps, rfl⟩⟩

end Lowering

theorem ConcreteType.toPortType_injective {a b : ConcreteType} (h : a.toPortType = b.toPortType) :
    a = b := by
  have hc := congrArg PortType.concrete? h
  simpa [PortType.concrete?, Except.toOption] using hc

theorem TypedNode.lower?_eq_some {n : TypedNode} {catalog : Catalog} {id : NodeId} {x : BackendNode}
    (h : n.lower? catalog id = some x) :
    x.id = id ∧ x.block = n.block ∧
      ∀ name : String, n.ports[name]? = x.ports[name]?.map ConcreteType.toPortType := by
  cases hp : n.concretePorts? with
  | none => simp [lower?, hp] at h
  | some ports =>
    simp only [lower?, hp, Option.bind_eq_bind, Option.bind_some, Option.pure_def,
      Option.some.injEq] at h
    subst h
    exact ⟨rfl, rfl, concretePorts?_spec hp⟩

section Backend

variable {catalog : Catalog} {g : Patch} {b : BackendPatch}
  (hb : (g.typed (Round.ofPatch catalog g).typing).toBackend? catalog = some b)
include hb

private theorem toBackend?_parts :
    (g.typed (Round.ofPatch catalog g).typing).nodes.toList.mapM
        (fun x => x.2.lower? catalog x.1) = some b.nodes ∧
      (g.typed (Round.ofPatch catalog g).typing).edges.toList.mapM
        (fun x => x.2.lower? x.1) = some b.edges := by
  unfold TypedPatch.toBackend? at hb
  obtain ⟨nodes, hnodes, hrest⟩ := Option.bind_eq_some_iff.mp hb
  obtain ⟨edges, hedges, heq⟩ := Option.bind_eq_some_iff.mp hrest
  cases heq
  exact ⟨hnodes, hedges⟩

private theorem node_of_mem {x : BackendNode} (hx : x ∈ b.nodes) :
    ∃ n, g.nodes[x.id]? = some n ∧ x.block = n.block ∧ ∀ name : String,
      (Round.ofPatch catalog g).typing[PortKey.mk x.id name]? =
        x.ports[name]?.map ConcreteType.toPortType := by
  obtain ⟨⟨id, tn⟩, hmem, hlow⟩ := (mem_mapM (toBackend?_parts hb).1).mp hx
  have htn := Std.ExtTreeMap.mem_toList_iff_getElem?_eq_some.mp hmem
  rw [Patch.getElem?_typed_nodes] at htn
  obtain ⟨n, hn, rfl⟩ := Option.map_eq_some_iff.mp htn
  obtain ⟨rfl, hblock, hports⟩ := TypedNode.lower?_eq_some hlow
  refine ⟨n, hn, hblock, fun name => ?_⟩
  rw [← hports, PortTyping.getElem?_ofNode]

private theorem exists_mem_node {id : NodeId} {n : Node} (hn : g.nodes[id]? = some n) :
    ∃ x ∈ b.nodes, x.id = id ∧ x.block = n.block := by
  have hmem : (id, TypedNode.mk n.block n.provenance
      ((Round.ofPatch catalog g).typing.ofNode id)) ∈
      (g.typed (Round.ofPatch catalog g).typing).nodes.toList := by
    apply Std.ExtTreeMap.mem_toList_iff_getElem?_eq_some.mpr
    simp [Patch.getElem?_typed_nodes, hn]
  obtain ⟨x, hx, hlow⟩ := exists_mem_mapM (toBackend?_parts hb).1 hmem
  obtain ⟨hid, hblock, -⟩ := TypedNode.lower?_eq_some hlow
  exact ⟨x, hx, hid, hblock⟩

private theorem edge_of_mem {e : BackendEdge} (he : e ∈ b.edges) :
    g.edges[e.id]? = some ⟨e.source, e.target⟩ ∧
      (Round.ofPatch catalog g).typing.carried? ⟨e.source, e.target⟩ = some e.type := by
  obtain ⟨⟨id, te⟩, hmem, hlow⟩ := (mem_mapM (toBackend?_parts hb).2).mp he
  have hte := Std.ExtTreeMap.mem_toList_iff_getElem?_eq_some.mp hmem
  simp only [Patch.typed, Std.ExtTreeMap.getElem?_map] at hte
  obtain ⟨edge, hedge, rfl⟩ := Option.map_eq_some_iff.mp hte
  obtain ⟨t, ht, rfl⟩ := Option.map_eq_some_iff.mp hlow
  exact ⟨hedge, ht⟩

omit hb in
private theorem faces_of_typed {k : PortKey} {d : PortDirection} {t : PortType}
    (hk : (Round.ofPatch catalog g).typing[k]? = some t) (hatt : g.Attached catalog k d) :
    (g.portTable catalog).faces k d = true := by
  rw [Round.getElem?_typing] at hk
  obtain ⟨info, hinfo, -⟩ := Option.map_eq_some_iff.mp hk
  obtain ⟨n, block, hi, hmem⟩ := Patch.exists_of_getElem?_portTable hinfo
  obtain ⟨y, hy, -⟩ := Node.mem_portInfos_iff.mp hmem
  rcases hatt with hfaces | ⟨n', block', hi', hnil⟩
  · exact hfaces
  · cases hi.1.symm.trans hi'.1
    cases hi.2.symm.trans hi'.2
    rw [hnil] at hy
    cases hy

/-- An end of an edge is a port that faces the right way and carries the type of the edge. -/
private theorem endpoint {k : PortKey} {d : PortDirection} {t : ConcreteType}
    (hk : (Round.ofPatch catalog g).typing[k]? = some t.toPortType) (hatt : g.Attached catalog k d) :
    ∃ x ∈ b.nodes, x.id = k.node ∧ x.ports[k.port]? = some t ∧
      ∃ block, catalog.lookup? x.block = some block ∧ ∃ p, (d, p) ∈ block.ports ∧ p.name = k.port := by
  obtain ⟨info, hinfo, hdir⟩ := PortTable.faces_iff.mp (faces_of_typed hk hatt)
  obtain ⟨n, block, hi, hmem⟩ := Patch.exists_of_getElem?_portTable hinfo
  obtain ⟨y, hy, hky, rfl⟩ := Node.mem_portInfos_iff.mp hmem
  obtain ⟨x, hx, hid, hblock⟩ := exists_mem_node hb hi.1
  obtain ⟨n', hn', -, hports⟩ := node_of_mem hb hx
  have hport : x.ports[k.port]? = some t := by
    have hp := hports k.port
    rw [hid, hk] at hp
    obtain ⟨t', ht', heq⟩ := Option.map_eq_some_iff.mp hp.symm
    rw [ht', ConcreteType.toPortType_injective heq]
  refine ⟨x, hx, hid, hport, block, hblock ▸ hi.2, y.2, ?_, (congrArg PortKey.port hky).symm⟩
  rw [← hdir]
  exact hy

private theorem backend_nodes_eq :
    b.nodes.map (fun n => (n.id, n.block)) = g.nodes.toList.map fun x => (x.1, x.2.block) := by
  have hmap := map_mapM (toBackend?_parts hb).1 (p := fun n => (n.id, n.block))
    (q := fun x => (x.1, x.2.block)) (by
      rintro ⟨id, tn⟩ x hlow
      obtain ⟨hid, hblock, -⟩ := TypedNode.lower?_eq_some hlow
      rw [hid, hblock])
  rw [hmap, Patch.typed, Std.ExtTreeMap.toList_map, List.map_map]
  rfl

private theorem backend_edges_eq :
    b.edges.map (fun e => (e.id, Edge.mk e.source e.target)) = g.edges.toList := by
  have hmap := map_mapM (toBackend?_parts hb).2 (p := fun e => (e.id, Edge.mk e.source e.target))
    (q := fun x => (x.1, Edge.mk x.2.source x.2.target)) (by
      rintro ⟨id, te⟩ e hlow
      obtain ⟨t, -, rfl⟩ := Option.map_eq_some_iff.mp hlow
      rfl)
  rw [hmap, Patch.typed, Std.ExtTreeMap.toList_map, List.map_map]
  exact List.map_id _

private theorem backend_ports_iff (hext : g.Extracted catalog) {x : BackendNode} (hx : x ∈ b.nodes) :
    ∃ block, catalog.lookup? x.block = some block ∧
      ∀ name : String, name ∈ x.ports ↔ name ∈ block.portNames := by
  obtain ⟨n, hn, hblock, hports⟩ := node_of_mem hb hx
  obtain ⟨block, hlookup⟩ := hext.known _ n hn
  refine ⟨block, hblock ▸ hlookup, fun name => ?_⟩
  have hmem : name ∈ x.ports ↔ PortKey.mk x.id name ∈ g.portTable catalog := by
    rw [Std.ExtTreeMap.mem_iff_isSome_getElem?, Std.ExtTreeMap.mem_iff_isSome_getElem?]
    have hp := congrArg Option.isSome (hports name)
    rw [Round.getElem?_typing, Option.isSome_map, Option.isSome_map] at hp
    rw [hp]
  rw [hmem, Patch.mem_portTable_iff]
  constructor
  · rintro ⟨n', block', hi', hname⟩
    cases hn.symm.trans hi'.1
    cases hlookup.symm.trans hi'.2
    exact hname
  · exact fun hname => ⟨n, block, ⟨hn, hlookup⟩, hname⟩

/-- The backend of a patch that was typed without errors is sound. -/
private theorem sound_of_clean (h : (Round.ofPatch catalog g).Clean) :
    b.Sound catalog g (g.typed (Round.ofPatch catalog g).typing) := by
  have hext := h.extracted
  have hattached : ∀ e ∈ b.edges, g.Attached catalog e.source .output ∧
      g.Attached catalog e.target .input :=
    fun e he => hext.attached _ _ (edge_of_mem hb he).1
  have hends : ∀ e ∈ b.edges, (Round.ofPatch catalog g).typing[e.source]? = some e.type.toPortType ∧
      (Round.ofPatch catalog g).typing[e.target]? = some e.type.toPortType :=
    fun e he => PortTyping.carried?_eq_some_iff.mp (edge_of_mem hb he).2
  refine ⟨backend_nodes_eq hb, backend_edges_eq hb, fun x hx => backend_ports_iff hb hext hx,
    fun x hx name t ht => ?_, fun e he => ?_, fun e he => ?_, ?_⟩
  · obtain ⟨n, hn, -, hports⟩ := node_of_mem hb hx
    refine ⟨t.admitted, ?_⟩
    rw [Patch.portType?_typed hn, hports, ht]
    rfl
  · obtain ⟨x, hx, hid, hport, block, hlookup, p, hp, hname⟩ :=
      endpoint hb (hends e he).1 (hattached e he).1
    exact ⟨x, hx, hid, hport, block, hlookup, p, by simpa [Block.ports] using hp, hname⟩
  · obtain ⟨x, hx, hid, hport, block, hlookup, p, hp, hname⟩ :=
      endpoint hb (hends e he).2 (hattached e he).2
    exact ⟨x, hx, hid, hport, block, hlookup, p, by simpa [Block.ports] using hp, hname⟩
  · have htargets : b.edges.map (·.target) = g.edges.toList.map (·.2.target) := by
      rw [← backend_edges_eq hb, List.map_map]
      rfl
    rw [htargets]
    apply hext.oneDriver.targets_nodup
    intro x hx
    rw [← backend_edges_eq hb] at hx
    obtain ⟨e, he, rfl⟩ := List.mem_map.mp hx
    obtain ⟨hs, ht⟩ := hattached e he
    apply PortTable.joins_iff.mpr
    exact ⟨faces_of_typed (hends e he).1 hs, faces_of_typed (hends e he).2 ht⟩

end Backend

namespace Patch

/-- Without errors the last round was clean, and quiet as well. -/
theorem clean_of_noErrors (g : Patch) (catalog : Catalog) (options : NormalizationOptions)
    (h : hasErrors (g.normalize catalog options).diagnostics = false) :
    (Round.ofPatch catalog (g.normalize catalog options).patch).Clean ∧
      (Round.ofPatch catalog (g.normalize catalog options).patch).isQuiet = true := by
  simp only [normalize, hasErrors_append, Bool.or_eq_false_iff] at h
  have hlast := (Convergence.hasErrors_lastLog _).mp h.1
  rwa [converge_last] at hlast

theorem clean_of_ready (g : Patch) (catalog : Catalog) (options : NormalizationOptions)
    (h : (g.normalize catalog options).ready = true) :
    (Round.ofPatch catalog (g.normalize catalog options).patch).Clean := by
  have hparts := Bool.and_eq_true_iff.mp (Bool.and_eq_true_iff.mp h).1
  exact (clean_of_noErrors g catalog options (Bool.not_eq_true' _ ▸ hparts.1)).1

theorem typed_normalize (g : Patch) (catalog : Catalog) (options : NormalizationOptions) :
    (g.normalize catalog options).typed = (g.normalize catalog options).patch.typed
      (Round.ofPatch catalog (g.normalize catalog options).patch).typing := by
  have hlast := converge_last catalog (options.maxIterations - 1) g
  simp only [normalize]
  rw [hlast]

private theorem exists_backend {g : Patch} {catalog : Catalog}
    (h : (Round.ofPatch catalog g).Clean)
    (hcert : (g.typed (Round.ofPatch catalog g).typing).certificate.allPass = true) :
    ∃ b, (g.typed (Round.ofPatch catalog g).typing).toBackend? catalog = some b := by
  have hnodes : ∀ x ∈ (g.typed (Round.ofPatch catalog g).typing).nodes.toList,
      (x.2.lower? catalog x.1).isSome := by
    rintro ⟨id, tn⟩ hx
    have htn := Std.ExtTreeMap.mem_toList_iff_getElem?_eq_some.mp hx
    rw [getElem?_typed_nodes] at htn
    obtain ⟨n, -, rfl⟩ := Option.map_eq_some_iff.mp htn
    obtain ⟨ports, hports⟩ := exists_lowered h hcert id n
    simp [TypedNode.lower?, hports]
  have hedges : ∀ x ∈ (g.typed (Round.ofPatch catalog g).typing).edges.toList,
      (x.2.lower? x.1).isSome := by
    rintro ⟨id, te⟩ hx
    have hte := Std.ExtTreeMap.mem_toList_iff_getElem?_eq_some.mp hx
    simp only [typed, Std.ExtTreeMap.getElem?_map] at hte
    obtain ⟨e, he, rfl⟩ := Option.map_eq_some_iff.mp hte
    obtain ⟨t, ht⟩ := (certificate_parts hcert).1 id e he
    simp [TypedEdge.lower?, ht]
  obtain ⟨ns, hns⟩ := exists_mapM hnodes
  obtain ⟨es, hes⟩ := exists_mapM hedges
  refine ⟨⟨ns, es⟩, ?_⟩
  unfold TypedPatch.toBackend?
  refine Option.bind_eq_some_iff.mpr ⟨ns, hns, Option.bind_eq_some_iff.mpr ⟨es, hes, rfl⟩⟩

/-- A patch is ready exactly if there is something for the backend, and that is sound. -/
theorem normalize_ready_sound (g : Patch) (catalog : Catalog) (options : NormalizationOptions) :
    let r := g.normalize catalog options
    (r.ready = true ↔ r.backend.isSome = true) ∧
      (r.ready = true → ∃ b, r.backend = some b ∧ b.Sound catalog r.patch r.typed) := by
  intro r
  have hback : r.backend = if r.ready then r.typed.lower? catalog else none := rfl
  have hready : r.ready = true → ∃ b, r.backend = some b ∧ b.Sound catalog r.patch r.typed := by
    intro hr
    have hparts : (!hasErrors r.diagnostics && r.typed.isFullyConcrete &&
        r.typed.certificate.allPass) = true := hr
    simp only [Bool.and_eq_true, Bool.not_eq_true'] at hparts
    obtain ⟨⟨herr, -⟩, hcert⟩ := hparts
    obtain ⟨hclean, -⟩ := clean_of_noErrors g catalog options herr
    have htyped : r.typed = r.patch.typed (Round.ofPatch catalog r.patch).typing :=
      typed_normalize g catalog options
    have hcert' := hcert
    rw [htyped] at hcert'
    obtain ⟨b, hb⟩ := exists_backend hclean hcert'
    refine ⟨b, ?_, ?_⟩
    · rw [hback, if_pos hr, TypedPatch.lower?, if_pos hcert, htyped, hb]
    · rw [htyped]
      exact sound_of_clean hb hclean
  refine ⟨⟨fun hr => ?_, fun hsome => ?_⟩, hready⟩
  · obtain ⟨b, hb, -⟩ := hready hr
    simp [hb]
  · by_contra hr
    simp [hback, hr] at hsome

/-- The sine of a phase, which has to be converted to radians first. -/
def sineOfPhase : Patch where
  nodes := (∅ : Std.ExtTreeMap NodeId Node).insert "phase" { block := "Phasor" }
    |>.insert "sine" { block := "Sin" }
  edges := (∅ : Std.ExtTreeMap EdgeId Edge).insert "e" ⟨⟨"phase", "phase"⟩, ⟨"sine", "x"⟩⟩

theorem sineOfPhase_ready :
    (sineOfPhase.normalize .standard {}).ready = true ∧
      ∃ b, (sineOfPhase.normalize .standard {}).backend = some b ∧
        b.Sound .standard (sineOfPhase.normalize .standard {}).patch
          (sineOfPhase.normalize .standard {}).typed := by
  have hr : (sineOfPhase.normalize .standard {}).ready = true := by decide +kernel
  exact ⟨hr, (normalize_ready_sound sineOfPhase .standard {}).2 hr⟩

end Patch

end PatchTyping
