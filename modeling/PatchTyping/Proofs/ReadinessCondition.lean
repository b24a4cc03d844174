import PatchTyping.Proofs.BackendReadiness

/-!
# When a patch is ready

Without errors a patch is ready, with two exceptions that nothing reports. An edge may end at a node
whose block has no ports, and then it carries nothing. And a node that the author of the patch marked as
spliced in need not keep the extent of what it converts, as real adapters do.
-/

namespace PatchTyping

open ValuedPartition CardinalityInference

namespace Patch

/-- What rounds do to a patch: nodes stay and adapters are added, edges at a node without ports stay, and
no edge to such a node is added. -/
structure Grows (catalog : Catalog) (g g' : Patch) : Prop where
  node_stays : ∀ (id : NodeId) (n : Node), g.nodes[id]? = some n → g'.nodes[id]? = some n
  node_new : ∀ (id : NodeId) (n : Node), g'.nodes[id]? = some n → g.nodes[id]? = some n ∨
    ∃ rule ∈ catalog.adapterRules, n.block = rule.block ∧ n.overrides = ∅
  edge_stays : ∀ (id : EdgeId) (e : Edge), g.edges[id]? = some e →
    g.Portless catalog e.source.node ∨ g.Portless catalog e.target.node → g'.edges[id]? = some e
  edge_new : ∀ (id : EdgeId) (e : Edge), g'.edges[id]? = some e → g.edges[id]? = some e ∨
    ¬ g'.Portless catalog e.source.node ∧ ¬ g'.Portless catalog e.target.node

theorem Grows.refl (catalog : Catalog) (g : Patch) : g.Grows catalog g :=
  ⟨fun _ _ => id, fun _ _ => .inl, fun _ _ h _ => h, fun _ _ => .inl⟩

section Growth

variable {catalog : Catalog} (hc : catalog.Built) {g g' g'' : Patch}
include hc

private theorem ports_ne_nil_of_rule {rule : AdapterRule} (hr : rule ∈ catalog.adapterRules)
    {b : Block} (hb : catalog.lookup? rule.block = some b) : b.ports ≠ [] := by
  obtain ⟨b', input, output, hlookup, hconv, -⟩ := hc.exists_block hr
  cases hb.symm.trans hlookup
  simp [hconv.ports_eq]

theorem Grows.portless_iff (h : g.Grows catalog g') (id : NodeId) :
    g'.Portless catalog id ↔ g.Portless catalog id := by
  constructor
  · rintro ⟨n, b, hi, hnil⟩
    rcases h.node_new id n hi.1 with hold | ⟨rule, hr, hblock, -⟩
    · exact ⟨n, b, ⟨hold, hi.2⟩, hnil⟩
    · have hne := ports_ne_nil_of_rule hc hr (hblock ▸ hi.2)
      exact absurd hnil hne
  · rintro ⟨n, b, hi, hnil⟩
    exact ⟨n, b, ⟨h.node_stays id n hi.1, hi.2⟩, hnil⟩

theorem Grows.trans (h : g.Grows catalog g') (h' : g'.Grows catalog g'') :
    g.Grows catalog g'' where
  node_stays id n hn := h'.node_stays id n (h.node_stays id n hn)
  node_new id n hn := by
    rcases h'.node_new id n hn with hn | hn
    · exact h.node_new id n hn
    · exact .inr hn
  edge_stays id e he hblind := by
    apply h'.edge_stays id e (h.edge_stays id e he hblind)
    rwa [h.portless_iff hc, h.portless_iff hc]
  edge_new id e he := by
    rcases h'.edge_new id e he with he | he
    · rw [h'.portless_iff hc, h'.portless_iff hc]
      exact h.edge_new id e he
    · exact .inr he

omit hc in
theorem not_portless_of_faces {k : PortKey} {d : PortDirection}
    (hf : (g.portTable catalog).faces k d = true) : ¬ g.Portless catalog k.node := by
  rintro ⟨n, b, hi, hnil⟩
  obtain ⟨info, hinfo, -⟩ := PortTable.faces_iff.mp hf
  obtain ⟨n', b', hi', hmem⟩ := exists_of_getElem?_portTable hinfo
  obtain ⟨x, hx, -⟩ := Node.mem_portInfos_iff.mp hmem
  cases hi.1.symm.trans hi'.1
  cases hi.2.symm.trans hi'.2
  rw [hnil] at hx
  cases hx

/-- One round. Only edges between ports are replaced, by edges between ports and adapters. -/
theorem Spliced.grows {types : PortTyping} {rs : List Replacement} (h : g.Spliced g' rs)
    (hrs : ∀ r ∈ rs, r.pair ∈ g.edgePairs (g.portTable catalog) ∧
      r.Fits catalog.adapterRules types) : g.Grows catalog g' := by
  have hstays : ∀ (id : NodeId) (n : Node), g.nodes[id]? = some n → g'.nodes[id]? = some n :=
    fun id n hn => (h.node_iff id n).mpr (.inl hn)
  have hnew : ∀ (id : NodeId) (n : Node), g'.nodes[id]? = some n → g.nodes[id]? = some n ∨
      ∃ rule ∈ catalog.adapterRules, n.block = rule.block ∧ n.overrides = ∅ := by
    intro id n hn
    rcases (h.node_iff id n).mp hn with hold | ⟨r, hr, -, rfl⟩
    · exact .inl hold
    · exact .inr ⟨r.rule, (hrs r hr).2.rule_mem, rfl, rfl⟩
  have hends : ∀ r ∈ rs, ¬ g.Portless catalog r.pair.source.node ∧
      ¬ g.Portless catalog r.pair.target.node := by
    intro r hr
    obtain ⟨-, hj, -⟩ := mem_edgePairs_iff.mp (hrs r hr).1
    obtain ⟨hs, ht⟩ := PortTable.joins_iff.mp hj
    exact ⟨not_portless_of_faces hs, not_portless_of_faces ht⟩
  have hfrom : ∀ id, ¬ g.Portless catalog id → ¬ g'.Portless catalog id := by
    rintro id hno ⟨n, b, hi, hnil⟩
    rcases hnew id n hi.1 with hold | ⟨rule, hr, hblock, -⟩
    · exact hno ⟨n, b, ⟨hold, hi.2⟩, hnil⟩
    · exact ports_ne_nil_of_rule hc hr (hblock ▸ hi.2) hnil
  have hadapter : ∀ r ∈ rs, ¬ g.Portless catalog r.id := by
    rintro r hr ⟨n, b, ⟨hn, -⟩, -⟩
    rw [h.fresh r hr] at hn
    cases hn
  refine ⟨hstays, hnew, fun id e he hblind => ?_, fun id e he => ?_⟩
  · refine (h.edge_iff id e).mpr (.inl ⟨he, fun r hr heq => ?_⟩)
    obtain ⟨hedge, -, -⟩ := mem_edgePairs_iff.mp (hrs r hr).1
    rw [heq, he] at hedge
    cases Option.some.inj hedge
    exact hblind.elim (hends r hr).1 (hends r hr).2
  · rcases (h.edge_iff id e).mp he with ⟨hold, -⟩ | ⟨r, hr, heq | heq⟩
    · exact .inl hold
    · cases heq
      exact .inr ⟨hfrom _ (hends r hr).1, hfrom _ (hadapter r hr)⟩
    · cases heq
      exact .inr ⟨hfrom _ (hadapter r hr), hfrom _ (hends r hr).2⟩

theorem converge_grows (n : Nat) (g : Patch) : g.Grows catalog (converge catalog n g).patch := by
  induction n generalizing g with
  | zero => exact .refl catalog g
  | succ n ih =>
    simp only [converge]
    split
    · exact .refl catalog g
    · obtain ⟨rs, hsp, hrs, -⟩ := g.spliceAll_spliced (g.portTable catalog) catalog.adapterRules
        (Round.ofPatch catalog g).typing
      exact (hsp.grows hc hrs).trans hc (ih _)

end Growth

end Patch

theorem TypedNode.keepsExtent_of {n : TypedNode}
    (h : ∀ (a b : String) (s t : ConcreteType), n.ports[a]? = some s.toPortType →
      n.ports[b]? = some t.toPortType → s.sameExtent t = true) : n.keepsExtent = true := by
  have hport : ∀ t ∈ n.ports.values.filterMap PortType.concrete?,
      ∃ a : String, n.ports[a]? = some t.toPortType := by
    intro t ht
    obtain ⟨p, hp, hpt⟩ := List.mem_filterMap.mp ht
    obtain ⟨a, ha⟩ := OrderedMaps.mem_values_iff.mp hp
    rw [PortType.concrete?_eq_some_iff.mp hpt] at ha
    exact ⟨a, ha⟩
  unfold keepsExtent
  split
  · rfl
  · next t ts heq =>
    rw [heq] at hport
    obtain ⟨a, ha⟩ := hport t List.mem_cons_self
    apply List.all_eq_true.mpr
    intro t' ht'
    obtain ⟨b, hb⟩ := hport t' (List.mem_cons_of_mem _ ht')
    exact h a b t t' ha hb

namespace Round

variable {catalog : Catalog} (hc : catalog.Built) {g : Patch} (h : (ofPatch catalog g).Clean)
include hc h

theorem Clean.edge_cardinality_eq {p : EdgePair} (hp : p ∈ g.edgePairs (g.portTable catalog))
    {a b : ConcreteType} (ha : (ofPatch catalog g).typing[p.source]? = some a.toPortType)
    (hb : (ofPatch catalog g).typing[p.target]? = some b.toPortType) :
    a.cardinality = b.cardinality := by
  obtain ⟨-, hj, -⟩ := Patch.mem_edgePairs_iff.mp hp
  obtain ⟨hs, ht⟩ := PortTable.joins_iff.mp hj
  obtain ⟨i, hi, -⟩ := PortTable.faces_iff.mp hs
  obtain ⟨j, hj', -⟩ := PortTable.faces_iff.mp ht
  obtain ⟨a', ha', -, -, hva, -⟩ := h.typing_eq hc hi
  obtain ⟨b', hb', -, -, hvb, -⟩ := h.typing_eq hc hj'
  cases ConcreteType.toPortType_injective (Option.some.inj (ha.symm.trans ha'))
  cases ConcreteType.toPortType_injective (Option.some.inj (hb.symm.trans hb'))
  have hmem : p.source ∈ g.portTable catalog :=
    Std.ExtTreeMap.mem_iff_isSome_getElem?.mpr (by simp [hi])
  have hequal : .equal p.source p.target (.edge p.edge) ∈ (g.constraints catalog).cardinality :=
    Patch.mem_cardinality_iff.mpr (.inr ⟨p, hp, rfl⟩)
  have heq := (h.solved hc).value?_eq hc hmem
    (.rel _ _ (ConstraintSet.equal_mem_demands_iff.mpr ⟨_, hequal⟩))
  rw [hva, hvb] at heq
  exact Option.some.inj heq

private theorem Clean.adapter_port {id : NodeId} {n : Node} (hn : g.nodes[id]? = some n) {b : Block}
    (hb : catalog.lookup? n.block = some b) {input output : PortDeclaration}
    (hconv : b.Converts input output) (hover : n.overrides = ∅) {v : String}
    (hin : input.type.cardinality = .var v) (hout : output.type.cardinality = .var v) {z : String}
    {u : ConcreteType} (hu : (ofPatch catalog g).typing[PortKey.mk id z]? = some u.toPortType) :
    ∃ info, (g.portTable catalog)[PortKey.mk id z]? = some info ∧
      info.type.cardinality = .var v ∧ u.temporality = input.type.temporality ∧
      (resolved (g.constraints catalog)).partition.value? ⟨id, z⟩ = some u.cardinality := by
  have hport := hu
  rw [getElem?_typing] at hport
  obtain ⟨info, hinfo, -⟩ := Option.map_eq_some_iff.mp hport
  obtain ⟨u', hu', -, -, hval, htemp⟩ := h.typing_eq hc hinfo
  cases ConcreteType.toPortType_injective (Option.some.inj (hu.symm.trans hu'))
  obtain ⟨n', b', hi, hmem⟩ := Patch.exists_of_getElem?_portTable hinfo
  cases hn.symm.trans hi.1
  cases hb.symm.trans hi.2
  obtain ⟨w, hw, -, rfl⟩ := Node.mem_portInfos_iff.mp hmem
  have htype : (n.infoOf b w).type = w.2.type := by
    simp [Node.infoOf, hover, hconv.baseType_eq]
  rw [htype] at htemp
  simp only [hconv.ports_eq, List.mem_cons, List.not_mem_nil, or_false] at hw
  refine ⟨_, hinfo, ?_, ?_, hval⟩
  · rw [htype]
    rcases hw with rfl | rfl
    · exact hin
    · exact hout
  · rw [htemp]
    rcases hw with rfl | rfl
    · rfl
    · exact hconv.temporality.symm

/-- The ports of an adapter share a cardinality variable and a temporality, so they have one extent. -/
theorem Clean.adapter_sameExtent {id : NodeId} {n : Node} (hn : g.nodes[id]? = some n)
    {rule : AdapterRule} (hr : rule ∈ catalog.adapterRules) (hblock : n.block = rule.block)
    (hover : n.overrides = ∅) {x y : String} {s t : ConcreteType}
    (hs : (ofPatch catalog g).typing[PortKey.mk id x]? = some s.toPortType)
    (ht : (ofPatch catalog g).typing[PortKey.mk id y]? = some t.toPortType) :
    s.sameExtent t = true := by
  obtain ⟨b, input, output, hlookup, hconv, -⟩ := hc.exists_block hr
  obtain ⟨v, hin, hout⟩ := hconv.cardinality
  rw [← hblock] at hlookup
  obtain ⟨i, hi, hvi, htempi, hvali⟩ := h.adapter_port hc hn hlookup hconv hover hin hout hs
  obtain ⟨j, hj, hvj, htempj, hvalj⟩ := h.adapter_port hc hn hlookup hconv hover hin hout ht
  have hmem : PortKey.mk id x ∈ g.portTable catalog :=
    Std.ExtTreeMap.mem_iff_isSome_getElem?.mpr (by simp [hi])
  have heq := (h.solved hc).value?_eq hc hmem (Patch.eqvGen_of_sameVariable hi hj rfl hvi hvj)
  rw [hvali, hvalj] at heq
  simp [ConcreteType.sameExtent, Option.some.inj heq, htempi, htempj]

end Round

namespace Round

variable {catalog : Catalog} {g : Patch}

theorem Clean.kept (h : (ofPatch catalog g).Clean) (hq : (ofPatch catalog g).isQuiet = true)
    {p : EdgePair} (hp : p ∈ g.edgePairs (g.portTable catalog)) :
    p.Kept (ofPatch catalog g).typing := by
  obtain ⟨rs, -, -, hins, hkept⟩ := g.spliceAll_spliced (g.portTable catalog) catalog.adapterRules
    (ofPatch catalog g).typing
  have hnil : rs = [] := hins.mp (List.isEmpty_iff.mp hq)
  rcases hkept h.splicing_eq_nil p hp with hkeep | ⟨r, hr, -⟩
  · exact hkeep
  · rw [hnil] at hr
    cases hr

theorem Clean.exists_carried (hc : catalog.Built) (h : (ofPatch catalog g).Clean)
    (hq : (ofPatch catalog g).isQuiet = true) {p : EdgePair}
    (hp : p ∈ g.edgePairs (g.portTable catalog)) :
    ∃ t, (ofPatch catalog g).typing.carried? ⟨p.source, p.target⟩ = some t := by
  obtain ⟨-, hj, -⟩ := Patch.mem_edgePairs_iff.mp hp
  obtain ⟨hs, ht⟩ := PortTable.joins_iff.mp hj
  obtain ⟨i, hi, -⟩ := PortTable.faces_iff.mp hs
  obtain ⟨j, hj', -⟩ := PortTable.faces_iff.mp ht
  obtain ⟨a, ha, -⟩ := h.typing_eq hc hi
  obtain ⟨b, hb, -⟩ := h.typing_eq hc hj'
  have hcard := h.edge_cardinality_eq hc hp ha hb
  rcases h.kept hq hp a b (PortTyping.concrete?_eq_some_iff.mpr ha)
    (PortTyping.concrete?_eq_some_iff.mpr hb) with rfl | hne
  · exact ⟨a, PortTyping.carried?_eq_some_iff.mpr ⟨ha, hb⟩⟩
  · exact absurd hcard hne

theorem Clean.isFullyConcrete (hc : catalog.Built) (h : (ofPatch catalog g).Clean) :
    (g.typed (ofPatch catalog g).typing).isFullyConcrete = true := by
  apply List.all_eq_true.mpr
  intro tn htn
  obtain ⟨id, hid⟩ := OrderedMaps.mem_values_iff.mp htn
  rw [Patch.getElem?_typed_nodes] at hid
  obtain ⟨n, -, rfl⟩ := Option.map_eq_some_iff.mp hid
  apply List.all_eq_true.mpr
  intro t ht
  obtain ⟨name, hname⟩ := OrderedMaps.mem_values_iff.mp ht
  rw [PortTyping.getElem?_ofNode] at hname
  have hinfo := hname
  rw [getElem?_typing] at hinfo
  obtain ⟨info, hinfo, -⟩ := Option.map_eq_some_iff.mp hinfo
  obtain ⟨u, hu, -⟩ := h.typing_eq hc hinfo
  cases Option.some.inj (hname.symm.trans hu)
  rfl

theorem not_portless_of_typed {k : PortKey} {t : PortType}
    (hk : (ofPatch catalog g).typing[k]? = some t) : ¬ g.Portless catalog k.node := by
  rw [getElem?_typing] at hk
  obtain ⟨info, hinfo, -⟩ := Option.map_eq_some_iff.mp hk
  exact Patch.not_portless_of_faces (PortTable.faces_iff.mpr ⟨info, hinfo, rfl⟩)

/-- After a quiet round without errors an edge is consistent unless it ends at a node without ports. -/
theorem Clean.isConsistent_iff (hc : catalog.Built) (h : (ofPatch catalog g).Clean)
    (hq : (ofPatch catalog g).isQuiet = true) {id : EdgeId} {e : Edge}
    (he : g.edges[id]? = some e) :
    (g.typed (ofPatch catalog g).typing).isConsistent
        ⟨e.source, e.target, (ofPatch catalog g).typing.carried? e⟩ = true ↔
      ¬ g.Portless catalog e.source.node ∧ ¬ g.Portless catalog e.target.node := by
  simp only [TypedPatch.isConsistent, Bool.and_eq_true]
  constructor
  · rintro ⟨⟨hcarried, -⟩, -⟩
    obtain ⟨t, ht⟩ := Option.isSome_iff_exists.mp hcarried
    obtain ⟨hs, ht⟩ := PortTyping.carried?_eq_some_iff.mp ht
    exact ⟨not_portless_of_typed hs, not_portless_of_typed ht⟩
  · rintro ⟨hnos, hnot⟩
    obtain ⟨hs, ht⟩ := h.extracted.attached id e he
    have hsource := hs.resolve_right hnos
    have htarget := ht.resolve_right hnot
    have hpair : (⟨id, e.source, e.target⟩ : EdgePair) ∈ g.edgePairs (g.portTable catalog) :=
      h.extracted.mem_edgePairs_iff.mpr ⟨he, PortTable.joins_iff.mpr ⟨hsource, htarget⟩⟩
    obtain ⟨t, hcarried⟩ := h.exists_carried hc hq hpair
    have htypes := PortTyping.carried?_eq_some_iff.mp hcarried
    have hport : ∀ {k : PortKey} {d : PortDirection}, (g.portTable catalog).faces k d = true →
        (g.typed (ofPatch catalog g).typing).portType? k = (ofPatch catalog g).typing[k]? := by
      intro k d hf
      obtain ⟨n, hn⟩ := Option.isSome_iff_exists.mp
        (Std.ExtTreeMap.mem_iff_isSome_getElem?.mp (Patch.node_mem_of_faces hf))
      exact Patch.portType?_typed hn
    rw [hport hsource, hport htarget, htypes.1, htypes.2]
    exact ⟨⟨Option.isSome_iff_exists.mpr ⟨t, hcarried⟩, rfl⟩, rfl⟩

/-- After a quiet round without errors only two obligations can fail: an edge may end at a node without
ports, and a node that counts as an adapter may change the extent. -/
theorem Clean.certificate_allPass_iff (hc : catalog.Built) (h : (ofPatch catalog g).Clean)
    (hq : (ofPatch catalog g).isQuiet = true) :
    (g.typed (ofPatch catalog g).typing).certificate.allPass = true ↔
      (∀ (id : EdgeId) (e : Edge), g.edges[id]? = some e →
        ¬ g.Portless catalog e.source.node ∧ ¬ g.Portless catalog e.target.node) ∧
      ∀ (id : NodeId) (t : TypedNode), (g.typed (ofPatch catalog g).typing).nodes[id]? = some t →
        t.provenance.isAuthored = false → t.keepsExtent = true := by
  have hconcrete := h.isFullyConcrete hc
  have hedges : (g.typed (ofPatch catalog g).typing).edges.values.all
      (g.typed (ofPatch catalog g).typing).isConsistent = true ↔
      ∀ (id : EdgeId) (e : Edge), g.edges[id]? = some e →
        ¬ g.Portless catalog e.source.node ∧ ¬ g.Portless catalog e.target.node := by
    rw [List.all_eq_true]
    constructor
    · intro hall id e he
      have hentry : (g.typed (ofPatch catalog g).typing).edges[id]? =
          some ⟨e.source, e.target, (ofPatch catalog g).typing.carried? e⟩ := by
        simp [Patch.typed, he]
      apply (h.isConsistent_iff hc hq he).mp
      exact hall _ (OrderedMaps.mem_values_iff.mpr ⟨id, hentry⟩)
    · intro hall te hte
      obtain ⟨id, hid⟩ := OrderedMaps.mem_values_iff.mp hte
      simp only [Patch.typed, Std.ExtTreeMap.getElem?_map] at hid
      obtain ⟨e, he, rfl⟩ := Option.map_eq_some_iff.mp hid
      exact (h.isConsistent_iff hc hq he).mpr (hall id e he)
  have hadapters : (g.typed (ofPatch catalog g).typing).adapters.all (fun n => n.2.keepsExtent) =
      true ↔ ∀ (id : NodeId) (t : TypedNode),
        (g.typed (ofPatch catalog g).typing).nodes[id]? = some t →
          t.provenance.isAuthored = false → t.keepsExtent = true := by
    simp only [TypedPatch.adapters, List.all_eq_true, List.mem_filter, Bool.not_eq_true',
      Std.ExtTreeMap.mem_toList_iff_getElem?_eq_some, Prod.forall, and_imp]
  simp only [Certificate.allPass, TypedPatch.certificate, Bool.and_eq_true, hedges, hadapters,
    hconcrete, and_true]

/-- An adapter that follows a rule keeps the extent. -/
theorem Clean.keepsExtent_of_rule (hc : catalog.Built) (h : (ofPatch catalog g).Clean) {id : NodeId}
    {n : Node} (hn : g.nodes[id]? = some n) {rule : AdapterRule} (hr : rule ∈ catalog.adapterRules)
    (hblock : n.block = rule.block) (hover : n.overrides = ∅) :
    (TypedNode.mk n.block n.provenance ((ofPatch catalog g).typing.ofNode id)).keepsExtent =
      true := by
  apply TypedNode.keepsExtent_of
  intro a b s t hs ht
  rw [PortTyping.getElem?_ofNode] at hs ht
  exact h.adapter_sameExtent hc hn hr hblock hover hs ht

end Round

namespace Patch

/-- A patch is ready exactly if there is no error, no edge of it ends at a node without ports, and every
node that it has marked as spliced in keeps the extent. -/
theorem normalize_ready_iff (g : Patch) {catalog : Catalog} (hc : catalog.Built)
    (options : NormalizationOptions) :
    let r := g.normalize catalog options
    r.ready = true ↔ hasErrors r.diagnostics = false ∧
      (∀ (id : EdgeId) (e : Edge), g.edges[id]? = some e →
        ¬ g.Portless catalog e.source.node ∧ ¬ g.Portless catalog e.target.node) ∧
      ∀ (id : NodeId) (n : Node) (t : TypedNode), g.nodes[id]? = some n →
        n.provenance.isAuthored = false → r.typed.nodes[id]? = some t → t.keepsExtent = true := by
  intro r
  have hgrows : g.Grows catalog r.patch := converge_grows hc _ g
  have htyped : r.typed = r.patch.typed (Round.ofPatch catalog r.patch).typing :=
    typed_normalize g catalog options
  have hready : r.ready = (!hasErrors r.diagnostics && r.typed.isFullyConcrete &&
      r.typed.certificate.allPass) := rfl
  cases herr : hasErrors r.diagnostics with
  | true => simp [hready, herr]
  | false =>
    obtain ⟨hclean, hquiet⟩ := clean_of_noErrors g catalog options herr
    have hconcrete := hclean.isFullyConcrete hc
    have hcert := hclean.certificate_allPass_iff hc hquiet
    rw [← htyped] at hconcrete hcert
    rw [hready, herr, hconcrete, Bool.not_false, Bool.true_and, Bool.true_and, hcert,
      eq_self_iff_true, true_and]
    refine and_congr ⟨fun hedges id e he => ?_, fun hedges id e he => ?_⟩
      ⟨fun hnodes id n t hn hprov ht => ?_, fun hnodes id t ht hprov => ?_⟩
    · rw [← hgrows.portless_iff hc, ← hgrows.portless_iff hc]
      by_contra hno
      have hblind : g.Portless catalog e.source.node ∨ g.Portless catalog e.target.node := by
        rw [← hgrows.portless_iff hc, ← hgrows.portless_iff hc]
        by_contra hneither
        exact hno (not_or.mp hneither)
      exact hno (hedges id e (hgrows.edge_stays id e he hblind))
    · rcases hgrows.edge_new id e he with hold | hnew
      · rw [hgrows.portless_iff hc, hgrows.portless_iff hc]
        exact hedges id e hold
      · exact hnew
    · apply hnodes id t ht
      rw [htyped, getElem?_typed_nodes, hgrows.node_stays id n hn] at ht
      cases Option.some.inj ht
      exact hprov
    · have ht' := ht
      rw [htyped, getElem?_typed_nodes] at ht'
      obtain ⟨n, hn, rfl⟩ := Option.map_eq_some_iff.mp ht'
      rcases hgrows.node_new id n hn with hold | ⟨rule, hrule, hblock, hover⟩
      · exact hnodes id n _ hold hprov ht
      · exact hclean.keepsExtent_of_rule hc hn hrule hblock hover

/-- Two nodes without ports, and an edge between ports that they do not have. -/
def bareLink : Patch where
  nodes := (∅ : Std.ExtTreeMap NodeId Node).insert "m" { block := "Bare" }
    |>.insert "n" { block := "Bare" }
  edges := (∅ : Std.ExtTreeMap EdgeId Edge).insert "e" ⟨⟨"m", "a"⟩, ⟨"n", "b"⟩⟩

/-- The one block `Bare`, without ports. -/
def bareCatalog : Catalog := (Catalog.empty.insertAll [{ name := "Bare" }]).1

/-- The patch is not ready and nothing is reported: its edge ends at nodes without ports. -/
theorem bareLink_blocked :
    bareCatalog.Built ∧ (bareLink.normalize bareCatalog {}).ready = false ∧
      (bareLink.normalize bareCatalog {}).diagnostics = [] ∧
      ∃ (id : EdgeId) (e : Edge), bareLink.edges[id]? = some e ∧
        (bareLink.Portless bareCatalog e.source.node ∨
          bareLink.Portless bareCatalog e.target.node) := by
  have hbuilt : bareCatalog.Built := Catalog.Built.empty.insertAll _
  have hblocked : (bareLink.normalize bareCatalog {}).ready = false := by decide +kernel
  have hsilent : (bareLink.normalize bareCatalog {}).diagnostics = [] := by decide +kernel
  refine ⟨hbuilt, hblocked, hsilent, ?_⟩
  by_contra hno
  have hready := (normalize_ready_iff bareLink hbuilt {}).mpr ⟨by rw [hsilent]; rfl, ?_, ?_⟩
  · rw [hblocked] at hready
    cases hready
  · intro id e he
    exact not_or.mp fun hor => hno ⟨id, e, he, hor⟩
  · intro id n t hn hprov
    have hauthored : bareLink.nodes.values.all (fun n => n.provenance.isAuthored) = true := by
      decide +kernel
    rw [List.all_eq_true.mp hauthored n (OrderedMaps.mem_values_iff.mpr ⟨id, hn⟩)] at hprov
    cases hprov

end Patch

end PatchTyping
