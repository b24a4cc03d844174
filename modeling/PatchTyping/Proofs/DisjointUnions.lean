import PatchTyping.Proofs.FeedbackThroughAdapters
import PatchTyping.Proofs.SpliceLocality

/-!
# Patches that have nothing to do with each other

Two patches without a name in common, counting the names that normalization makes up for each of them,
can be normalized together: the result is that of one beside that of the other. So an edit to one corner
of a patch has no effect on another corner that no edge leads to. It is not enough that the names of each
patch do not occur in the other: normalization may make up the same name for both.
-/

namespace PatchTyping

open Relation

section Relations

variable {A : Type} {R R' : A → A → Prop} {mine : A → Bool}
  (hkeep : ∀ u v, R u v → mine v = mine u) (hpart : ∀ u v, R' u v ↔ R u v ∧ mine u = true)
include hkeep

theorem mine_of_reflTransGen {u v : A} (h : ReflTransGen R u v) : mine v = mine u := by
  induction h with
  | refl => rfl
  | tail _ hbc ih => rw [hkeep _ _ hbc, ih]

include hpart

theorem reflTransGen_part_iff {u v : A} (hu : mine u = true) :
    ReflTransGen R' u v ↔ ReflTransGen R u v := by
  refine ⟨ReflTransGen.mono (fun a b h => ((hpart a b).mp h).1) _ _, fun h => ?_⟩
  induction h with
  | refl => exact .refl
  | tail hab hbc ih =>
    exact ih.tail ((hpart _ _).mpr ⟨hbc, (mine_of_reflTransGen hkeep hab).trans hu⟩)

theorem transGen_part_iff {u v : A} (hu : mine u = true) : TransGen R' u v ↔ TransGen R u v := by
  rw [TransGen.tail'_iff, TransGen.tail'_iff]
  refine exists_congr fun w => ?_
  rw [reflTransGen_part_iff hkeep hpart hu, hpart]
  refine and_congr_right fun huw => and_iff_left ?_
  exact (mine_of_reflTransGen hkeep huw).trans hu

omit hkeep in
theorem mine_of_transGen_part {u v : A} (h : TransGen R' u v) : mine u = true := by
  obtain ⟨w, huw, -⟩ := TransGen.head'_iff.mp h
  exact ((hpart u w).mp huw).2

end Relations

namespace Patch

variable {g : Patch} {catalog : Catalog} {mine : NodeId → Bool} (h : g.Parted mine)
include h

theorem mine_of_leads {u v : NodeId} (huv : g.Leads u v) : mine v = mine u := by
  obtain ⟨-, -, id, e, he, rfl, rfl⟩ := huv
  exact h id e he

omit h in
theorem mem_nodes_part {id : NodeId} : id ∈ (g.part mine).nodes ↔ id ∈ g.nodes ∧ mine id = true := by
  rw [Std.ExtTreeMap.mem_iff_isSome_getElem?, Std.ExtTreeMap.mem_iff_isSome_getElem?,
    getElem?_nodes_part]
  cases mine id <;> simp

theorem leads_part_iff (u v : NodeId) : (g.part mine).Leads u v ↔ g.Leads u v ∧ mine u = true := by
  simp only [Leads, mem_nodes_part, getElem?_edges_part_iff]
  constructor
  · rintro ⟨⟨hu, hmine⟩, ⟨hv, -⟩, id, e, ⟨he, -⟩, hsrc, htgt⟩
    exact ⟨⟨hu, hv, id, e, he, hsrc, htgt⟩, hmine⟩
  · rintro ⟨⟨hu, hv, id, e, he, rfl, rfl⟩, hmine⟩
    exact ⟨⟨hu, hmine⟩, ⟨hv, (h id e he).trans hmine⟩, id, e, ⟨he, hmine⟩, rfl, rfl⟩

theorem leadsAtOnce_part_iff (u v : NodeId) :
    (g.part mine).LeadsAtOnce catalog u v ↔ g.LeadsAtOnce catalog u v ∧ mine u = true := by
  rw [LeadsAtOnce, LeadsAtOnce, leads_part_iff h, and_right_comm]
  refine and_congr_left fun hu => and_congr_right fun huv => ?_
  rw [readsPreviousFrame, readsPreviousFrame, getElem?_nodes_part,
    if_pos ((mine_of_leads h huv).trans hu)]

theorem reports_part_iff {r : CycleReport} :
    (g.part mine).Reports catalog r ↔ g.Reports catalog r ∧ ∀ v ∈ r.nodes, mine v = true := by
  have hkeep : ∀ u v, g.Leads u v → mine v = mine u := fun _ _ => mine_of_leads h
  have hkeep' : ∀ u v, g.LeadsAtOnce catalog u v → mine v = mine u := fun _ _ huv => hkeep _ _ huv.1
  have hpart := leads_part_iff h
  have hpart' : ∀ u v, (g.part mine).LeadsAtOnce catalog u v ↔ _ := leadsAtOnce_part_iff h
  have hcomponent : ∀ {v : NodeId}, mine v = true → ∀ w,
      (ReflTransGen (g.part mine).Leads v w ∧ ReflTransGen (g.part mine).Leads w v ↔
        ReflTransGen g.Leads v w ∧ ReflTransGen g.Leads w v) := by
    intro v hv w
    rw [reflTransGen_part_iff hkeep hpart hv]
    refine and_congr_right fun hvw => reflTransGen_part_iff hkeep hpart ?_
    exact (mine_of_reflTransGen hkeep hvw).trans hv
  have hillegal : (∀ v ∈ r.nodes, mine v = true) →
      ((∃ v ∈ r.nodes, TransGen ((g.part mine).LeadsAtOnce catalog) v v) ↔
        ∃ v ∈ r.nodes, TransGen (g.LeadsAtOnce catalog) v v) := fun hall =>
    exists_congr fun v => and_congr_right fun hv => transGen_part_iff hkeep' hpart' (hall v hv)
  constructor
  · intro hr
    obtain ⟨v, hloop, hmem⟩ := hr.component
    have hv := mine_of_transGen_part hpart hloop
    simp only [hcomponent hv] at hmem
    have hall : ∀ w ∈ r.nodes, mine w = true := fun w hw =>
      (mine_of_reflTransGen hkeep ((hmem w).mp hw).1).trans hv
    refine ⟨⟨hr.ordered, ⟨v, ?_, hmem⟩, hr.illegal_iff.trans (hillegal hall)⟩, hall⟩
    exact (transGen_part_iff hkeep hpart hv).mp hloop
  · rintro ⟨hr, hall⟩
    obtain ⟨v, hloop, hmem⟩ := hr.component
    have hv := hall v ((hmem v).mpr ⟨.refl, .refl⟩)
    refine ⟨hr.ordered, ⟨v, (transGen_part_iff hkeep hpart hv).mpr hloop, fun w => ?_⟩,
      hr.illegal_iff.trans (hillegal hall).symm⟩
    rw [hmem, hcomponent hv]

theorem Reports.side {r : CycleReport} (hr : g.Reports catalog r) :
    (∀ v ∈ r.nodes, mine v = true) ∨ ∀ v ∈ r.nodes, (!mine v) = true := by
  obtain ⟨root, -, hmem⟩ := hr.component
  have hkeep : ∀ u v, g.Leads u v → mine v = mine u := fun _ _ => mine_of_leads h
  have hall : ∀ v ∈ r.nodes, mine v = mine root := fun v hv =>
    mine_of_reflTransGen hkeep ((hmem v).mp hv).1
  cases hroot : mine root with
  | true => exact .inl fun v hv => (hall v hv).trans hroot
  | false => exact .inr fun v hv => by simp [hall v hv, hroot]

theorem cycles_parts : (g.cycles catalog).Perm
    ((g.part mine).cycles catalog ++ (g.part (!mine ·)).cycles catalog) := by
  have hapart : ∀ r ∈ (g.part mine).cycles catalog, ∀ r' ∈ (g.part (!mine ·)).cycles catalog,
      r ≠ r' := by
    rintro r hr _ hr' rfl
    obtain ⟨hrep, hall⟩ := (reports_part_iff h).mp (mem_cycles_iff.mp hr)
    obtain ⟨-, hall'⟩ := (reports_part_iff h.not).mp (mem_cycles_iff.mp hr')
    obtain ⟨v, hv, -⟩ := hrep.nonempty
    have hboth := hall' v hv
    rw [hall v hv] at hboth
    cases hboth
  have hnodup := List.nodup_append.mpr
    ⟨nodup_cycles (g.part mine) catalog, nodup_cycles (g.part (!mine ·)) catalog, hapart⟩
  refine (List.perm_ext_iff_of_nodup (nodup_cycles g catalog) hnodup).mpr fun r => ?_
  rw [List.mem_append, mem_cycles_iff, mem_cycles_iff, mem_cycles_iff, reports_part_iff h,
    reports_part_iff h.not]
  constructor
  · exact fun hr => (hr.side h).imp (⟨hr, ·⟩) (⟨hr, ·⟩)
  · rintro (⟨hr, -⟩ | ⟨hr, -⟩)
    · exact hr
    · exact hr

end Patch

namespace TypedPatch

/-- Some nodes of a typed patch and the edges that start there. -/
def part (mine : NodeId → Bool) (t : TypedPatch) : TypedPatch where
  nodes := t.nodes.filter fun id _ => mine id
  edges := t.edges.filter fun _ e => mine e.source.node

variable {t : TypedPatch} {mine : NodeId → Bool}

theorem getElem?_nodes_part {id : NodeId} :
    (t.part mine).nodes[id]? = if mine id = true then t.nodes[id]? else none := by
  rw [part, Std.ExtTreeMap.getElem?_filter']
  cases mine id <;> cases t.nodes[id]? <;> rfl

theorem getElem?_edges_part_iff {id : EdgeId} {e : TypedEdge} :
    (t.part mine).edges[id]? = some e ↔ t.edges[id]? = some e ∧ mine e.source.node = true := by
  rw [part, Std.ExtTreeMap.getElem?_filter', Option.filter_eq_some_iff]

theorem portType?_part {k : PortKey} (hk : mine k.node = true) :
    (t.part mine).portType? k = t.portType? k := by
  rw [portType?, portType?, getElem?_nodes_part, if_pos hk]

theorem forall_nodes_parts {P : TypedNode → Prop} (mine : NodeId → Bool) :
    (∀ (id : NodeId) (n : TypedNode), t.nodes[id]? = some n → P n) ↔
      (∀ (id : NodeId) (n : TypedNode), (t.part mine).nodes[id]? = some n → P n) ∧
        ∀ (id : NodeId) (n : TypedNode), (t.part (!mine ·)).nodes[id]? = some n → P n := by
  simp only [getElem?_nodes_part]
  constructor
  · intro hall
    refine ⟨fun id n hn => ?_, fun id n hn => ?_⟩
    · split at hn
      · exact hall id n hn
      · cases hn
    · split at hn
      · exact hall id n hn
      · cases hn
  · rintro ⟨hin, hout⟩ id n hn
    cases hm : mine id with
    | true => exact hin id n (by rw [if_pos hm, hn])
    | false => exact hout id n (by rw [if_pos (by simp [hm]), hn])

theorem isFullyConcrete_iff : t.isFullyConcrete = true ↔
    ∀ (id : NodeId) (n : TypedNode), t.nodes[id]? = some n → n.isConcrete = true := by
  simp only [isFullyConcrete, List.all_eq_true, OrderedMaps.mem_values_iff]
  constructor
  · intro hall id n hn
    exact hall n ⟨id, hn⟩
  · rintro hall n ⟨id, hn⟩
    exact hall id n hn

theorem extentsPreserved_iff : t.certificate.extentsPreserved = true ↔
    ∀ (id : NodeId) (n : TypedNode), t.nodes[id]? = some n →
      n.provenance.isAuthored = false → n.keepsExtent = true := by
  simp only [certificate, adapters, List.all_eq_true, List.mem_filter, Prod.forall,
    Std.ExtTreeMap.mem_toList_iff_getElem?_eq_some, Bool.not_eq_true', and_imp]

theorem edgesConsistent_iff : t.certificate.edgesConsistent = true ↔
    ∀ (id : EdgeId) (e : TypedEdge), t.edges[id]? = some e → t.isConsistent e = true := by
  simp only [certificate, List.all_eq_true, OrderedMaps.mem_values_iff]
  constructor
  · intro hall id e he
    exact hall e ⟨id, he⟩
  · rintro hall e ⟨id, he⟩
    exact hall id e he

theorem edgesConsistent_parts
    (h : ∀ (id : EdgeId) (e : TypedEdge), t.edges[id]? = some e →
      mine e.target.node = mine e.source.node) :
    t.certificate.edgesConsistent = true ↔ (t.part mine).certificate.edgesConsistent = true ∧
      (t.part (!mine ·)).certificate.edgesConsistent = true := by
  have hsame : ∀ {f : NodeId → Bool} {e : TypedEdge}, f e.source.node = true →
      f e.target.node = true → (t.part f).isConsistent e = t.isConsistent e := by
    intro f e hs ht
    rw [isConsistent, isConsistent, portType?_part hs, portType?_part ht]
  simp only [edgesConsistent_iff, getElem?_edges_part_iff, and_imp]
  constructor
  · intro hall
    refine ⟨fun id e he hm => ?_, fun id e he hm => ?_⟩
    · rw [hsame hm ((h id e he).trans hm)]
      exact hall id e he
    · rw [hsame (f := (!mine ·)) hm ((congrArg Bool.not (h id e he)).trans hm)]
      exact hall id e he
  · rintro ⟨hin, hout⟩ id e he
    cases hm : mine e.source.node with
    | true =>
      rw [← hsame hm ((h id e he).trans hm)]
      exact hin id e he hm
    | false =>
      have hm' : (!mine e.source.node) = true := by simp [hm]
      rw [← hsame (f := (!mine ·)) hm' ((congrArg Bool.not (h id e he)).trans hm')]
      exact hout id e he hm'

/-- All obligations hold of the whole exactly if they hold of the part and of the rest. -/
theorem certificate_parts
    (h : ∀ (id : EdgeId) (e : TypedEdge), t.edges[id]? = some e →
      mine e.target.node = mine e.source.node) :
    t.isFullyConcrete = true ∧ t.certificate.allPass = true ↔
      ((t.part mine).isFullyConcrete = true ∧ (t.part mine).certificate.allPass = true) ∧
        (t.part (!mine ·)).isFullyConcrete = true ∧
          (t.part (!mine ·)).certificate.allPass = true := by
  have hpass : ∀ s : TypedPatch, s.isFullyConcrete = true ∧ s.certificate.allPass = true ↔
      s.isFullyConcrete = true ∧ s.certificate.edgesConsistent = true ∧
        s.certificate.extentsPreserved = true := by
    intro s
    have hconcrete : s.certificate.fullyConcrete = s.isFullyConcrete := rfl
    rw [Certificate.allPass, Bool.and_eq_true, Bool.and_eq_true, hconcrete]
    constructor
    · rintro ⟨hc, ⟨he, -⟩, hx⟩
      exact ⟨hc, he, hx⟩
    · rintro ⟨hc, he, hx⟩
      exact ⟨hc, ⟨he, hc⟩, hx⟩
  rw [hpass, hpass, hpass, edgesConsistent_parts h, isFullyConcrete_iff, isFullyConcrete_iff,
    isFullyConcrete_iff, extentsPreserved_iff, extentsPreserved_iff, extentsPreserved_iff,
    forall_nodes_parts mine,
    forall_nodes_parts (P := fun n => n.provenance.isAuthored = false → n.keepsExtent = true) mine]
  constructor
  · rintro ⟨⟨c, c'⟩, ⟨e, e'⟩, x, x'⟩
    exact ⟨⟨c, e, x⟩, c', e', x'⟩
  · rintro ⟨⟨c, e, x⟩, c', e', x'⟩
    exact ⟨⟨c, c'⟩, ⟨e, e'⟩, x, x'⟩

instance : Union TypedPatch := ⟨fun t t' => ⟨t.nodes ∪ t'.nodes, t.edges ∪ t'.edges⟩⟩

theorem union_parts (t : TypedPatch) (mine : NodeId → Bool) : t.part mine ∪ t.part (!mine ·) = t :=
  TypedPatch.mk.injEq .. |>.mpr ⟨OrderedMaps.filter_union_filter_not t.nodes _,
    OrderedMaps.filter_union_filter_not t.edges _⟩

end TypedPatch

namespace Patch

variable {g : Patch} {catalog : Catalog} {mine : NodeId → Bool}

theorem typed_part (hc : catalog.Built) (h : g.Parted mine) :
    (g.part mine).typed (Round.ofPatch catalog (g.part mine)).typing =
      (g.typed (Round.ofPatch catalog g).typing).part mine := by
  have hnodes : ((g.part mine).typed (Round.ofPatch catalog (g.part mine)).typing).nodes =
      ((g.typed (Round.ofPatch catalog g).typing).part mine).nodes := by
    apply Std.ExtTreeMap.ext_getElem?
    intro id
    rw [TypedPatch.getElem?_nodes_part, getElem?_typed_nodes, getElem?_typed_nodes,
      getElem?_nodes_part]
    cases hm : mine id with
    | false => rfl
    | true =>
      have hports : (Round.ofPatch catalog (g.part mine)).typing.ofNode id =
          (Round.ofPatch catalog g).typing.ofNode id := by
        apply Std.ExtTreeMap.ext_getElem?
        intro name
        rw [PortTyping.getElem?_ofNode, PortTyping.getElem?_ofNode, Round.typing_part hc h, if_pos hm]
      simp only [hports, if_true]
  have hedges : ((g.part mine).typed (Round.ofPatch catalog (g.part mine)).typing).edges =
      ((g.typed (Round.ofPatch catalog g).typing).part mine).edges := by
    apply Std.ExtTreeMap.ext_getElem?
    intro id
    apply Option.ext
    intro x
    rw [TypedPatch.getElem?_edges_part_iff]
    simp only [typed, Std.ExtTreeMap.getElem?_map, Option.map_eq_some_iff, getElem?_edges_part_iff]
    have hcarried : ∀ e : Edge, g.edges[id]? = some e → mine e.source.node = true →
        (Round.ofPatch catalog (g.part mine)).typing.carried? e =
          (Round.ofPatch catalog g).typing.carried? e := by
      intro e he hm
      rw [PortTyping.carried?, PortTyping.carried?, Round.concrete?_part hc h hm,
        Round.concrete?_part hc h ((h id e he).trans hm)]
    constructor
    · rintro ⟨e, ⟨he, hm⟩, rfl⟩
      exact ⟨⟨e, he, by rw [hcarried e he hm]⟩, hm⟩
    · rintro ⟨⟨e, he, rfl⟩, hm⟩
      exact ⟨e, ⟨he, hm⟩, by rw [hcarried e he hm]⟩
  exact TypedPatch.mk.injEq .. |>.mpr ⟨hnodes, hedges⟩

end Patch

theorem hasErrors_cycleDiagnostics_iff {cycles : List CycleReport} :
    hasErrors (cycleDiagnostics cycles) = false ↔ ∀ c ∈ cycles, c.cycleClass = .legalFeedback := by
  have hsingle : ∀ c : CycleReport, c.diagnostic? = none ↔ c.cycleClass = .legalFeedback := by
    intro c
    cases hclass : c.cycleClass <;> simp [CycleReport.diagnostic?, hclass]
  have hnil : hasErrors (cycleDiagnostics cycles) = false ↔ cycleDiagnostics cycles = [] := by
    refine ⟨fun herr => eq_nil_of_hasErrors herr fun d hd => ?_, fun hnil => by rw [hnil]; rfl⟩
    obtain ⟨c, -, hc⟩ := List.mem_filterMap.mp hd
    unfold CycleReport.diagnostic? at hc
    split at hc
    · cases hc
    · cases hc
      rfl
  rw [hnil, cycleDiagnostics, List.filterMap_eq_nil_iff]
  exact forall₂_congr fun c _ => hsingle c

namespace Patch

/-- Ready means: a last round that neither complains nor splices, no cycle within a frame, and all
obligations. -/
theorem ready_iff (g : Patch) (catalog : Catalog) (options : NormalizationOptions) :
    let r := g.normalize catalog options
    r.ready = true ↔ ((Round.ofPatch catalog r.patch).Clean ∧
        (Round.ofPatch catalog r.patch).isQuiet = true) ∧
      (∀ c ∈ r.cycles, c.cycleClass = .legalFeedback) ∧
      r.typed.isFullyConcrete = true ∧ r.typed.certificate.allPass = true := by
  intro r
  have hcycles : hasErrors (cycleLog options.classifyCycles r.cycles).diagnostics = false ↔
      ∀ c ∈ r.cycles, c.cycleClass = .legalFeedback := by
    rw [← hasErrors_cycleDiagnostics_iff]
    cases hopt : options.classifyCycles with
    | true => simp [cycleLog, PassLog.diagnostics]
    | false =>
      have hnil : r.cycles = [] := by simp [r, normalize, hopt]
      simp [hnil, cycleLog, PassLog.diagnostics, cycleDiagnostics]
  have hlast := Convergence.hasErrors_lastLog (converge catalog (options.maxIterations - 1) g)
  rw [converge_last] at hlast
  have hready : r.ready = (!(hasErrors ((converge catalog (options.maxIterations - 1) g).lastLog
      Pass.all).diagnostics || hasErrors (cycleLog options.classifyCycles r.cycles).diagnostics) &&
        r.typed.isFullyConcrete && r.typed.certificate.allPass) := by
    rw [← hasErrors_append]
    rfl
  rw [hready, Bool.and_eq_true, Bool.and_eq_true, Bool.not_eq_true', Bool.or_eq_false_iff, hlast,
    hcycles, and_assoc, and_assoc]
  rfl

/-! ## Unions -/

/-- All nodes and edges of two patches. Under a name of both stands what the second has. -/
instance : Union Patch := ⟨fun g g' => ⟨g.nodes ∪ g'.nodes, g.edges ∪ g'.edges⟩⟩

theorem union_parts (g : Patch) (mine : NodeId → Bool) : g.part mine ∪ g.part (!mine ·) = g :=
  Patch.mk.injEq .. |>.mpr ⟨OrderedMaps.filter_union_filter_not g.nodes _,
    OrderedMaps.filter_union_filter_not g.edges _⟩

theorem getElem?_union_nodes (g g' : Patch) (id : NodeId) :
    (g ∪ g').nodes[id]? = g'.nodes[id]?.or g.nodes[id]? :=
  Std.ExtTreeMap.getElem?_union

theorem getElem?_union_edges (g g' : Patch) (id : EdgeId) :
    (g ∪ g').edges[id]? = g'.edges[id]?.or g.edges[id]? :=
  Std.ExtTreeMap.getElem?_union

/-- The names of nodes that a patch has or mentions. -/
def ownNodeNames (g : Patch) : List NodeId :=
  g.nodes.keys ++ g.edges.values.flatMap fun e => [e.source.node, e.target.node]

/-- These names, and those of the adapters that normalization puts into the patch. -/
def nodeNames (g : Patch) (catalog : Catalog) (options : NormalizationOptions) : List NodeId :=
  g.ownNodeNames ++ (g.normalize catalog options).inserted.map (·.node)

/-- The names of the edges of a patch, and those of the edges that come with its adapters. -/
def edgeNames (g : Patch) (catalog : Catalog) (options : NormalizationOptions) : List EdgeId :=
  g.edges.keys ++ (g.normalize catalog options).inserted.flatMap (·.edgeNames catalog)

/-- Everything in the patch has a name of one side. -/
structure Within (mine : NodeId → Bool) (owned : EdgeId → Bool) (g : Patch) : Prop where
  node : ∀ (id : NodeId) (n : Node), g.nodes[id]? = some n → mine id = true
  edge : ∀ (id : EdgeId) (e : Edge), g.edges[id]? = some e →
    owned id = true ∧ mine e.source.node = true ∧ mine e.target.node = true

section Sides

variable {mine : NodeId → Bool} {owned : EdgeId → Bool} {g g' : Patch} (h : g.Within mine owned)
  (h' : g'.Within (!mine ·) (!owned ·))
include h h'

theorem sorted_union : (g ∪ g').Sorted mine owned := by
  refine ⟨fun id e he => ?_, fun id e he => ?_⟩
  · rw [getElem?_union_edges, Option.or_eq_some_iff] at he
    rcases he with he | ⟨-, he⟩
    · obtain ⟨-, hs, ht⟩ := h'.edge id e he
      exact Bool.not_inj (ht.trans hs.symm)
    · obtain ⟨-, hs, ht⟩ := h.edge id e he
      exact ht.trans hs.symm
  · rw [getElem?_union_edges, Option.or_eq_some_iff] at he
    rcases he with he | ⟨-, he⟩
    · obtain ⟨ho, hs, -⟩ := h'.edge id e he
      exact Bool.not_inj (ho.trans hs.symm)
    · obtain ⟨ho, hs, -⟩ := h.edge id e he
      exact ho.trans hs.symm

theorem part_union_left : (g ∪ g').part mine = g := by
  apply part_ext
  · intro id
    rw [getElem?_nodes_part, getElem?_union_nodes]
    cases hn' : g'.nodes[id]? with
    | some n =>
      have hout : mine id = false := by simpa using h'.node id n hn'
      cases hn : g.nodes[id]? with
      | none => simp [hout]
      | some m => simp [h.node id m hn] at hout
    | none =>
      cases hn : g.nodes[id]? with
      | none => simp
      | some m => simp [h.node id m hn]
  · intro id e
    rw [getElem?_union_edges, Option.or_eq_some_iff]
    constructor
    · rintro ⟨he | ⟨-, he⟩, hm⟩
      · have hout := (h'.edge id e he).2.1
        simp [hm] at hout
      · exact he
    · intro he
      obtain ⟨ho, hm, -⟩ := h.edge id e he
      refine ⟨.inr ⟨?_, he⟩, hm⟩
      cases he' : g'.edges[id]? with
      | none => rfl
      | some e' =>
        have hout := (h'.edge id e' he').1
        simp [ho] at hout

theorem part_union_right : (g ∪ g').part (!mine ·) = g' := by
  apply part_ext
  · intro id
    rw [getElem?_nodes_part, getElem?_union_nodes]
    cases hn' : g'.nodes[id]? with
    | some n => simp [h'.node id n hn']
    | none =>
      cases hn : g.nodes[id]? with
      | none => simp
      | some m => simp [h.node id m hn]
  · intro id e
    rw [getElem?_union_edges, Option.or_eq_some_iff]
    constructor
    · rintro ⟨he | ⟨-, he⟩, hm⟩
      · exact he
      · simp [(h.edge id e he).2.1] at hm
    · intro he
      exact ⟨.inl he, (h'.edge id e he).2.1⟩

end Sides

section Names

variable {catalog : Catalog} {options : NormalizationOptions} {mine : NodeId → Bool}
  {owned : EdgeId → Bool} {g : Patch}
  (hnode : ∀ id ∈ g.nodeNames catalog options, mine id = true)
  (hedge : ∀ id ∈ g.edgeNames catalog options, owned id = true)
include hnode hedge

theorem within_of_names : g.Within mine owned where
  node id n hn := by
    have hmem : id ∈ g.nodes := OrderedMaps.mem_iff_exists.mpr ⟨_, hn⟩
    exact hnode id (by simp [nodeNames, ownNodeNames, hmem])
  edge id e he := by
    have hmem : id ∈ g.edges := OrderedMaps.mem_iff_exists.mpr ⟨_, he⟩
    have hvalue : e ∈ g.edges.values := OrderedMaps.mem_values_iff.mpr ⟨id, he⟩
    have hends : ∀ n ∈ [e.source.node, e.target.node], mine n = true := fun n hn =>
      hnode n (List.mem_append_left _ (List.mem_append_right _ (List.mem_flatMap.mpr ⟨e, hvalue, hn⟩)))
    exact ⟨hedge id (by simp [edgeNames, hmem]), hends _ (by simp), hends _ (by simp)⟩

theorem named_of_names {s : Splice} (hs : s ∈ (g.normalize catalog options).inserted) :
    s.Named mine owned catalog where
  node := hnode _ (List.mem_append_right _ (List.mem_map.mpr ⟨s, hs, rfl⟩))
  edges _ hid := hedge _ (List.mem_append_right _ (List.mem_flatMap.mpr ⟨s, hs, hid⟩))

end Names

section Apart

variable (catalog : Catalog) (options : NormalizationOptions) (g g' : Patch)

/-- No name that one patch has is a name of the other, or one that normalization makes up for it. -/
structure Unrelated : Prop where
  node_left : ∀ id ∈ g.ownNodeNames, id ∉ g'.nodeNames catalog options
  node_right : ∀ id ∈ g'.ownNodeNames, id ∉ g.nodeNames catalog options
  edge_left : ∀ id ∈ g.edges.keys, id ∉ g'.edgeNames catalog options
  edge_right : ∀ id ∈ g'.edges.keys, id ∉ g.edgeNames catalog options

/-- Moreover normalization does not make up one name for both. -/
structure Apart : Prop extends Unrelated catalog options g g' where
  adapter : ∀ s ∈ (g.normalize catalog options).inserted,
    ∀ s' ∈ (g'.normalize catalog options).inserted, s.node ≠ s'.node
  adapterEdge : ∀ s ∈ (g.normalize catalog options).inserted,
    ∀ s' ∈ (g'.normalize catalog options).inserted,
      ∀ id ∈ s.edgeNames catalog, id ∉ s'.edgeNames catalog

instance : Decidable (Unrelated catalog options g g') :=
  decidable_of_iff ((∀ id ∈ g.ownNodeNames, id ∉ g'.nodeNames catalog options) ∧
      (∀ id ∈ g'.ownNodeNames, id ∉ g.nodeNames catalog options) ∧
      (∀ id ∈ g.edges.keys, id ∉ g'.edgeNames catalog options) ∧
      ∀ id ∈ g'.edges.keys, id ∉ g.edgeNames catalog options)
    ⟨fun h => ⟨h.1, h.2.1, h.2.2.1, h.2.2.2⟩,
      fun h => ⟨h.node_left, h.node_right, h.edge_left, h.edge_right⟩⟩

instance : Decidable (Apart catalog options g g') :=
  decidable_of_iff (Unrelated catalog options g g' ∧
      (∀ s ∈ (g.normalize catalog options).inserted,
        ∀ s' ∈ (g'.normalize catalog options).inserted, s.node ≠ s'.node) ∧
      ∀ s ∈ (g.normalize catalog options).inserted,
        ∀ s' ∈ (g'.normalize catalog options).inserted,
          ∀ id ∈ s.edgeNames catalog, id ∉ s'.edgeNames catalog)
    ⟨fun h => ⟨h.1, h.2.1, h.2.2⟩, fun h => ⟨h.toUnrelated, h.adapter, h.adapterEdge⟩⟩

variable {catalog options g g'} (h : Apart catalog options g g')
include h

theorem Apart.nodes : ∀ id ∈ g.nodeNames catalog options, id ∉ g'.nodeNames catalog options := by
  intro id hid hid'
  rcases List.mem_append.mp hid with hown | hnew
  · exact h.node_left id hown hid'
  · rcases List.mem_append.mp hid' with hown' | hnew'
    · exact h.node_right id hown' hid
    · obtain ⟨s, hs, rfl⟩ := List.mem_map.mp hnew
      obtain ⟨s', hs', heq⟩ := List.mem_map.mp hnew'
      exact h.adapter s hs s' hs' heq.symm

theorem Apart.edges : ∀ id ∈ g.edgeNames catalog options, id ∉ g'.edgeNames catalog options := by
  intro id hid hid'
  rcases List.mem_append.mp hid with hown | hnew
  · exact h.edge_left id hown hid'
  · rcases List.mem_append.mp hid' with hown' | hnew'
    · exact h.edge_right id hown' hid
    · obtain ⟨s, hs, hmem⟩ := List.mem_flatMap.mp hnew
      obtain ⟨s', hs', hmem'⟩ := List.mem_flatMap.mp hnew'
      exact h.adapterEdge s hs s' hs' id hmem hmem'

end Apart

/-- Adapters come under names of their own that were free before. -/
structure Adds (g : Patch) (ss : List Splice) (g' : Patch) : Prop where
  stays : ∀ id ∈ g.nodes, id ∈ g'.nodes
  new : ∀ s ∈ ss, s.node ∉ g.nodes ∧ s.node ∈ g'.nodes
  nodup : (ss.map (·.node)).Nodup

theorem adds_chain (catalog : Catalog) : SpliceChain catalog Adds where
  none g := ⟨fun _ hid => hid, fun _ hs => absurd hs List.not_mem_nil, List.nodup_nil⟩
  one {g g' r} _ _ hs := by
    have hmem := fun id => mem_nodes_spliceInto hs (u := id)
    refine ⟨fun id hid => (hmem id).mpr (.inl hid), fun s h => ?_, List.nodup_singleton _⟩
    rw [List.mem_singleton.mp h]
    exact ⟨adapter_not_mem hs, (hmem _).mpr (.inr rfl)⟩
  append {g g' g'' ss ss'} h h' := by
    refine ⟨fun id hid => h'.stays id (h.stays id hid), fun s hs => ?_, ?_⟩
    · rcases List.mem_append.mp hs with hs | hs
      · exact ⟨(h.new s hs).1, h'.stays _ (h.new s hs).2⟩
      · exact ⟨fun hold => (h'.new s hs).1 (h.stays _ hold), (h'.new s hs).2⟩
    · rw [List.map_append, List.nodup_append]
      refine ⟨h.nodup, h'.nodup, ?_⟩
      rintro _ hid _ hid' rfl
      obtain ⟨s, hs, rfl⟩ := List.mem_map.mp hid
      obtain ⟨s', hs', heq⟩ := List.mem_map.mp hid'
      exact (h'.new s' hs').1 (heq ▸ (h.new s hs).2)

theorem nodup_inserted (g : Patch) (catalog : Catalog) (options : NormalizationOptions) :
    ((g.normalize catalog options).inserted.map (·.node)).Nodup :=
  ((adds_chain catalog).converge (options.maxIterations - 1) g).nodup

/-- Rounds on the union do to each side what rounds on that side do. -/
theorem Apart.exists_sides {g g' : Patch} {catalog : Catalog} {options : NormalizationOptions}
    (h : Apart catalog options g g') (hc : catalog.Built) :
    ∃ (mine : NodeId → Bool) (owned : EdgeId → Bool),
      let r := (g ∪ g').normalize catalog options
      r.patch.Sorted mine owned ∧
        (r.patch.part mine = (g.normalize catalog options).patch ∧
          r.patch.part (!mine ·) = (g'.normalize catalog options).patch) ∧
        r.inserted.filter (fun s => mine s.node) = (g.normalize catalog options).inserted ∧
        r.inserted.filter (fun s => !mine s.node) = (g'.normalize catalog options).inserted := by
  let mine : NodeId → Bool := (g.nodeNames catalog options).contains
  let owned : EdgeId → Bool := (g.edgeNames catalog options).contains
  have hnode : ∀ id ∈ g.nodeNames catalog options, mine id = true := by simp [mine]
  have hedge : ∀ id ∈ g.edgeNames catalog options, owned id = true := by simp [owned]
  have hnode' : ∀ id ∈ g'.nodeNames catalog options, (!mine id) = true := by
    intro id hid
    simpa [mine] using fun hmem => h.nodes id hmem hid
  have hedge' : ∀ id ∈ g'.edgeNames catalog options, (!owned id) = true := by
    intro id hid
    simpa [owned] using fun hmem => h.edges id hmem hid
  have hwithin : g.Within mine owned := within_of_names hnode hedge
  have hwithin' : g'.Within (!mine ·) (!owned ·) := within_of_names hnode' hedge'
  have hsorted := sorted_union hwithin hwithin'
  have hrun := hsorted.converge_part hc (options.maxIterations - 1)
  have hrun' := hsorted.not.converge_part hc (options.maxIterations - 1)
  simp only [Bool.not_not] at hrun'
  rw [part_union_left hwithin hwithin', part_union_right hwithin hwithin'] at hrun hrun'
  obtain ⟨hpatches, hpatch, hins⟩ := hrun (fun s hs => named_of_names hnode hedge hs)
    fun s hs => named_of_names hnode' hedge' hs
  obtain ⟨-, hpatch', hins'⟩ := hrun' (fun s hs => named_of_names hnode' hedge' hs)
    fun s hs => named_of_names hnode hedge hs
  exact ⟨mine, owned, hpatches, ⟨hpatch, hpatch'⟩, hins, hins'⟩

section Results

variable {whole g g' : Patch} {catalog : Catalog} {options : NormalizationOptions}
  {mine : NodeId → Bool} (hp : (whole.normalize catalog options).patch.Parted mine)
  (hpatch : (whole.normalize catalog options).patch.part mine = (g.normalize catalog options).patch)
include hp hpatch

theorem typed_normalize_part (hc : catalog.Built) :
    (whole.normalize catalog options).typed.part mine = (g.normalize catalog options).typed := by
  rw [typed_normalize whole, typed_normalize g, ← typed_part hc hp]
  exact congrArg (fun x => Patch.typed x (Round.ofPatch catalog x).typing) hpatch

variable (hpatch' : (whole.normalize catalog options).patch.part (!mine ·) =
  (g'.normalize catalog options).patch)
include hpatch'

theorem cycles_normalize_parts : (whole.normalize catalog options).cycles.Perm
    ((g.normalize catalog options).cycles ++ (g'.normalize catalog options).cycles) := by
  have hperm : ((whole.normalize catalog options).patch.cycles catalog).Perm _ := cycles_parts hp
  rw [hpatch, hpatch'] at hperm
  simp only [normalize] at hperm ⊢
  cases options.classifyCycles with
  | false => exact .refl _
  | true => exact hperm

theorem ready_parts (hc : catalog.Built) : (whole.normalize catalog options).ready = true ↔
    (g.normalize catalog options).ready = true ∧ (g'.normalize catalog options).ready = true := by
  have hround := Round.clean_and_quiet_parts hc hp
  have hedges : ∀ (id : EdgeId) (e : TypedEdge),
      (whole.normalize catalog options).typed.edges[id]? = some e →
        mine e.target.node = mine e.source.node := by
    intro id e he
    rw [typed_normalize whole] at he
    simp only [typed, Std.ExtTreeMap.getElem?_map, Option.map_eq_some_iff] at he
    obtain ⟨edge, hedge, rfl⟩ := he
    exact hp id edge hedge
  have hcert := TypedPatch.certificate_parts hedges
  have hcycles := cycles_normalize_parts hp hpatch hpatch'
  rw [hpatch, hpatch'] at hround
  rw [typed_normalize_part hp hpatch hc, typed_normalize_part hp.not hpatch' hc] at hcert
  have hlegal : (∀ c ∈ (whole.normalize catalog options).cycles, c.cycleClass = .legalFeedback) ↔
      (∀ c ∈ (g.normalize catalog options).cycles, c.cycleClass = .legalFeedback) ∧
        ∀ c ∈ (g'.normalize catalog options).cycles, c.cycleClass = .legalFeedback := by
    simp only [hcycles.mem_iff, List.mem_append, or_imp, forall_and]
  refine (ready_iff whole catalog options).trans (Iff.trans ?_
    (and_congr (ready_iff g catalog options) (ready_iff g' catalog options)).symm)
  rw [hround, hlegal, hcert]
  constructor
  · rintro ⟨⟨q, q'⟩, ⟨l, l'⟩, t, t'⟩
    exact ⟨⟨q, l, t⟩, q', l', t'⟩
  · rintro ⟨⟨q, l, t⟩, q', l', t'⟩
    exact ⟨⟨q, q'⟩, ⟨l, l'⟩, t, t'⟩

end Results

/-- Patches with nothing in common are normalized beside each other: patch, types, adapters and cycles of
the union are those of the two, and it is ready exactly if both are. That no adapter gets the same name in
both is needed: the adapters of the union are otherwise not those of the two. -/
theorem normalize_union (g g' : Patch) {catalog : Catalog} (hc : catalog.Built)
    (options : NormalizationOptions) :
    let r := (g ∪ g').normalize catalog options
    let r₁ := g.normalize catalog options
    let r₂ := g'.normalize catalog options
    (Apart catalog options g g' → r.patch = r₁.patch ∪ r₂.patch ∧ r.typed = r₁.typed ∪ r₂.typed ∧
      r.inserted.Perm (r₁.inserted ++ r₂.inserted) ∧ r.cycles.Perm (r₁.cycles ++ r₂.cycles) ∧
      (r.ready = true ↔ r₁.ready = true ∧ r₂.ready = true)) ∧
    (r.inserted.Perm (r₁.inserted ++ r₂.inserted) →
      ∀ s ∈ r₁.inserted, ∀ s' ∈ r₂.inserted, s.node ≠ s'.node) := by
  intro r r₁ r₂
  refine ⟨fun h => ?_, fun hperm s hs s' hs' => ?_⟩
  · obtain ⟨mine, owned, hsorted, ⟨hpatch, hpatch'⟩, hins, hins'⟩ := h.exists_sides hc
    have hp : r.patch.Parted mine := hsorted.parted
    refine ⟨?_, ?_, ?_, cycles_normalize_parts hp hpatch hpatch', ready_parts hp hpatch hpatch' hc⟩
    · rw [← hpatch, ← hpatch', union_parts]
    · rw [← typed_normalize_part hp hpatch hc, ← typed_normalize_part hp.not hpatch' hc,
        TypedPatch.union_parts]
    · rw [← hins, ← hins']
      exact (List.filter_append_perm _ _).symm
  · have hnodup := (hperm.map (·.node)).nodup_iff.mp (nodup_inserted (g ∪ g') catalog options)
    rw [List.map_append] at hnodup
    exact (List.nodup_append.mp hnodup).2.2 _ (List.mem_map_of_mem hs) _ (List.mem_map_of_mem hs')

/-- Circles on a grid, of a radius that grows along it. -/
def dots : Patch where
  nodes := (∅ : Std.ExtTreeMap NodeId Node).insert "dots" { block := "Circles" }
    |>.insert "grid" { block := "Grid" }
  edges := (∅ : Std.ExtTreeMap EdgeId Edge).insert "d" ⟨⟨"grid", "index"⟩, ⟨"dots", "radius"⟩⟩
    |>.insert "e" ⟨⟨"grid", "pos"⟩, ⟨"dots", "pos"⟩⟩

/-- A loop and a drawing, each with an adapter of its own. -/
theorem wobble_beside_dots :
    let r := (wobble ∪ dots).normalize .standard {}
    let r₁ := wobble.normalize .standard {}
    let r₂ := dots.normalize .standard {}
    Apart .standard {} wobble dots ∧ r₁.inserted ≠ [] ∧ r₂.inserted ≠ [] ∧
      r.typed = r₁.typed ∪ r₂.typed ∧ r.inserted.Perm (r₁.inserted ++ r₂.inserted) ∧
      (r.ready = true ↔ r₁.ready = true ∧ r₂.ready = true) := by
  intro r r₁ r₂
  have hnames : Apart .standard {} wobble dots ∧ r₁.inserted ≠ [] ∧ r₂.inserted ≠ [] := by
    decide +kernel
  obtain ⟨hapart, hins₁, hins₂⟩ := hnames
  have hunion := (normalize_union wobble dots Catalog.standard_built {}).1 hapart
  exact ⟨hapart, hins₁, hins₂, hunion.2.1, hunion.2.2.1, hunion.2.2.2.2⟩

/-- A phasor that drives a sine. -/
def drivenSine (phasor sine : NodeId) (edge : EdgeId) : Patch where
  nodes := (∅ : Std.ExtTreeMap NodeId Node).insert phasor { block := "Phasor" }
    |>.insert sine { block := "Sin" }
  edges := (∅ : Std.ExtTreeMap EdgeId Edge).insert edge ⟨⟨phasor, "phase"⟩, ⟨sine, "x"⟩⟩

/-- Unrelated patches, each of them ready. The adapters get the same name, and only one of them finds room
in the union. -/
theorem drivenSines_collide :
    let g := drivenSine "p" "x\x00phase\x00y" "e1"
    let g' := drivenSine "p\x00phase\x00x" "y" "e2"
    Unrelated .standard {} g g' ∧ (g.normalize .standard {}).ready = true ∧
      (g'.normalize .standard {}).ready = true ∧ ((g ∪ g').normalize .standard {}).ready = false ∧
      (g.normalize .standard {}).inserted.map (·.node) =
        (g'.normalize .standard {}).inserted.map (·.node) ∧
      ((g ∪ g').normalize .standard {}).inserted.map (·.replacedEdge) = ["e1"] := by
  decide +kernel

end Patch

end PatchTyping
