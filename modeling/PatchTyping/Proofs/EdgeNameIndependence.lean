import PatchTyping.Proofs.DisjointUnions
import PatchTyping.Proofs.RelabelledSplicing

/-!
# What edges are called

If the first round reports no error, the names of edges have no influence on the outcome: under other names
the patch is ready as well, with the same adapters and the same types. The names must only keep clear of
those that are made up for the edges at adapters. Without the condition on the first round they matter,
since of two demands that contradict each other the one on the edge that comes first is taken to hold.
-/

namespace PatchTyping

theorem not_reportsTaken_nil : ¬ ReportsTaken [] := by
  rintro ⟨p, rule, id, hmem⟩
  cases hmem

theorem Splice.edgeNames_unnamed (s : Splice) (catalog : Catalog) :
    s.unnamed.edgeNames catalog = s.edgeNames catalog := rfl

def Convergence.rounds (c : Convergence) : List Round := c.earlier ++ [c.last]

theorem mem_rounds_succ (catalog : Catalog) (n : Nat) (g : Patch) :
    Round.ofPatch catalog g ∈ (converge catalog (n + 1) g).rounds ∧
      (converge catalog n (Round.ofPatch catalog g).splicing.patch).rounds ⊆
        (converge catalog (n + 1) g).rounds := by
  cases hq : (Round.ofPatch catalog g).isQuiet with
  | true =>
    have hsame : (Round.ofPatch catalog g).splicing.patch = g :=
      spliceAll_patch_of_inserted_eq_nil (List.isEmpty_iff.mp hq)
    rw [hsame, converge_of_quiet hq, converge_of_quiet hq]
    exact ⟨List.mem_singleton_self _, List.Subset.refl _⟩
  | false =>
    rw [converge_of_busy hq]
    exact ⟨List.mem_cons_self, List.subset_cons_self _ _⟩

theorem Convergence.splicing_reported {c : Convergence} {r : Round} (hr : r ∈ c.rounds) :
    r.splicing.diagnostics ⊆ (c.earlierLog Pass.all ++ c.lastLog Pass.all).diagnostics := by
  have hpass : Pass.insertAdapters ∈ Pass.all.filter Pass.perIteration := by decide
  have hround : r.splicing.diagnostics ⊆ r.diagnosticsOf .insertAdapters := List.subset_append_right _ _
  intro d hd
  rw [PassLog.diagnostics, List.flatMap_append]
  rcases List.mem_append.mp hr with hr | hr
  · exact List.mem_append_left _ (List.mem_flatMap.mpr ⟨(.insertAdapters, r.diagnosticsOf .insertAdapters),
      List.mem_flatMap.mpr ⟨r, hr, List.mem_map_of_mem hpass⟩, hround hd⟩)
  · cases List.mem_singleton.mp hr
    exact List.mem_append_right _ (List.mem_flatMap.mpr ⟨(.insertAdapters, c.lastDiagnosticsOf .insertAdapters),
      List.mem_map_of_mem hpass, List.mem_append_left _ (hround hd)⟩)

namespace Patch

section Rounds

variable {catalog : Catalog} {f : EdgeId → EdgeId} {old : NodeId → Bool} {names : List EdgeId}
  {g g' : Patch} (hc : catalog.Built)
include hc

theorem exists_rerouted (hg : g.Extracted catalog) :
    ∃ rs, Rerouted catalog (Round.ofPatch catalog g).typing g (Round.ofPatch catalog g).splicing.patch rs ∧
      ((Round.ofPatch catalog g).splicing.diagnostics = [] → ∀ p ∈ g.edgePairs (g.portTable catalog),
        p.Kept (Round.ofPatch catalog g).typing ∨ ∃ r ∈ rs, r.pair = p) := by
  obtain ⟨rs, hsp, hrs, -, hdone⟩ := g.spliceAll_spliced (g.portTable catalog) catalog.adapterRules
    (Round.ofPatch catalog g).typing
  exact ⟨rs, ⟨hc, hg, hsp, fun r hr => (hrs r hr).1, fun r hr => (hrs r hr).2⟩, hdone⟩

/-- A round after the first. The edges that are replaced are at adapters, and so have the same names. -/
theorem Alongside.later_round (h : g.Alongside f old names g') (hg : g.Resumed catalog old)
    (hclash : ¬ ReportsTaken (Round.ofPatch catalog g).splicing.diagnostics)
    (hnames : ∀ s ∈ (Round.ofPatch catalog g).splicing.inserted, ∀ id ∈ s.edgeNames catalog, id ∈ names) :
    let a := (Round.ofPatch catalog g).splicing
    let b := (Round.ofPatch catalog g').splicing
    a.patch.Resumed catalog old ∧ (∃ f', a.patch.Alongside f' old names b.patch) ∧
      b.inserted.map Splice.unnamed = a.inserted.map Splice.unnamed := by
  intro a b
  let pairs := g.edgePairs (g.portTable catalog)
  let live : EdgePair → Bool := fun p => !(old p.source.node && old p.target.node)
  have htyping := h.relabelled.typing_eq hc hg.orderFree h.fixed
  have hkept : ∀ p ∈ pairs, live p = false → p.Kept (Round.ofPatch catalog g).typing := by
    intro p hp hlive
    obtain ⟨hs, ht⟩ := Bool.and_eq_true_iff.mp (Bool.not_eq_false' .. ▸ hlive)
    exact hg.kept hp hs ht
  have ha : a = spliceAll catalog.adapterRules (Round.ofPatch catalog g).typing (pairs.filter live) g :=
    (spliceAll_filter hkept).symm
  have hb : b = spliceAll catalog.adapterRules (Round.ofPatch catalog g).typing
      ((pairs.filter live).map (EdgePair.relabel f)) g' := by
    have hsame : (pairs.filter live).map (EdgePair.relabel f) = pairs.filter live := by
      refine (List.map_congr_left fun p hp => ?_).trans (List.map_id _)
      obtain ⟨hp, hlive⟩ := List.mem_filter.mp hp
      rw [EdgePair.relabel, h.fixed (hg.extracted.mem_edgePairs_iff.mp hp).1 hlive]
      rfl
    have hkept' : ∀ p ∈ g'.edgePairs (g'.portTable catalog), live p = false →
        p.Kept (Round.ofPatch catalog g).typing := by
      intro p hp hlive
      obtain ⟨q, hq, rfl⟩ := (h.relabelled.mem_edgePairs_iff hg.extracted).mp hp
      exact hkept q hq hlive
    have hfilter : (g'.edgePairs (g'.portTable catalog)).filter live = pairs.filter live :=
      h.relabelled.edgePairs_filter hg.extracted h.fixed
    rw [hsame, ← hfilter, spliceAll_filter hkept', ← htyping]
    rfl
  obtain ⟨rs, hre, -⟩ := exists_rerouted hc hg.extracted
  have hedges : ∀ p ∈ pairs.filter live, p.edge ∈ g.edges := by
    intro p hp
    have he := (hg.extracted.mem_edgePairs_iff.mp (List.mem_of_mem_filter hp)).1
    exact OrderedMaps.mem_iff_exists.mpr ⟨_, he⟩
  have hnodup : ((pairs.filter live).map (·.edge)).Nodup :=
    (g.edgePairs_nodup _).sublist (List.filter_sublist.map _)
  obtain ⟨hrel, hins, -⟩ := h.splicing hc (Round.ofPatch catalog g).typing hedges hnodup (ha ▸ hclash)
    (ha ▸ hnames)
  rw [← ha, ← hb] at hrel hins
  exact ⟨hg.spliced hre, hrel, hins⟩

/-- The first round. Edges are replaced in another order, which makes no difference since all that do not
stay are replaced. -/
theorem Alongside.first_round (hold : old = (g.nodes.contains ·)) (h : g.Alongside f old names g')
    (hclean : (Round.ofPatch catalog g).Clean) (hclear : ∀ id ∈ g.edges, f id ∉ names)
    (hnames : ∀ s ∈ (Round.ofPatch catalog g).splicing.inserted, ∀ id ∈ s.edgeNames catalog, id ∈ names) :
    let a := (Round.ofPatch catalog g).splicing
    let b := (Round.ofPatch catalog g').splicing
    a.patch.Resumed catalog old ∧ (∃ f', a.patch.Alongside f' old names b.patch) ∧
      (b.inserted.map Splice.unnamed).Perm (a.inserted.map Splice.unnamed) := by
  intro a b
  let pairs := g.edgePairs (g.portTable catalog)
  have hext := hclean.extracted
  have hnil : a.diagnostics = [] := hclean.splicing_eq_nil
  have htyping := h.relabelled.typing_eq hc (.of_clean hc hclean old) h.fixed
  obtain ⟨rs, hre, hdone⟩ := exists_rerouted hc hext
  have hedges : ∀ p ∈ pairs, p.edge ∈ g.edges := by
    intro p hp
    exact OrderedMaps.mem_iff_exists.mpr ⟨_, (hext.mem_edgePairs_iff.mp hp).1⟩
  obtain ⟨hrel, hins, hnil'⟩ := h.splicing hc (Round.ofPatch catalog g).typing hedges
    (g.edgePairs_nodup _) (hnil ▸ not_reportsTaken_nil) hnames
  have hnames' : ∀ s ∈ (spliceAll catalog.adapterRules (Round.ofPatch catalog g).typing
      (pairs.map (EdgePair.relabel f)) g').inserted, ∀ id ∈ s.edgeNames catalog, id ∈ names := by
    intro s hs
    obtain ⟨t, ht, heq⟩ := List.mem_map.mp (hins ▸ List.mem_map_of_mem hs)
    rw [← s.edgeNames_unnamed, ← heq, t.edgeNames_unnamed]
    exact hnames t ht
  have hclear' : ∀ p ∈ pairs.map (EdgePair.relabel f), p.edge ∉ names := by
    intro p hp
    obtain ⟨q, hq, rfl⟩ := List.mem_map.mp hp
    exact hclear q.edge (hedges q hq)
  obtain ⟨hpatch, hperm, -⟩ := spliceAll_perm hc (h.relabelled.edgePairs_perm hext).symm (hnil' hnil)
    hclear' hnames'
  have hb : b = spliceAll catalog.adapterRules (Round.ofPatch catalog g).typing
      (g'.edgePairs (g'.portTable catalog)) g' := by
    rw [← htyping]
    rfl
  rw [← hb] at hpatch hperm
  rw [← hpatch] at hrel
  exact ⟨hold ▸ resumed_of_clean hre hclean (hdone hnil), hrel, (hperm.map _).trans (hins ▸ .refl _)⟩

theorem Alongside.later_rounds (n : Nat) (h : g.Alongside f old names g') (hg : g.Resumed catalog old)
    (hclash : ∀ r ∈ (converge catalog n g).rounds, ¬ ReportsTaken r.splicing.diagnostics)
    (hnames : ∀ s ∈ (converge catalog n g).inserted, ∀ id ∈ s.edgeNames catalog, id ∈ names) :
    let c := converge catalog n g
    let c' := converge catalog n g'
    c.patch.Resumed catalog old ∧ (∃ f', c.patch.Alongside f' old names c'.patch) ∧
      c'.inserted.map Splice.unnamed = c.inserted.map Splice.unnamed := by
  intro c c'
  induction n generalizing f g g' with
  | zero => exact ⟨hg, ⟨f, h⟩, rfl⟩
  | succ n ih =>
    obtain ⟨hpatch, hins⟩ := converge_succ catalog n g
    obtain ⟨hpatch', hins'⟩ := converge_succ catalog n g'
    obtain ⟨hfirst, hrest⟩ := mem_rounds_succ catalog n g
    rw [hins, List.forall_mem_append] at hnames
    obtain ⟨hg, ⟨f', hnext⟩, hround⟩ := h.later_round hc hg (hclash _ hfirst) hnames.1
    obtain ⟨hg, hlast, hlater⟩ := ih hnext hg (fun r hr => hclash r (hrest hr)) hnames.2
    simp only [c, c', hpatch, hpatch', hins, hins', List.map_append, hround, hlater]
    exact ⟨hg, hlast, trivial⟩

theorem Alongside.all_rounds (n : Nat) (hold : old = (g.nodes.contains ·))
    (h : g.Alongside f old names g') (hclean : (Round.ofPatch catalog g).Clean)
    (hclash : ∀ r ∈ (converge catalog n g).rounds, ¬ ReportsTaken r.splicing.diagnostics)
    (hclear : ∀ id ∈ g.edges, f id ∉ names)
    (hnames : ∀ s ∈ (converge catalog n g).inserted, ∀ id ∈ s.edgeNames catalog, id ∈ names) :
    let c := converge catalog n g
    let c' := converge catalog n g'
    c.patch.OrderFree catalog old ∧ (∃ f', c.patch.Alongside f' old names c'.patch) ∧
      (c'.inserted.map Splice.unnamed).Perm (c.inserted.map Splice.unnamed) := by
  intro c c'
  cases n with
  | zero => exact ⟨.of_clean hc hclean old, ⟨f, h⟩, .refl _⟩
  | succ n =>
    obtain ⟨hpatch, hins⟩ := converge_succ catalog n g
    obtain ⟨hpatch', hins'⟩ := converge_succ catalog n g'
    rw [hins, List.forall_mem_append] at hnames
    obtain ⟨hg, ⟨f', hnext⟩, hround⟩ := h.first_round hc hold hclean hclear hnames.1
    obtain ⟨hg, hlast, hlater⟩ := hnext.later_rounds hc n hg
      (fun r hr => hclash r ((mem_rounds_succ catalog n g).2 hr)) hnames.2
    simp only [c, c', hpatch, hpatch', hins, hins', List.map_append, hlater]
    exact ⟨hg.orderFree, hlast, hround.append_right _⟩

end Rounds

namespace Relabelled

variable {catalog : Catalog} {f : EdgeId → EdgeId} {g g' : Patch} (h : Relabelled f g g')
include h

theorem leads_eq : g'.Leads = g.Leads := by
  funext u v
  rw [Leads, Leads, h.node_mem_iff, h.node_mem_iff, eq_iff_iff]
  refine and_congr_right fun _ => and_congr_right fun _ => ⟨?_, ?_⟩
  · rintro ⟨id, e, he, hends⟩
    obtain ⟨o, ho, -⟩ := h.exists_edge he
    exact ⟨o, e, ho, hends⟩
  · rintro ⟨id, e, he, hends⟩
    exact ⟨f id, e, h.edge he, hends⟩

theorem readsPreviousFrame_eq (id : NodeId) :
    g'.readsPreviousFrame catalog id = g.readsPreviousFrame catalog id := by
  unfold readsPreviousFrame
  cases hn : g'.nodes[id]? with
  | none => rw [h.node_free_iff.mp hn]
  | some n =>
    obtain ⟨m, hm, heq⟩ := h.exists_node hn
    have hblock : m.block = n.block := (congrArg Node.block heq :)
    simp only [hm, hblock]

theorem leadsAtOnce_eq : g'.LeadsAtOnce catalog = g.LeadsAtOnce catalog := by
  funext u v
  rw [LeadsAtOnce, LeadsAtOnce, h.leads_eq, h.readsPreviousFrame_eq]

theorem cycle_mem_iff {r : CycleReport} : r ∈ g'.cycles catalog ↔ r ∈ g.cycles catalog := by
  rw [mem_cycles_iff, mem_cycles_iff]
  constructor
  · rintro ⟨hordered, hcomponent, hillegal⟩
    rw [h.leads_eq] at hcomponent
    rw [h.leadsAtOnce_eq] at hillegal
    exact ⟨hordered, hcomponent, hillegal⟩
  · rintro ⟨hordered, hcomponent, hillegal⟩
    rw [← h.leads_eq] at hcomponent
    rw [← h.leadsAtOnce_eq] at hillegal
    exact ⟨hordered, hcomponent, hillegal⟩

theorem allPass_of {types : PortTyping} (htypes : types = (Round.ofPatch catalog g).typing)
    (htypes' : types = (Round.ofPatch catalog g').typing) (hc : catalog.Built)
    (hclean : (Round.ofPatch catalog g).Clean ∧ (Round.ofPatch catalog g).isQuiet = true)
    (hclean' : (Round.ofPatch catalog g').Clean ∧ (Round.ofPatch catalog g').isQuiet = true)
    (hpass : (g.typed types).certificate.allPass = true) :
    (g'.typed types).certificate.allPass = true := by
  rw [htypes, hclean.1.certificate_allPass_iff hc hclean.2, ← htypes] at hpass
  rw [htypes', hclean'.1.certificate_allPass_iff hc hclean'.2, ← htypes']
  refine ⟨fun id e he => ?_, fun id t ht hauthored => ?_⟩
  · obtain ⟨o, ho, -⟩ := h.exists_edge he
    rw [h.portless_iff, h.portless_iff]
    exact hpass.1 o e ho
  · rw [getElem?_typed_nodes] at ht
    obtain ⟨n, hn, rfl⟩ := Option.map_eq_some_iff.mp ht
    obtain ⟨m, hm, heq⟩ := h.exists_node hn
    have hm' : m.provenance.isAuthored = false := by
      rw [← m.isAuthored_unnamed, heq, n.isAuthored_unnamed]
      exact hauthored
    exact hpass.2 id ⟨m.block, m.provenance, types.ofNode id⟩ (by rw [getElem?_typed_nodes, hm]; rfl) hm'

end Relabelled

/-- The edges under other names. -/
def renameEdges (f : EdgeId → EdgeId) (g : Patch) : Patch :=
  { g with edges := Std.ExtTreeMap.ofList (g.edges.toList.map fun x => (f x.1, x.2)) }

theorem getElem?_renameEdges_iff {f : EdgeId → EdgeId} {g : Patch}
    (hinj : Set.InjOn f {id | id ∈ g.edges}) {id : EdgeId} {e : Edge} :
    (g.renameEdges f).edges[id]? = some e ↔ ∃ o, g.edges[o]? = some e ∧ f o = id := by
  have hmem : ∀ d, (id, d) ∈ g.edges.toList.map (fun x => (f x.1, x.2)) ↔
      ∃ o, g.edges[o]? = some d ∧ f o = id := by
    intro d
    simp only [List.mem_map, Prod.exists, Std.ExtTreeMap.mem_toList_iff_getElem?_eq_some, Prod.mk.injEq]
    constructor
    · rintro ⟨o, d, ho, hid, rfl⟩
      exact ⟨o, ho, hid⟩
    · rintro ⟨o, ho, hid⟩
      exact ⟨o, d, ho, hid, rfl⟩
  rw [renameEdges, OrderedMaps.getElem?_ofList_iff, hmem]
  intro d d' hd hd'
  obtain ⟨o, ho, hid⟩ := (hmem d).mp hd
  obtain ⟨o', ho', hid'⟩ := (hmem d').mp hd'
  have hsame : o = o' := hinj (OrderedMaps.mem_iff_exists.mpr ⟨_, ho⟩)
    (OrderedMaps.mem_iff_exists.mpr ⟨_, ho'⟩) (hid.trans hid'.symm)
  rw [hsame, ho'] at ho
  exact (Option.some.inj ho).symm

theorem relabelled_renameEdges {f : EdgeId → EdgeId} {g : Patch}
    (hinj : Set.InjOn f {id | id ∈ g.edges}) : Relabelled f g (g.renameEdges f) where
  nodes_eq := rfl
  edge he := (getElem?_renameEdges_iff hinj).mpr ⟨_, he, rfl⟩
  exists_edge he := (getElem?_renameEdges_iff hinj).mp he
  injective ha hb heq := hinj (OrderedMaps.mem_iff_exists.mpr ⟨_, ha⟩)
    (OrderedMaps.mem_iff_exists.mpr ⟨_, hb⟩) heq

theorem alongside_renameEdges {f : EdgeId → EdgeId} {g : Patch} {catalog : Catalog} {names : List EdgeId}
    (hext : g.Extracted catalog) (hinj : Set.InjOn f {id | id ∈ g.edges})
    (hclear : ∀ id ∈ g.edges, f id ∉ names) :
    g.Alongside f (g.nodes.contains ·) names (g.renameEdges f) where
  relabelled := relabelled_renameEdges hinj
  old_mem id hid := Std.ExtTreeMap.contains_iff_mem.mp hid
  fixed {id e} he hends := by
    obtain ⟨hs, ht⟩ := hext.attached id e he
    simp [Std.ExtTreeMap.contains_iff_mem.mpr (node_mem_of_attached hs),
      Std.ExtTreeMap.contains_iff_mem.mpr (node_mem_of_attached ht)] at hends
  clear {id e} he hid := absurd hid (hclear id (OrderedMaps.mem_iff_exists.mpr ⟨_, he⟩))

/-- The names of edges have no meaning, if the first round reports no error: a patch that is ready is so
under other names of its edges, with the same adapters and the same types. Neither the old names nor the new
ones may be in the way of the adapters. -/
theorem normalize_renameEdges (g : Patch) {catalog : Catalog} (hc : catalog.Built)
    (options : NormalizationOptions) (f : EdgeId → EdgeId) (hinj : Set.InjOn f {id | id ∈ g.edges})
    (hready : (g.normalize catalog options).ready = true)
    (hclean : (Round.ofPatch catalog g).Clean)
    (hclash : ¬ ReportsTaken (g.normalize catalog options).log.diagnostics)
    (hclear : ∀ id ∈ g.edges,
      f id ∉ (g.normalize catalog options).inserted.flatMap (·.edgeNames catalog)) :
    let r := g.normalize catalog options
    let r' := (g.renameEdges f).normalize catalog options
    r'.ready = true ∧
      (r'.inserted.map fun s => (s.node, s.rule)).Perm (r.inserted.map fun s => (s.node, s.rule)) ∧
      ∀ k : PortKey, r'.typed.portType? k = r.typed.portType? k := by
  intro r r'
  have hlog : ∀ s ∈ (converge catalog (options.maxIterations - 1) g).rounds,
      s.splicing.diagnostics ⊆ r.log.diagnostics := by
    intro s hs d hd
    simp only [r, normalize, PassLog.diagnostics, List.append_assoc, List.flatMap_append]
    rw [← List.append_assoc, ← List.flatMap_append]
    exact List.mem_append_left _ (Convergence.splicing_reported hs hd)
  obtain ⟨hfree, ⟨f', hlast⟩, hins⟩ := (alongside_renameEdges hclean.extracted hinj hclear).all_rounds
    hc (options.maxIterations - 1) rfl hclean (fun s hs htaken => hclash (htaken.mono (hlog s hs))) hclear
    fun s hs id hid => List.mem_flatMap.mpr ⟨s, hs, hid⟩
  have hrel : Relabelled f' r.patch r'.patch := hlast.relabelled
  have htyping : (Round.ofPatch catalog r'.patch).typing = (Round.ofPatch catalog r.patch).typing :=
    hrel.typing_eq hc hfree hlast.fixed
  obtain ⟨hquiet, hcycles, -, hpass⟩ := (ready_iff g catalog options).mp hready
  have hquiet' := (hrel.clean_and_quiet_iff hc hfree hlast.fixed).mpr hquiet
  have htyped : r.typed = r.patch.typed (Round.ofPatch catalog r.patch).typing := typed_normalize g _ _
  have htyped' : r'.typed = r'.patch.typed (Round.ofPatch catalog r'.patch).typing :=
    typed_normalize (g.renameEdges f) _ _
  refine ⟨(ready_iff (g.renameEdges f) catalog options).mpr ⟨hquiet', fun c hmem => ?_, ?_, ?_⟩, ?_,
    fun k => ?_⟩
  · apply hcycles c
    change c ∈ (if options.classifyCycles then r'.patch.cycles catalog else []) at hmem
    change c ∈ if options.classifyCycles then r.patch.cycles catalog else []
    split at hmem
    · next hclassify =>
      rw [if_pos hclassify]
      exact hrel.cycle_mem_iff.mp hmem
    · cases hmem
  · change r'.typed.isFullyConcrete = true
    rw [htyped']
    exact hquiet'.1.isFullyConcrete hc
  · change r'.typed.certificate.allPass = true
    rw [htyped', htyping]
    exact hrel.allPass_of rfl htyping.symm hc hquiet hquiet' (htyped ▸ hpass)
  · have hmap := hins.map fun s : Splice => (s.node, s.rule)
    rw [List.map_map, List.map_map] at hmap
    exact hmap
  · rw [portType?_normalize, portType?_normalize]
    exact congrArg (·[k]?) htyping

theorem ne_adapterEdgeId_of_length {id : EdgeId} (h : id.length ≤ 8) (source target : PortKey)
    (rule port : String) : id ≠ adapterEdgeId (adapterNodeId source target rule) port := by
  rintro rfl
  simp only [adapterEdgeId, adapterNodeId, String.length_append] at h
  have hfirst : "adapter.".length = 8 := by decide
  have hdot : ".".length = 1 := by decide
  omega

/-- The edges in the opposite order. -/
def backwards (id : EdgeId) : EdgeId := if id = "a" then "z" else if id = "c" then "A" else id

/-- A loop with an adapter in it, and the edges called so that they come in the opposite order. -/
theorem wobble_backwards :
    let r := wobble.normalize .standard {}
    let r' := (wobble.renameEdges backwards).normalize .standard {}
    r.ready = true ∧ r.inserted.length = 1 ∧ r'.ready = true ∧
      (r'.inserted.map fun s => (s.node, s.rule)).Perm (r.inserted.map fun s => (s.node, s.rule)) ∧
      ∀ k : PortKey, r'.typed.portType? k = r.typed.portType? k := by
  intro r r'
  have hready : r.ready = true ∧ r.log.diagnostics = [] := by
    decide +kernel
  have hclean : (Round.ofPatch .standard wobble).Clean := by
    intro p
    cases p <;> decide +kernel
  have hinj : Set.InjOn backwards {id | id ∈ wobble.edges} := by
    have hall : ∀ a ∈ wobble.edges.keys, ∀ b ∈ wobble.edges.keys, backwards a = backwards b → a = b := by
      decide +kernel
    exact fun a ha b hb => hall a (Std.ExtTreeMap.mem_keys.mpr ha) b (Std.ExtTreeMap.mem_keys.mpr hb)
  have hrest : r.inserted.length = 1 ∧ ∀ id ∈ wobble.edges.keys,
      backwards id ∉ r.inserted.flatMap (·.edgeNames .standard) := by decide +kernel
  obtain ⟨hready', hins, htypes⟩ := normalize_renameEdges wobble Catalog.standard_built {} backwards hinj
    hready.1 hclean (hready.2 ▸ not_reportsTaken_nil)
    fun id hid => hrest.2 id (Std.ExtTreeMap.mem_keys.mpr hid)
  exact ⟨hready.1, hrest.1, hready', hins, htypes⟩

/-- A constant of the given unit. -/
def constantOf (unit : UnitTag) : Node where
  block := "Constant"
  overrides := (∅ : Std.ExtTreeMap String PortType).insert "out"
    ⟨.inst .float, .inst unit, .inst .zero, .continuous⟩

/-- The sum of two constants of different units. -/
def mixedSum : Patch where
  nodes := (∅ : Std.ExtTreeMap NodeId Node).insert "level" (constantOf .scalar)
    |>.insert "share" (constantOf .norm01) |>.insert "sum" { block := "Add" }
  edges := (∅ : Std.ExtTreeMap EdgeId Edge).insert "m" ⟨⟨"level", "out"⟩, ⟨"sum", "a"⟩⟩
    |>.insert "n" ⟨⟨"share", "out"⟩, ⟨"sum", "b"⟩⟩

/-- The name of one edge is moved behind the other. -/
def late (id : EdgeId) : EdgeId := if id = "m" then "z" else id

/-- Names matter if an error is repaired on the way. The sum takes on the unit of the edge that comes first,
and there is an adapter in one direction only. -/
theorem mixedSum_depends_on_names :
    Set.InjOn late {id | id ∈ mixedSum.edges} ∧
      (∀ id ∈ mixedSum.edges, ∀ source target rule port,
        late id ≠ adapterEdgeId (adapterNodeId source target rule) port) ∧
      (mixedSum.normalize .standard {}).ready = true ∧
      ((mixedSum.renameEdges late).normalize .standard {}).ready = false := by
  have hinj : ∀ a ∈ mixedSum.edges.keys, ∀ b ∈ mixedSum.edges.keys, late a = late b → a = b := by
    decide +kernel
  have hshort : ∀ id ∈ mixedSum.edges.keys, (late id).length ≤ 8 := by decide +kernel
  refine ⟨fun a ha b hb => ?_, fun id hid => ?_, by decide +kernel, by decide +kernel⟩
  · exact hinj a (Std.ExtTreeMap.mem_keys.mpr ha) b (Std.ExtTreeMap.mem_keys.mpr hb)
  · exact ne_adapterEdgeId_of_length (hshort id (Std.ExtTreeMap.mem_keys.mpr hid))

end Patch

end PatchTyping
