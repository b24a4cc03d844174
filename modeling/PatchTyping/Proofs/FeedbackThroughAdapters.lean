import Mathlib.Data.Set.Function
import PatchTyping.Proofs.CycleReports
import PatchTyping.Proofs.SplicingRuns

/-!
# Feedback through adapters

An adapter stands in the middle of the edge it replaces, so it makes a way longer and opens no new one.
It never reads the previous frame, so it does not break a cycle either. The cycles of a patch are
therefore the same before and after normalization, up to the adapters on them.
-/

namespace PatchTyping

open Relation

/-! ## Relations with detours -/

/-- Among the old points the two relations have the same paths, and a new point is only on a cycle that
passes through an old one. -/
structure Detours {A : Type} (old : A → Prop) (R R' : A → A → Prop) : Prop where
  path_iff : ∀ u v, old u → old v → (TransGen R' u v ↔ TransGen R u v)
  passes : ∀ u, TransGen R' u u → ∃ v, old v ∧ ReflTransGen R' u v ∧ ReflTransGen R' v u

namespace Detours

variable {A : Type} {old mid : A → Prop} {R R' R'' : A → A → Prop}

theorem refl (h : ∀ u v, R u v → old u) : Detours old R R where
  path_iff _ _ _ _ := Iff.rfl
  passes u hu := by
    obtain ⟨v, huv, -⟩ := TransGen.head'_iff.mp hu
    exact ⟨u, h u v huv, .refl, .refl⟩

theorem reach_iff (h : Detours old R R') {u v : A} (hu : old u) (hv : old v) :
    ReflTransGen R' u v ↔ ReflTransGen R u v := by
  rw [reflTransGen_iff_eq_or_transGen, reflTransGen_iff_eq_or_transGen, h.path_iff u v hu hv]

theorem exists_old (h : Detours old R R') {u : A} (hu : TransGen R' u u) :
    ∃ v, old v ∧ ReflTransGen R' u v ∧ ReflTransGen R' v u ∧ TransGen R v v := by
  obtain ⟨v, hv, huv, hvu⟩ := h.passes u hu
  exact ⟨v, hv, huv, hvu, (h.path_iff v v hv hv).mp (.trans_right hvu (.trans_left hu huv))⟩

theorem trans (h : Detours old R R') (h' : Detours mid R' R'') (hsub : ∀ u, old u → mid u) :
    Detours old R R'' where
  path_iff u v hu hv := (h'.path_iff u v (hsub u hu) (hsub v hv)).trans (h.path_iff u v hu hv)
  passes u hu := by
    obtain ⟨v, hv, huv, hvu, hloop⟩ := h'.exists_old hu
    obtain ⟨w, hw, hvw, hwv⟩ := h.passes v hloop
    exact ⟨w, hw, huv.trans ((h'.reach_iff hv (hsub w hw)).mpr hvw),
      ((h'.reach_iff (hsub w hw) hv).mpr hwv).trans hvu⟩

/-- One new point `a`, which is entered from `s` and left to `t`, in the place of a step from `s` to `t`. -/
theorem insert {s a t : A} (hnew : ¬ old a) (hs : old s) (ht : old t)
    (hold : ∀ u v, R u v → old u ∧ old v)
    (hstep : ∀ u v, R' u v → R u v ∨ (u = s ∧ v = a) ∨ (u = a ∧ v = t ∧ R s t))
    (hkept : ∀ u v, R u v → TransGen R' u v) : Detours old R R' where
  path_iff u v hu hv := by
    have hne : ∀ {x}, old x → x ≠ a := fun hx he => hnew (he ▸ hx)
    constructor
    · intro hpath
      have hcut : (old v → TransGen R u v) ∧ (v = a → ReflTransGen R u s) := by
        clear hv
        induction hpath with
        | single h =>
          rcases hstep _ _ h with h | ⟨rfl, rfl⟩ | ⟨rfl, -, -⟩
          · exact ⟨fun _ => .single h, fun he => absurd he (hne (hold _ _ h).2)⟩
          · exact ⟨fun hx => absurd hx hnew, fun _ => .refl⟩
          · exact absurd hu hnew
        | tail _ h ih =>
          rcases hstep _ _ h with h | ⟨rfl, rfl⟩ | ⟨rfl, rfl, hst⟩
          · exact ⟨fun _ => (ih.1 (hold _ _ h).1).tail h, fun he => absurd he (hne (hold _ _ h).2)⟩
          · exact ⟨fun hx => absurd hx hnew, fun _ => (ih.1 hs).to_reflTransGen⟩
          · exact ⟨fun _ => .tail' (ih.2 rfl) hst, fun he => absurd he (hne ht)⟩
      exact hcut.1 hv
    · intro hpath
      induction hpath with
      | single h => exact hkept _ _ h
      | @tail b c hub hbc ih => exact (ih (hold _ _ hbc).1).trans (hkept _ _ hbc)
  passes u hu := by
    obtain ⟨v, huv, hvu⟩ := TransGen.head'_iff.mp hu
    rcases hstep _ _ huv with h | ⟨rfl, rfl⟩ | ⟨rfl, rfl, -⟩
    · exact ⟨u, (hold _ _ h).1, .refl, .refl⟩
    · exact ⟨u, hs, .refl, .refl⟩
    · exact ⟨v, ht, .single huv, hvu⟩

end Detours

/-! ## Adapters in a patch -/

theorem Block.not_readsPreviousFrame_of_adapterFlaw? {b : Block} (h : b.adapterFlaw? = none) :
    b.readsPreviousFrame = false := by
  unfold adapterFlaw? at h
  split at h
  · split at h
    · cases h
    · next hplain => simp_all
  · cases h

/-- An adapter passes values on within the frame. -/
theorem Catalog.Built.adapter_atOnce {c : Catalog} (h : c.Built) {rule : AdapterRule}
    (hr : rule ∈ c.adapterRules) : (c.lookup? rule.block).any (·.readsPreviousFrame) = false := by
  obtain ⟨b, -, -, hlookup, -, -, -, -, -, hadapter⟩ := h.exists_block hr
  have hflaw := (h.valid hlookup).adapter_sound hadapter
  simp [hlookup, Block.not_readsPreviousFrame_of_adapterFlaw? hflaw]

namespace Patch

/-- Every edge has a node at both ends. -/
def Tied (g : Patch) : Prop :=
  ∀ (id : EdgeId) (e : Edge), g.edges[id]? = some e → e.source.node ∈ g.nodes ∧ e.target.node ∈ g.nodes

instance (g : Patch) : Decidable g.Tied :=
  decidable_of_iff
    (∀ x ∈ g.edges.toList, x.2.source.node ∈ g.nodes ∧ x.2.target.node ∈ g.nodes)
    ⟨fun h id e he => h (id, e) (Std.ExtTreeMap.mem_toList_iff_getElem?_eq_some.mpr he),
      fun h x hx => h x.1 x.2 (Std.ExtTreeMap.mem_toList_iff_getElem?_eq_some.mp hx)⟩

/-- The second patch has further nodes in the middle of ways of the first. -/
structure Threads (catalog : Catalog) (g g' : Patch) (new : List NodeId) : Prop where
  tied : g'.Tied
  node_iff : ∀ u, u ∈ g'.nodes ↔ u ∈ g.nodes ∨ u ∈ new
  fresh : ∀ u ∈ new, u ∉ g.nodes
  paths : Detours (· ∈ g.nodes) g.Leads g'.Leads
  pathsAtOnce : Detours (· ∈ g.nodes) (g.LeadsAtOnce catalog) (g'.LeadsAtOnce catalog)

namespace Threads

variable {catalog : Catalog} {g g' g'' : Patch} {new new' : List NodeId}

theorem refl (catalog : Catalog) (h : g.Tied) : g.Threads catalog g [] where
  tied := h
  node_iff := by simp
  fresh := by simp
  paths := .refl fun _ _ h => h.1
  pathsAtOnce := .refl fun _ _ h => h.1.1

theorem trans (h : g.Threads catalog g' new) (h' : g'.Threads catalog g'' new') :
    g.Threads catalog g'' (new ++ new') where
  tied := h'.tied
  node_iff u := by rw [h'.node_iff, h.node_iff, List.mem_append, or_assoc]
  fresh u hu := by
    rcases List.mem_append.mp hu with hu | hu
    · exact h.fresh u hu
    · exact fun hold => h'.fresh u hu ((h.node_iff u).mpr (.inl hold))
  paths := h.paths.trans h'.paths fun u hu => (h.node_iff u).mpr (.inl hu)
  pathsAtOnce := h.pathsAtOnce.trans h'.pathsAtOnce fun u hu => (h.node_iff u).mpr (.inl hu)

end Threads

section Step

variable {catalog : Catalog} {g g' : Patch} {r : Replacement} (htied : g.Tied)
  (hedge : g.edges[r.pair.edge]? = some ⟨r.pair.source, r.pair.target⟩)
  (hs : r.pair.spliceInto r.rule g = .ok g')
include htied hedge hs

omit htied hedge in
theorem mem_nodes_spliceInto {u : NodeId} : u ∈ g'.nodes ↔ u ∈ g.nodes ∨ u = r.id := by
  obtain ⟨-, -, -, -, hnodes, -⟩ := Replacement.spliceInto_ok hs
  rw [hnodes, Std.ExtTreeMap.mem_insert, Std.LawfulEqCmp.compare_eq_iff_eq, or_comm, eq_comm]

omit htied hedge in
theorem adapter_not_mem : r.id ∉ g.nodes := fun hmem => by
  rw [Std.ExtTreeMap.mem_iff_isSome_getElem?, (Replacement.spliceInto_ok hs).1] at hmem
  cases hmem

omit hedge in
private theorem leads_spliceInto {u v : NodeId} (h : g'.Leads u v) :
    g.Leads u v ∨ (u = r.pair.source.node ∧ v = r.id) ∨ (u = r.id ∧ v = r.pair.target.node) := by
  obtain ⟨hu, hv, id, e, he, rfl, rfl⟩ := h
  rcases (Spliced.edges_step hs id e).mp he with ⟨he, -⟩ | he | he
  · exact .inl ⟨(htied id e he).1, (htied id e he).2, id, e, he, rfl, rfl⟩
  · cases he
    exact .inr (.inl ⟨rfl, rfl⟩)
  · cases he
    exact .inr (.inr ⟨rfl, rfl⟩)

private theorem spliceInto_leads :
    g'.Leads r.pair.source.node r.id ∧ g'.Leads r.id r.pair.target.node ∧
      ∀ u v, g.Leads u v → g'.Leads u v ∨ (u = r.pair.source.node ∧ v = r.pair.target.node) := by
  have hmem := fun u => mem_nodes_spliceInto hs (u := u)
  obtain ⟨hsource, htarget⟩ := htied _ _ hedge
  have hadapter : r.id ∈ g'.nodes := (hmem _).mpr (.inr rfl)
  have hentry := (Spliced.edges_step hs r.entry.1 r.entry.2).mpr (.inr (.inl rfl))
  have hexit := (Spliced.edges_step hs r.exit.1 r.exit.2).mpr (.inr (.inr rfl))
  refine ⟨⟨(hmem _).mpr (.inl hsource), hadapter, _, _, hentry, rfl, rfl⟩,
    ⟨hadapter, (hmem _).mpr (.inl htarget), _, _, hexit, rfl, rfl⟩, ?_⟩
  rintro u v ⟨hu, hv, id, e, he, rfl, rfl⟩
  by_cases hid : r.pair.edge = id
  · rw [← hid, hedge] at he
    cases he
    exact .inr ⟨rfl, rfl⟩
  · exact .inl ⟨(hmem _).mpr (.inl hu), (hmem _).mpr (.inl hv), id, e,
      (Spliced.edges_step hs id e).mpr (.inl ⟨he, hid⟩), rfl, rfl⟩

theorem tied_spliceInto : g'.Tied := by
  have hmem := fun u => mem_nodes_spliceInto hs (u := u)
  obtain ⟨hsource, htarget⟩ := htied _ _ hedge
  intro id e he
  rcases (Spliced.edges_step hs id e).mp he with ⟨he, -⟩ | he | he
  · exact ⟨(hmem _).mpr (.inl (htied id e he).1), (hmem _).mpr (.inl (htied id e he).2)⟩
  · cases he
    exact ⟨(hmem _).mpr (.inl hsource), (hmem _).mpr (.inr rfl)⟩
  · cases he
    exact ⟨(hmem _).mpr (.inr rfl), (hmem _).mpr (.inl htarget)⟩

omit htied hedge in
private theorem readsPreviousFrame_spliceInto (catalog : Catalog) {u : NodeId} (hu : u ∈ g.nodes) :
    g'.readsPreviousFrame catalog u = g.readsPreviousFrame catalog u := by
  obtain ⟨-, -, -, -, hnodes, -⟩ := Replacement.spliceInto_ok hs
  have hne : r.id ≠ u := fun he => adapter_not_mem hs (he ▸ hu)
  rw [readsPreviousFrame, readsPreviousFrame, hnodes, Std.ExtTreeMap.getElem?_insert]
  simp [hne]

theorem threads_spliceInto (hrule : (catalog.lookup? r.rule.block).any (·.readsPreviousFrame) = false) :
    g.Threads catalog g' [r.id] := by
  obtain ⟨hentry, hexit, hkept⟩ := spliceInto_leads htied hedge hs
  obtain ⟨hsource, htarget⟩ := htied _ _ hedge
  have hreplaced : g.Leads r.pair.source.node r.pair.target.node :=
    ⟨hsource, htarget, _, _, hedge, rfl, rfl⟩
  have hframe := fun {u} hu => readsPreviousFrame_spliceInto hs catalog (u := u) hu
  have hadapter : g'.readsPreviousFrame catalog r.id = false := by
    obtain ⟨-, -, -, -, hnodes, -⟩ := Replacement.spliceInto_ok hs
    rw [readsPreviousFrame, hnodes, Std.ExtTreeMap.getElem?_insert_self]
    exact hrule
  refine ⟨tied_spliceInto htied hedge hs, fun u => ?_, ?_, ?_, ?_⟩
  · rw [mem_nodes_spliceInto hs, List.mem_singleton]
  · simpa using adapter_not_mem hs
  · refine .insert (adapter_not_mem hs) hsource htarget (fun u v h => ⟨h.1, h.2.1⟩) (fun u v h => ?_)
      fun u v h => ?_
    · rcases leads_spliceInto htied hs h with h | h | ⟨hu, hv⟩
      · exact .inl h
      · exact .inr (.inl h)
      · exact .inr (.inr ⟨hu, hv, hreplaced⟩)
    · rcases hkept u v h with h | ⟨rfl, rfl⟩
      · exact .single h
      · exact .tail (.single hentry) hexit
  · refine .insert (adapter_not_mem hs) hsource htarget (fun u v h => ⟨h.1.1, h.1.2.1⟩)
      (fun u v h => ?_) fun u v h => ?_
    · rcases leads_spliceInto htied hs h.1 with hlead | hlead | ⟨rfl, rfl⟩
      · exact .inl ⟨hlead, (hframe hlead.2.1).symm.trans h.2⟩
      · exact .inr (.inl hlead)
      · exact .inr (.inr ⟨rfl, rfl, hreplaced, (hframe htarget).symm.trans h.2⟩)
    · rcases hkept u v h.1 with hlead | ⟨rfl, rfl⟩
      · exact .single ⟨hlead, (hframe h.1.2.1).trans h.2⟩
      · exact .tail (.single ⟨hentry, hadapter⟩) ⟨hexit, (hframe htarget).trans h.2⟩

end Step

section Runs

variable {catalog : Catalog} (hc : catalog.Built)
include hc

theorem threads_chain : SpliceChain catalog fun g ss g' =>
    g.Tied → g.Threads catalog g' (ss.map (·.node)) where
  none g htied := .refl catalog htied
  one hedge hr hs htied := threads_spliceInto htied hedge hs (hc.adapter_atOnce hr)
  append h h' htied := by
    rw [List.map_append]
    exact (h htied).trans (h' (h htied).tied)

/-- A whole run only makes ways longer. -/
theorem threads_converge (n : Nat) {g : Patch} (htied : g.Tied) :
    g.Threads catalog (converge catalog n g).patch ((converge catalog n g).inserted.map (·.node)) :=
  (threads_chain hc).converge n g htied

end Runs

end Patch

/-! ## Cycles up to adapters -/

/-- The report without some of its members. -/
def CycleReport.without (gone : List NodeId) (r : CycleReport) : CycleReport :=
  { r with nodes := r.nodes.filter (· ∉ gone) }

namespace Patch

theorem exists_report {g : Patch} (catalog : Catalog) {v : NodeId} (hv : TransGen g.Leads v v) :
    ∃ r, g.Reports catalog r ∧ v ∈ r.nodes := by
  obtain ⟨w, hvw, -⟩ := TransGen.head'_iff.mp hv
  rw [← leads_successors_all] at hv hvw
  obtain ⟨c, hc, hvc⟩ := exists_strongComponent (SuccessorMap.mem_occurring_of_leads hvw).1
  exact ⟨_, reports_reportCycle catalog (mem_cyclicComponents_iff.mpr
    ⟨ordered_strongComponent hc, v, hv, fun w => mem_strongComponent_iff hc hvc⟩), hvc⟩

namespace Threads

variable {catalog : Catalog} {g g' : Patch} {new : List NodeId} (h : g.Threads catalog g' new)
include h

/-- A report stays true when the new nodes are left out of it and of the patch. -/
theorem reports_without {r : CycleReport} (hr : g'.Reports catalog r) :
    g.Reports catalog (r.without new) := by
  have hmem : ∀ v, v ∈ (r.without new).nodes ↔ v ∈ r.nodes ∧ v ∈ g.nodes := by
    intro v
    simp only [CycleReport.without, List.mem_filter, decide_eq_true_eq]
    refine and_congr_right fun hv => ⟨fun hnew => ?_, fun hold hnew => h.fresh v hnew hold⟩
    exact ((h.node_iff v).mp (hr.mem_nodes hv)).resolve_right hnew
  have hatOnce : ∀ {a b}, ReflTransGen (g'.LeadsAtOnce catalog) a b → ReflTransGen g'.Leads a b :=
    fun hab => ReflTransGen.mono (fun _ _ hstep => hstep.1) _ _ hab
  refine ⟨hr.ordered.filter _, ?_, ?_⟩
  · obtain ⟨u, hu, hloop⟩ := hr.nonempty
    obtain ⟨v, hv, huv, hvu, hvloop⟩ := h.paths.exists_old hloop
    have hvr : v ∈ r.nodes := (hr.mem_iff hu).mpr ⟨huv, hvu⟩
    refine ⟨v, hvloop, fun w => ?_⟩
    rw [hmem, hr.mem_iff hvr]
    constructor
    · rintro ⟨⟨hvw, hwv⟩, hw⟩
      exact ⟨(h.paths.reach_iff hv hw).mp hvw, (h.paths.reach_iff hw hv).mp hwv⟩
    · rintro ⟨hvw, hwv⟩
      have hw : w ∈ g.nodes := by
        rcases reflTransGen_iff_eq_or_transGen.mp hvw with rfl | hpath
        · exact hv
        · obtain ⟨x, -, hxw⟩ := TransGen.tail'_iff.mp hpath
          exact hxw.2.1
      exact ⟨⟨(h.paths.reach_iff hv hw).mpr hvw, (h.paths.reach_iff hw hv).mpr hwv⟩, hw⟩
  · rw [CycleReport.without, hr.illegal_iff]
    constructor
    · rintro ⟨u, hu, hloop⟩
      obtain ⟨v, hv, huv, hvu, hvloop⟩ := h.pathsAtOnce.exists_old hloop
      exact ⟨v, (hmem v).mpr ⟨(hr.mem_iff hu).mpr ⟨hatOnce huv, hatOnce hvu⟩, hv⟩, hvloop⟩
    · rintro ⟨v, hv, hloop⟩
      obtain ⟨hvr, hvg⟩ := (hmem v).mp hv
      exact ⟨v, hvr, (h.pathsAtOnce.path_iff v v hvg hvg).mpr hloop⟩

theorem bijOn_without : Set.BijOn (CycleReport.without new) {r | r ∈ g'.cycles catalog}
    {r | r ∈ g.cycles catalog} := by
  have hsub : ∀ {r : CycleReport} {v}, v ∈ (r.without new).nodes → v ∈ r.nodes :=
    fun hv => List.mem_of_mem_filter hv
  refine ⟨fun r hr => mem_cycles_iff.mpr (h.reports_without (mem_cycles_iff.mp hr)), ?_, ?_⟩
  · intro r hr r' hr' heq
    obtain ⟨v, hv, -⟩ := (h.reports_without (mem_cycles_iff.mp hr)).nonempty
    exact (mem_cycles_iff.mp hr).eq_of_mem (mem_cycles_iff.mp hr') (hsub hv) (hsub (heq ▸ hv))
  · intro r₀ hr₀
    have hreport := mem_cycles_iff.mp hr₀
    obtain ⟨v, hv, hloop⟩ := hreport.nonempty
    have hvg := hreport.mem_nodes hv
    obtain ⟨r, hr, hvr⟩ := exists_report catalog ((h.paths.path_iff v v hvg hvg).mpr hloop)
    have hvw : v ∈ (r.without new).nodes :=
      List.mem_filter.mpr ⟨hvr, by simpa using fun hnew => h.fresh v hnew hvg⟩
    exact ⟨r, mem_cycles_iff.mpr hr, (h.reports_without hr).eq_of_mem hreport hvw hv⟩

end Threads

/-- Normalization keeps the feedback of a patch. A node can be reached from another one exactly if it
could before, and the cycles are those of the original patch, of the same class, with adapters on them. -/
theorem normalize_feedback (g : Patch) {catalog : Catalog} (hc : catalog.Built)
    (options : NormalizationOptions) (htied : g.Tied) :
    let r := g.normalize catalog options
    (∀ u v, u ∈ g.nodes → v ∈ g.nodes → (TransGen g.Leads u v ↔ TransGen r.patch.Leads u v)) ∧
      Set.BijOn (CycleReport.without (r.inserted.map (·.node))) {c | c ∈ r.patch.cycles catalog}
        {c | c ∈ g.cycles catalog} ∧
      (∀ c : CycleReport, (c.without (r.inserted.map (·.node))).cycleClass = c.cycleClass) ∧
      (r.patch.cycles catalog).Nodup ∧ (g.cycles catalog).Nodup := by
  intro r
  have h : g.Threads catalog r.patch (r.inserted.map (·.node)) := threads_converge hc _ htied
  exact ⟨fun u v hu hv => (h.paths.path_iff u v hu hv).symm, h.bijOn_without, fun _ => rfl,
    nodup_cycles _ _, nodup_cycles _ _⟩

/-- A sine that sets the rate of the oscillator that drives it, one frame later. -/
def wobble : Patch where
  nodes := (∅ : Std.ExtTreeMap NodeId Node).insert "delay" { block := "Delay" }
    |>.insert "osc" { block := "Phasor" } |>.insert "sine" { block := "Sin" }
  edges := (∅ : Std.ExtTreeMap EdgeId Edge).insert "a" ⟨⟨"osc", "phase"⟩, ⟨"sine", "x"⟩⟩
    |>.insert "b" ⟨⟨"sine", "y"⟩, ⟨"delay", "in"⟩⟩ |>.insert "c" ⟨⟨"delay", "out"⟩, ⟨"osc", "rate"⟩⟩

/-- The adapter between the oscillator and the sine joins their cycle. -/
theorem wobble_feedback :
    let r := wobble.normalize .standard {}
    let adapter := adapterNodeId ⟨"osc", "phase"⟩ ⟨"sine", "x"⟩ "PhaseToRadians"
    wobble.Tied ∧ r.inserted.map (·.node) = [adapter] ∧
      wobble.cycles .standard = [⟨["delay", "osc", "sine"], .legalFeedback⟩] ∧
      r.patch.cycles .standard = [⟨[adapter, "delay", "osc", "sine"], .legalFeedback⟩] ∧
      Set.BijOn (CycleReport.without (r.inserted.map (·.node))) {c | c ∈ r.patch.cycles .standard}
        {c | c ∈ wobble.cycles .standard} := by
  refine ⟨by decide +kernel, by decide +kernel, by decide +kernel, by decide +kernel, ?_⟩
  exact (normalize_feedback wobble Catalog.standard_built {} (by decide +kernel)).2.1

end Patch

end PatchTyping
