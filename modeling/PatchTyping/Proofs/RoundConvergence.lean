import PatchTyping.Proofs.QuietRounds
import PatchTyping.Proofs.SplicedCardinalities

/-!
# Two rounds suffice

If the adapters of a catalog leave nothing open but the cardinality, a round without errors is followed
by one that finds the same types and has nothing left to splice: every adapter carries what the ends of
its edge carry, and no other port has changed.
-/

namespace PatchTyping

open ValuedPartition CardinalityInference AxisInference

theorem Catalog.standard_fixedAdapters : standard.FixedAdapters := by
  have hall : standard.toList.all (fun b => !b.adapter.isSome || b.ports.all fun x =>
      !x.2.type.payload.isVar && !x.2.type.unit.isVar) = true := by decide +kernel
  intro name b hb hadapter x hx
  have hmem : b ∈ standard.toList := List.mem_map.mpr
    ⟨(name, b), Std.ExtTreeMap.mem_toList_iff_getElem?_eq_some.mpr hb, rfl⟩
  have hports := List.all_eq_true.mp hall b hmem
  rw [hadapter, Bool.not_true, Bool.false_or] at hports
  simpa using List.all_eq_true.mp hports x hx

theorem ConcreteType.disallowedPair?_toPortType (t : ConcreteType) :
    t.toPortType.disallowedPair? = none := by
  simp [PortType.disallowedPair?, toPortType, t.admitted]

theorem Substitution.resolve_of_concrete {s : Substitution} {k : PortKey} {declared : PortType}
    {t : ConcreteType} (h : s.substituted k declared = t.toPortType) :
    s.resolve k declared = t.toPortType := by
  simp [resolve, h, t.disallowedPair?_toPortType]

theorem Round.Clean.concrete_eq {catalog : Catalog} {g : Patch} (hc : catalog.Built)
    (h : (Round.ofPatch catalog g).Clean) {k : PortKey} {t : ConcreteType} {info : PortInfo}
    (ht : (Round.ofPatch catalog g).typing.concrete? k = some t) (hk : (g.portTable catalog)[k]? = some info) :
    t.payload = info.type.payload.under (Round.ofPatch catalog g).payloads k.node ∧
      t.unit = info.type.unit.under (Round.ofPatch catalog g).units k.node ∧
      (resolved (g.constraints catalog)).partition.value? k = some t.cardinality := by
  obtain ⟨s, hs, hpayload, hunit, hval, -⟩ := h.typing_eq hc hk
  have hsame := (PortTyping.concrete?_eq_some_iff.mp ht).symm.trans hs
  cases ConcreteType.toPortType_injective (Option.some.inj hsame)
  exact ⟨hpayload, hunit, hval⟩

namespace Patch.Mended

variable {catalog : Catalog} {g g' : Patch} {rs : List Replacement}
  (hclean : (Round.ofPatch catalog g).Clean)
  (h : Mended catalog (Round.ofPatch catalog g).typing g g' rs)
include hclean h

theorem axes_spliced :
    ((Round.ofPatch catalog g').payload.diagnostics = [] ∧
      ∀ (k : PortKey) (info : PortInfo), (g.portTable catalog)[k]? = some info →
        info.type.payload.under (Round.ofPatch catalog g').payloads k.node =
          info.type.payload.under (Round.ofPatch catalog g).payloads k.node) ∧
    (Round.ofPatch catalog g').unit.diagnostics = [] ∧
      ∀ (k : PortKey) (info : PortInfo), (g.portTable catalog)[k]? = some info →
        info.type.unit.under (Round.ofPatch catalog g').units k.node =
          info.type.unit.under (Round.ofPatch catalog g).units k.node := by
  obtain ⟨hpayload, hunit⟩ := hclean.axes_eq_nil
  exact ⟨h.solve_spliced payloadWording ConcreteType.payload (fun _ _ => rfl) hpayload
      hclean.payloads_models (fun _ _ _ ht hk => (hclean.concrete_eq h.built ht hk).1.symm) .float,
    h.solve_spliced unitWording ConcreteType.unit (fun _ _ => rfl) hunit hclean.units_models
      (fun _ _ _ ht hk => (hclean.concrete_eq h.built ht hk).2.1.symm) .scalar⟩

theorem solved : Round.Solved catalog g' :=
  ⟨(h.axes_spliced hclean).1.1, (h.axes_spliced hclean).2.1,
    (h.rerouted.cardinalities_spliced (hclean.cardinality_eq_nil h.built)).1⟩

private theorem substituted_old {k : PortKey} {info : PortInfo}
    (hk : (g.portTable catalog)[k]? = some info) :
    (Round.applied catalog g').substituted k info.type =
      (Round.applied catalog g).substituted k info.type := by
  have hk' := hk
  rw [← h.spliced.getElem?_portTable h.built (node_mem_of_portTable hk)] at hk'
  have hmem : k ∈ g.portTable catalog := Std.ExtTreeMap.mem_iff_isSome_getElem?.mpr (by simp [hk])
  obtain ⟨c, hval, hsub⟩ := (hclean.solved h.built).substituted_eq h.built hk
  obtain ⟨c', hval', hsub'⟩ := (h.solved hclean).substituted_eq h.built hk'
  have hcard : c' = c := by
    rw [(h.rerouted.cardinalities_spliced (hclean.cardinality_eq_nil h.built)).2.1 k hmem,
      hval] at hval'
    exact (Option.some.inj hval').symm
  rw [hsub, hsub', (h.axes_spliced hclean).1.2 k info hk, (h.axes_spliced hclean).2.2 k info hk, hcard]

private theorem substituted_opened {k : PortKey} {info : PortInfo} {t : ConcreteType} {v : String}
    (hk : (g'.portTable catalog)[k]? = some info) (hinfo : info.type = t.opened v)
    (hval : (resolved (g'.constraints catalog)).partition.value? k = some t.cardinality) :
    (Round.applied catalog g').substituted k info.type = t.toPortType := by
  obtain ⟨c, hc, hsub⟩ := (h.solved hclean).substituted_eq h.built hk
  cases Option.some.inj (hc.symm.trans hval)
  rw [hsub, hinfo]
  simp [ConcreteType.opened, Axis.under, ConcreteType.toPortType]

/-- The ports of an adapter carry what the ends of the replaced edge carried. -/
private theorem substituted_adapter {r : Replacement} (hr : r ∈ rs) :
    ∃ v, (g'.portTable catalog)[r.input]? = some ⟨r.source.opened v, .input, false, false⟩ ∧
      (g'.portTable catalog)[r.output]? = some ⟨r.target.opened v, .output, false, false⟩ ∧
      (Round.applied catalog g').substituted r.input (r.source.opened v) = r.source.toPortType ∧
      (Round.applied catalog g').substituted r.output (r.target.opened v) = r.target.toPortType := by
  obtain ⟨v, hin, hout⟩ := h.exists_getElem?_adapter hr
  have hfeed := (h.rerouted.cardinalities_spliced (hclean.cardinality_eq_nil h.built)).2.2 r hr
  obtain ⟨info, hinfo, -⟩ := PortTable.faces_iff.mp (h.rerouted.pair_faces hr).1
  have hval := (hclean.concrete_eq h.built (h.fits r hr).source_eq hinfo).2.2
  have hval' := hval
  rw [(h.fits r hr).cardinality_eq] at hval'
  refine ⟨v, hin, hout, ?_, ?_⟩
  · exact h.substituted_opened hclean hin rfl ((hfeed _ (.inl rfl)).trans hval)
  · exact h.substituted_opened hclean hout rfl ((hfeed _ (.inr rfl)).trans hval')

theorem typing_adapter {r : Replacement} (hr : r ∈ rs) :
    (Round.ofPatch catalog g').typing[r.input]? = some r.source.toPortType ∧
      (Round.ofPatch catalog g').typing[r.output]? = some r.target.toPortType := by
  obtain ⟨v, hin, hout, hsource, htarget⟩ := h.substituted_adapter hclean hr
  rw [Round.getElem?_typing, Round.getElem?_typing, hin, hout, Option.map_some, Option.map_some,
    Substitution.resolve_of_concrete hsource, Substitution.resolve_of_concrete htarget]
  exact ⟨rfl, rfl⟩

theorem typing_old {k : PortKey} (hk : k.node ∈ g.nodes) :
    (Round.ofPatch catalog g').typing[k]? = (Round.ofPatch catalog g).typing[k]? := by
  rw [Round.getElem?_typing, Round.getElem?_typing, h.spliced.getElem?_portTable h.built hk]
  cases hport : (g.portTable catalog)[k]? with
  | none => rw [Option.map_none, Option.map_none]
  | some info =>
    rw [Option.map_some, Option.map_some, Substitution.resolve, Substitution.resolve,
      h.substituted_old hclean hport]

theorem invalidTypes_spliced : (Round.ofPatch catalog g').invalidTypes = [] := by
  change (g'.portTable catalog).toList.filterMap
    (fun x => (Round.applied catalog g').resolveDiagnostic? x.1 x.2.type) = []
  apply List.filterMap_eq_nil_iff.mpr
  rintro ⟨k, info⟩ hmem
  have hk := Std.ExtTreeMap.mem_toList_iff_getElem?_eq_some.mp hmem
  have hpair : ((Round.applied catalog g').substituted k info.type).disallowedPair? = none := by
    rcases h.rerouted.port_cases hk with hnode | ⟨r, hr, hkr⟩
    · rw [h.spliced.getElem?_portTable h.built hnode] at hk
      rw [h.substituted_old hclean hk]
      exact (hclean.resolve_eq hk).2
    · obtain ⟨v, hin, hout, hsource, htarget⟩ := h.substituted_adapter hclean hr
      rcases hkr with rfl | rfl
      · cases Option.some.inj (hk.symm.trans hin)
        rw [hsource]
        exact r.source.disallowedPair?_toPortType
      · cases Option.some.inj (hk.symm.trans hout)
        rw [htarget]
        exact r.target.disallowedPair?_toPortType
  simp [Substitution.resolveDiagnostic?, hpair]

variable (hdone : ∀ p ∈ g.edgePairs (g.portTable catalog),
  p.Kept (Round.ofPatch catalog g).typing ∨ ∃ r ∈ rs, r.pair = p)
include hdone

theorem kept_spliced {p : EdgePair} (hp : p ∈ g'.edgePairs (g'.portTable catalog)) :
    p.Kept (Round.ofPatch catalog g').typing := by
  have hends : ∀ {r : Replacement}, r ∈ rs →
      (Round.ofPatch catalog g').typing.concrete? r.pair.source = some r.source ∧
        (Round.ofPatch catalog g').typing.concrete? r.pair.target = some r.target := by
    intro r hr
    obtain ⟨hs, ht⟩ := h.rerouted.pair_faces hr
    rw [PortTyping.concrete?, PortTyping.concrete?, h.typing_old hclean (node_mem_of_faces hs),
      h.typing_old hclean (node_mem_of_faces ht)]
    exact ⟨(h.fits r hr).source_eq, (h.fits r hr).target_eq⟩
  rcases h.rerouted.mem_edgePairs_spliced_iff.mp hp with ⟨hold, hnot⟩ | ⟨r, hr, hpr⟩
  · have hkept : p.Kept (Round.ofPatch catalog g).typing := by
      rcases hdone p hold with hkept | ⟨r, hr, heq⟩
      · exact hkept
      · exact absurd heq (hnot r hr)
    obtain ⟨-, hj, -⟩ := mem_edgePairs_iff.mp hold
    obtain ⟨hs, ht⟩ := PortTable.joins_iff.mp hj
    intro a b ha hb
    rw [PortTyping.concrete?, h.typing_old hclean (node_mem_of_faces hs)] at ha
    rw [PortTyping.concrete?, h.typing_old hclean (node_mem_of_faces ht)] at hb
    exact hkept a b ha hb
  · obtain ⟨hin, hout⟩ := h.typing_adapter hclean hr
    have hin' := PortTyping.concrete?_eq_some_iff.mpr hin
    have hout' := PortTyping.concrete?_eq_some_iff.mpr hout
    intro a b ha hb
    left
    rcases hpr with rfl | rfl
    · cases Option.some.inj (ha.symm.trans (hends hr).1)
      exact Option.some.inj (hin'.symm.trans hb)
    · cases Option.some.inj (hb.symm.trans (hends hr).2)
      exact Option.some.inj (ha.symm.trans hout')

/-- The round after splicing has nothing to complain of and nothing to splice. -/
theorem second_round :
    (Round.ofPatch catalog g').Clean ∧ (Round.ofPatch catalog g').isQuiet = true := by
  have hsplicing : (Round.ofPatch catalog g').splicing = { patch := g' } :=
    spliceAll_of_kept (fun p hp => h.kept_spliced hclean hdone hp) g'
  have hsolved := h.solved hclean
  refine ⟨fun pass => ?_, ?_⟩
  · cases pass with
    | extract => exact extracted_iff.mpr h.rerouted.extracted_spliced
    | solvePayloadUnit => simp [Round.diagnosticsOf, hsolved.payload, hsolved.unit, hasErrors]
    | solveCardinality =>
      have hcard : (Round.ofPatch catalog g').cardinality.diagnostics = [] := hsolved.cardinality
      simp [Round.diagnosticsOf, hcard, hasErrors]
    | insertAdapters =>
      simp [Round.diagnosticsOf, h.invalidTypes_spliced hclean, hsplicing, hasErrors]
    | classifyCycles => rfl
    | lower => rfl
  · rw [Round.isQuiet, hsplicing]
    rfl

end Patch.Mended

/-- Where one round is without errors, there is at most one more, and it finds the same types. -/
theorem converge_of_clean {catalog : Catalog} {g : Patch} (hc : catalog.Built)
    (hfix : catalog.FixedAdapters) (hclean : (Round.ofPatch catalog g).Clean) (n : Nat) :
    (converge catalog (n + 1) g).iterations ≤ 2 ∧ (converge catalog (n + 1) g).last.Clean ∧
      (converge catalog (n + 1) g).last.isQuiet = true ∧
      ∀ k : PortKey, k.node ∈ g.nodes →
        (converge catalog (n + 1) g).patch.nodes[k.node]? = g.nodes[k.node]? ∧
          (converge catalog (n + 1) g).last.typing[k]? = (Round.ofPatch catalog g).typing[k]? := by
  cases hquiet : (Round.ofPatch catalog g).isQuiet with
  | true =>
    rw [converge_of_quiet hquiet]
    exact ⟨Nat.le_succ 1, hclean, hquiet, fun k _ => ⟨rfl, rfl⟩⟩
  | false =>
    obtain ⟨rs, hsp, hrs, -, hdone⟩ := g.spliceAll_spliced (g.portTable catalog)
      catalog.adapterRules (Round.ofPatch catalog g).typing
    have hmended : g.Mended catalog (Round.ofPatch catalog g).typing
        (Round.ofPatch catalog g).splicing.patch rs :=
      ⟨hc, hfix, hclean.extracted, hsp, fun r hr => (hrs r hr).1, fun r hr => (hrs r hr).2⟩
    obtain ⟨hclean', hquiet'⟩ := hmended.second_round hclean (hdone hclean.splicing_eq_nil)
    have htwo : converge catalog (n + 1) g = ⟨[Round.ofPatch catalog g],
        Round.ofPatch catalog (Round.ofPatch catalog g).splicing.patch⟩ := by
      rw [converge_of_busy hquiet, converge_of_quiet hquiet']
    rw [htwo]
    refine ⟨Nat.le_refl 2, hclean', hquiet', fun k hk => ⟨?_, hmended.typing_old hclean hk⟩⟩
    exact hmended.spliced.getElem?_nodes hk

namespace Patch

/-- After a round without errors at most one more is needed. It reports no error either, and all ports of
the patch keep the types that the first one gave them. -/
theorem normalize_two_rounds (g : Patch) {catalog : Catalog} (hc : catalog.Built)
    (hfix : catalog.FixedAdapters) (options : NormalizationOptions)
    (hmax : 2 ≤ options.maxIterations) (hclean : (Round.ofPatch catalog g).Clean) :
    let r := g.normalize catalog options
    r.iterations ≤ 2 ∧
      hasErrors ((converge catalog (options.maxIterations - 1) g).lastLog Pass.all).diagnostics =
        false ∧
      ∀ k : PortKey, k.node ∈ g.nodes →
        r.typed.portType? k = (Round.ofPatch catalog g).typing[k]? := by
  intro r
  obtain ⟨n, hn⟩ : ∃ n, options.maxIterations - 1 = n + 1 := ⟨options.maxIterations - 2, by omega⟩
  obtain ⟨hiter, hlast, hquiet, hports⟩ := converge_of_clean hc hfix hclean n
  rw [← hn] at hiter hlast hquiet hports
  refine ⟨hiter, (Convergence.hasErrors_lastLog _).mpr ⟨hlast, hquiet⟩, fun k hk => ?_⟩
  obtain ⟨m, hm⟩ := Option.isSome_iff_exists.mp (Std.ExtTreeMap.mem_iff_isSome_getElem?.mp hk)
  obtain ⟨hnode, htype⟩ := hports k hk
  have htyped : r.typed = (converge catalog (options.maxIterations - 1) g).patch.typed
      (converge catalog (options.maxIterations - 1) g).last.typing := rfl
  rw [htyped, portType?_typed (hnode.trans hm), htype]

/-- The sine of a phase takes two rounds, the first of which splices in the conversion to radians. -/
theorem sineOfPhase_two_rounds :
    Catalog.standard.FixedAdapters ∧ (Round.ofPatch .standard sineOfPhase).Clean ∧
      (sineOfPhase.normalize .standard {}).iterations = 2 ∧
      (sineOfPhase.normalize .standard {}).typed.portType? ⟨"phase", "phase"⟩ =
        (Round.ofPatch .standard sineOfPhase).typing[PortKey.mk "phase" "phase"]? := by
  have hclean : (Round.ofPatch .standard sineOfPhase).Clean := by
    intro p
    cases p <;> decide +kernel
  refine ⟨Catalog.standard_fixedAdapters, hclean, by decide +kernel, ?_⟩
  exact (normalize_two_rounds sineOfPhase Catalog.standard_built Catalog.standard_fixedAdapters {}
    (by decide) hclean).2.2 _ (by decide +kernel)

end Patch

end PatchTyping
