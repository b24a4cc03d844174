import PatchTyping.Proofs.InferenceLocality
import PatchTyping.Proofs.ReadinessCondition

/-!
# Rounds on a part of a patch

A round types the ports of a part, and finds fault with it, as a round on the whole does. Where the names
that are made up for the part do not occur in the rest, nor the other way round, it also splices the same
adapters into it.
-/

namespace PatchTyping

open ValuedPartition CardinalityInference AxisInference

namespace Substitution

theorem substituted_congr {s s' : Substitution} {k : PortKey}
    (hp : ∀ name, s'.payload[VarKey.mk k.node name]? = s.payload[VarKey.mk k.node name]?)
    (hu : ∀ name, s'.unit[VarKey.mk k.node name]? = s.unit[VarKey.mk k.node name]?)
    (hc : ∀ name, s'.cardinality[VarKey.mk k.node name]? = s.cardinality[VarKey.mk k.node name]?)
    (ho : s'.overrides[k]? = s.overrides[k]?) (t : PortType) : s'.substituted k t = s.substituted k t := by
  have hsub : ∀ {α : Type} {m m' : Std.ExtTreeMap VarKey α} (x : Axis α),
      (∀ name, m'[VarKey.mk k.node name]? = m[VarKey.mk k.node name]?) →
        x.substitute m' k.node = x.substitute m k.node := by
    intro α m m' x h
    cases x with
    | inst a => rfl
    | var name => simp only [Axis.substitute, h name]
  simp only [substituted, cardinalityOf, hsub _ hp, hsub _ hu, hsub _ hc, ho]

end Substitution

namespace CardinalityInference

variable {mine : NodeId → Bool} {ports : PortTable} {p p' : PortPartition}
  (h : ∀ k : PortKey, mine k.node = true → p'.value? k = p.value? k)
include h

theorem variableValues_part {x : VarKey} (hx : mine x.node = true) :
    (variableValues (ports.part mine) p')[x]? = (variableValues ports p)[x]? := by
  have heq : variableValues (ports.part mine) p' =
      (variableValues ports p).filter fun x _ => mine x.node := by
    rw [variableValues, variableValues, ← OrderedMaps.ofList_filter, PortTable.part,
      Std.ExtTreeMap.toList_filter]
    apply congrArg (Std.ExtTreeMap.ofList · compare)
    rw [← filterMap_filter_of (p := fun y : PortKey × PortInfo => mine y.1.node)]
    · apply List.filterMap_congr
      rintro ⟨k, info⟩ hk
      simp only [h k (List.mem_filter.mp hk).2]
    · rintro ⟨k, info⟩ _ y hy
      dsimp only at hy
      split at hy <;> cases hy
      rfl
  rw [heq, Std.ExtTreeMap.getElem?_filter', hx]
  cases (variableValues ports p)[x]? <;> rfl

theorem changedValues_part {k : PortKey} (hk : mine k.node = true) :
    (changedValues (ports.part mine) p')[k]? = (changedValues ports p)[k]? := by
  rw [changedValues, changedValues, Std.ExtTreeMap.getElem?_filterMap',
    Std.ExtTreeMap.getElem?_filterMap', PortTable.getElem?_part hk, h k hk]

end CardinalityInference

namespace Patch

variable {g : Patch} {mine : NodeId → Bool} {catalog : Catalog} {α : Type}

theorem instantiates_part_iff {id : NodeId} {n : Node} {b : Block} :
    (g.part mine).Instantiates catalog id n b ↔ g.Instantiates catalog id n b ∧ mine id = true := by
  rw [Instantiates, Instantiates, getElem?_nodes_part]
  cases mine id <;> simp

theorem portless_part_iff {id : NodeId} :
    (g.part mine).Portless catalog id ↔ g.Portless catalog id ∧ mine id = true := by
  simp only [Portless, instantiates_part_iff]
  constructor
  · rintro ⟨n, b, ⟨hi, hm⟩, hnil⟩
    exact ⟨⟨n, b, hi, hnil⟩, hm⟩
  · rintro ⟨⟨n, b, hi, hnil⟩, hm⟩
    exact ⟨n, b, ⟨hi, hm⟩, hnil⟩

theorem attached_part_iff {k : PortKey} (hk : mine k.node = true) {d : PortDirection} :
    (g.part mine).Attached catalog k d ↔ g.Attached catalog k d := by
  rw [Attached, Attached, portTable_part, PortTable.faces_part hk, portless_part_iff, and_iff_left hk]

theorem bindings_own {ports : PortTable} {axis : PortType → Axis α} (k : PortKey) (x : VarKey)
    (h : (ports.bindings axis)[k]? = some x) : x.node = k.node := by
  rw [PortTable.bindings, Std.ExtTreeMap.getElem?_filterMap', Option.bind_eq_some_iff] at h
  obtain ⟨info, -, h⟩ := h
  obtain ⟨name, -, rfl⟩ := Option.map_eq_some_iff.mp h
  rfl

section Parts

variable (h : g.Parted mine)
include h

theorem vars_of_mem_axisConstraints {ports : PortTable} {which : AxisName}
    {axis : PortType → Axis α} {c : AxisConstraint α}
    (hc : c ∈ g.axisConstraints catalog ports (g.edgePairs ports) which axis) :
    ∀ x ∈ c.vars, mine x.node = c.within mine := by
  intro x hx
  rcases mem_axisConstraints_iff.mp hc with ⟨id, n, b, -, t, -, hc⟩ | ⟨p, hp, hc⟩
  · have hall := PortTable.vars_of_templateAxis mine hc
    rw [AxisConstraint.within_of_vars mine hall, hall x hx]
  · have hall := PortTable.vars_of_relate hc (mem_edgePairs_parted h hp)
    rw [AxisConstraint.within_of_vars mine hall, hall x hx]

theorem constraints_parted : (g.constraints catalog).Parted mine where
  equal a b origin hab := by
    rcases mem_cardinality_iff.mp hab with ⟨id, n, bl, -, hd | ⟨t, -, ht⟩⟩ | ⟨p, hp, heq⟩
    · obtain ⟨ha, hb⟩ := isAt_of_mem_declaredCardinalities hd
      rw [ha, hb]
    · obtain ⟨ha, hb⟩ := PortTable.isAt_of_mem_templateCardinality ht
      rw [ha, hb]
    · cases heq
      exact mem_edgePairs_parted h hp
  group n ms hn m hm := by
    rcases mem_cardinality_iff.mp hn with ⟨id, _, _, -, hd | ⟨t, -, ht⟩⟩ | ⟨p, -, heq⟩
    · obtain ⟨rfl, hall⟩ := isAt_of_mem_declaredCardinalities hd
      exact hall m hm
    · obtain ⟨rfl, hall⟩ := PortTable.isAt_of_mem_templateCardinality ht
      exact hall m hm
    · cases heq

theorem extracted_parts : g.Extracted catalog ↔
    (g.part mine).Extracted catalog ∧ (g.part (!mine ·)).Extracted catalog := by
  have hone : ∀ {f : NodeId → Bool}, g.Parted f → g.Extracted catalog → (g.part f).Extracted catalog := by
    intro f hf hg
    refine ⟨fun id n hn => ?_, fun id e he => ?_, fun id e id' e' he he' hj hj' ht => ?_⟩
    · rw [getElem?_nodes_part] at hn
      split at hn
      · exact hg.known id n hn
      · cases hn
    · obtain ⟨he, hs⟩ := getElem?_edges_part_iff.mp he
      obtain ⟨hsrc, htgt⟩ := hg.attached id e he
      exact ⟨(attached_part_iff hs).mpr hsrc, (attached_part_iff ((hf id e he).trans hs)).mpr htgt⟩
    · obtain ⟨he, hs⟩ := getElem?_edges_part_iff.mp he
      obtain ⟨he', hs'⟩ := getElem?_edges_part_iff.mp he'
      rw [portTable_part, PortTable.joins_part hs ((hf id e he).trans hs)] at hj
      rw [portTable_part, PortTable.joins_part hs' ((hf id' e' he').trans hs')] at hj'
      exact hg.oneDriver id e id' e' he he' hj hj' ht
  refine ⟨fun hg => ⟨hone h hg, hone h.not hg⟩, fun ⟨hin, hout⟩ => ?_⟩
  have hside : ∀ id : NodeId, ∃ f : NodeId → Bool, f id = true ∧ g.Parted f ∧
      (g.part f).Extracted catalog := by
    intro id
    cases hid : mine id with
    | true => exact ⟨mine, hid, h, hin⟩
    | false => exact ⟨(!mine ·), by simp [hid], h.not, hout⟩
  refine ⟨fun id n hn => ?_, fun id e he => ?_, fun id e id' e' he he' hj hj' ht => ?_⟩
  · obtain ⟨f, hid, -, hf⟩ := hside id
    apply hf.known id n
    rw [getElem?_nodes_part, if_pos hid, hn]
  · obtain ⟨f, hs, hp, hf⟩ := hside e.source.node
    obtain ⟨hsrc, htgt⟩ := hf.attached id e (getElem?_edges_part_iff.mpr ⟨he, hs⟩)
    exact ⟨(attached_part_iff hs).mp hsrc, (attached_part_iff ((hp id e he).trans hs)).mp htgt⟩
  · obtain ⟨f, hs, hp, hf⟩ := hside e.source.node
    have ht₁ : f e.target.node = true := (hp id e he).trans hs
    have ht₂ : f e'.target.node = true := ht ▸ ht₁
    have hs' : f e'.source.node = true := (hp id' e' he').symm.trans ht₂
    apply hf.oneDriver id e id' e' (getElem?_edges_part_iff.mpr ⟨he, hs⟩)
      (getElem?_edges_part_iff.mpr ⟨he', hs'⟩) _ _ ht
    · rwa [portTable_part, PortTable.joins_part hs ht₁]
    · rwa [portTable_part, PortTable.joins_part hs' ht₂]

end Parts

end Patch

namespace Round

variable {g : Patch} {mine : NodeId → Bool} {catalog : Catalog} (hc : catalog.Built)
  (h : g.Parted mine)
include hc h

omit hc in
private theorem payload_part : (ofPatch catalog (g.part mine)).payload =
    solve payloadWording (((g.portTable catalog).bindings PortType.payload).filter fun k _ => mine k.node)
      ((g.constraints catalog).payload.filter (·.within mine)) := by
  change ((g.part mine).constraints catalog).solvePayload = _
  rw [Patch.constraints_part h, ConstraintSet.solvePayload, ← PortTable.bindings_part]
  rfl

omit hc in
private theorem unit_part : (ofPatch catalog (g.part mine)).unit =
    solve unitWording (((g.portTable catalog).bindings PortType.unit).filter fun k _ => mine k.node)
      ((g.constraints catalog).unit.filter (·.within mine)) := by
  change ((g.part mine).constraints catalog).solveUnit = _
  rw [Patch.constraints_part h, ConstraintSet.solveUnit, ← PortTable.bindings_part]
  rfl

private theorem value_part {k : PortKey} (hk : mine k.node = true) :
    (resolved ((g.part mine).constraints catalog)).partition.value? k =
      (resolved (g.constraints catalog)).partition.value? k := by
  rw [Patch.constraints_part h]
  exact ConstraintSet.resolved_value_part (Patch.constraints_parted h) (Patch.constraints_closed hc) hk

theorem substituted_part {k : PortKey} (hk : mine k.node = true) (t : PortType) :
    (applied catalog (g.part mine)).substituted k t = (applied catalog g).substituted k t := by
  apply Substitution.substituted_congr
  · intro name
    change (ofPatch catalog (g.part mine)).payload.values[VarKey.mk k.node name]? = _
    rw [payload_part h]
    exact values_solve_part mine (Patch.axisConstraints_covers _ _) Patch.bindings_own
      (fun c hc => Patch.vars_of_mem_axisConstraints h hc) payloadWording hk
  · intro name
    change (ofPatch catalog (g.part mine)).unit.values[VarKey.mk k.node name]? = _
    rw [unit_part h]
    exact values_solve_part mine (Patch.axisConstraints_covers _ _) Patch.bindings_own
      (fun c hc => Patch.vars_of_mem_axisConstraints h hc) unitWording hk
  · intro name
    change (variableValues ((g.part mine).portTable catalog) _)[VarKey.mk k.node name]? = _
    rw [Patch.portTable_part]
    exact variableValues_part (fun k hk => value_part hc h hk) hk
  · change (changedValues ((g.part mine).portTable catalog) _)[k]? = _
    rw [Patch.portTable_part]
    exact changedValues_part (fun k hk => value_part hc h hk) hk

/-- A port of a part has the type that it has in the whole. -/
theorem typing_part {k : PortKey} :
    (ofPatch catalog (g.part mine)).typing[k]? =
      if mine k.node = true then (ofPatch catalog g).typing[k]? else none := by
  rw [getElem?_typing, getElem?_typing, Patch.portTable_part]
  cases hk : mine k.node with
  | true =>
    have hres : ∀ t, (applied catalog (g.part mine)).resolve k t = (applied catalog g).resolve k t :=
      fun t => by rw [Substitution.resolve, Substitution.resolve, substituted_part hc h hk]
    simp only [PortTable.getElem?_part hk, hres, if_true]
  | false => simp [PortTable.getElem?_part_eq_none hk]

theorem concrete?_part {k : PortKey} (hk : mine k.node = true) :
    (ofPatch catalog (g.part mine)).typing.concrete? k = (ofPatch catalog g).typing.concrete? k := by
  rw [PortTyping.concrete?, PortTyping.concrete?, typing_part hc h, if_pos hk]

theorem invalidTypes_parts : (ofPatch catalog g).invalidTypes = [] ↔
    (ofPatch catalog (g.part mine)).invalidTypes = [] ∧
      (ofPatch catalog (g.part (!mine ·))).invalidTypes = [] := by
  have hnil : ∀ g' : Patch, (ofPatch catalog g').invalidTypes = [] ↔
      ∀ k info, (g'.portTable catalog)[k]? = some info →
        ((applied catalog g').substituted k info.type).disallowedPair? = none := by
    intro g'
    change (g'.portTable catalog).toList.filterMap
      (fun x => (applied catalog g').resolveDiagnostic? x.1 x.2.type) = [] ↔ _
    simp [List.filterMap_eq_nil_iff, Std.ExtTreeMap.mem_toList_iff_getElem?_eq_some,
      Substitution.resolveDiagnostic?]
  have hpart : ∀ {f : NodeId → Bool}, g.Parted f → ((ofPatch catalog (g.part f)).invalidTypes = [] ↔
      ∀ k info, (g.portTable catalog)[k]? = some info → f k.node = true →
        ((applied catalog g).substituted k info.type).disallowedPair? = none) := by
    intro f hf
    rw [hnil, Patch.portTable_part]
    refine forall₂_congr fun k info => ?_
    cases hk : f k.node with
    | true => simp [PortTable.getElem?_part hk, substituted_part hc hf hk]
    | false => simp [PortTable.getElem?_part_eq_none hk]
  rw [hnil, hpart h, hpart h.not]
  constructor
  · exact fun hall => ⟨fun k info hk _ => hall k info hk, fun k info hk _ => hall k info hk⟩
  · rintro ⟨hin, hout⟩ k info hk
    cases hm : mine k.node with
    | true => exact hin k info hk hm
    | false => exact hout k info hk (by simp [hm])

omit h in
theorem clean_and_quiet_iff : (ofPatch catalog g).Clean ∧ (ofPatch catalog g).isQuiet = true ↔
    g.Extracted catalog ∧ (ofPatch catalog g).payload.diagnostics = [] ∧
      (ofPatch catalog g).unit.diagnostics = [] ∧
      (g.constraints catalog).solveCardinality.diagnostics = [] ∧
      (ofPatch catalog g).invalidTypes = [] ∧
      ∀ p ∈ g.edgePairs (g.portTable catalog), p.Kept (ofPatch catalog g).typing := by
  constructor
  · rintro ⟨hclean, hq⟩
    exact ⟨hclean.extracted, hclean.axes_eq_nil.1, hclean.axes_eq_nil.2, hclean.cardinality_eq_nil hc,
      hclean.invalidTypes_eq_nil, fun p hp => hclean.kept hq hp⟩
  · rintro ⟨hext, hpay, hunit, hcard, hinv, hkept⟩
    have hsplice : (ofPatch catalog g).splicing = { patch := g } := spliceAll_of_kept hkept g
    refine ⟨fun p => ?_, by rw [isQuiet, hsplice]; rfl⟩
    cases p with
    | extract => exact Patch.extracted_iff.mpr hext
    | solvePayloadUnit => simp [diagnosticsOf, hpay, hunit, hasErrors]
    | solveCardinality =>
      have hnil : (ofPatch catalog g).cardinality.diagnostics = [] := hcard
      simp [diagnosticsOf, hnil, hasErrors]
    | insertAdapters => simp [diagnosticsOf, hinv, hsplice, hasErrors]
    | classifyCycles => rfl
    | lower => rfl

private theorem kept_parts :
    (∀ p ∈ g.edgePairs (g.portTable catalog), p.Kept (ofPatch catalog g).typing) ↔
      (∀ p ∈ (g.part mine).edgePairs ((g.part mine).portTable catalog),
        p.Kept (ofPatch catalog (g.part mine)).typing) ∧
      ∀ p ∈ (g.part (!mine ·)).edgePairs ((g.part (!mine ·)).portTable catalog),
        p.Kept (ofPatch catalog (g.part (!mine ·))).typing := by
  have hpart : ∀ {f : NodeId → Bool}, g.Parted f →
      ((∀ p ∈ (g.part f).edgePairs ((g.part f).portTable catalog),
        p.Kept (ofPatch catalog (g.part f)).typing) ↔
      ∀ p ∈ g.edgePairs (g.portTable catalog), f p.source.node = true →
        p.Kept (ofPatch catalog g).typing) := by
    intro f hf
    simp only [Patch.portTable_part, Patch.edgePairs_part hf, List.mem_filter, and_imp]
    refine forall₃_congr fun p hp hs => ?_
    rw [EdgePair.Kept, EdgePair.Kept, concrete?_part hc hf hs,
      concrete?_part hc hf ((Patch.mem_edgePairs_parted hf hp).trans hs)]
  rw [hpart h, hpart h.not]
  constructor
  · exact fun hall => ⟨fun p hp _ => hall p hp, fun p hp _ => hall p hp⟩
  · rintro ⟨hin, hout⟩ p hp
    cases hm : mine p.source.node with
    | true => exact hin p hp hm
    | false => exact hout p hp (by simp [hm])

/-- A round neither complains of a patch nor splices into it exactly if this is so of the part and of the
rest. -/
theorem clean_and_quiet_parts :
    (ofPatch catalog g).Clean ∧ (ofPatch catalog g).isQuiet = true ↔
      ((ofPatch catalog (g.part mine)).Clean ∧ (ofPatch catalog (g.part mine)).isQuiet = true) ∧
        (ofPatch catalog (g.part (!mine ·))).Clean ∧
          (ofPatch catalog (g.part (!mine ·))).isQuiet = true := by
  have hpay : (ofPatch catalog g).payload.diagnostics = [] ↔
      (ofPatch catalog (g.part mine)).payload.diagnostics = [] ∧
        (ofPatch catalog (g.part (!mine ·))).payload.diagnostics = [] := by
    rw [payload_part h, payload_part h.not]
    exact diagnostics_solve_parts mine (Patch.axisConstraints_covers _ _) Patch.bindings_own
      (fun c hc => Patch.vars_of_mem_axisConstraints h hc) payloadWording
  have hunit : (ofPatch catalog g).unit.diagnostics = [] ↔
      (ofPatch catalog (g.part mine)).unit.diagnostics = [] ∧
        (ofPatch catalog (g.part (!mine ·))).unit.diagnostics = [] := by
    rw [unit_part h, unit_part h.not]
    exact diagnostics_solve_parts mine (Patch.axisConstraints_covers _ _) Patch.bindings_own
      (fun c hc => Patch.vars_of_mem_axisConstraints h hc) unitWording
  have hcard := ConstraintSet.diagnostics_solveCardinality_parts (Patch.constraints_parted h)
    (Patch.constraints_closed (g := g) hc)
  rw [← Patch.constraints_part h, ← Patch.constraints_part h.not] at hcard
  rw [clean_and_quiet_iff hc, clean_and_quiet_iff hc, clean_and_quiet_iff hc,
    Patch.extracted_parts h, hpay, hunit, hcard, invalidTypes_parts hc h, kept_parts hc h]
  constructor
  · rintro ⟨⟨e, e'⟩, ⟨p, p'⟩, ⟨u, u'⟩, ⟨c, c'⟩, ⟨i, i'⟩, k, k'⟩
    exact ⟨⟨e, p, u, c, i, k⟩, e', p', u', c', i', k'⟩
  · rintro ⟨⟨e, p, u, c, i, k⟩, e', p', u', c', i', k'⟩
    exact ⟨⟨e, e'⟩, ⟨p, p'⟩, ⟨u, u'⟩, ⟨c, c'⟩, ⟨i, i'⟩, k, k'⟩

end Round

end PatchTyping
