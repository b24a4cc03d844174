import PatchTyping.Proofs.AdapterInstances
import PatchTyping.Proofs.RoundConvergence
import PatchTyping.Proofs.RoundLocality

/-!
# What later rounds cannot change

A round without errors settles payload and unit of every node. A rule forgets which variables the sides of
its block share, so splicing can bring in adapters whose demands cannot all be met. But such an adapter
stands between ends that are known, and its demands do not reach the nodes that have settled. Rounds after
the first may complain of adapters, then; for the nodes that were there they find nothing new.
-/

namespace PatchTyping

open ValuedPartition CardinalityInference AxisInference

theorem Substitution.substituted_of_concrete {s : Substitution} {k : PortKey} {declared : PortType}
    {t : ConcreteType} (h : s.resolve k declared = t.toPortType) :
    s.substituted k declared = t.toPortType := by
  cases hpair : (s.substituted k declared).disallowedPair? with
  | none => simpa [resolve, hpair] using h
  | some pair =>
    exfalso
    simp only [resolve, hpair, reopened] at h
    split at h
    · next hvar =>
      have hunit : declared.unit = .inst t.unit := congrArg PortType.unit h
      simp [hunit, Axis.isVar] at hvar
    · have hpay : declared.payload = .inst t.payload := congrArg PortType.payload h
      have hsame : s.substituted k declared = t.toPortType := by
        rw [← h]
        simp [substituted, hpay, Axis.substitute]
      rw [hsame, t.disallowedPair?_toPortType] at hpair
      cases hpair

/-- Payload or unit: how a port declares it, what a concrete type has of it, and where a substitution keeps
what a round has found. -/
structure Facet (α : Type) [DecidableEq α] where
  which : AxisName
  wording : AxisWording α
  declared : PortType → Axis α
  carried : ConcreteType → α
  found : Substitution → Std.ExtTreeMap VarKey α
  admitted : ∀ {t : PortType} {c : ConcreteType}, (TypePattern.ofPortType t).admits c = true →
    ∀ a, declared t = .inst a → a = carried c
  substituted : ∀ {s : Substitution} {k : PortKey} {t : PortType} {c : ConcreteType},
    s.substituted k t = c.toPortType → (declared t).substitute (found s) k.node = .inst (carried c)
  found_applied : ∀ (catalog : Catalog) (g : Patch), found (Round.applied catalog g) =
    (solve wording ((g.portTable catalog).bindings declared) (g.axisConstraints catalog
      (g.portTable catalog) (g.edgePairs (g.portTable catalog)) which declared)).values

namespace Facet

def payload : Facet Payload where
  which := .payload
  wording := payloadWording
  declared := PortType.payload
  carried := ConcreteType.payload
  found := Substitution.payload
  admitted h := (TypePattern.admits_ofPortType_iff.mp h).1
  substituted h := congrArg PortType.payload h
  found_applied _ _ := rfl

def unit : Facet UnitTag where
  which := .unit
  wording := unitWording
  declared := PortType.unit
  carried := ConcreteType.unit
  found := Substitution.unit
  admitted h := (TypePattern.admits_ofPortType_iff.mp h).2.1
  substituted h := congrArg PortType.unit h
  found_applied _ _ := rfl

variable {α : Type} [DecidableEq α] (F : Facet α) {catalog : Catalog} {g : Patch}

/-- The constraints of a patch. -/
def constraints (catalog : Catalog) (g : Patch) : List (AxisConstraint α) :=
  g.axisConstraints catalog (g.portTable catalog) (g.edgePairs (g.portTable catalog)) F.which F.declared

/-- What a round makes of them. -/
def solution (catalog : Catalog) (g : Patch) : AxisSolution α :=
  solve F.wording ((g.portTable catalog).bindings F.declared) (F.constraints catalog g)

theorem constraints_covers (catalog : Catalog) (g : Patch) :
    Covers ((g.portTable catalog).bindings F.declared) (F.constraints catalog g) :=
  Patch.axisConstraints_covers _ _

theorem mem_constraints_iff {c : AxisConstraint α} : c ∈ F.constraints catalog g ↔
    (∃ id n b, g.Instantiates catalog id n b ∧ ∃ t ∈ b.templates,
      c ∈ (g.portTable catalog).templateAxis F.which F.declared id t) ∨
    ∃ p ∈ g.edgePairs (g.portTable catalog),
      (g.portTable catalog).relate F.declared p.source p.target (.edge p.edge) = some c :=
  Patch.mem_axisConstraints_iff

/-- Behind a concrete type stands a declared one with its variables replaced. -/
theorem exists_declared {k : PortKey} {t : ConcreteType}
    (h : (Round.ofPatch catalog g).typing.concrete? k = some t) :
    ∃ info, (g.portTable catalog)[k]? = some info ∧ info.type.temporality = t.temporality ∧
      (F.declared info.type).substitute (F.solution catalog g).values k.node =
        .inst (F.carried t) := by
  rw [PortTyping.concrete?_eq_some_iff, Round.getElem?_typing, Option.map_eq_some_iff] at h
  obtain ⟨info, hinfo, hres⟩ := h
  have hsub := Substitution.substituted_of_concrete hres
  refine ⟨info, hinfo, congrArg PortType.temporality hsub, ?_⟩
  rw [← F.substituted hsub, F.found_applied]
  rfl

end Facet

section Agreement

variable {α : Type} {firm : NodeId → Bool} {σ : VarKey → α}

/-- The variables of two ports are both of settled nodes or both not, and where both sides are settled they
agree. -/
@[mk_iff]
structure Agrees (firm : NodeId → Bool) (σ : VarKey → α) (a : PortKey) (x : Axis α) (b : PortKey)
    (y : Axis α) : Prop where
  firm_eq : x.isVar = true → y.isVar = true → firm a.node = firm b.node
  under_eq : x.isVar = true ∨ y.isVar = true → (x.isVar = true → firm a.node = true) →
    (y.isVar = true → firm b.node = true) → x.under σ a.node = y.under σ b.node

theorem relate_agrees_iff {a b : PortKey} {x y : Axis α} (origin : Origin) :
    (∀ c, relate a x b y origin = some c → (∀ v ∈ c.vars, firm v.node = c.within firm) ∧
        (c.within firm = true → c.Holds σ)) ↔ Agrees firm σ a x b y := by
  rw [agrees_iff]
  cases x with
  | inst v =>
    cases y with
    | inst w => simp [relate, Axis.isVar]
    | var w =>
      simp [relate, Axis.isVar, Axis.under, AxisConstraint.vars, AxisConstraint.Holds,
        AxisConstraint.within, AxisConstraint.demand, Demand.within, Demand.keys, eq_comm (a := v)]
  | var v =>
    cases y with
    | inst w =>
      simp [relate, Axis.isVar, Axis.under, AxisConstraint.vars, AxisConstraint.Holds,
        AxisConstraint.within, AxisConstraint.demand, Demand.within, Demand.keys]
    | var w =>
      cases ha : firm a.node <;> cases hb : firm b.node <;>
        simp [ha, hb, relate, Axis.isVar, Axis.under, AxisConstraint.vars, AxisConstraint.Holds,
          AxisConstraint.within, AxisConstraint.demand, Demand.within, Demand.keys]

end Agreement

namespace Patch

variable {α : Type} [DecidableEq α] {F : Facet α} {catalog : Catalog} {g g' : Patch}
  {firm : NodeId → Bool} {σ : VarKey → α}

/-- Nodes that have settled: no constraint reaches from them to others, and an assignment meets those on
them. -/
structure Settled (F : Facet α) (catalog : Catalog) (g : Patch) (firm : NodeId → Bool)
    (σ : VarKey → α) : Prop where
  split : ∀ c ∈ F.constraints catalog g, ∀ x ∈ c.vars, firm x.node = c.within firm
  holds : ∀ c ∈ F.constraints catalog g, c.within firm = true → c.Holds σ

namespace Settled

variable (hset : Settled F catalog g firm σ)
include hset

theorem agrees {p : EdgePair} (hp : p ∈ g.edgePairs (g.portTable catalog)) {i j : PortInfo}
    (hi : (g.portTable catalog)[p.source]? = some i) (hj : (g.portTable catalog)[p.target]? = some j) :
    Agrees firm σ p.source (F.declared i.type) p.target (F.declared j.type) := by
  refine (relate_agrees_iff (.edge p.edge)).mp fun c hc => ?_
  have hrel : (g.portTable catalog).relate F.declared p.source p.target (.edge p.edge) = some c := by
    simpa only [PortTable.relate, hi, hj] using hc
  have hmem := F.mem_constraints_iff.mpr (.inr ⟨p, hp, hrel⟩)
  exact ⟨hset.split c hmem, hset.holds c hmem⟩

theorem values_eq {x : VarKey} (hx : firm x.node = true) {a : α}
    (ha : (F.solution catalog g).values[x]? = some a) : σ x = a := by
  have hpart := values_solve_part firm (F.constraints_covers catalog g) bindings_own hset.split
    F.wording hx
  rw [Facet.solution, ← hpart, values_solve] at ha
  have hmodels : Models ((F.constraints catalog g).filter (·.within firm)) σ :=
    fun c hc => hset.holds c (List.mem_of_mem_filter hc) (List.mem_filter.mp hc).2
  have hcov := covers_part firm (F.constraints_covers catalog g) bindings_own
  exact (solved_presents hcov (accepted_of_models hcov hmodels)).1.value_eq
    (models_iff_satisfies.mp hmodels) ha

theorem under_eq {k : PortKey} {x : Axis α} {a : α}
    (hx : x.substitute (F.solution catalog g).values k.node = .inst a)
    (hfirm : x.isVar = true → firm k.node = true) : x.under σ k.node = a := by
  cases x with
  | inst b => exact Axis.inst.inj hx
  | var name =>
    cases hv : (F.solution catalog g).values[VarKey.mk k.node name]? with
    | none => simp [Axis.substitute, hv] at hx
    | some b =>
      simp only [Axis.substitute, hv, Axis.inst.injEq] at hx
      exact hset.values_eq (hfirm rfl) (hv.trans (congrArg some hx))

end Settled

section Splicing

/-- The port is known, or its node has settled. -/
def firmAt (F : Facet α) (catalog : Catalog) (g : Patch) (firm : NodeId → Bool) (k : PortKey) : Bool :=
  (g.portTable catalog)[k]?.all fun i => !(F.declared i.type).isVar || firm k.node

theorem firmAt_iff {k : PortKey} {i : PortInfo} (hi : (g.portTable catalog)[k]? = some i) :
    firmAt F catalog g firm k = true ↔ ((F.declared i.type).isVar = true → firm k.node = true) := by
  cases hvar : (F.declared i.type).isVar <;> simp [firmAt, hi, hvar]

/-- An adapter has settled if its ends have and agree. -/
def firmNext (F : Facet α) (catalog : Catalog) (g : Patch) (firm : NodeId → Bool)
    (rs : List Replacement) (id : NodeId) : Bool :=
  Replacement.atNode rs (fun r => decide (F.carried r.source = F.carried r.target) &&
    (firmAt F catalog g firm r.pair.source && firmAt F catalog g firm r.pair.target)) (firm id) id

/-- The variables of an adapter take the value of what feeds it. -/
def valuesNext (F : Facet α) (σ : VarKey → α) (rs : List Replacement) (x : VarKey) : α :=
  Replacement.atNode rs (fun r => F.carried r.source) (σ x) x.node

variable {rs : List Replacement} (hset : Settled F catalog g firm σ)
  (h : Rerouted catalog (Round.ofPatch catalog g).typing g g' rs)
include h

theorem firmNext_of_mem {id : NodeId} (hid : id ∈ g.nodes) :
    firmNext F catalog g firm rs id = firm id :=
  h.spliced.atNode_of_mem hid _ _

theorem valuesNext_of_mem {x : VarKey} (hx : x.node ∈ g.nodes) : valuesNext F σ rs x = σ x :=
  h.spliced.atNode_of_mem hx _ _

theorem firmNext_adapter {r : Replacement} (hr : r ∈ rs) :
    firmNext F catalog g firm rs r.id = true ↔ F.carried r.source = F.carried r.target ∧
      firmAt F catalog g firm r.pair.source = true ∧ firmAt F catalog g firm r.pair.target = true := by
  rw [firmNext, h.spliced.atNode_adapter hr, Bool.and_eq_true, Bool.and_eq_true, decide_eq_true_iff]

theorem valuesNext_adapter {r : Replacement} (hr : r ∈ rs) (name : String) :
    valuesNext F σ rs ⟨r.id, name⟩ = F.carried r.source :=
  h.spliced.atNode_adapter hr _ _

include hset

private theorem next_of_mem {c : AxisConstraint α} (hc : c ∈ F.constraints catalog g) :
    (∀ x ∈ c.vars, firmNext F catalog g firm rs x.node =
        c.within (firmNext F catalog g firm rs)) ∧
      (c.within (firmNext F catalog g firm rs) = true → c.Holds (valuesNext F σ rs)) := by
  have hnodes : ∀ x ∈ c.vars, x.node ∈ g.nodes := by
    intro x hx
    obtain ⟨k, info, hk, hnode, -⟩ := bound_bindings_iff.mp (F.constraints_covers catalog g c hc x hx)
    exact hnode ▸ node_mem_of_portTable hk
  have hwithin : c.within (firmNext F catalog g firm rs) = c.within firm := by
    apply AxisConstraint.within_of_vars
    intro x hx
    rw [firmNext_of_mem h (hnodes x hx), hset.split c hc x hx]
  refine ⟨fun x hx => ?_, fun hfirm => ?_⟩
  · rw [hwithin, firmNext_of_mem h (hnodes x hx), hset.split c hc x hx]
  · have hholds := hset.holds c hc (hwithin ▸ hfirm)
    cases c with
    | equal a b lhs rhs origin =>
      rw [AxisConstraint.Holds, valuesNext_of_mem h (hnodes lhs (by simp [AxisConstraint.vars])),
        valuesNext_of_mem h (hnodes rhs (by simp [AxisConstraint.vars]))]
      exact hholds
    | fixed port var value source origin =>
      rw [AxisConstraint.Holds, valuesNext_of_mem h (hnodes var (by simp [AxisConstraint.vars]))]
      exact hholds

/-- The way through an adapter is settled on either side of it as far as the edge was that it replaces. -/
private theorem way_agrees {r : Replacement} (hr : r ∈ rs) {i j : PortInfo}
    (hi : (g.portTable catalog)[r.pair.source]? = some i)
    (hj : (g.portTable catalog)[r.pair.target]? = some j) {s t : PortType} (hsides : r.Sides s t) :
    Agrees (firmNext F catalog g firm rs) (valuesNext F σ rs) r.pair.source (F.declared i.type)
        r.input (F.declared s) ∧
      Agrees (firmNext F catalog g firm rs) (valuesNext F σ rs) r.output (F.declared t) r.pair.target
        (F.declared j.type) := by
  have hfits := h.fits r hr
  obtain ⟨i', hi', -, hx⟩ := F.exists_declared hfits.source_eq
  obtain ⟨j', hj', -, hy⟩ := F.exists_declared hfits.target_eq
  cases hi.symm.trans hi'
  cases hj.symm.trans hj'
  have hs := node_mem_of_portTable hi
  have ht := node_mem_of_portTable hj
  have hedge := hset.agrees (h.pair_mem r hr) hi hj
  have hadapter : firmNext F catalog g firm rs r.id = true ↔ _ := firmNext_adapter h hr
  rw [firmAt_iff hi, firmAt_iff hj] at hadapter
  have hsettles : (F.declared i.type).isVar = true ∨ (F.declared j.type).isVar = true →
      ((F.declared i.type).isVar = true → firm r.pair.source.node = true) →
      ((F.declared j.type).isVar = true → firm r.pair.target.node = true) →
      firmNext F catalog g firm rs r.id = true := by
    intro hvar hfs hft
    refine hadapter.mpr ⟨?_, hfs, hft⟩
    rw [← hset.under_eq hx hfs, ← hset.under_eq hy hft]
    exact hedge.under_eq hvar hfs hft
  refine ⟨⟨fun hvar _ => ?_, fun _ hfs _ => ?_⟩, fun _ hvar => ?_, fun _ hfr hft => ?_⟩
  · change _ = firmNext F catalog g firm rs r.id
    rw [firmNext_of_mem h hs]
    cases hf : firm r.pair.source.node with
    | true =>
      exact (hsettles (.inl hvar) (fun _ => hf) fun hvar' => hedge.firm_eq hvar hvar' ▸ hf).symm
    | false =>
      rw [eq_comm, Bool.eq_false_iff, ne_eq, hadapter]
      exact fun hall => absurd (hall.2.1 hvar) (by simp [hf])
  · rw [firmNext_of_mem h hs] at hfs
    rw [Axis.under_congr fun name _ => valuesNext_of_mem h hs, hset.under_eq hx hfs]
    cases hd : F.declared s with
    | inst c => exact (F.admitted hsides.source c hd).symm
    | var name => exact (valuesNext_adapter h hr name).symm
  · change firmNext F catalog g firm rs r.id = _
    rw [firmNext_of_mem h ht]
    cases hf : firm r.pair.target.node with
    | true => exact hsettles (.inr hvar) (fun hvar' => hedge.firm_eq hvar' hvar ▸ hf) fun _ => hf
    | false =>
      rw [Bool.eq_false_iff, ne_eq, hadapter]
      exact fun hall => absurd (hall.2.2 hvar) (by simp [hf])
  · rw [firmNext_of_mem h ht] at hft
    rw [Axis.under_congr (x := F.declared j.type) fun name _ => valuesNext_of_mem h ht,
      hset.under_eq hy hft]
    cases hd : F.declared t with
    | inst c => exact F.admitted hsides.target c hd
    | var name =>
      rw [hd] at hfr
      exact (valuesNext_adapter h hr name).trans (hadapter.mp (hfr rfl)).1

/-- What has settled stays so, and its values stay the same. -/
theorem Settled.spliced : Settled F catalog g' (firmNext F catalog g firm rs) (valuesNext F σ rs) := by
  have hall : ∀ c ∈ F.constraints catalog g',
      (∀ x ∈ c.vars, firmNext F catalog g firm rs x.node =
        c.within (firmNext F catalog g firm rs)) ∧
      (c.within (firmNext F catalog g firm rs) = true → c.Holds (valuesNext F σ rs)) := by
    intro c hc
    rcases F.mem_constraints_iff.mp hc with htemplate | ⟨p, hp, hrel⟩
    · exact next_of_mem hset h (F.mem_constraints_iff.mpr (.inl (h.template_mem_iff.mp htemplate)))
    · rcases h.mem_edgePairs_spliced_iff.mp hp with ⟨hp, -⟩ | ⟨r, hr, hpr⟩
      · rw [h.relate_eq hp] at hrel
        exact next_of_mem hset h (F.mem_constraints_iff.mpr (.inr ⟨p, hp, hrel⟩))
      · obtain ⟨i, hi, -⟩ := PortTable.faces_iff.mp (h.pair_faces hr).1
        obtain ⟨j, hj, -⟩ := PortTable.faces_iff.mp (h.pair_faces hr).2
        obtain ⟨s, t, hsides, hin, hout⟩ := h.exists_getElem?_adapter hr
        obtain ⟨hentry, hexit⟩ := way_agrees hset h hr hi hj hsides
        rw [← h.spliced.getElem?_portTable h.built (node_mem_of_portTable hi)] at hi
        rw [← h.spliced.getElem?_portTable h.built (node_mem_of_portTable hj)] at hj
        rcases hpr with rfl | rfl
        · refine (relate_agrees_iff (.edge r.entry.1)).mpr hentry c ?_
          simpa only [PortTable.relate, Replacement.entryPair, hi, hin] using hrel
        · refine (relate_agrees_iff (.edge r.exit.1)).mpr hexit c ?_
          simpa only [PortTable.relate, Replacement.exitPair, hout, hj] using hrel
  exact ⟨fun c hc => (hall c hc).1, fun c hc => (hall c hc).2⟩

end Splicing

/-- The old nodes have settled, and the ends of each edge between them agree. -/
def Steady (F : Facet α) (catalog : Catalog) (old : NodeId → Bool) (g : Patch) : Prop :=
  ∃ firm σ, Settled F catalog g firm σ ∧ (∀ id, old id = true → firm id = true) ∧
    ∀ (id : EdgeId) (e : Edge) (i j : PortInfo), g.edges[id]? = some e →
      old e.source.node = true → old e.target.node = true →
      (g.portTable catalog)[e.source]? = some i → (g.portTable catalog)[e.target]? = some j →
      (F.declared i.type).under σ e.source.node = (F.declared j.type).under σ e.target.node

/-- What is known of a patch some rounds after one without errors, whose nodes are the old ones. -/
structure Resumed (catalog : Catalog) (old : NodeId → Bool) (g : Patch) : Prop where
  old_mem : ∀ id, old id = true → id ∈ g.nodes
  extracted : g.Extracted catalog
  accepted : Demand.Accepted (g.constraints catalog).demands (start (g.constraints catalog).ports)
  payload : Steady Facet.payload catalog old g
  unit : Steady Facet.unit catalog old g
  temporality : ∀ (id : EdgeId) (e : Edge) (i j : PortInfo), g.edges[id]? = some e →
    old e.source.node = true → old e.target.node = true →
    (g.portTable catalog)[e.source]? = some i → (g.portTable catalog)[e.target]? = some j →
    i.type.temporality = j.type.temporality

theorem Spliced.node_mem {rs : List Replacement} (h : g.Spliced g' rs) {id : NodeId} (hid : id ∈ g.nodes) :
    id ∈ g'.nodes := by
  obtain ⟨n, hn⟩ := OrderedMaps.mem_iff_exists.mp hid
  exact OrderedMaps.mem_iff_exists.mpr ⟨n, (h.node_iff id n).mpr (.inl hn)⟩

theorem Spliced.edge_of_mem {rs : List Replacement} (h : g.Spliced g' rs) {id : EdgeId} {e : Edge}
    (he : g'.edges[id]? = some e) (hs : e.source.node ∈ g.nodes) (ht : e.target.node ∈ g.nodes) :
    g.edges[id]? = some e ∧ ∀ r ∈ rs, r.pair.edge ≠ id := by
  rcases (h.edge_iff id e).mp he with hold | ⟨r, hr, heq | heq⟩
  · exact hold
  · cases (congrArg Prod.snd heq : e = ⟨r.pair.source, ⟨r.id, r.rule.inputPort⟩⟩)
    exact absurd ht (h.not_mem hr)
  · cases (congrArg Prod.snd heq : e = ⟨⟨r.id, r.rule.outputPort⟩, r.pair.target⟩)
    exact absurd hs (h.not_mem hr)

section Rounds

variable {old : NodeId → Bool} {rs : List Replacement}
  (h : Rerouted catalog (Round.ofPatch catalog g).typing g g' rs)
include h

theorem Steady.spliced (hold : ∀ id, old id = true → id ∈ g.nodes) (hg : Steady F catalog old g) :
    Steady F catalog old g' := by
  obtain ⟨firm, σ, hset, hfirm, hlevel⟩ := hg
  refine ⟨_, _, hset.spliced h, fun id hid => ?_, fun id e i j he hs ht hi hj => ?_⟩
  · rw [firmNext_of_mem h (hold id hid), hfirm id hid]
  · have hs' := hold _ hs
    have ht' := hold _ ht
    rw [h.spliced.getElem?_portTable h.built hs'] at hi
    rw [h.spliced.getElem?_portTable h.built ht'] at hj
    rw [Axis.under_congr fun name _ => valuesNext_of_mem h hs',
      Axis.under_congr (x := F.declared j.type) fun name _ => valuesNext_of_mem h ht']
    exact hlevel id e i j (h.spliced.edge_of_mem he hs' ht').1 hs ht hi hj

/-- One more round. -/
theorem Resumed.spliced (hg : g.Resumed catalog old) : g'.Resumed catalog old where
  old_mem id hid := h.spliced.node_mem (hg.old_mem id hid)
  extracted := h.extracted_spliced
  accepted := h.demands_accepted_spliced hg.accepted
  payload := hg.payload.spliced h hg.old_mem
  unit := hg.unit.spliced h hg.old_mem
  temporality id e i j he hs ht hi hj := by
    have hs' := hg.old_mem _ hs
    have ht' := hg.old_mem _ ht
    rw [h.spliced.getElem?_portTable h.built hs'] at hi
    rw [h.spliced.getElem?_portTable h.built ht'] at hj
    exact hg.temporality id e i j (h.spliced.edge_of_mem he hs' ht').1 hs ht hi hj

omit h in
theorem Settled.of_models (hσ : Models (F.constraints catalog g) σ) :
    Settled F catalog g (fun _ => true) σ where
  split _ _ _ _ := (AxisConstraint.within_of_vars _ fun _ _ => rfl).symm
  holds c hc _ := hσ c hc

section Clean

variable (hclean : (Round.ofPatch catalog g).Clean)
  (hdone : ∀ p ∈ g.edgePairs (g.portTable catalog),
    p.Kept (Round.ofPatch catalog g).typing ∨ ∃ r ∈ rs, r.pair = p)
include hclean hdone

private theorem exists_type_of_stays {id : EdgeId} {e : Edge} (he : g.edges[id]? = some e)
    (hstays : ∀ r ∈ rs, r.pair.edge ≠ id) {i j : PortInfo}
    (hi : (g.portTable catalog)[e.source]? = some i)
    (hj : (g.portTable catalog)[e.target]? = some j) :
    ∃ t, (Round.ofPatch catalog g).typing.concrete? e.source = some t ∧
      (Round.ofPatch catalog g).typing.concrete? e.target = some t := by
  have hfaces : ∀ {k : PortKey} {d : PortDirection} {info : PortInfo}, g.Attached catalog k d →
      (g.portTable catalog)[k]? = some info → (g.portTable catalog).faces k d = true := by
    intro k d info hk hinfo
    refine hk.resolve_right ?_
    exact not_portless_of_faces (PortTable.faces_iff.mpr ⟨info, hinfo, rfl⟩)
  obtain ⟨hs, ht⟩ := h.extracted.attached id e he
  have hp : (⟨id, e.source, e.target⟩ : EdgePair) ∈ g.edgePairs (g.portTable catalog) :=
    h.extracted.mem_edgePairs_iff.mpr ⟨he, PortTable.joins_iff.mpr ⟨hfaces hs hi, hfaces ht hj⟩⟩
  obtain ⟨a, ha, -⟩ := hclean.typing_eq h.built hi
  obtain ⟨b, hb, -⟩ := hclean.typing_eq h.built hj
  have ha' := PortTyping.concrete?_eq_some_iff.mpr ha
  have hb' := PortTyping.concrete?_eq_some_iff.mpr hb
  rcases hdone _ hp with hkept | ⟨r, hr, heq⟩
  · rcases hkept a b ha' hb' with rfl | hne
    · exact ⟨a, ha', hb'⟩
    · exact absurd (hclean.edge_cardinality_eq h.built hp ha hb) hne
  · exact absurd (congrArg EdgePair.edge heq) (hstays r hr)

private theorem steady_of_clean (hσ : Models (F.constraints catalog g) σ) :
    Steady F catalog (g.nodes.contains ·) g' := by
  have hset := Settled.of_models hσ
  refine ⟨_, _, hset.spliced h, fun id hid => ?_, fun id e i j he hs ht hi hj => ?_⟩
  · rw [firmNext_of_mem h (Std.ExtTreeMap.contains_iff_mem.mp hid)]
  · rw [Std.ExtTreeMap.contains_iff_mem] at hs ht
    rw [h.spliced.getElem?_portTable h.built hs] at hi
    rw [h.spliced.getElem?_portTable h.built ht] at hj
    obtain ⟨hold, hstays⟩ := h.spliced.edge_of_mem he hs ht
    obtain ⟨t, hst, htt⟩ := exists_type_of_stays h hclean hdone hold hstays hi hj
    obtain ⟨i', hi', -, hx⟩ := F.exists_declared hst
    obtain ⟨j', hj', -, hy⟩ := F.exists_declared htt
    cases hi.symm.trans hi'
    cases hj.symm.trans hj'
    rw [Axis.under_congr fun name _ => valuesNext_of_mem h hs,
      Axis.under_congr (x := F.declared j.type) fun name _ => valuesNext_of_mem h ht,
      hset.under_eq hx fun _ => rfl, hset.under_eq hy fun _ => rfl]

theorem resumed_of_clean : g'.Resumed catalog (g.nodes.contains ·) where
  old_mem id hid := h.spliced.node_mem (Std.ExtTreeMap.contains_iff_mem.mp hid)
  extracted := h.extracted_spliced
  accepted := h.demands_accepted_spliced ((hclean.solved h.built).demands_accepted h.built)
  payload := steady_of_clean h hclean hdone hclean.payloads_models
  unit := steady_of_clean h hclean hdone hclean.units_models
  temporality id e i j he hs ht hi hj := by
    rw [Std.ExtTreeMap.contains_iff_mem] at hs ht
    rw [h.spliced.getElem?_portTable h.built hs] at hi
    rw [h.spliced.getElem?_portTable h.built ht] at hj
    obtain ⟨hold, hstays⟩ := h.spliced.edge_of_mem he hs ht
    obtain ⟨t, hst, htt⟩ := exists_type_of_stays h hclean hdone hold hstays hi hj
    obtain ⟨i', hi', htemp, -⟩ := Facet.payload.exists_declared hst
    obtain ⟨j', hj', htemp', -⟩ := Facet.payload.exists_declared htt
    cases hi.symm.trans hi'
    cases hj.symm.trans hj'
    rw [htemp, htemp']

end Clean

end Rounds

theorem Steady.carried_eq {old : NodeId → Bool} (hg : Steady F catalog old g) {id : EdgeId} {e : Edge}
    (he : g.edges[id]? = some e) (hs : old e.source.node = true) (ht : old e.target.node = true)
    {a b : ConcreteType} (ha : (Round.ofPatch catalog g).typing.concrete? e.source = some a)
    (hb : (Round.ofPatch catalog g).typing.concrete? e.target = some b) :
    F.carried a = F.carried b := by
  obtain ⟨firm, σ, hset, hfirm, hlevel⟩ := hg
  obtain ⟨i, hi, -, hx⟩ := F.exists_declared ha
  obtain ⟨j, hj, -, hy⟩ := F.exists_declared hb
  rw [← hset.under_eq hx fun _ => hfirm _ hs, ← hset.under_eq hy fun _ => hfirm _ ht]
  exact hlevel id e i j he hs ht hi hj

/-- Edges between old nodes are not replaced any more. -/
theorem Resumed.kept {old : NodeId → Bool} (hg : g.Resumed catalog old) {p : EdgePair}
    (hp : p ∈ g.edgePairs (g.portTable catalog)) (hs : old p.source.node = true)
    (ht : old p.target.node = true) : p.Kept (Round.ofPatch catalog g).typing := by
  intro a b ha hb
  obtain ⟨he, -, -⟩ := mem_edgePairs_iff.mp hp
  have hpayload : a.payload = b.payload := hg.payload.carried_eq he hs ht ha hb
  have hunit : a.unit = b.unit := hg.unit.carried_eq he hs ht ha hb
  obtain ⟨i, hi, hai, -⟩ := Facet.payload.exists_declared ha
  obtain ⟨j, hj, hbj, -⟩ := Facet.payload.exists_declared hb
  have htemp : a.temporality = b.temporality := by
    rw [← hai, ← hbj]
    exact hg.temporality p.edge _ i j he hs ht hi hj
  refine (Decidable.em (a.cardinality = b.cardinality)).imp (fun hcard => ?_) id
  apply ConcreteType.toPortType_injective
  simp only [ConcreteType.toPortType, hpayload, hunit, hcard, htemp]

end Patch

end PatchTyping
