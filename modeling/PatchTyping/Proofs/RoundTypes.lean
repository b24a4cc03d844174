import PatchTyping.Normalization
import PatchTyping.Proofs.AxisSolutions
import PatchTyping.Proofs.BroadcastLaw
import PatchTyping.Proofs.SplicedPatches

/-!
# Types after a round

A round without errors gives every port a concrete type: on payload and unit its variables under the
values found, and as cardinality the value of its class. Ports that are related agree on every axis on
which one of them is open, and ends of an edge have the same cardinality.
-/

namespace PatchTyping

open ValuedPartition CardinalityInference AxisInference

section Axes

variable {α : Type}

/-- The value of an axis when variables have values. -/
def Axis.under (σ : VarKey → α) (node : NodeId) : Axis α → α
  | .inst a => a
  | .var name => σ ⟨node, name⟩

theorem Axis.under_congr {σ τ : VarKey → α} {node : NodeId} {x : Axis α}
    (h : ∀ name, x = .var name → σ ⟨node, name⟩ = τ ⟨node, name⟩) :
    x.under σ node = x.under τ node := by
  cases x with
  | inst a => rfl
  | var name => exact h name rfl

/-- A relation between two ports holds unless a variable on one side keeps them from agreeing. -/
theorem relate_holds_iff {a b : PortKey} {x y : Axis α} (origin : Origin) {τ : VarKey → α} :
    (∀ c, relate a x b y origin = some c → c.Holds τ) ↔
      (x.isVar = true ∨ y.isVar = true → x.under τ a.node = y.under τ b.node) := by
  cases x with
  | inst v =>
    cases y with
    | inst w => simp [relate, Axis.isVar]
    | var w => simp [relate, Axis.isVar, Axis.under, AxisConstraint.Holds, eq_comm]
  | var v => cases y <;> simp [relate, Axis.isVar, Axis.under, AxisConstraint.Holds]

theorem relate_vars {a b : PortKey} {x y : Axis α} {origin : Origin} {c : AxisConstraint α}
    (h : relate a x b y origin = some c) {v : VarKey} (hv : v ∈ c.vars) :
    (v.node = a.node ∧ x = .var v.var) ∨ (v.node = b.node ∧ y = .var v.var) := by
  cases x <;> cases y <;> cases h <;> simp only [AxisConstraint.vars, List.mem_cons,
    List.not_mem_nil, or_false] at hv
  · subst hv
    exact .inr ⟨rfl, rfl⟩
  · subst hv
    exact .inl ⟨rfl, rfl⟩
  · rcases hv with rfl | rfl
    · exact .inl ⟨rfl, rfl⟩
    · exact .inr ⟨rfl, rfl⟩

theorem bound_bindings_iff {ports : PortTable} {axis : PortType → Axis α} {x : VarKey} :
    Bound (ports.bindings axis) x ↔ ∃ (k : PortKey) (info : PortInfo), ports[k]? = some info ∧
      k.node = x.node ∧ axis info.type = .var x.var := by
  simp only [Bound, PortTable.bindings, Std.ExtTreeMap.getElem?_filterMap', Option.bind_eq_some_iff,
    Option.map_eq_some_iff]
  refine exists_congr fun k => exists_congr fun info => and_congr_right fun _ => ?_
  cases hx : axis info.type with
  | inst a => simp [Axis.name?]
  | var name =>
    simp only [Axis.name?, Option.some.injEq, exists_eq_left', Axis.var.injEq]
    constructor
    · rintro rfl
      exact ⟨rfl, rfl⟩
    · rintro ⟨hnode, rfl⟩
      cases x
      cases hnode
      rfl

namespace PortTable

theorem relate_holds_iff {ports : PortTable} {axis : PortType → Axis α} {a b : PortKey}
    {i j : PortInfo} (hi : ports[a]? = some i) (hj : ports[b]? = some j) {origin : Origin}
    {τ : VarKey → α} :
    (∀ c, ports.relate axis a b origin = some c → c.Holds τ) ↔
      ((axis i.type).isVar = true ∨ (axis j.type).isVar = true →
        (axis i.type).under τ a.node = (axis j.type).under τ b.node) := by
  rw [← PatchTyping.relate_holds_iff origin]
  simp [relate, hi, hj]

theorem relate_eq_some {ports : PortTable} {axis : PortType → Axis α} {a b : PortKey}
    {origin : Origin} {c : AxisConstraint α} (h : ports.relate axis a b origin = some c) :
    ∃ i j, ports[a]? = some i ∧ ports[b]? = some j ∧
      PatchTyping.relate a (axis i.type) b (axis j.type) origin = some c := by
  unfold relate at h
  split at h
  · next i j hi hj => exact ⟨i, j, hi, hj, h⟩
  · cases h

theorem relate_bound {ports : PortTable} {axis : PortType → Axis α} {a b : PortKey}
    {origin : Origin} {c : AxisConstraint α} (h : ports.relate axis a b origin = some c) :
    ∀ x ∈ c.vars, Bound (ports.bindings axis) x := by
  intro x hx
  obtain ⟨i, j, hi, hj, hrel⟩ := relate_eq_some h
  rcases relate_vars hrel hx with ⟨hnode, hax⟩ | ⟨hnode, hax⟩
  · exact bound_bindings_iff.mpr ⟨a, i, hi, hnode.symm, hax⟩
  · exact bound_bindings_iff.mpr ⟨b, j, hj, hnode.symm, hax⟩

theorem mem_templateAxis_iff {ports : PortTable} {which : AxisName} {axis : PortType → Axis α}
    {node : NodeId} {t : Template} {c : AxisConstraint α} :
    c ∈ ports.templateAxis which axis node t ↔
      ∃ ps, t = .equal which ps ∧ ∃ x ∈ consecutive ps,
        ports.relate axis ⟨node, x.1⟩ ⟨node, x.2⟩ (.template node) = some c := by
  cases t with
  | equal name ps =>
    by_cases hname : name = which
    · subst hname
      simp [templateAxis, consecutive_map]
    · simp [templateAxis, hname]
  | zipBroadcast ps => simp [templateAxis]
  | fixed p type => simp [templateAxis]

end PortTable

namespace Patch

variable {g : Patch} {catalog : Catalog} {which : AxisName} {axis : PortType → Axis α}

theorem mem_axisConstraints_iff {ports : PortTable} {pairs : List EdgePair} {c : AxisConstraint α} :
    c ∈ g.axisConstraints catalog ports pairs which axis ↔
      (∃ id n b, g.Instantiates catalog id n b ∧
        ∃ t ∈ b.templates, c ∈ ports.templateAxis which axis id t) ∨
      ∃ p ∈ pairs, ports.relate axis p.source p.target (.edge p.edge) = some c := by
  simp only [axisConstraints, List.mem_append, List.mem_flatMap, List.mem_filterMap, Prod.exists,
    mem_knownNodes_iff]

theorem axisConstraints_covers (ports : PortTable) (pairs : List EdgePair) :
    Covers (ports.bindings axis) (g.axisConstraints catalog ports pairs which axis) := by
  intro c hc
  rcases mem_axisConstraints_iff.mp hc with ⟨id, n, b, -, t, -, hc⟩ | ⟨p, -, hc⟩
  · obtain ⟨ps, -, x, -, hrel⟩ := PortTable.mem_templateAxis_iff.mp hc
    exact PortTable.relate_bound hrel
  · exact PortTable.relate_bound hc

end Patch

/-- On an axis that has been solved, substitution leaves nothing open. -/
theorem substitute_solved [DecidableEq α] {w : AxisWording α} {ports : PortTable}
    {axis : PortType → Axis α} {cs : List (AxisConstraint α)} (hcov : Covers (ports.bindings axis) cs)
    (hnil : (solve w (ports.bindings axis) cs).diagnostics = []) {k : PortKey} {info : PortInfo}
    (hk : ports[k]? = some info) (d : α) :
    (axis info.type).substitute (solve w (ports.bindings axis) cs).values k.node =
      .inst ((axis info.type).under (fun x => ((solve w (ports.bindings axis) cs).values[x]?).getD d)
        k.node) := by
  cases hx : axis info.type with
  | inst a => rfl
  | var name =>
    have hbound : Bound (ports.bindings axis) ⟨k.node, name⟩ :=
      bound_bindings_iff.mpr ⟨k, info, hk, rfl, hx⟩
    obtain ⟨a, ha, -⟩ := values_of_clean hcov hnil hbound
    simp [Axis.substitute, Axis.under, ha]

end Axes

section Cardinalities

variable {s : ConstraintSet}

theorem isError_of_mem_solveCardinality (h : s.Closed) {d : Diagnostic}
    (hd : d ∈ s.solveCardinality.diagnostics) : d.isError = true := by
  rcases List.mem_append.mp hd with hd | hd
  · have hkind := (resolved_spec h).1.kind d hd
    simp [Diagnostic.isError, hkind, DiagnosticKind.severity]
  · obtain ⟨ports, -, rfl⟩ := List.mem_map.mp hd
    rfl

theorem exists_resolved_value (h : s.Closed) (hclean : s.solveCardinality.diagnostics = [])
    {k : PortKey} (hk : k ∈ s.ports) : ∃ c, (resolved s).partition.value? k = some c := by
  have hnone : ∀ {k}, ¬ s.InReportedGroup k := by
    rintro k ⟨node, members, -, -, d, hd, -⟩
    rw [hclean] at hd
    cases hd
  cases hst : stateOf s.pendingPorts (resolved s).partition k with
  | concrete c => exact ⟨c, stateOf_eq_concrete_iff.mp hst⟩
  | pending =>
    have hrep := ConstraintSet.inReportedGroup_of_pending h
      (ConstraintSet.getElem?_states.mpr ⟨hk, hst⟩)
    exact absurd hrep hnone
  | unresolved =>
    rcases ConstraintSet.reported_of_unresolved h
      (ConstraintSet.getElem?_states.mpr ⟨hk, hst⟩) with ⟨d, hd, -⟩ | hrep
    · rw [hclean] at hd
      cases hd
    · exact absurd hrep hnone

theorem exists_of_variableValue {ports : PortTable} {p : PortPartition} {x : VarKey} {c : Cardinality}
    (h : (variableValues ports p)[x]? = some c) :
    ∃ k info, ports[k]? = some info ∧ k.node = x.node ∧ info.type.cardinality = .var x.var ∧
      p.value? k = some c := by
  obtain ⟨⟨k, info⟩, hmem, heq⟩ := List.mem_filterMap.mp (OrderedMaps.mem_of_getElem?_ofList h)
  have hk := Std.ExtTreeMap.mem_toList_iff_getElem?_eq_some.mp hmem
  cases hcard : info.type.cardinality with
  | inst base => simp [hcard] at heq
  | var name =>
    cases hval : p.value? k with
    | none => simp [hcard, hval] at heq
    | some c' =>
      simp only [hcard, hval, Option.some.injEq, Prod.mk.injEq] at heq
      obtain ⟨rfl, rfl⟩ := heq
      exact ⟨k, info, hk, rfl, hcard, hval⟩

theorem exists_variableValue {ports : PortTable} {p : PortPartition} {k : PortKey} {info : PortInfo}
    {name : String} {c : Cardinality} (hk : ports[k]? = some info)
    (hv : info.type.cardinality = .var name) (hval : p.value? k = some c) :
    ∃ c', (variableValues ports p)[VarKey.mk k.node name]? = some c' := by
  apply OrderedMaps.exists_getElem?_ofList (v := c)
  have hmem := Std.ExtTreeMap.mem_toList_iff_getElem?_eq_some.mpr hk
  exact List.mem_filterMap.mpr ⟨(k, info), hmem, by simp [hv, hval]⟩

end Cardinalities

theorem PortType.concrete?_eq_some_iff {t : PortType} {c : ConcreteType} :
    t.concrete? = some c ↔ t = c.toPortType := by
  constructor
  · intro h
    unfold concrete? toConcrete at h
    obtain ⟨payload, unit, cardinality, temporality⟩ := t
    cases payload <;> cases unit <;> cases cardinality <;> simp only [Except.toOption] at h
    all_goals try cases h
    split at h
    · next heq =>
      split at heq
      · cases heq
        cases h
        rfl
      · cases heq
    · cases h
  · rintro rfl
    simp [concrete?, Except.toOption]

namespace Round

/-- No pass has reported an error. -/
def Clean (r : Round) : Prop := ∀ p : Pass, hasErrors (r.diagnosticsOf p) = false

def payloads (r : Round) (x : VarKey) : Payload := (r.payload.values[x]?).getD .float

def units (r : Round) (x : VarKey) : UnitTag := (r.unit.values[x]?).getD .scalar

theorem solve_eq_nil_of_hasErrors {α : Type} [DecidableEq α] {w : AxisWording α}
    (hconflict : w.conflict.severity = .error) (hunresolved : w.unresolved.severity = .error)
    {bindings : Bindings} {cs : List (AxisConstraint α)}
    (h : hasErrors (solve w bindings cs).diagnostics = false) : (solve w bindings cs).diagnostics = [] := by
  apply eq_nil_of_hasErrors h
  intro d hd
  rcases mem_diagnostics_solve hd with hkind | hkind
  · simp [Diagnostic.isError, hkind, hconflict]
  · simp [Diagnostic.isError, hkind, hunresolved]

section Clean

variable {catalog : Catalog} {g : Patch} (h : (ofPatch catalog g).Clean)
include h

theorem Clean.extracted : g.Extracted catalog := Patch.extracted_iff.mp (h .extract)

theorem Clean.axes_eq_nil :
    (ofPatch catalog g).payload.diagnostics = [] ∧ (ofPatch catalog g).unit.diagnostics = [] := by
  have hp := h .solvePayloadUnit
  simp only [diagnosticsOf, hasErrors_append, Bool.or_eq_false_iff] at hp
  exact ⟨solve_eq_nil_of_hasErrors rfl rfl hp.1, solve_eq_nil_of_hasErrors rfl rfl hp.2⟩

theorem Clean.payloads_models : Models (g.constraints catalog).payload (ofPatch catalog g).payloads :=
  models_of_clean (Patch.axisConstraints_covers _ _) h.axes_eq_nil.1 .float

theorem Clean.units_models : Models (g.constraints catalog).unit (ofPatch catalog g).units :=
  models_of_clean (Patch.axisConstraints_covers _ _) h.axes_eq_nil.2 .scalar

theorem Clean.cardinality_eq_nil (hc : catalog.Built) :
    (g.constraints catalog).solveCardinality.diagnostics = [] := by
  apply eq_nil_of_hasErrors (h .solveCardinality)
  intro d hd
  exact isError_of_mem_solveCardinality (Patch.constraints_closed hc) hd

theorem Clean.splicing_eq_nil : (ofPatch catalog g).splicing.diagnostics = [] := by
  have hp := h .insertAdapters
  simp only [diagnosticsOf, hasErrors_append, Bool.or_eq_false_iff] at hp
  apply eq_nil_of_hasErrors hp.2
  intro d hd
  exact isError_of_mem_spliceAll hd

theorem Clean.invalidTypes_eq_nil : (ofPatch catalog g).invalidTypes = [] := by
  have hp := h .insertAdapters
  simp only [diagnosticsOf, hasErrors_append, Bool.or_eq_false_iff] at hp
  apply eq_nil_of_hasErrors hp.1
  intro d hd
  obtain ⟨⟨k, info⟩, -, hk⟩ := List.mem_filterMap.mp hd
  obtain ⟨pair, -, rfl⟩ := Option.map_eq_some_iff.mp hk
  rfl

end Clean

/-- The substitution that a round applies. -/
def applied (catalog : Catalog) (g : Patch) : Substitution :=
  substitution (ofPatch catalog g).payload (ofPatch catalog g).unit (ofPatch catalog g).cardinality

theorem getElem?_typing (catalog : Catalog) (g : Patch) (k : PortKey) :
    (ofPatch catalog g).typing[k]? =
      (g.portTable catalog)[k]?.map fun info => (applied catalog g).resolve k info.type := by
  change ((applied catalog g).typing (g.portTable catalog))[k]? = _
  simp [Substitution.typing]

theorem Clean.resolve_eq {catalog : Catalog} {g : Patch} (h : (ofPatch catalog g).Clean)
    {k : PortKey} {info : PortInfo} (hk : (g.portTable catalog)[k]? = some info) :
    (applied catalog g).resolve k info.type = (applied catalog g).substituted k info.type ∧
      ((applied catalog g).substituted k info.type).disallowedPair? = none := by
  have hnil : (g.portTable catalog).toList.filterMap
      (fun x => (applied catalog g).resolveDiagnostic? x.1 x.2.type) = [] :=
    h.invalidTypes_eq_nil
  have hpair : ((applied catalog g).substituted k info.type).disallowedPair? = none := by
    have hmem := Std.ExtTreeMap.mem_toList_iff_getElem?_eq_some.mpr hk
    have hnone := List.filterMap_eq_nil_iff.mp hnil (k, info) hmem
    simpa [Substitution.resolveDiagnostic?] using hnone
  exact ⟨by simp [Substitution.resolve, hpair], hpair⟩

/-- Inference has found a value for everything. -/
structure Solved (catalog : Catalog) (g : Patch) : Prop where
  payload : (ofPatch catalog g).payload.diagnostics = []
  unit : (ofPatch catalog g).unit.diagnostics = []
  cardinality : (g.constraints catalog).solveCardinality.diagnostics = []

theorem Clean.solved {catalog : Catalog} {g : Patch} (hc : catalog.Built)
    (h : (ofPatch catalog g).Clean) : Solved catalog g :=
  ⟨h.axes_eq_nil.1, h.axes_eq_nil.2, h.cardinality_eq_nil hc⟩

section Solved

variable {catalog : Catalog} {g : Patch} (hc : catalog.Built) (h : Solved catalog g)
include hc h

theorem Solved.demands_accepted :
    Demand.Accepted (g.constraints catalog).demands (start (g.constraints catalog).ports) := by
  apply ConstraintSet.demands_accepted (Patch.constraints_closed hc)
  rw [h.cardinality]
  simp

theorem Solved.value?_eq {a b : PortKey} (ha : a ∈ g.portTable catalog)
    (hab : Relation.EqvGen (fun a b => .equal a b ∈ (g.constraints catalog).demands) a b) :
    (resolved (g.constraints catalog)).partition.value? a =
      (resolved (g.constraints catalog)).partition.value? b :=
  ConstraintSet.resolved_value?_eq (Patch.constraints_closed hc) (h.demands_accepted hc) ha hab

/-- A variable has one value, since the ports that have it are equated. -/
theorem Solved.variableValue {k : PortKey} {info : PortInfo} {name : String} {c : Cardinality}
    (hk : (g.portTable catalog)[k]? = some info) (hv : info.type.cardinality = .var name)
    (hval : (resolved (g.constraints catalog)).partition.value? k = some c) :
    (applied catalog g).cardinality[VarKey.mk k.node name]? = some c := by
  have hmem : k ∈ g.portTable catalog := Std.ExtTreeMap.mem_iff_isSome_getElem?.mpr (by simp [hk])
  obtain ⟨c', hc'⟩ := exists_variableValue hk hv hval
  obtain ⟨l, j, hl, hnode, hj, hval'⟩ := exists_of_variableValue hc'
  have heq := h.value?_eq hc hmem (Patch.eqvGen_of_sameVariable hk hl hnode.symm hv hj)
  rw [hval, hval'] at heq
  rw [Option.some.inj heq]
  exact hc'

theorem Solved.cardinalityOf_eq {k : PortKey} {info : PortInfo} {c : Cardinality}
    (hk : (g.portTable catalog)[k]? = some info)
    (hval : (resolved (g.constraints catalog)).partition.value? k = some c) :
    (applied catalog g).cardinalityOf k info.type.cardinality = .inst c := by
  have hover : (applied catalog g).overrides[k]? =
      info.type.cardinality.value?.bind fun base => if base = c then none else some c := by
    change (changedValues (g.portTable catalog) _)[k]? = _
    rw [changedValues, Std.ExtTreeMap.getElem?_filterMap', hk]
    simp only [Option.bind_some, hval]
    cases info.type.cardinality <;> rfl
  rw [Substitution.cardinalityOf, hover]
  cases hv : info.type.cardinality with
  | inst base =>
    by_cases hbase : base = c
    · simp [hbase, Axis.value?, Axis.substitute]
    · simp [hbase, Axis.value?]
  | var name => simp [Axis.value?, Axis.substitute, h.variableValue hc hk hv hval]

/-- The declared type of a port with its variables replaced is concrete on every axis. -/
theorem Solved.substituted_eq {k : PortKey} {info : PortInfo}
    (hk : (g.portTable catalog)[k]? = some info) :
    ∃ c, (resolved (g.constraints catalog)).partition.value? k = some c ∧
      (applied catalog g).substituted k info.type =
        ⟨.inst (info.type.payload.under (ofPatch catalog g).payloads k.node),
          .inst (info.type.unit.under (ofPatch catalog g).units k.node), .inst c,
          info.type.temporality⟩ := by
  have hmem : k ∈ g.portTable catalog := Std.ExtTreeMap.mem_iff_isSome_getElem?.mpr (by simp [hk])
  obtain ⟨c, hval⟩ := exists_resolved_value (Patch.constraints_closed hc) h.cardinality hmem
  have hpay : info.type.payload.substitute (applied catalog g).payload k.node =
      .inst (info.type.payload.under (ofPatch catalog g).payloads k.node) :=
    substitute_solved (Patch.axisConstraints_covers _ _) h.payload hk .float
  have hunit : info.type.unit.substitute (applied catalog g).unit k.node =
      .inst (info.type.unit.under (ofPatch catalog g).units k.node) :=
    substitute_solved (Patch.axisConstraints_covers _ _) h.unit hk .scalar
  refine ⟨c, hval, ?_⟩
  rw [Substitution.substituted, hpay, hunit, h.cardinalityOf_eq hc hk hval]

end Solved

/-- The type of every port after a round without errors. -/
theorem Clean.typing_eq {catalog : Catalog} {g : Patch} (hc : catalog.Built)
    (h : (ofPatch catalog g).Clean) {k : PortKey} {info : PortInfo}
    (hk : (g.portTable catalog)[k]? = some info) :
    ∃ t : ConcreteType, (ofPatch catalog g).typing[k]? = some t.toPortType ∧
      t.payload = info.type.payload.under (ofPatch catalog g).payloads k.node ∧
      t.unit = info.type.unit.under (ofPatch catalog g).units k.node ∧
      (resolved (g.constraints catalog)).partition.value? k = some t.cardinality ∧
      t.temporality = info.type.temporality := by
  obtain ⟨c, hval, hsub⟩ := (h.solved hc).substituted_eq hc hk
  obtain ⟨hres, hpair⟩ := h.resolve_eq hk
  have hadm : (info.type.payload.under (ofPatch catalog g).payloads k.node).admits
      (info.type.unit.under (ofPatch catalog g).units k.node) = true := by
    rw [hsub] at hpair
    by_contra hno
    simp [PortType.disallowedPair?, hno] at hpair
  refine ⟨⟨_, _, c, info.type.temporality, hadm⟩, ?_, rfl, rfl, hval, rfl⟩
  rw [getElem?_typing, hk, Option.map_some, hres, hsub]
  rfl

end Round

end PatchTyping
