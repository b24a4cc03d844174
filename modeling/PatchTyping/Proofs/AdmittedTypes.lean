import PatchTyping.Proofs.DecodedData
import PatchTyping.Proofs.ReadinessCondition

/-!
# Admitted types

Payload and unit are inferred apart, so a substitution can bring together what does not go together. It
never stays so: of declared types that are all admitted, a substitution makes types that are admitted
again, since it takes one axis back wherever it has to, and reports the port. Types that are read and
types that a catalog has checked are admitted, so this holds of every patch after any number of rounds.
-/

namespace PatchTyping

namespace PortType

/-- Payload and unit go together, as far as both are known. -/
def Admitted (t : PortType) : Prop :=
  ∀ p u, t.payload = .inst p → t.unit = .inst u → p.admits u = true

theorem admitted_iff {t : PortType} : t.Admitted ↔ t.disallowedPair? = none :=
  disallowedPair?_eq_none_iff.symm

/-- Only an open axis keeps an admitted type from being concrete. -/
theorem Admitted.exists_toConcrete_iff {t : PortType} (h : t.Admitted) :
    (∃ c, t.toConcrete = .ok c) ↔ t.isConcrete = true := by
  obtain ⟨payload, unit, cardinality, temporality⟩ := t
  cases payload with
  | var name => simp [toConcrete, isConcrete, Axis.isVar]
  | inst p =>
    cases unit with
    | var name => simp [toConcrete, isConcrete, Axis.isVar]
    | inst u =>
      cases cardinality with
      | var name => simp [toConcrete, isConcrete, Axis.isVar]
      | inst c => simp [toConcrete, isConcrete, Axis.isVar, h p u rfl rfl]

end PortType

/-- A variable that has a value becomes that value, and everything else stays. -/
inductive Axis.Replaced {α : Type} (values : Std.ExtTreeMap VarKey α) (node : NodeId) :
    Axis α → Axis α → Prop
  | known (a : α) : Replaced values node (.inst a) (.inst a)
  | bound {name : String} {a : α} (h : values[VarKey.mk node name]? = some a) :
      Replaced values node (.var name) (.inst a)
  | unbound {name : String} (h : values[VarKey.mk node name]? = none) :
      Replaced values node (.var name) (.var name)

theorem Axis.replaced_iff {α : Type} {values : Std.ExtTreeMap VarKey α} {node : NodeId}
    {x y : Axis α} : x.Replaced values node y ↔ x.substitute values node = y := by
  constructor
  · intro h
    cases h with
    | known a => rfl
    | bound h => simp [substitute, h]
    | unbound h => simp [substitute, h]
  · rintro rfl
    cases x with
    | inst a => exact .known a
    | var name =>
      cases h : values[VarKey.mk node name]? with
      | none => simpa [substitute, h] using .unbound h
      | some a => simpa [substitute, h] using .bound h

namespace Substitution

variable {s : Substitution} {k : PortKey} {declared t : PortType}

/-- The declared type of a port with exactly the variables replaced that have values, and with the
cardinality that is set for the port alone, if there is one. -/
structure Replaced (s : Substitution) (k : PortKey) (declared t : PortType) : Prop where
  payload : declared.payload.Replaced s.payload k.node t.payload
  unit : declared.unit.Replaced s.unit k.node t.unit
  cardinality_set : ∀ c, s.overrides[k]? = some c → t.cardinality = .inst c
  cardinality : s.overrides[k]? = none →
    declared.cardinality.Replaced s.cardinality k.node t.cardinality
  temporality : t.temporality = declared.temporality

theorem replaced_iff : s.Replaced k declared t ↔ s.substituted k declared = t := by
  have hcard : s.cardinalityOf k declared.cardinality = t.cardinality ↔
      (∀ c, s.overrides[k]? = some c → t.cardinality = .inst c) ∧ (s.overrides[k]? = none →
        declared.cardinality.Replaced s.cardinality k.node t.cardinality) := by
    simp only [cardinalityOf, Axis.replaced_iff]
    cases s.overrides[k]? with
    | none => simp
    | some c => simpa using eq_comm
  constructor
  · rintro ⟨hpayload, hunit, hset, hcardinality, htemporality⟩
    obtain ⟨payload, unit, cardinality, temporality⟩ := t
    rw [substituted, Axis.replaced_iff.mp hpayload, Axis.replaced_iff.mp hunit,
      hcard.mpr ⟨hset, hcardinality⟩, ← htemporality]
  · rintro rfl
    exact ⟨Axis.replaced_iff.mpr rfl, Axis.replaced_iff.mpr rfl, (hcard.mp rfl).1, (hcard.mp rfl).2,
      rfl⟩

/-- The payload and unit that the port gets do not go together. -/
def Clashes (s : Substitution) (k : PortKey) (declared : PortType) : Prop :=
  ∃ t, s.Replaced k declared t ∧ ¬ t.Admitted

theorem not_clashes_iff : ¬ s.Clashes k declared ↔ (s.substituted k declared).disallowedPair? = none := by
  simp only [Clashes, replaced_iff, exists_eq_left', not_not, PortType.admitted_iff]

/-- An axis that was substituted is open again, and all else is as it was substituted. -/
inductive TakenBack (declared full : PortType) : PortType → Prop
  | unit {name : String} (h : declared.unit = .var name) :
      TakenBack declared full { full with unit := .var name }
  | payload {name : String} (h : declared.payload = .var name) :
      TakenBack declared full { full with payload := .var name }

theorem TakenBack.not_concrete {full : PortType} (h : TakenBack declared full t) :
    t.isConcrete = false ∧ t.Admitted := by
  cases h <;> simp [PortType.isConcrete, Axis.isVar, PortType.Admitted]

theorem resolve_of_not_clashes (h : ¬ s.Clashes k declared) :
    s.Replaced k declared (s.resolve k declared) := by
  rw [replaced_iff, resolve, not_clashes_iff.mp h]

/-- A declared type that is admitted has a variable among its payload and unit if the two clash. -/
theorem resolve_of_clashes (hdeclared : declared.Admitted) (h : s.Clashes k declared) :
    ∃ full, s.Replaced k declared full ∧ TakenBack declared full (s.resolve k declared) := by
  refine ⟨s.substituted k declared, replaced_iff.mpr rfl, ?_⟩
  have hpair := mt not_clashes_iff.mpr (not_not.mpr h)
  have hresolve : s.resolve k declared = reopened declared (s.substituted k declared) := by
    rw [resolve]
    cases hp : (s.substituted k declared).disallowedPair? with
    | none => exact absurd hp hpair
    | some x => rfl
  rw [hresolve, reopened]
  cases hunit : declared.unit with
  | var name => exact .unit hunit
  | inst u =>
    cases hpayload : declared.payload with
    | var name => exact .payload hpayload
    | inst p =>
      have hadmits := hdeclared p u hpayload hunit
      refine absurd ?_ hpair
      simp [PortType.disallowedPair?, substituted, hpayload, hunit, Axis.substitute, hadmits]

theorem admitted_resolve (s : Substitution) (k : PortKey) (hdeclared : declared.Admitted) :
    (s.resolve k declared).Admitted := by
  by_cases h : s.Clashes k declared
  · obtain ⟨full, -, hback⟩ := resolve_of_clashes hdeclared h
    exact hback.not_concrete.2
  · by_contra hnot
    exact h ⟨_, resolve_of_not_clashes h, hnot⟩

theorem resolveDiagnostic?_eq_none_iff :
    s.resolveDiagnostic? k declared = none ↔ ¬ s.Clashes k declared := by
  rw [not_clashes_iff, resolveDiagnostic?, Option.map_eq_none_iff]

theorem kind_of_resolveDiagnostic? {d : Diagnostic} (h : s.resolveDiagnostic? k declared = some d) :
    d.kind = .invalidPayloadUnitPair ∧ d.targets = [.port k] := by
  obtain ⟨x, -, rfl⟩ := Option.map_eq_some_iff.mp h
  exact ⟨rfl, rfl⟩

theorem mem_diagnostics {ports : PortTable} {d : Diagnostic} (hd : d ∈ s.diagnostics ports) :
    d.kind = .invalidPayloadUnitPair ∧
      ∃ k info, ports[k]? = some info ∧ s.Clashes k info.type ∧ d.targets = [.port k] := by
  obtain ⟨⟨k, info⟩, hmem, hd⟩ := List.mem_filterMap.mp hd
  change s.resolveDiagnostic? k info.type = some d at hd
  obtain ⟨hkind, htargets⟩ := kind_of_resolveDiagnostic? hd
  refine ⟨hkind, k, info, Std.ExtTreeMap.mem_toList_iff_getElem?_eq_some.mp hmem, ?_, htargets⟩
  by_contra hnot
  rw [resolveDiagnostic?_eq_none_iff.mpr hnot] at hd
  cases hd

theorem reported_of_clashes {ports : PortTable} {info : PortInfo} (hk : ports[k]? = some info)
    (h : s.Clashes k info.type) :
    ∃ d, (s.diagnostics ports).filter (fun d => d.targets.contains (.port k)) = [d] := by
  obtain ⟨before, after, hsplit⟩ :=
    List.append_of_mem (Std.ExtTreeMap.mem_toList_iff_getElem?_eq_some.mpr hk)
  have hnodup := OrderedMaps.nodup_keys ports
  rw [hsplit, List.map_append, List.map_cons, List.nodup_middle, List.nodup_cons] at hnodup
  have hothers : ∀ x ∈ before ++ after, x.1 ≠ k := by
    intro x hx heq
    have hmem : x.1 ∈ (before ++ after).map (·.1) := List.mem_map_of_mem hx
    rw [heq, List.map_append] at hmem
    exact hnodup.1 hmem
  have hnone : ∀ l : List (PortKey × PortInfo), (∀ x ∈ l, x.1 ≠ k) →
      (l.filterMap fun x => s.resolveDiagnostic? x.1 x.2.type).filter
        (fun d => d.targets.contains (.port k)) = [] := by
    intro l hl
    rw [List.filter_eq_nil_iff]
    intro d hd
    obtain ⟨x, hx, hd⟩ := List.mem_filterMap.mp hd
    rw [(kind_of_resolveDiagnostic? hd).2]
    simpa using (hl x hx).symm
  cases hd : s.resolveDiagnostic? k info.type with
  | none => exact absurd h (resolveDiagnostic?_eq_none_iff.mp hd)
  | some d =>
    refine ⟨d, ?_⟩
    change (ports.toList.filterMap fun x => s.resolveDiagnostic? x.1 x.2.type).filter _ = [d]
    rw [hsplit, List.filterMap_append, List.filterMap_cons, hd, List.filter_append,
      List.filter_cons_of_pos (by simp [(kind_of_resolveDiagnostic? hd).2]),
      hnone before fun x hx => hothers x (List.mem_append_left _ hx),
      hnone after fun x hx => hothers x (List.mem_append_right _ hx)]
    rfl

end Substitution

namespace Patch

/-- Every type that overrides another is admitted. -/
def AdmittedOverrides (g : Patch) : Prop :=
  ∀ (id : NodeId) (n : Node) (name : String) (t : PortType),
    g.nodes[id]? = some n → n.overrides[name]? = some t → t.Admitted

theorem FromText.admittedOverrides {g : Patch} (h : g.FromText) : g.AdmittedOverrides := by
  intro id n name t hn ht
  obtain ⟨s, hs⟩ := h.override hn ht
  exact PortType.admitted_iff.mpr (isWord_of_parsePortType hs).2

theorem Grows.admittedOverrides {catalog : Catalog} {g g' : Patch} (h : g.Grows catalog g')
    (hg : g.AdmittedOverrides) : g'.AdmittedOverrides := by
  intro id n name t hn ht
  rcases h.node_new id n hn with hold | ⟨rule, -, -, hempty⟩
  · exact hg id n name t hold ht
  · rw [hempty] at ht
    simp at ht

/-- A port declares what overrides it or what its block gives it, and both have been checked. -/
theorem AdmittedOverrides.declared {catalog : Catalog} (hc : catalog.Built) {g : Patch}
    (hg : g.AdmittedOverrides) {k : PortKey} {info : PortInfo}
    (hk : (g.portTable catalog)[k]? = some info) : info.type.Admitted := by
  obtain ⟨n, b, hi, hmem⟩ := exists_of_getElem?_portTable hk
  obtain ⟨x, hx, -, rfl⟩ := Node.mem_portInfos_iff.mp hmem
  cases ht : n.overrides[x.2.name]? with
  | some t => simpa [Node.infoOf, ht] using hg _ _ _ t hi.1 ht
  | none =>
    have hbase := PortType.admitted_iff.mpr ((hc.valid hi.2).base_admitted x hx)
    simpa [Node.infoOf, ht] using hbase

theorem AdmittedOverrides.portType?_normalize {catalog : Catalog} (hc : catalog.Built) {g : Patch}
    (hg : g.AdmittedOverrides) (options : NormalizationOptions) {k : PortKey} {t : PortType}
    (ht : (g.normalize catalog options).typed.portType? k = some t) : t.Admitted := by
  rw [typed_normalize, TypedPatch.portType?, getElem?_typed_nodes] at ht
  obtain ⟨n, hn, ht⟩ := Option.bind_eq_some_iff.mp ht
  obtain ⟨n', -, rfl⟩ := Option.map_eq_some_iff.mp hn
  rw [PortTyping.getElem?_ofNode, Round.getElem?_typing] at ht
  obtain ⟨info, hinfo, rfl⟩ := Option.map_eq_some_iff.mp ht
  have hlast := (converge_grows hc (options.maxIterations - 1) g).admittedOverrides hg
  exact Substitution.admitted_resolve _ _ (hlast.declared hc hinfo)

/-- After normalization of a patch that was read, a type lacks a concrete form only if it is open; and
whatever is substituted into admitted types, exactly the ports that clash are reported, each once and
left open, while all others are what they declare with their variables replaced. -/
theorem normalize_types_admitted :
    (∀ {doc : DocumentText} {g : Patch} {catalog : Catalog} (options : NormalizationOptions),
      Patch.decoder.run doc = .ok g → catalog.Built →
      ∀ k t, (g.normalize catalog options).typed.portType? k = some t →
        t.Admitted ∧ ((∃ c, t.toConcrete = .ok c) ↔ t.isConcrete = true)) ∧
    ∀ (set : ConstraintSet) (s : Substitution),
      (∀ (k : PortKey) (info : PortInfo), set.ports[k]? = some info → info.type.Admitted) →
      (∀ d ∈ s.diagnostics set.ports, d.kind = .invalidPayloadUnitPair ∧
        ∃ k info, set.ports[k]? = some info ∧ s.Clashes k info.type ∧ d.targets = [.port k]) ∧
      ∀ (k : PortKey) (info : PortInfo), set.ports[k]? = some info →
        ∃ t, (s.typing set.ports)[k]? = some t ∧
          (¬ s.Clashes k info.type → s.Replaced k info.type t) ∧
          (s.Clashes k info.type → t.isConcrete = false ∧
            (∃ full, s.Replaced k info.type full ∧ Substitution.TakenBack info.type full t) ∧
            ∃ d, (s.diagnostics set.ports).filter (fun d => d.targets.contains (.port k)) = [d]) := by
  constructor
  · intro doc g catalog options hdoc hc k t ht
    have hadmitted :=
      (fromText_of_run hdoc).admittedOverrides.portType?_normalize hc options ht
    exact ⟨hadmitted, hadmitted.exists_toConcrete_iff⟩
  · intro set s hdeclared
    refine ⟨fun d hd => Substitution.mem_diagnostics hd, fun k info hk => ?_⟩
    refine ⟨s.resolve k info.type, by simp [Substitution.typing, hk],
      Substitution.resolve_of_not_clashes, fun hclash => ?_⟩
    obtain ⟨full, hfull, hback⟩ := Substitution.resolve_of_clashes (hdeclared k info hk) hclash
    exact ⟨hback.not_concrete.1, ⟨full, hfull, hback⟩, Substitution.reported_of_clashes hk hclash⟩

/-- A filter whose input is declared a color although a clock drives it. -/
def paintedClockText : String :=
  "\x7b\"nodes\":[\x7b\"id\":\"clock\",\"block\":\"Time\"\x7d,"
    ++ "\x7b\"id\":\"filter\",\"block\":\"Smooth\",\"port_types\":\x7b\"x\":\"?T:rgba01\"\x7d\x7d],"
    ++ "\"edges\":[\x7b\"id\":\"e\",\"from\":\"clock.t\",\"to\":\"filter.x\"\x7d]\x7d"

def paintedClock : Patch where
  nodes := (∅ : Std.ExtTreeMap NodeId Node).insert "clock" { block := "Time" }
    |>.insert "filter" ⟨"Smooth", (∅ : Std.ExtTreeMap String PortType).insert "x"
      ⟨.var "T", .inst .rgba01, .inst .one, .continuous⟩, .authored⟩
  edges := (∅ : Std.ExtTreeMap EdgeId Edge).insert "e" ⟨⟨"clock", "t"⟩, ⟨"filter", "x"⟩⟩

/-- The color and the float of the clock do not go together, so the payload is open again. -/
theorem paintedClock_opened :
    Patch.ofText paintedClockText = .ok paintedClock ∧ Catalog.standard.Built ∧
      (∀ k t, (paintedClock.normalize .standard {}).typed.portType? k = some t → t.Admitted) ∧
      (paintedClock.normalize .standard {}).typed.portType? ⟨"filter", "x"⟩ =
        some ⟨.var "T", .inst .rgba01, .inst .one, .continuous⟩ ∧
      ∃ d, ((Round.applied .standard paintedClock).diagnostics
          (paintedClock.constraints .standard).ports).filter
        (fun d => d.targets.contains (.port ⟨"filter", "x"⟩)) = [d] := by
  have hread : Patch.ofText paintedClockText = .ok paintedClock :=
    eq_ok_of_toOption (by decide +kernel)
  have htypes := normalize_types_admitted.1 {} hread Catalog.standard_built
  have hdeclared := (fromText_of_run hread).admittedOverrides
  obtain ⟨info, hinfo, hclash⟩ : ∃ info, (paintedClock.portTable .standard)[
      PortKey.mk "filter" "x"]? = some info ∧
        (Round.applied .standard paintedClock).Clashes ⟨"filter", "x"⟩ info.type := by
    refine ⟨⟨⟨.var "T", .inst .rgba01, .inst .one, .continuous⟩, .input, false, false⟩,
      by decide +kernel, ?_⟩
    rw [← not_not (a := Substitution.Clashes _ _ _), Substitution.not_clashes_iff]
    decide +kernel
  obtain ⟨t, -, -, hopen⟩ := (normalize_types_admitted.2 (paintedClock.constraints .standard)
    (Round.applied .standard paintedClock)
    (fun k info hk => hdeclared.declared Catalog.standard_built hk)).2 _ info hinfo
  exact ⟨hread, Catalog.standard_built, fun k t ht => (htypes k t ht).1, by decide +kernel,
    (hopen hclash).2.2⟩

end Patch

end PatchTyping
