import PatchTyping.Substitutions
import PatchTyping.Proofs.CatalogValidity

/-!
# What adapters can carry

A rule keeps a pattern of each side of its block and forgets which variables the sides share. It fits
every pair of types that the ports of its block can carry, and some pairs more: those that ask a shared
payload or unit variable for two values at once.
-/

namespace PatchTyping

/-- Two sides can take two values if the known ones are right and no variable would need both. -/
theorem exists_values_iff {α : Type} (node : NodeId) {x y : Axis α} {a b : α} :
    (∃ values : Std.ExtTreeMap VarKey α,
        x.substitute values node = .inst a ∧ y.substitute values node = .inst b) ↔
      (∀ c, x = .inst c → c = a) ∧ (∀ c, y = .inst c → c = b) ∧
        (x.isVar = true → x = y → a = b) := by
  constructor
  · rintro ⟨values, hx, hy⟩
    refine ⟨?_, ?_, ?_⟩
    · rintro c rfl
      exact Axis.inst.inj hx
    · rintro c rfl
      exact Axis.inst.inj hy
    · rintro - rfl
      exact Axis.inst.inj (hx.symm.trans hy)
  · rintro ⟨hx, hy, hshared⟩
    cases x with
    | inst c =>
      cases hx c rfl
      cases y with
      | inst d => exact ⟨∅, rfl, congrArg Axis.inst (hy d rfl)⟩
      | var w =>
        exact ⟨(∅ : Std.ExtTreeMap VarKey α).insert ⟨node, w⟩ b, rfl, by simp [Axis.substitute]⟩
    | var v =>
      cases y with
      | inst d =>
        cases hy d rfl
        exact ⟨(∅ : Std.ExtTreeMap VarKey α).insert ⟨node, v⟩ a, by simp [Axis.substitute], rfl⟩
      | var w =>
        by_cases hvw : v = w
        · subst hvw
          cases hshared rfl rfl
          refine ⟨(∅ : Std.ExtTreeMap VarKey α).insert ⟨node, v⟩ a, ?_, ?_⟩ <;> simp [Axis.substitute]
        · have hkey : VarKey.mk node w ≠ VarKey.mk node v := fun heq => hvw (VarKey.mk.inj heq).2.symm
          refine ⟨((∅ : Std.ExtTreeMap VarKey α).insert ⟨node, v⟩ a).insert ⟨node, w⟩ b, ?_, ?_⟩
          · rw [Axis.substitute, Std.ExtTreeMap.getElem?_insert]
            simp [hkey]
          · simp [Axis.substitute]

theorem TypePattern.admits_ofPortType_iff {t : PortType} {c : ConcreteType} :
    (TypePattern.ofPortType t).admits c = true ↔
      (∀ p, t.payload = .inst p → p = c.payload) ∧ (∀ u, t.unit = .inst u → u = c.unit) ∧
        t.temporality = c.temporality := by
  rw [admits, Bool.and_eq_true, Bool.and_eq_true, decide_eq_true_iff, and_assoc]
  refine and_congr ?_ (and_congr ?_ Iff.rfl)
  · cases hpay : t.payload <;> simp [ofPortType, hpay, Axis.value?]
  · cases hunit : t.unit <;> simp [ofPortType, hunit, Axis.value?]

/-- Under some values of the variables of a node its input carries the first type and its output the
second. No port is given a cardinality of its own. -/
def CanCarry (node : NodeId) (input output : PortDeclaration) (source target : ConcreteType) : Prop :=
  ∃ s : Substitution, s.overrides = ∅ ∧
    s.substituted ⟨node, input.name⟩ input.type = source.toPortType ∧
    s.substituted ⟨node, output.name⟩ output.type = target.toPortType

theorem canCarry_iff_axes (node : NodeId) {input output : PortDeclaration}
    {source target : ConcreteType} :
    CanCarry node input output source target ↔
      (∃ values : Std.ExtTreeMap VarKey Payload,
        input.type.payload.substitute values node = .inst source.payload ∧
          output.type.payload.substitute values node = .inst target.payload) ∧
      (∃ values : Std.ExtTreeMap VarKey UnitTag,
        input.type.unit.substitute values node = .inst source.unit ∧
          output.type.unit.substitute values node = .inst target.unit) ∧
      (∃ values : Std.ExtTreeMap VarKey Cardinality,
        input.type.cardinality.substitute values node = .inst source.cardinality ∧
          output.type.cardinality.substitute values node = .inst target.cardinality) ∧
      input.type.temporality = source.temporality ∧ output.type.temporality = target.temporality := by
  simp only [CanCarry, Substitution.substituted, ConcreteType.toPortType, PortType.mk.injEq]
  constructor
  · rintro ⟨s, hover, ⟨hp, hu, hk, ht⟩, ⟨hp', hu', hk', ht'⟩⟩
    simp only [Substitution.cardinalityOf, hover, Std.ExtTreeMap.getElem?_empty] at hk hk'
    exact ⟨⟨_, hp, hp'⟩, ⟨_, hu, hu'⟩, ⟨_, hk, hk'⟩, ht, ht'⟩
  · rintro ⟨⟨payload, hp, hp'⟩, ⟨unit, hu, hu'⟩, ⟨cardinality, hk, hk'⟩, ht, ht'⟩
    refine ⟨{ payload, unit, cardinality }, rfl, ⟨hp, hu, ?_, ht⟩, ⟨hp', hu', ?_, ht'⟩⟩
    · simpa [Substitution.cardinalityOf] using hk
    · simpa [Substitution.cardinalityOf] using hk'

namespace Block

private theorem payload_eq_of_adapterTypeFlaw? {input output : PortType}
    (h : adapterTypeFlaw? input output = none) (hvar : input.payload.isVar = true) :
    input.payload = output.payload := by
  unfold adapterTypeFlaw? at h
  split at h
  · cases h
  · split at h
    · cases h
    · split at h
      · next hin _ => simp [hin, Axis.isVar] at hvar
      · next v w hin hout =>
        split at h
        · next hvw => rw [hin, hout, hvw]
        · cases h
      · cases h

theorem Converts.payload_eq {b : Block} {input output : PortDeclaration}
    (hconv : b.Converts input output) (h : b.adapterFlaw? = none)
    (hvar : input.type.payload.isVar = true) : input.type.payload = output.type.payload := by
  unfold adapterFlaw? at h
  rw [hconv.inputs, hconv.outputs] at h
  dsimp only at h
  split at h
  · cases h
  · exact payload_eq_of_adapterTypeFlaw? h hvar

end Block

namespace Catalog

/-- The ports of an adapter can carry two types exactly if its rule fits them and they agree where the
ports share a variable. -/
theorem Built.canCarry_iff {c : Catalog} (h : c.Built) {rule : AdapterRule}
    (hr : rule ∈ c.adapterRules) (node : NodeId) (source target : ConcreteType) :
    ∃ b input output, c.lookup? rule.block = some b ∧ b.inputs = [input] ∧ b.outputs = [output] ∧
      rule.inputPort = input.name ∧ rule.outputPort = output.name ∧
      (CanCarry node input output source target ↔
        rule.converts source target = true ∧
          (input.type.payload.isVar = true → source.payload = target.payload) ∧
          (input.type.unit.isVar = true → input.type.unit = output.type.unit →
            source.unit = target.unit)) := by
  obtain ⟨b, input, output, hlookup, hconv, hs, ht, hin, hout, hadapter⟩ := h.exists_block hr
  refine ⟨b, input, output, hlookup, hconv.inputs, hconv.outputs, hin, hout, ?_⟩
  have hpayload := hconv.payload_eq ((h.valid hlookup).adapter_sound hadapter)
  obtain ⟨v, hvin, hvout⟩ := hconv.cardinality
  rw [canCarry_iff_axes, exists_values_iff, exists_values_iff, exists_values_iff, AdapterRule.converts,
    Bool.and_eq_true, Bool.and_eq_true, hs, ht, TypePattern.admits_ofPortType_iff,
    TypePattern.admits_ofPortType_iff, ConcreteType.sameExtent, Bool.and_eq_true, decide_eq_true_iff,
    decide_eq_true_iff, hvin, hvout]
  constructor
  · rintro ⟨⟨hp, hp', hsp⟩, ⟨hu, hu', hsu⟩, ⟨-, -, hsk⟩, htin, htout⟩
    have htemp : source.temporality = target.temporality := by
      rw [← htin, ← htout, hconv.temporality]
    exact ⟨⟨⟨⟨hsk rfl rfl, htemp⟩, hp, hu, htin⟩, hp', hu', htout⟩,
      fun hvar => hsp hvar (hpayload hvar), hsu⟩
  · rintro ⟨⟨⟨⟨hk, -⟩, hp, hu, htin⟩, hp', hu', htout⟩, hsp, hsu⟩
    refine ⟨⟨hp, hp', fun hvar _ => hsp hvar⟩, ⟨hu, hu', hsu⟩, ⟨?_, ?_, fun _ _ => hk⟩, htin, htout⟩
    · intro c hc
      cases hc
    · intro c hc
      cases hc

/-- A clock that counts in milliseconds, a timer that wants them as a number with a fraction, and an
adapter that passes on milliseconds of any payload. -/
def relays : Catalog := (Catalog.empty.insertAll [
  { name := "Clock", outputs := [⟨"t", ⟨.inst .int, .inst .ms, .inst .one, .continuous⟩⟩] },
  { name := "Timer", inputs := [⟨"t", ⟨.inst .float, .inst .ms, .inst .one, .continuous⟩⟩] },
  { name := "Relay"
    inputs := [⟨"in", ⟨.var "P", .inst .ms, .var "C", .continuous⟩⟩]
    outputs := [⟨"out", ⟨.var "P", .inst .ms, .var "C", .continuous⟩⟩]
    adapter := some { cost := 1, kernel := .cast } }]).1

theorem relays_built : relays.Built := Built.empty.insertAll _

/-- The rule of the relay fits an integer on one side and a fraction on the other, although its ports
share the payload. -/
theorem relay_cannot_carry :
    ∃ rule ∈ relays.adapterRules, ∃ source target : ConcreteType,
      rule.converts source target = true ∧
        ∃ b input output, relays.lookup? rule.block = some b ∧ b.inputs = [input] ∧
          b.outputs = [output] ∧ ¬ CanCarry "relay" input output source target := by
  let source : ConcreteType := ⟨.int, .ms, .one, .continuous, rfl⟩
  let target : ConcreteType := ⟨.float, .ms, .one, .continuous, rfl⟩
  have hrules : relays.adapterRules.any (fun r => r.converts source target && r.block == "Relay") =
      true := by decide +kernel
  obtain ⟨rule, hrule, hfits⟩ := List.any_eq_true.mp hrules
  obtain ⟨hconv, hname⟩ := Bool.and_eq_true_iff.mp hfits
  obtain ⟨b, input, output, hlookup, hin, hout, -, -, hiff⟩ :=
    relays_built.canCarry_iff hrule "relay" source target
  refine ⟨rule, hrule, source, target, hconv, b, input, output, hlookup, hin, hout, fun hcarry => ?_⟩
  have hvar : input.type.payload.isVar = true := by
    have hports : ((relays.lookup? "Relay").map fun b => b.inputs.map (·.type.payload.isVar)) =
        some [true] := by decide +kernel
    rw [← beq_iff_eq.mp hname, hlookup] at hports
    simpa [hin] using hports
  exact absurd ((hiff.mp hcarry).2.1 hvar) (by decide)

end Catalog

end PatchTyping
