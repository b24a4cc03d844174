import PatchTyping.AdapterRules
import PatchTyping.StandardBlocks

/-!
# Validity of catalogs

A catalog that was filled by insertion and loading holds only blocks that pass the checks, each under
its own name. An adapter in it has one input and one output of the same extent and nothing else.
-/

namespace PatchTyping

namespace Block

private theorem repeated?_eq_none_iff (seen names : List String) :
    repeated? seen names = none ↔ names.Nodup ∧ ∀ n ∈ names, n ∉ seen := by
  induction names generalizing seen with
  | nil => simp [repeated?]
  | cons n ns ih =>
    by_cases h : n ∈ seen
    · simp [repeated?, h]
    · simp only [repeated?, h, if_false, ih, List.nodup_cons, List.mem_cons, not_or]
      grind

/-- What the checks of a catalog establish. -/
structure Valid (b : Block) : Prop where
  names_nodup : b.portNames.Nodup
  template_ports : ∀ t ∈ b.templates, ∀ p ∈ t.ports, p ∈ b.portNames
  base_admitted : ∀ p ∈ b.ports, (b.baseType p.2).disallowedPair? = none
  adapter_sound : b.adapter.isSome → b.adapterFlaw? = none

private theorem invalidFixed?_eq_none_iff (b : Block) :
    b.invalidFixed? = none ↔ ∀ p ∈ b.ports, (b.baseType p.2).disallowedPair? = none := by
  simp only [invalidFixed?, List.findSome?_eq_none_iff, PortType.check]
  refine forall₂_congr fun p _ => ?_
  cases (b.baseType p.2).disallowedPair? <;> simp

private theorem unknownTemplatePort?_eq_none_iff (b : Block) :
    b.unknownTemplatePort? = none ↔ ∀ t ∈ b.templates, ∀ p ∈ t.ports, p ∈ b.portNames := by
  simp only [unknownTemplatePort?, List.find?_eq_none, List.mem_flatMap, Bool.not_eq_true,
    Bool.not_eq_false', List.contains_eq_mem, decide_eq_true_eq]
  exact ⟨fun h t ht p hp => h p ⟨t, ht, hp⟩, fun h p ⟨t, ht, hp⟩ => h t ht p hp⟩

theorem refusal?_eq_none_iff (b : Block) : b.refusal? = none ↔ b.Valid := by
  have hnames := repeated?_eq_none_iff [] b.portNames
  have hports := unknownTemplatePort?_eq_none_iff b
  have hfixed := invalidFixed?_eq_none_iff b
  unfold refusal?
  constructor
  · intro h
    split at h
    · cases h
    · next h₁ =>
      split at h
      · cases h
      · next h₂ =>
        split at h
        · cases h
        · next h₃ =>
          refine ⟨(hnames.mp h₁).1, hports.mp h₂, hfixed.mp h₃, fun ha => ?_⟩
          simpa [ha] using h
  · rintro ⟨h₁, h₂, h₃, h₄⟩
    rw [hnames.mpr ⟨h₁, by simp⟩, hports.mpr h₂, hfixed.mpr h₃]
    by_cases ha : b.adapter.isSome
    · simp [ha, h₄ ha]
    · simp [ha]

/-- A block that only converts: one input and one output that share a cardinality variable and a
temporality. -/
structure Converts (b : Block) (input output : PortDeclaration) : Prop where
  inputs : b.inputs = [input]
  outputs : b.outputs = [output]
  templates : b.templates = []
  cardinality : ∃ v, input.type.cardinality = .var v ∧ output.type.cardinality = .var v
  temporality : input.type.temporality = output.type.temporality

theorem converts_of_adapterFlaw?_eq_none {b : Block} (h : b.adapterFlaw? = none) :
    ∃ input output, b.Converts input output := by
  unfold adapterFlaw? at h
  split at h
  · next input output hin hout =>
    split at h
    · cases h
    · next hplain =>
      have htemplates : b.templates = [] := by simp_all
      unfold adapterTypeFlaw? at h
      split at h
      · cases h
      · next hcard =>
        split at h
        · cases h
        · next htemp =>
          refine ⟨input, output, hin, hout, htemplates, ?_, by simpa using htemp⟩
          cases hci : input.type.cardinality <;> cases hco : output.type.cardinality <;>
            simp_all [Axis.name?]
  · cases h

namespace Converts

variable {b : Block} {input output : PortDeclaration} (h : b.Converts input output)
include h

theorem ports_eq : b.ports = [(.input, input), (.output, output)] := by
  simp [ports, h.inputs, h.outputs]

theorem pins_eq (name : String) : b.pins name = [] := by
  simp [pins, h.templates]

theorem baseType_eq (p : PortDeclaration) : b.baseType p = p.type := by
  simp [baseType, h.pins_eq]

theorem zipMembers_eq : b.zipMembers = [] := by
  simp [zipMembers, h.templates]

end Converts

end Block

namespace Catalog

/-- Filled by insertion and loading, of which any may fail. A document that is refused halfway leaves the
blocks before the refused one. -/
inductive Built : Catalog → Prop
  | empty : Built empty
  | insert {c : Catalog} (b : Block) : Built c → Built (c.insert b).1
  | load {c : Catalog} (source : String) (doc : DocumentText) : Built c → Built (c.load source doc).1

theorem Built.insertAll {c : Catalog} (h : c.Built) (bs : List Block) : (c.insertAll bs).1.Built := by
  induction bs generalizing c with
  | nil => exact h
  | cons b bs ih =>
    have hb := h.insert b
    unfold Catalog.insertAll
    split
    · next heq =>
      rw [heq] at hb
      exact ih hb
    · next heq => rwa [heq] at hb

theorem standard_built : standard.Built := Built.empty.insertAll StandardBlocks.all

/-- Each block is valid and stands under its own name. -/
def AllValid (c : Catalog) : Prop := ∀ name b, c.lookup? name = some b → b.name = name ∧ b.Valid

theorem AllValid.insert {c : Catalog} (h : c.AllValid) (b : Block) : (c.insert b).1.AllValid := by
  unfold Catalog.insert
  split
  · exact h
  · split
    · exact h
    · next hrefusal =>
      intro name b' hb'
      simp only [lookup?, Std.ExtTreeMap.getElem?_insert] at hb'
      split at hb'
      · next hname =>
        cases hb'
        exact ⟨by simpa using hname, (Block.refusal?_eq_none_iff b).mp hrefusal⟩
      · exact h name b' hb'

theorem AllValid.insertAll {c : Catalog} (h : c.AllValid) (bs : List Block) :
    (c.insertAll bs).1.AllValid := by
  induction bs generalizing c with
  | nil => exact h
  | cons b bs ih =>
    have hb := h.insert b
    unfold Catalog.insertAll
    split
    · next heq =>
      rw [heq] at hb
      exact ih hb
    · next heq => rwa [heq] at hb

theorem AllValid.load {c : Catalog} (h : c.AllValid) (source : String) (doc : DocumentText) :
    (c.load source doc).1.AllValid := by
  unfold Catalog.load
  split
  · exact h
  · next blocks _ =>
    have hall := h.insertAll blocks
    split
    · next heq => rwa [heq] at hall
    · next heq => rwa [heq] at hall

theorem Built.allValid {c : Catalog} (h : c.Built) : c.AllValid := by
  induction h with
  | empty =>
    intro name b hb
    simp [lookup?, Catalog.empty] at hb
  | insert b _ ih => exact ih.insert b
  | load source doc _ ih => exact ih.load source doc

theorem Built.valid {c : Catalog} (h : c.Built) {name : String} {b : Block}
    (hb : c.lookup? name = some b) : b.Valid :=
  (h.allValid name b hb).2

/-- A rule of a catalog is one of its blocks, found under the rule's name. -/
theorem Built.exists_block {c : Catalog} (h : c.Built) {rule : AdapterRule}
    (hr : rule ∈ c.adapterRules) :
    ∃ b input output, c.lookup? rule.block = some b ∧ b.Converts input output ∧
      rule.source = .ofPortType input.type ∧ rule.target = .ofPortType output.type ∧
      rule.inputPort = input.name ∧ rule.outputPort = output.name ∧ b.adapter.isSome = true := by
  obtain ⟨b, hb, hrule⟩ := List.mem_filterMap.mp hr
  obtain ⟨⟨name, b'⟩, hmem, rfl⟩ := List.mem_map.mp hb
  have hlookup : c.lookup? name = some b' :=
    Std.ExtTreeMap.mem_toList_iff_getElem?_eq_some.mp hmem
  obtain ⟨hname, hvalid⟩ := h.allValid name b' hlookup
  cases ha : b'.adapter with
  | none => simp [AdapterRule.ofBlock?, ha] at hrule
  | some spec =>
    obtain ⟨input, output, hconv⟩ :=
      Block.converts_of_adapterFlaw?_eq_none (hvalid.adapter_sound (by simp [ha]))
    simp only [AdapterRule.ofBlock?, Block.adapterPatterns, ha, hconv.inputs, hconv.outputs,
      List.head?_cons] at hrule
    cases hrule
    exact ⟨b', input, output, hname ▸ hlookup, hconv, rfl, rfl, rfl, rfl, by simp [ha]⟩

end Catalog

end PatchTyping
