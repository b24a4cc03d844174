import PatchTyping.BlockCatalog

/-!
# Adapter rules

Each adapter block of a catalog is a rule: it converts signals that fit one pattern into signals that
fit another, without changing how many values there are or when.
-/

namespace PatchTyping

structure AdapterRule where
  /-- The name of the adapter block, which is also the name of the rule. -/
  block : String
  source : TypePattern
  target : TypePattern
  inputPort : String
  outputPort : String
  cost : UInt32
  kernel : Kernel

namespace AdapterRule

def ofBlock? (b : Block) : Option AdapterRule := do
  let spec ← b.adapter
  let (source, target) ← b.adapterPatterns
  let input ← b.inputs.head?
  let output ← b.outputs.head?
  return ⟨b.name, source, target, input.name, output.name, spec.cost, spec.kernel⟩

def converts (r : AdapterRule) (source target : ConcreteType) : Bool :=
  source.sameExtent target && r.source.admits source && r.target.admits target

end AdapterRule

namespace Catalog

def adapterRules (c : Catalog) : List AdapterRule := c.toList.filterMap AdapterRule.ofBlock?

end Catalog

def candidateRules (rules : List AdapterRule) (source target : ConcreteType) : List AdapterRule :=
  rules.filter (·.converts source target)

end PatchTyping
