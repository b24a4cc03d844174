import PatchTyping.PortKeys

/-!
# The plan of passes

Normalization is made of passes. Some of them are repeated until splicing leaves the patch as it is,
the others come once after that. A run up to some pass takes exactly the passes that one rests on.
-/

namespace PatchTyping

inductive Pass where
  | extract
  | solvePayloadUnit
  | solveCardinality
  | insertAdapters
  | classifyCycles
  | lower
deriving DecidableEq, Repr

/-- What a pass leaves behind. -/
inductive Artifact where
  | constraints | payloadUnit | cardinality | graph | typed | cycles | cert | backend
deriving DecidableEq, Repr

namespace Pass

/-- In an order in which they can be run. -/
def all : List Pass :=
  [extract, solvePayloadUnit, solveCardinality, insertAdapters, classifyCycles, lower]

def name : Pass → String
  | extract => "extract"
  | solvePayloadUnit => "solve_payload_unit"
  | solveCardinality => "solve_cardinality"
  | insertAdapters => "insert_adapters"
  | classifyCycles => "classify_cycles"
  | lower => "lower"

def ofName? (text : String) : Option Pass := all.find? fun p => p.name == text

def inputs : Pass → List Pass
  | extract => []
  | solvePayloadUnit => [extract]
  | solveCardinality => [extract]
  | insertAdapters => [solvePayloadUnit, solveCardinality]
  | classifyCycles => [insertAdapters]
  | lower => [insertAdapters, classifyCycles]

def outputs : Pass → List Artifact
  | extract => [.constraints]
  | solvePayloadUnit => [.payloadUnit]
  | solveCardinality => [.cardinality]
  | insertAdapters => [.graph, .typed]
  | classifyCycles => [.cycles]
  | lower => [.cert, .backend]

/-- The pass is repeated. -/
def perIteration : Pass → Bool
  | extract | solvePayloadUnit | solveCardinality | insertAdapters => true
  | classifyCycles | lower => false

/-- What a pass guarantees. -/
def invariants : Pass → String
  | extract => "every port of a known block has a declared type"
  | solvePayloadUnit => "conflicting classes never merged"
  | solveCardinality => "single-valued inputs never widened"
  | insertAdapters => "an edge is rewritten only by a unique rule"
  | classifyCycles => "every nontrivial SCC classified"
  | lower => "C1-C3 obligations verified, provenance erased"

/-- A pass and all it rests on, as far as the given number of steps leads. -/
def closure : Nat → Pass → List Pass
  | 0, p => [p]
  | n + 1, p => p :: p.inputs.flatMap (closure n)

def required (terminal : Pass) : List Pass :=
  all.filter (closure all.length terminal).contains

end Pass

end PatchTyping
