import PatchTyping.AdapterIdentity
import PatchTyping.AdapterRules
import PatchTyping.Substitutions

/-!
# Splicing of adapters

An edge between two concrete types that differ in payload, unit or temporality is replaced by a way
through an adapter, provided that exactly one rule fits. Edges of which a type is not known, and edges
between different cardinalities, are left to the inference that has reported them.
-/

namespace PatchTyping

/-- An adapter that has been put into a patch. -/
structure Splice where
  node : NodeId
  rule : String
  replacedEdge : EdgeId
  source : ConcreteType
  target : ConcreteType
deriving DecidableEq

namespace Splice

def toJson (s : Splice) : Json :=
  .obj [("node", .str s.node), ("rule", .str s.rule), ("replaced_edge", .str s.replacedEdge),
    ("from", .str s.source.text), ("to", .str s.target.text)]

end Splice

inductive SpliceVerdict where
  | keep
  | refuse (d : Diagnostic)
  | replace (patch : Patch) (splice : Splice)

namespace EdgePair

def noConversion (p : EdgePair) (source target : ConcreteType) : Diagnostic where
  kind := .noConversionPath
  message := "no adapter converts " ++ source.text ++ " to " ++ target.text ++ " on edge "
    ++ inQuotes p.edge ++ " (" ++ inQuotes p.source.text ++ " -> " ++ inQuotes p.target.text ++ ")"
  targets := [.edge p.edge, .port p.source, .port p.target]
  hint := "register an adapter block for this conversion or change one endpoint"

def ambiguous (p : EdgePair) (source target : ConcreteType) (rules : List AdapterRule) :
    Diagnostic where
  kind := .ambiguousAdapter
  message := toString rules.length ++ " adapters convert " ++ source.text ++ " to " ++ target.text
    ++ " on edge " ++ inQuotes p.edge ++ ": " ++ ", ".intercalate (rules.map (·.block))
  targets := [.edge p.edge]
  hint := "insert the intended adapter block explicitly"

def cannotSplice (p : EdgePair) (rule : AdapterRule) (reason : String) (more : List Target) :
    Diagnostic where
  kind := .noConversionPath
  message := "cannot splice " ++ rule.block ++ " into edge " ++ inQuotes p.edge ++ ": " ++ reason
  targets := .edge p.edge :: more

def adapterId (p : EdgePair) (rule : AdapterRule) : NodeId :=
  adapterNodeId p.source p.target rule.block

/-- Name and course of the edge that leads into the adapter. -/
def entryEdge (p : EdgePair) (rule : AdapterRule) : EdgeId × Edge :=
  let id := p.adapterId rule
  (adapterEdgeId id rule.inputPort, ⟨p.source, ⟨id, rule.inputPort⟩⟩)

/-- Name and course of the edge that leads out of the adapter. -/
def exitEdge (p : EdgePair) (rule : AdapterRule) : EdgeId × Edge :=
  let id := p.adapterId rule
  (adapterEdgeId id rule.outputPort, ⟨⟨id, rule.outputPort⟩, p.target⟩)

def adapterNode (p : EdgePair) (rule : AdapterRule) : Node where
  block := rule.block
  provenance := .inserted rule.block p.edge

/-- Put an adapter in the place of an edge. The names must not be taken. -/
def spliceInto (p : EdgePair) (rule : AdapterRule) (g : Patch) : Except PatchError Patch := do
  let entry := p.entryEdge rule
  let exit := p.exitEdge rule
  if g.edges.contains entry.1 || g.edges.contains exit.1 then
    throw (.duplicateEdge entry.1)
  let g ← g.addNode (p.adapterId rule) (p.adapterNode rule)
  let g ← (g.removeEdge p.edge).addEdge entry.1 entry.2
  g.addEdge exit.1 exit.2

def applyRule (p : EdgePair) (rule : AdapterRule) (source target : ConcreteType) (g : Patch) :
    SpliceVerdict :=
  let id := p.adapterId rule
  if g.nodes.contains id then
    .refuse (p.cannotSplice rule ("node id " ++ inQuotes id ++ " is already taken") [.node id])
  else
    match p.spliceInto rule g with
    | .ok g => .replace g ⟨id, rule.block, p.edge, source, target⟩
    | .error e => .refuse (p.cannotSplice rule e.message [])

def verdict (p : EdgePair) (rules : List AdapterRule) (types : PortTyping) (g : Patch) :
    SpliceVerdict :=
  match types.concrete? p.source, types.concrete? p.target with
  | some source, some target =>
    if source = target ∨ source.cardinality ≠ target.cardinality then .keep
    else
      match candidateRules rules source target with
      | [] => .refuse (p.noConversion source target)
      | [rule] => p.applyRule rule source target g
      | several => .refuse (p.ambiguous source target several)
  | _, _ => .keep

end EdgePair

/-- A patch after splicing, the adapters in the order in which they were put in, and the edges for
which there was none. -/
structure Splicing where
  patch : Patch
  inserted : List Splice := []
  diagnostics : List Diagnostic := []

def spliceAll (rules : List AdapterRule) (types : PortTyping) : List EdgePair → Patch → Splicing
  | [], g => { patch := g }
  | p :: ps, g =>
    match p.verdict rules types g with
    | .keep => spliceAll rules types ps g
    | .refuse d =>
      let r := spliceAll rules types ps g
      { r with diagnostics := d :: r.diagnostics }
    | .replace g s =>
      let r := spliceAll rules types ps g
      { r with inserted := s :: r.inserted }

end PatchTyping
