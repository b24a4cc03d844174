import PatchTyping.PatchDocuments
import PatchTyping.Substitutions

/-!
# Typed patches

A patch with the types of its ports, and on each edge the type it carries if both ends agree on one.
-/

namespace PatchTyping

structure TypedNode where
  block : String
  provenance : Provenance
  /-- Axes that could not be inferred are still variables. -/
  ports : Std.ExtTreeMap String PortType
deriving DecidableEq

structure TypedEdge where
  source : PortKey
  target : PortKey
  carried : Option ConcreteType
deriving DecidableEq

structure TypedPatch where
  nodes : Std.ExtTreeMap NodeId TypedNode := ∅
  edges : Std.ExtTreeMap EdgeId TypedEdge := ∅
deriving DecidableEq

namespace PortTyping

def ofNode (types : PortTyping) (id : NodeId) : Std.ExtTreeMap String PortType :=
  Std.ExtTreeMap.ofList (types.toList.filterMap fun (k, t) =>
    if k.node = id then some (k.port, t) else none)

/-- The type that an edge between two ports carries. -/
def carried? (types : PortTyping) (e : Edge) : Option ConcreteType :=
  match types.concrete? e.source, types.concrete? e.target with
  | some a, some b => if a = b then some a else none
  | _, _ => none

end PortTyping

/-- Attach types to the nodes and edges of a patch. -/
def Patch.typed (g : Patch) (types : PortTyping) : TypedPatch where
  nodes := g.nodes.map fun id n => ⟨n.block, n.provenance, types.ofNode id⟩
  edges := g.edges.map fun _ e => ⟨e.source, e.target, types.carried? e⟩

namespace TypedNode

def isConcrete (n : TypedNode) : Bool := n.ports.values.all PortType.isConcrete

def toJson (id : NodeId) (n : TypedNode) : Json :=
  .obj <|
    [("id", .str id), ("block", .str n.block)] ++ n.provenance.field
      ++ [("ports", typeMapJson n.ports)]

end TypedNode

namespace TypedEdge

def toJson (id : EdgeId) (e : TypedEdge) : Json :=
  .obj <|
    [("id", .str id), ("from", e.source.toJson), ("to", e.target.toJson)]
      ++ Json.optional "type" (e.carried.map fun t => .str t.text)

end TypedEdge

namespace TypedPatch

def portType? (t : TypedPatch) (k : PortKey) : Option PortType :=
  t.nodes[k.node]?.bind (·.ports[k.port]?)

def isFullyConcrete (t : TypedPatch) : Bool := t.nodes.values.all TypedNode.isConcrete

def adapters (t : TypedPatch) : List (NodeId × TypedNode) :=
  t.nodes.toList.filter fun n => !n.2.provenance.isAuthored

def toJson (t : TypedPatch) : Json :=
  .obj [("nodes", .obj (t.nodes.toList.map fun (id, n) => (id, n.toJson id))),
    ("edges", .obj (t.edges.toList.map fun (id, e) => (id, e.toJson id)))]

end TypedPatch

end PatchTyping
