import PatchTyping.BlockCatalog
import PatchTyping.TypedPatches

/-!
# Lowering to the backend

A typed patch is handed to the backend only under three obligations: every edge connects two ports of
one concrete type, every port is concrete, and no adapter changes the extent of a signal. What the
backend gets no longer tells spliced nodes from others.
-/

namespace PatchTyping

/-- Which of the obligations hold. -/
structure Certificate where
  edgesConsistent : Bool
  fullyConcrete : Bool
  extentsPreserved : Bool
deriving DecidableEq, Repr

namespace Certificate

def allPass (c : Certificate) : Bool := c.edgesConsistent && c.fullyConcrete && c.extentsPreserved

def toJson (c : Certificate) : Json :=
  .obj [("c1_edge_type_consistency", .bool c.edgesConsistent),
    ("c2_fully_concrete", .bool c.fullyConcrete),
    ("c3_adapter_extent_preservation", .bool c.extentsPreserved)]

end Certificate

structure BackendNode where
  id : NodeId
  block : String
  ports : Std.ExtTreeMap String ConcreteType
  /-- The conversion, if the block is an adapter. -/
  kernel : Option Kernel

structure BackendEdge where
  id : EdgeId
  source : PortKey
  target : PortKey
  type : ConcreteType
deriving DecidableEq

/-- Nodes and edges in the order of their names. -/
structure BackendPatch where
  nodes : List BackendNode
  edges : List BackendEdge

namespace BackendNode

def toJson (n : BackendNode) : Json :=
  .obj <|
    [("id", .str n.id), ("block", .str n.block),
      ("ports", .obj (n.ports.toList.map fun (name, t) => (name, .str t.text)))]
      ++ Json.optional "kernel" (n.kernel.map Kernel.toJson)

end BackendNode

namespace BackendEdge

def toJson (e : BackendEdge) : Json :=
  .obj [("id", .str e.id), ("from", e.source.toJson), ("to", e.target.toJson),
    ("type", .str e.type.text)]

end BackendEdge

namespace BackendPatch

def toJson (b : BackendPatch) : Json :=
  .obj [("nodes", .arr (b.nodes.map BackendNode.toJson)),
    ("edges", .arr (b.edges.map BackendEdge.toJson))]

end BackendPatch

namespace TypedNode

/-- All concrete ports have one extent. -/
def keepsExtent (n : TypedNode) : Bool :=
  match n.ports.values.filterMap PortType.concrete? with
  | [] => true
  | t :: ts => ts.all t.sameExtent

/-- The ports with their concrete types, if all have one. -/
def concretePorts? (n : TypedNode) : Option (Std.ExtTreeMap String ConcreteType) :=
  (n.ports.toList.mapM fun p => (PortType.concrete? p.2).map (Prod.mk p.1)).map
    fun ps => Std.ExtTreeMap.ofList ps

def lower? (catalog : Catalog) (id : NodeId) (n : TypedNode) : Option BackendNode := do
  let ports ← n.concretePorts?
  return ⟨id, n.block, ports,
    ((catalog.lookup? n.block).bind (·.adapter)).map (·.kernel)⟩

end TypedNode

namespace TypedEdge

def lower? (id : EdgeId) (e : TypedEdge) : Option BackendEdge :=
  e.carried.map fun t => ⟨id, e.source, e.target, t⟩

end TypedEdge

namespace TypedPatch

/-- The edge carries a type, and both its ends are ports of the patch. -/
def isConsistent (t : TypedPatch) (e : TypedEdge) : Bool :=
  e.carried.isSome && (t.portType? e.source).isSome && (t.portType? e.target).isSome

def certificate (t : TypedPatch) : Certificate where
  edgesConsistent := t.edges.values.all t.isConsistent
  fullyConcrete := t.isFullyConcrete
  extentsPreserved := t.adapters.all fun n => n.2.keepsExtent

def toBackend? (t : TypedPatch) (catalog : Catalog) : Option BackendPatch := do
  let nodes ← t.nodes.toList.mapM fun (id, n) => n.lower? catalog id
  let edges ← t.edges.toList.mapM fun (id, e) => e.lower? id
  return ⟨nodes, edges⟩

def lower? (t : TypedPatch) (catalog : Catalog) : Option BackendPatch :=
  if t.certificate.allPass then t.toBackend? catalog else none

end TypedPatch

end PatchTyping
