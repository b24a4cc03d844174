import PatchTyping.BlockCatalog
import PatchTyping.ConstraintSets

/-!
# Extraction of constraints

A patch is read against a catalog. Each node of a known block contributes its ports, the constraints
among ports that share a cardinality variable, and its block's templates. Each edge between an output
and an input contributes an equation on every axis; of several such edges into one input only the first
counts. Whatever cannot be used is reported and left out.
-/

namespace PatchTyping

namespace Node

/-- The ports of a node with what is known of them, in the order of declaration. -/
def portInfos (n : Node) (id : NodeId) (b : Block) : List (PortKey × PortInfo) :=
  let members := b.zipMembers
  b.ports.map fun (direction, p) =>
    let override? := n.overrides[p.name]?
    (⟨id, p.name⟩,
      { type := override?.getD (b.baseType p)
        direction
        zipMember := members.contains p.name
        pinned := override?.isNone && b.pinsCardinality p.name })

/-- Overrides of ports that the block does not have. -/
def overrideDiagnostics (n : Node) (id : NodeId) (b : Block) : List Diagnostic :=
  (n.overrides.keys.filter fun p => (b.port? p).isNone).map fun p =>
    { kind := .unknownPortOverride
      message := "node " ++ inQuotes id ++ " overrides port " ++ inQuotes p ++ ", which block "
        ++ inQuotes b.name ++ " does not declare"
      targets := [.node id] }

def unknownBlock (n : Node) (id : NodeId) : Diagnostic where
  kind := .unknownBlockType
  message := "node " ++ inQuotes id ++ " uses unknown block type " ++ inQuotes n.block
  targets := [.node id]
  hint := "load a catalog that defines this block with --catalog"

def diagnostics (n : Node) (catalog : Catalog) (id : NodeId) : List Diagnostic :=
  match catalog.lookup? n.block with
  | some b => n.overrideDiagnostics id b
  | none => [n.unknownBlock id]

end Node

/-- A known cardinality is fixed; a variable is equated with the first port that has it. -/
def declaredCardinalities (node : NodeId) :
    Std.ExtTreeMap String PortKey → List (PortKey × PortInfo) → List CardinalityConstraint
  | _, [] => []
  | first, (k, info) :: rest =>
    match info.type.cardinality with
    | .inst value => .fixed k value :: declaredCardinalities node first rest
    | .var name =>
      match first[name]? with
      | some a => .equal a k (.template node) :: declaredCardinalities node first rest
      | none => declaredCardinalities node (first.insert name k) rest

def consecutive {α : Type} : List α → List (α × α)
  | a :: b :: rest => (a, b) :: consecutive (b :: rest)
  | _ => []

/-- Equate one axis of two ports. Two known sides yield nothing. -/
def relate {α : Type} (a : PortKey) (x : Axis α) (b : PortKey) (y : Axis α) (origin : Origin) :
    Option (AxisConstraint α) :=
  match x, y with
  | .var v, .var w => some (.equal a b ⟨a.node, v⟩ ⟨b.node, w⟩ origin)
  | .var v, .inst value => some (.fixed a ⟨a.node, v⟩ value b origin)
  | .inst value, .var w => some (.fixed b ⟨b.node, w⟩ value a origin)
  | .inst _, .inst _ => none

namespace PortTable

variable {α : Type}

def relate (ports : PortTable) (axis : PortType → Axis α) (a b : PortKey) (origin : Origin) :
    Option (AxisConstraint α) :=
  match ports[a]?, ports[b]? with
  | some x, some y => PatchTyping.relate a (axis x.type) b (axis y.type) origin
  | _, _ => none

/-- Constraints on payload or unit from the templates of a node. -/
def templateAxis (ports : PortTable) (which : AxisName) (axis : PortType → Axis α) (node : NodeId) :
    Template → List (AxisConstraint α)
  | .equal name ps =>
    if name = which then
      (consecutive (ps.map (PortKey.mk node))).filterMap fun (a, b) =>
        ports.relate axis a b (.template node)
    else []
  | .zipBroadcast _ => []
  | .fixed _ _ => []

/-- Constraints on cardinality from the templates of a node. Pins are part of the base types. -/
def templateCardinality (ports : PortTable) (node : NodeId) : Template → List CardinalityConstraint
  | .equal .cardinality ps =>
    (consecutive (ps.map (PortKey.mk node))).map fun (a, b) => .equal a b (.template node)
  | .equal _ _ => []
  | .zipBroadcast ps =>
    [.zipBroadcast node (ps.filterMap fun p =>
      ports[PortKey.mk node p]?.map fun info => ⟨⟨node, p⟩, info.direction⟩)]
  | .fixed _ _ => []

/-- There is such a port, and it faces the given way. -/
def faces (ports : PortTable) (k : PortKey) (direction : PortDirection) : Bool :=
  ports[k]?.any fun info => decide (info.direction = direction)

def joins (ports : PortTable) (e : Edge) : Bool :=
  ports.faces e.source .output && ports.faces e.target .input

/-- Some port of the node is known. -/
def knows (ports : PortTable) (node : NodeId) : Bool := ports.keys.any (·.node == node)

end PortTable

namespace Patch

variable (g : Patch)

def knownNodes (catalog : Catalog) : List (NodeId × Node × Block) :=
  g.nodes.toList.filterMap fun (id, n) => (catalog.lookup? n.block).map fun b => (id, n, b)

def portTable (catalog : Catalog) : PortTable :=
  Std.ExtTreeMap.ofList ((g.knownNodes catalog).flatMap fun (id, n, b) => n.portInfos id b)

/-- The first edge that can drive each input. -/
def drivers (ports : PortTable) : Std.ExtTreeMap PortKey EdgeId :=
  g.edges.toList.foldl (fun first (id, e) =>
    if ports.joins e then first.insertIfNew e.target id else first) ∅

/-- The edges that count. -/
def edgePairs (ports : PortTable) : List EdgePair :=
  let first := g.drivers ports
  g.edges.toList.filterMap fun (id, e) =>
    if ports.joins e && decide (first[e.target]? = some id) then some ⟨id, e.source, e.target⟩
    else none

def wrongDirection (edge : EdgeId) (k : PortKey) (side : String) : Diagnostic where
  kind := .danglingEdge
  message := "edge " ++ inQuotes edge ++ " uses " ++ inQuotes k.text ++ " as its " ++ side
    ++ ", which has the wrong direction"
  targets := [.edge edge, .port k]

def dangling (edge : EdgeId) (missing : String) : Diagnostic where
  kind := .danglingEdge
  message := "edge " ++ inQuotes edge ++ " references missing " ++ missing
  targets := [.edge edge]

/-- What is wrong with one end of an edge. A node without known ports has been reported already. -/
def endpointDiagnostics (ports : PortTable) (edge : EdgeId) (k : PortKey)
    (direction : PortDirection) (side : String) : List Diagnostic :=
  if ports.faces k direction then []
  else if ports.contains k then [wrongDirection edge k side]
  else if !g.nodes.contains k.node then [dangling edge ("node " ++ inQuotes k.node)]
  else if ports.knows k.node then [dangling edge ("port " ++ inQuotes k.text)]
  else []

def secondDriver (k : PortKey) (first second : EdgeId) : Diagnostic where
  kind := .multipleDrivers
  message := "input " ++ inQuotes k.text ++ " is driven by both edge " ++ inQuotes first
    ++ " and edge " ++ inQuotes second
  targets := [.port k, .edge first, .edge second]

/-- The input of an edge that could drive it belongs to an earlier edge. -/
def driverDiagnostics (ports : PortTable) (first : Std.ExtTreeMap PortKey EdgeId) (id : EdgeId)
    (e : Edge) : List Diagnostic :=
  if ports.joins e then
    match first[e.target]? with
    | some other => if other = id then [] else [secondDriver e.target other id]
    | none => []
  else []

def edgeDiagnostics (ports : PortTable) : List Diagnostic :=
  let first := g.drivers ports
  g.edges.toList.flatMap fun (id, e) =>
    g.endpointDiagnostics ports id e.source .output "source"
      ++ g.endpointDiagnostics ports id e.target .input "target"
      ++ driverDiagnostics ports first id e

def axisConstraints {α : Type} (catalog : Catalog) (ports : PortTable) (pairs : List EdgePair)
    (which : AxisName) (axis : PortType → Axis α) : List (AxisConstraint α) :=
  ((g.knownNodes catalog).flatMap fun (id, _, b) =>
      b.templates.flatMap (ports.templateAxis which axis id))
    ++ pairs.filterMap fun p => ports.relate axis p.source p.target (.edge p.edge)

def cardinalityConstraints (catalog : Catalog) (ports : PortTable) (pairs : List EdgePair) :
    List CardinalityConstraint :=
  ((g.knownNodes catalog).flatMap fun (id, n, b) =>
      declaredCardinalities id ∅ (n.portInfos id b)
        ++ b.templates.flatMap (ports.templateCardinality id))
    ++ pairs.map fun p => .equal p.source p.target (.edge p.edge)

/-- Everything the patch demands of the types of its ports. -/
def constraints (catalog : Catalog) : ConstraintSet :=
  let ports := g.portTable catalog
  let edgePairs := g.edgePairs ports
  { payload := g.axisConstraints catalog ports edgePairs .payload PortType.payload
    unit := g.axisConstraints catalog ports edgePairs .unit PortType.unit
    cardinality := g.cardinalityConstraints catalog ports edgePairs
    edgePairs
    ports }

def extractionDiagnostics (catalog : Catalog) : List Diagnostic :=
  (g.nodes.toList.flatMap fun (id, n) => n.diagnostics catalog id)
    ++ g.edgeDiagnostics (g.portTable catalog)

end Patch

end PatchTyping
