import PatchTyping.Diagnostics
import PatchTyping.PatchDocuments

/-!
# Constraints

What a patch demands of the types of its ports. On the payload and unit axes the unknowns are the
variables of nodes; two known sides demand nothing, since an adapter can reconcile them. On the
cardinality axis every port is an unknown of its own. The ports of a constraint on payload or unit serve
messages only.
-/

namespace PatchTyping

/-- Why two ports are related. -/
inductive Origin where
  | template (node : NodeId)
  | edge (id : EdgeId)
deriving DecidableEq, Repr

inductive AxisConstraint (α : Type) where
  | equal (a b : PortKey) (lhs rhs : VarKey) (origin : Origin)
  /-- The value of the variable is known because `source` has it. -/
  | fixed (port : PortKey) (var : VarKey) (value : α) (source : PortKey) (origin : Origin)
deriving DecidableEq, Repr

/-- A port of a broadcast group. -/
structure ZipMember where
  port : PortKey
  role : PortDirection
deriving DecidableEq, Repr

inductive CardinalityConstraint where
  | equal (a b : PortKey) (origin : Origin)
  | fixed (port : PortKey) (value : Cardinality)
  | zipBroadcast (group : NodeId) (members : List ZipMember)
deriving DecidableEq, Repr

/-- An edge whose ends are an output and an input, and which is alone in driving that input. -/
structure EdgePair where
  edge : EdgeId
  source : PortKey
  target : PortKey
deriving DecidableEq, Repr

/-- What is known of a port before inference. -/
structure PortInfo where
  /-- The override, if there is one, and the base type otherwise. -/
  type : PortType
  direction : PortDirection
  zipMember : Bool
  /-- The cardinality comes from a pin and not from the declaration. -/
  pinned : Bool
deriving DecidableEq, Repr

abbrev PortTable := Std.ExtTreeMap PortKey PortInfo

structure ConstraintSet where
  payload : List (AxisConstraint Payload) := []
  unit : List (AxisConstraint UnitTag) := []
  cardinality : List CardinalityConstraint := []
  edgePairs : List EdgePair := []
  ports : PortTable := ∅
deriving DecidableEq

/-- The variable of each port that has one on some axis. -/
abbrev Bindings := Std.ExtTreeMap PortKey VarKey

namespace PortTable

def bindings {α : Type} (ports : PortTable) (axis : PortType → Axis α) : Bindings :=
  ports.filterMap fun k info => (axis info.type).name?.map (VarKey.mk k.node)

end PortTable

namespace Origin

def text : Origin → String
  | template node => "the block template of node " ++ inQuotes node
  | edge id => "edge " ++ inQuotes id

/-- The edge, as something a diagnostic is about. -/
def targets : Origin → List Target
  | template _ => []
  | edge id => [.edge id]

def toJson : Origin → Json
  | template node => .obj [("kind", .str "template"), ("id", .str node)]
  | edge id => .obj [("kind", .str "edge"), ("id", .str id)]

end Origin

namespace VarKey

def toJson (k : VarKey) : Json := .obj [("node", .str k.node), ("var", .str k.var)]

end VarKey

namespace AxisConstraint

def toJson {α : Type} (valueName : α → String) : AxisConstraint α → Json
  | equal a b lhs rhs origin =>
    .obj [("kind", .str "equal"), ("a", a.toJson), ("b", b.toJson), ("lhs", lhs.toJson),
      ("rhs", rhs.toJson), ("origin", origin.toJson)]
  | fixed port var value source origin =>
    .obj [("kind", .str "fixed"), ("port", port.toJson), ("var", var.toJson),
      ("value", .str (valueName value)), ("source", source.toJson), ("origin", origin.toJson)]

end AxisConstraint

namespace ZipMember

def toJson (m : ZipMember) : Json := .obj [("port", m.port.toJson), ("role", .str m.role.name)]

end ZipMember

namespace CardinalityConstraint

def toJson : CardinalityConstraint → Json
  | equal a b origin =>
    .obj [("kind", .str "equal"), ("a", a.toJson), ("b", b.toJson), ("origin", origin.toJson)]
  | fixed port value =>
    .obj [("kind", .str "fixed"), ("port", port.toJson), ("value", .str value.text)]
  | zipBroadcast group members =>
    .obj [("kind", .str "zip_broadcast"), ("group", .str group),
      ("members", .arr (members.map ZipMember.toJson))]

end CardinalityConstraint

namespace EdgePair

def toJson (p : EdgePair) : Json :=
  .obj [("edge", .str p.edge), ("from", p.source.toJson), ("to", p.target.toJson)]

end EdgePair

namespace PortInfo

def toJson (i : PortInfo) : Json :=
  .obj [("ty", i.type.toJson), ("dir", .str i.direction.name), ("zip_member", .bool i.zipMember),
    ("pinned", .bool i.pinned)]

end PortInfo

namespace ConstraintSet

def toJson (s : ConstraintSet) : Json :=
  .obj [("payload", .arr (s.payload.map (·.toJson Payload.name))),
    ("unit", .arr (s.unit.map (·.toJson UnitTag.name))),
    ("cardinality", .arr (s.cardinality.map CardinalityConstraint.toJson)),
    ("edge_pairs", .arr (s.edgePairs.map EdgePair.toJson)),
    ("ports", .obj (s.ports.toList.map fun (k, i) => (k.text, i.toJson)))]

end ConstraintSet

end PatchTyping
