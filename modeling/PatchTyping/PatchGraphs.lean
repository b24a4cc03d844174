import PatchTyping.PortKeys
import PatchTyping.PortTypes

/-!
# Patches

A patch is a set of nodes and a set of edges, each under a name of its own. An edge leads from a port to
a port; whether those ports exist is not a matter of the patch alone and is looked at later. Two patches
are equal exactly when they have the same nodes and edges under the same names.
-/

namespace PatchTyping

/-- Where a node comes from. -/
inductive Provenance where
  | authored
  /-- Spliced in to convert what `replacedEdge` carried. -/
  | inserted (rule : String) (replacedEdge : EdgeId)
deriving DecidableEq, Repr

namespace Provenance

def isAuthored : Provenance → Bool
  | authored => true
  | inserted _ _ => false

end Provenance

/-- An instance of a block. An override replaces the base type of a port. -/
structure Node where
  block : String
  overrides : Std.ExtTreeMap String PortType := ∅
  provenance : Provenance := .authored
deriving DecidableEq

structure Edge where
  source : PortKey
  target : PortKey
deriving DecidableEq, Repr

inductive PatchError where
  | duplicateNode (id : NodeId)
  | duplicateEdge (id : EdgeId)
  | malformedPortRef (text : String)
deriving DecidableEq, Repr

namespace PatchError

def message : PatchError → String
  | duplicateNode id => "duplicate node id '" ++ id ++ "'"
  | duplicateEdge id => "duplicate edge id '" ++ id ++ "'"
  | malformedPortRef text => "malformed port reference: " ++ PortKey.refusal text

end PatchError

structure Patch where
  nodes : Std.ExtTreeMap NodeId Node := ∅
  edges : Std.ExtTreeMap EdgeId Edge := ∅
deriving DecidableEq

namespace Patch

def empty : Patch := {}

def node? (g : Patch) (id : NodeId) : Option Node := g.nodes[id]?

def edge? (g : Patch) (id : EdgeId) : Option Edge := g.edges[id]?

def addNode (g : Patch) (id : NodeId) (n : Node) : Except PatchError Patch :=
  if g.nodes.contains id then .error (.duplicateNode id)
  else .ok { g with nodes := g.nodes.insert id n }

def addEdge (g : Patch) (id : EdgeId) (e : Edge) : Except PatchError Patch :=
  if g.edges.contains id then .error (.duplicateEdge id)
  else .ok { g with edges := g.edges.insert id e }

def removeEdge (g : Patch) (id : EdgeId) : Patch := { g with edges := g.edges.erase id }

/-- All nodes, then all edges; the first name that is taken is the error. -/
def ofLists (nodes : List (NodeId × Node)) (edges : List (EdgeId × Edge)) :
    Except PatchError Patch := do
  let g ← nodes.foldlM (fun g n => g.addNode n.1 n.2) empty
  edges.foldlM (fun g e => g.addEdge e.1 e.2) g

def insertedCount (g : Patch) : Nat :=
  (g.nodes.toList.filter fun n => !n.2.provenance.isAuthored).length

/-- A line for the patch, one for each node and one for each edge. -/
def text (g : Patch) : String :=
  "DraftGraph (" ++ toString g.nodes.size ++ " nodes, " ++ toString g.edges.size ++ " edges)\n"
    ++ String.join (g.nodes.toList.map fun (id, n) => "  node " ++ id ++ ": " ++ n.block ++ "\n")
    ++ String.join (g.edges.toList.map fun (id, e) =>
      "  edge " ++ id ++ ": " ++ e.source.text ++ " -> " ++ e.target.text ++ "\n")

end Patch

/-- A patch written down step by step. After the first error nothing more is added. -/
structure PatchBuilder where
  patch : Patch := {}
  error : Option PatchError := none

namespace PatchBuilder

def record (b : PatchBuilder) (step : Patch → Except PatchError Patch) : PatchBuilder :=
  match b.error with
  | some _ => b
  | none =>
    match step b.patch with
    | .ok g => { b with patch := g }
    | .error e => { b with error := some e }

def node (b : PatchBuilder) (id : NodeId) (block : String) : PatchBuilder :=
  b.record fun g => g.addNode id { block }

/-- Override a port of a node that has been added; of any other node nothing is recorded. -/
def overridePort (b : PatchBuilder) (id : NodeId) (port : String) (t : PortType) : PatchBuilder :=
  match b.patch.nodes[id]? with
  | some n =>
    { b with patch := { b.patch with
        nodes := b.patch.nodes.insert id { n with overrides := n.overrides.insert port t } } }
  | none => b

def readPort (text : String) : Except PatchError PortKey :=
  match PortKey.parse? text with
  | some k => .ok k
  | none => .error (.malformedPortRef text)

def edge (b : PatchBuilder) (id : EdgeId) (source target : String) : PatchBuilder :=
  b.record fun g => do
    let source ← readPort source
    let target ← readPort target
    g.addEdge id ⟨source, target⟩

def build (b : PatchBuilder) : Except PatchError Patch :=
  match b.error with
  | some e => .error e
  | none => .ok b.patch

end PatchBuilder

end PatchTyping
