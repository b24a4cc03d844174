import PatchTyping.BlockCatalog
import PatchTyping.Diagnostics
import PatchTyping.PatchGraphs
import PatchTyping.StrongComponents

/-!
# Feedback cycles

Nodes that depend on each other form a cycle. A cycle is sound when every way around it passes through
a block that reads the previous frame; otherwise some values depend on themselves within one frame.
Dropping the edges into such blocks leaves the dependencies within a frame.
-/

namespace PatchTyping

inductive CycleClass where
  | legalFeedback
  | illegalInstantaneous
deriving DecidableEq, Repr

structure CycleReport where
  /-- Members in the order of their names. -/
  nodes : List NodeId
  cycleClass : CycleClass
deriving DecidableEq, Repr

namespace CycleClass

def name : CycleClass → String
  | legalFeedback => "legal_feedback"
  | illegalInstantaneous => "illegal_instantaneous"

end CycleClass

namespace CycleReport

def toJson (r : CycleReport) : Json :=
  .obj [("nodes", .arr (r.nodes.map Json.str)), ("class", .str r.cycleClass.name)]

def diagnostic? (r : CycleReport) : Option Diagnostic :=
  match r.cycleClass with
  | .legalFeedback => none
  | .illegalInstantaneous => some
    { kind := .illegalInstantaneousCycle
      message := "cycle through " ++ listed r.nodes ++ " is evaluated within a single frame"
      targets := r.nodes.map .node
      hint :=
        "route the feedback through a block that reads the previous frame, such as Delay" }

end CycleReport

namespace Patch

/-- Nodes that each node leads to over the kept edges. Edges to or from a missing node do not count. -/
def successors (g : Patch) (keep : Edge → Bool) : SuccessorMap :=
  g.edges.toList.foldl (fun succ (_, e) =>
      if g.nodes.contains e.target.node && keep e then
        succ.modify e.source.node (·.insert e.target.node)
      else succ)
    (Std.ExtTreeMap.ofList (g.nodes.keys.map fun id => (id, ∅)))

/-- The block of a node reads the previous frame. -/
def readsPreviousFrame (g : Patch) (catalog : Catalog) (id : NodeId) : Bool :=
  match g.nodes[id]? with
  | some n => (catalog.lookup? n.block).any (·.readsPreviousFrame)
  | none => false

def instantaneous (g : Patch) (catalog : Catalog) : SuccessorMap :=
  g.successors fun e => !g.readsPreviousFrame catalog e.target.node

end Patch

/-- Only what happens among the members. -/
def SuccessorMap.restrict (succ : SuccessorMap) (members : Std.ExtTreeSet NodeId) : SuccessorMap :=
  (succ.filter fun v _ => members.contains v).map fun _ out => out.filter members.contains

/-- What a cyclic component is, given the dependencies within a frame. -/
def reportCycle (withinFrame : SuccessorMap) (nodes : List NodeId) : CycleReport where
  nodes
  cycleClass :=
    if (cyclicComponents (SuccessorMap.restrict withinFrame (.ofList nodes))).isEmpty then
      .legalFeedback
    else .illegalInstantaneous

namespace Patch

/-- All cycles, each once, in the order of their smallest members. -/
def cycles (g : Patch) (catalog : Catalog) : List CycleReport :=
  let components := cyclicComponents (g.successors fun _ => true)
  let withinFrame := g.instantaneous catalog
  g.nodes.keys.filterMap fun id =>
    (components.find? fun c => c.head? = some id).map (reportCycle withinFrame)

end Patch

end PatchTyping
