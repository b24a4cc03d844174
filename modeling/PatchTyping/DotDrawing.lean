import PatchTyping.FeedbackCycles
import PatchTyping.TypedPatches

/-!
# Drawings of typed patches

A typed patch as a text in the DOT language. Spliced adapters, nodes that are not fully typed and edges
of cycles are marked. Names and labels stand in string literals that they can neither end nor break.
-/

namespace PatchTyping.DotDrawing

def escapedChar (c : Char) : List Char :=
  if c = '"' then ['\\', '"']
  else if c = '\\' then ['\\', '\\']
  else if c = '\n' then ['\\', 'n']
  else [c]

def quoted (s : String) : String :=
  String.ofList ('"' :: s.toList.flatMap escapedChar ++ ['"'])

def nodeAttributes (id : NodeId) (n : TypedNode) : String :=
  let (style, color, label) : String × String × String :=
    match n.provenance with
    | .inserted rule _ => ("\"filled,dashed\"", "lightyellow", rule ++ "\n" ++ id)
    | .authored =>
      ("filled", if n.isConcrete then "lightblue" else "lightsalmon", id ++ "\n" ++ n.block)
  "shape=box, style=" ++ style ++ ", fillcolor=" ++ color ++ ", label=" ++ quoted label

def nodeLine (id : NodeId) (n : TypedNode) : String :=
  "    " ++ quoted id ++ " [" ++ nodeAttributes id n ++ "];"

/-- The cycle a node belongs to, by its position, and the class of that cycle. -/
def membership (cycles : List CycleReport) : Std.ExtTreeMap NodeId (Nat × CycleClass) :=
  Std.ExtTreeMap.ofList (cycles.zipIdx.flatMap fun (c, i) => c.nodes.map fun id =>
    (id, (i, c.cycleClass)))

/-- An edge whose ends belong to one cycle is bold. -/
def cycleAttributes (cycleOf : Std.ExtTreeMap NodeId (Nat × CycleClass)) (e : TypedEdge) : String :=
  match cycleOf[e.source.node]?, cycleOf[e.target.node]? with
  | some a, some b =>
    if a = b then
      match a.2 with
      | .illegalInstantaneous => ", style=bold, color=red"
      | .legalFeedback => ", style=bold, color=blue"
    else ""
  | _, _ => ""

def edgeLabel (e : TypedEdge) : String :=
  match e.carried with
  | some t => t.text
  | none => "?"

def edgeLine (cycleOf : Std.ExtTreeMap NodeId (Nat × CycleClass)) (e : TypedEdge) : String :=
  "    " ++ quoted e.source.node ++ " -> " ++ quoted e.target.node ++ " [label="
    ++ quoted (edgeLabel e) ++ cycleAttributes cycleOf e
    ++ (if e.carried.isNone then ", style=dashed" else "") ++ "];"

def header : List String :=
  ["digraph normc \x7b",
    "    rankdir=LR;",
    "    node [fontname=\"Helvetica\", fontsize=10];",
    "    edge [fontname=\"Helvetica\", fontsize=9];",
    ""]

/-- The lines of a drawing: a header, the nodes, a blank line, the edges and a closing line. -/
def lines (t : TypedPatch) (cycles : List CycleReport) : List String :=
  let cycleOf := membership cycles
  header ++ (t.nodes.toList.map fun (id, n) => nodeLine id n) ++ [""]
    ++ (t.edges.toList.map fun (_, e) => edgeLine cycleOf e) ++ ["\x7d"]

end PatchTyping.DotDrawing

namespace PatchTyping

/-- A drawing, every line of which is ended. -/
def TypedPatch.drawing (t : TypedPatch) (cycles : List CycleReport) : String :=
  String.join ((DotDrawing.lines t cycles).map (· ++ "\n"))

end PatchTyping
