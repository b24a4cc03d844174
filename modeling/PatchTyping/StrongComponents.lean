import PatchTyping.PortKeys

/-!
# Strongly connected components

A depth-first search numbers the nodes as it meets them and keeps those whose component is still open
on a stack. The low link of a node is the smallest number it can reach over open nodes; a node whose low
link is its own number closes a component, which is everything above it on the stack. So a component
comes after all components it leads to.
-/

namespace PatchTyping

/-- The targets of each node. A target need not have targets of its own. -/
abbrev SuccessorMap := Std.ExtTreeMap NodeId (Std.ExtTreeSet NodeId)

namespace SuccessorMap

def targets (succ : SuccessorMap) (v : NodeId) : List NodeId :=
  match succ[v]? with
  | some out => out.toList
  | none => []

/-- Every node that occurs, sources first; a node may be listed more than once. -/
def occurring (succ : SuccessorMap) : List NodeId :=
  succ.keys ++ succ.keys.flatMap succ.targets

end SuccessorMap

/-- Put a name before the first that is not smaller. -/
def placeName (v : NodeId) : List NodeId → List NodeId
  | [] => [v]
  | w :: ws => if compare w v = .lt then w :: placeName v ws else v :: w :: ws

/-- The names in order. A name that stands there twice is kept twice. -/
def sortNames (names : List NodeId) : List NodeId := names.foldr placeName []

/-- Where a component search stands. -/
structure ComponentSearch where
  /-- Nodes met so far, numbered from zero. -/
  numbers : Std.ExtTreeMap NodeId Nat := ∅
  /-- Nodes whose component is open, the latest first. -/
  stack : List NodeId := []
  /-- Closed components, the latest first. -/
  closed : List (List NodeId) := []

namespace ComponentSearch

/-- Number a node and open it. -/
def enter (s : ComponentSearch) (v : NodeId) : ComponentSearch :=
  { s with numbers := s.numbers.insert v s.numbers.size, stack := v :: s.stack }

/-- Close the component that ends with `v` on the stack: take its nodes off and sort them. -/
def close (s : ComponentSearch) (v : NodeId) : ComponentSearch :=
  let members := s.stack.takeWhile (· ≠ v)
  { s with
    stack := (s.stack.drop members.length).tail
    closed := sortNames (members ++ [v]) :: s.closed }

/-- Search from a node that has not been met. The result has its low link. The first argument bounds the
depth of the search. -/
def visit (succ : SuccessorMap) : Nat → NodeId → ComponentSearch → Nat × ComponentSearch
  | 0, _, s => (s.numbers.size, s)
  | n + 1, v, s =>
    let number := s.numbers.size
    let (low, s) := (succ.targets v).foldl (fun (low, s) w =>
      match s.numbers[w]? with
      | none =>
        let (below, s) := visit succ n w s
        (min low below, s)
      | some m => (if w ∈ s.stack then min low m else low, s)) (number, s.enter v)
    (low, if low = number then s.close v else s)

def run (succ : SuccessorMap) : ComponentSearch :=
  let depth := succ.occurring.length
  succ.keys.foldl (fun s v => if s.numbers.contains v then s else (visit succ depth v s).2) {}

end ComponentSearch

/-- The strongly connected components, each in order and after those it leads to. -/
def strongComponents (succ : SuccessorMap) : List (List NodeId) :=
  (ComponentSearch.run succ).closed.reverse

/-- Components with a cycle in them: several nodes, or one that is its own target. -/
def cyclicComponents (succ : SuccessorMap) : List (List NodeId) :=
  (strongComponents succ).filter fun c =>
    decide (1 < c.length) || c.any fun v => (succ.targets v).contains v

end PatchTyping
