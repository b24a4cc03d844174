import PatchTyping.ConstraintSets
import PatchTyping.ValuedPartition

/-!
# Inference of cardinalities

Every port starts in a class of its own. Equations of block templates merge classes, known values are
given to classes, and then the equations of the edges merge classes. Members of a broadcast group are
not equated: a single value may be repeated for each element of a domain that another member brings
along. A member that is declared single is therefore held back at first. Once all equations are imposed,
domains spread through the groups until nothing changes, and then single values do.

A group that cannot be satisfied is reported once and from then on left alone, together with the other
groups of its node.
-/

namespace PatchTyping

/-- What is known of the cardinality of a port in the end. -/
inductive CardinalityState where
  | concrete (value : Cardinality)
  /-- Declared single and held back in a group that could not be satisfied. -/
  | pending
  | unresolved
deriving DecidableEq, Repr

namespace CardinalityState

def toJson : CardinalityState → Json
  | concrete c => .obj [("state", .str "concrete"), ("value", .str c.text)]
  | pending => .obj [("state", .str "pending"), ("value", .str Cardinality.one.text)]
  | unresolved => .obj [("state", .str "unresolved")]

end CardinalityState

structure CardinalitySolution where
  vars : Std.ExtTreeMap VarKey Cardinality
  /-- Ports whose value differs from the one they declare. -/
  overrides : Std.ExtTreeMap PortKey Cardinality
  states : Std.ExtTreeMap PortKey CardinalityState
  diagnostics : List Diagnostic

/-- A broadcast group of a node. -/
structure BroadcastGroup where
  node : NodeId
  members : List ZipMember
deriving DecidableEq, Repr

structure PortEquation where
  a : PortKey
  b : PortKey
  origin : Origin
deriving DecidableEq, Repr

namespace ConstraintSet

def templateEquations (s : ConstraintSet) : List PortEquation :=
  s.cardinality.filterMap fun
    | .equal a b (.template n) => some ⟨a, b, .template n⟩
    | _ => none

def edgeEquations (s : ConstraintSet) : List PortEquation :=
  s.cardinality.filterMap fun
    | .equal a b (.edge e) => some ⟨a, b, .edge e⟩
    | _ => none

def broadcastGroups (s : ConstraintSet) : List BroadcastGroup :=
  s.cardinality.filterMap fun
    | .zipBroadcast node members => some ⟨node, members⟩
    | _ => none

def fixedValues (s : ConstraintSet) : List (PortKey × Cardinality) :=
  s.cardinality.filterMap fun
    | .fixed port value => some (port, value)
    | _ => none

/-- A member of a group that is declared single, and not pinned to it. -/
def heldBack (s : ConstraintSet) (port : PortKey) (value : Cardinality) : Bool :=
  decide (value = .one) && s.ports[port]?.any fun info => info.zipMember && !info.pinned

def pendingPorts (s : ConstraintSet) : Std.ExtTreeSet PortKey :=
  Std.ExtTreeSet.ofList ((s.fixedValues.filter fun (p, c) => s.heldBack p c).map (·.1))

def seeds (s : ConstraintSet) : List (PortKey × Cardinality) :=
  s.fixedValues.filter fun (p, c) => !s.heldBack p c

end ConstraintSet

abbrev PortPartition := ValuedPartition PortKey Cardinality

namespace PortEquation

/-- Both are domains, and not the same one. -/
def differentDomains (c : Conflict Cardinality) : Bool :=
  match c.existing, c.incoming with
  | .many d, .many e => decide (d ≠ e)
  | _, _ => false

def conflictDiagnostic (q : PortEquation) (c : Conflict Cardinality) : Diagnostic where
  kind := .cardinalityConflict
  message := "cardinality conflict across " ++ q.origin.text ++ ": " ++ inQuotes q.a.text ++ " is "
    ++ c.existing.text ++ " but " ++ inQuotes q.b.text ++ " is " ++ c.incoming.text
  targets := [.port q.a, .port q.b] ++ q.origin.targets
  hint :=
    if differentDomains c then some "values from different instance domains cannot be combined"
    else none

def imposeAll : List PortEquation → PortPartition → List Diagnostic × PortPartition
  | [], p => ([], p)
  | q :: qs, p =>
    let (conflict?, p) := p.union q.a q.b
    let (ds, p) := imposeAll qs p
    ((conflict?.map q.conflictDiagnostic).toList ++ ds, p)

end PortEquation

namespace CardinalityInference

def seedDiagnostic (port : PortKey) (c : Conflict Cardinality) : Diagnostic where
  kind := .cardinalityConflict
  message := "cardinality conflict at " ++ inQuotes port.text ++ ": declared " ++ c.incoming.text
    ++ " but its block template requires " ++ c.existing.text
  targets := [.port port]

def seedAll : List (PortKey × Cardinality) → PortPartition → List Diagnostic × PortPartition
  | [], p => ([], p)
  | (k, c) :: rest, p =>
    let (conflict?, p) := p.assign k c
    let (ds, p) := seedAll rest p
    ((conflict?.map (seedDiagnostic k)).toList ++ ds, p)

/-- Where the resolution of groups stands. -/
structure Resolution where
  partition : PortPartition
  /-- Nodes with a group that could not be satisfied. -/
  conflicted : Std.ExtTreeSet NodeId := ∅
  diagnostics : List Diagnostic := []

/-- What a group is to become: a value, or the message that it cannot have one. -/
abbrev GroupRule := PortPartition → BroadcastGroup → Option (Except String Cardinality)

/-- The domains that members of a group bring along, in order. -/
def domains (p : PortPartition) (g : BroadcastGroup) : List String :=
  (Std.ExtTreeSet.ofList (g.members.filterMap fun m => (p.value? m.port).bind (·.domain?))).toList

/-- A group takes on the one domain among its members. -/
def spreadMany : GroupRule := fun p g =>
  match domains p g with
  | [] => none
  | [d] => some (.ok (.many d))
  | ds => some (.error ("broadcast group " ++ inQuotes g.node ++ " mixes instance domains "
      ++ " and ".intercalate (ds.map inQuotes)))

/-- A group without a domain becomes single if one of its members is. -/
def commitOne (pending : Std.ExtTreeSet PortKey) : GroupRule := fun p g =>
  if (domains p g).isEmpty
      && g.members.any fun m =>
        pending.contains m.port || decide (p.value? m.port = some .one) then
    some (.ok .one)
  else none

/-- A member with a value other than the group's. An input may be a single value or a constant. -/
def opposes (p : PortPartition) (value : Cardinality) (m : ZipMember) : Option Cardinality :=
  (p.value? m.port).filter fun c =>
    !(decide (c = value) || decide (m.role = .input) && c.domain?.isNone)

def opposition (g : BroadcastGroup) (value : Cardinality) (m : ZipMember) (c : Cardinality) :
    String :=
  match m.role with
  | .output =>
    "output " ++ inQuotes m.port.text ++ " of broadcast group " ++ inQuotes g.node ++ " carries "
      ++ value.text ++ " but is connected as " ++ c.text
  | .input =>
    "input " ++ inQuotes m.port.text ++ " of broadcast group " ++ inQuotes g.node ++ " is "
      ++ c.text ++ " but the group is " ++ value.text

def groupDiagnostic (g : BroadcastGroup) (message : String) : Diagnostic where
  kind := .cardinalityConflict
  message := message
  targets := .node g.node :: g.members.map (.port ·.port)
  hint := "a broadcast group can zip one instance domain with single values only"

namespace Resolution

def report (r : Resolution) (g : BroadcastGroup) (message : String) : Resolution :=
  { r with
    conflicted := r.conflicted.insert g.node
    diagnostics := r.diagnostics ++ [groupDiagnostic g message] }

/-- Give a value to the members of a group that have none yet. -/
def bindOpen (p : PortPartition) (value : Cardinality) (members : List ZipMember) : PortPartition :=
  members.foldl (fun p m =>
    if (p.value? m.port).isNone then (p.assign m.port value).2 else p) p

/-- Give a group a value unless a member opposes it. The result tells whether a member changed. -/
def settleGroup (r : Resolution) (g : BroadcastGroup) (value : Cardinality) : Bool × Resolution :=
  match g.members.findSome? fun m => (opposes r.partition value m).map fun c => (m, c) with
  | some (m, c) => (false, r.report g (opposition g value m c))
  | none =>
    (g.members.any fun m => (r.partition.value? m.port).isNone,
      { r with partition := bindOpen r.partition value g.members })

def applyRule (rule : GroupRule) (r : Resolution) (g : BroadcastGroup) : Bool × Resolution :=
  if r.conflicted.contains g.node then (false, r)
  else
    match rule r.partition g with
    | none => (false, r)
    | some (.error message) => (false, r.report g message)
    | some (.ok value) => r.settleGroup g value

/-- Apply a rule to every group in order. The result tells whether anything changed. -/
def sweep (rule : GroupRule) (groups : List BroadcastGroup) (r : Resolution) : Bool × Resolution :=
  groups.foldl (fun (changed, r) g =>
    let (now, r) := applyRule rule r g
    (changed || now, r)) (false, r)

/-- Sweep until nothing changes, at most the given number of times. -/
def saturate (rule : GroupRule) (groups : List BroadcastGroup) : Nat → Resolution → Resolution
  | 0, r => r
  | n + 1, r =>
    let (changed, r) := sweep rule groups r
    if changed then saturate rule groups n r else r

end Resolution

def start (ports : PortTable) : PortPartition := ports.keys.foldl ValuedPartition.register .empty

def imposed (s : ConstraintSet) : Resolution :=
  let (templateFaults, p) := PortEquation.imposeAll s.templateEquations (start s.ports)
  let (seedFaults, p) := seedAll s.seeds p
  let (edgeFaults, p) := PortEquation.imposeAll s.edgeEquations p
  { partition := p, diagnostics := templateFaults ++ seedFaults ++ edgeFaults }

/-- Domains first, since they win over single values. Each sweep but the last gives some class a
value. -/
def resolved (s : ConstraintSet) : Resolution :=
  let groups := s.broadcastGroups
  let sweeps := s.ports.size + 1
  ((imposed s).saturate spreadMany groups sweeps).saturate (commitOne s.pendingPorts) groups sweeps

def stateOf (pending : Std.ExtTreeSet PortKey) (p : PortPartition) (k : PortKey) :
    CardinalityState :=
  match p.value? k with
  | some c => .concrete c
  | none => if pending.contains k then .pending else .unresolved

def variableValues (ports : PortTable) (p : PortPartition) : Std.ExtTreeMap VarKey Cardinality :=
  Std.ExtTreeMap.ofList (ports.toList.filterMap fun (k, info) =>
    match info.type.cardinality, p.value? k with
    | .var name, some c => some (VarKey.mk k.node name, c)
    | _, _ => none)

def changedValues (ports : PortTable) (p : PortPartition) : Std.ExtTreeMap PortKey Cardinality :=
  ports.filterMap fun k info =>
    match info.type.cardinality, p.value? k with
    | .inst base, some c => if base = c then none else some c
    | _, _ => none

/-- Members of groups of the nodes that have been reported. -/
def excused (s : ConstraintSet) (r : Resolution) : Std.ExtTreeSet PortKey :=
  Std.ExtTreeSet.ofList ((s.broadcastGroups.filter fun g => r.conflicted.contains g.node).flatMap
    fun g => g.members.map (·.port))

/-- Unresolved ports by class, in the order of the slots that speak for the classes. -/
def openClasses (p : PortPartition) (ports : List PortKey) : List (List PortKey) :=
  (Std.ExtTreeSet.ofList (ports.filterMap p.root?)).toList.map fun x =>
    ports.filter fun k => decide (p.root? k = some x)

def unresolvedDiagnostic (ports : List PortKey) : Diagnostic where
  kind := .unresolvedCardinality
  message := "cannot infer the cardinality of " ++ listed (ports.map PortKey.text)
  targets := ports.map .port
  hint := "connect a source or give the port a concrete cardinality"

end CardinalityInference

open CardinalityInference in
def ConstraintSet.solveCardinality (s : ConstraintSet) : CardinalitySolution :=
  let r := resolved s
  let p := r.partition
  let pending := s.pendingPorts
  let states := s.ports.map fun k _ => stateOf pending p k
  let excused := excused s r
  let unresolved := s.ports.keys.filter fun k =>
    decide (states[k]? = some .unresolved) && !excused.contains k
  { vars := variableValues s.ports p
    overrides := changedValues s.ports p
    states
    diagnostics := r.diagnostics ++ (openClasses p unresolved).map unresolvedDiagnostic }

end PatchTyping
