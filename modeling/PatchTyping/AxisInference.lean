import PatchTyping.ConstraintSets
import PatchTyping.ValuedPartition

/-!
# Inference of payloads and units

The variables of an axis form a partition: an equation merges two classes, a known value is given to a
class. A demand that would give a class two values is reported and has no effect. In the end each class
either has a value, which all its variables take, or is reported once.
-/

namespace PatchTyping

/-- How an axis appears in diagnostics. -/
structure AxisWording (α : Type) where
  axis : String
  conflict : DiagnosticKind
  unresolved : DiagnosticKind
  valueText : α → String

def payloadWording : AxisWording Payload :=
  ⟨"payload", .payloadConflict, .unresolvedPayload, Payload.name⟩

def unitWording : AxisWording UnitTag :=
  ⟨"unit", .unitConflict, .unresolvedUnit, UnitTag.name⟩

structure AxisSolution (α : Type) where
  values : Std.ExtTreeMap VarKey α
  diagnostics : List Diagnostic

namespace AxisConstraint

variable {α : Type}

def impose [DecidableEq α] (p : ValuedPartition VarKey α) :
    AxisConstraint α → Option (Conflict α) × ValuedPartition VarKey α
  | equal _ _ lhs rhs _ => p.union lhs rhs
  | fixed _ var value _ _ => p.assign var value

def conflictDiagnostic (w : AxisWording α) (conflict : Conflict α) : AxisConstraint α → Diagnostic
  | equal a b _ _ origin =>
    { kind := w.conflict
      message := w.axis ++ " conflict across " ++ origin.text ++ ": " ++ inQuotes a.text ++ " is "
        ++ w.valueText conflict.existing ++ " but " ++ inQuotes b.text ++ " is "
        ++ w.valueText conflict.incoming
      targets := [.port a, .port b] }
  | fixed port _ _ source origin =>
    { kind := w.conflict
      message := w.axis ++ " conflict at " ++ inQuotes port.text ++ ": already inferred "
        ++ w.valueText conflict.existing ++ ", but " ++ origin.text ++ " supplies "
        ++ w.valueText conflict.incoming ++ " from " ++ inQuotes source.text
      targets := [.port port, .port source] ++ origin.targets }

def imposeAll [DecidableEq α] (w : AxisWording α) :
    List (AxisConstraint α) → ValuedPartition VarKey α →
      List Diagnostic × ValuedPartition VarKey α
  | [], p => ([], p)
  | c :: cs, p =>
    let (conflict?, p) := c.impose p
    let (ds, p) := imposeAll w cs p
    ((conflict?.map fun x => c.conflictDiagnostic w x).toList ++ ds, p)

end AxisConstraint

namespace AxisInference

variable {α : Type}

def portsOf (bindings : Bindings) (members : List VarKey) : List PortKey :=
  (bindings.toList.filter fun (_, v) => members.contains v).map (·.1)

def unresolvedDiagnostic (w : AxisWording α) (ports : List PortKey) : Diagnostic where
  kind := w.unresolved
  message := "cannot infer the " ++ w.axis ++ " of " ++ listed (ports.map PortKey.text)
  targets := ports.map .port
  hint := "connect a source with a concrete " ++ w.axis ++ " or override the port type"

/-- Each variable has a class of its own. -/
def start (bindings : Bindings) : ValuedPartition VarKey α :=
  (bindings.toList.map (·.2)).foldl ValuedPartition.register .empty

/-- A class of variables and the value that was found for it. -/
abbrev ClassAnswer (α : Type) := List VarKey × Option α

/-- Look up the values of classes in order, each through one of its members. -/
def readClasses : List (VarKey × List VarKey) → ValuedPartition VarKey α → List (ClassAnswer α)
  | [], _ => []
  | c :: cs, p =>
    let (a, p) := p.value c.1
    (c.2, a) :: readClasses cs p

def classAnswers (p : ValuedPartition VarKey α) : List (ClassAnswer α) :=
  let (classes, p) := p.listClasses
  readClasses classes p

def classValues (answers : List (ClassAnswer α)) : List (VarKey × α) :=
  answers.flatMap fun (members, value?) =>
    match value? with
    | some a => members.map fun v => (v, a)
    | none => []

def unresolvedDiagnostics (w : AxisWording α) (bindings : Bindings)
    (answers : List (ClassAnswer α)) : List Diagnostic :=
  (answers.filter (·.2.isNone)).map fun c => unresolvedDiagnostic w (portsOf bindings c.1)

def solve [DecidableEq α] (w : AxisWording α) (bindings : Bindings)
    (constraints : List (AxisConstraint α)) : AxisSolution α :=
  let (conflicts, p) := AxisConstraint.imposeAll w constraints (start bindings)
  let answers := classAnswers p
  { values := Std.ExtTreeMap.ofList (classValues answers)
    diagnostics := conflicts ++ unresolvedDiagnostics w bindings answers }

end AxisInference

namespace ConstraintSet

def solvePayload (s : ConstraintSet) : AxisSolution Payload :=
  AxisInference.solve payloadWording (s.ports.bindings PortType.payload) s.payload

def solveUnit (s : ConstraintSet) : AxisSolution UnitTag :=
  AxisInference.solve unitWording (s.ports.bindings PortType.unit) s.unit

end ConstraintSet

end PatchTyping
