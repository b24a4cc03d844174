import PatchTyping.ConstraintSets

/-!
# Substitutions

A substitution gives values to variables of nodes, and cardinalities to single ports. Applied to a
declared type it can bring together a payload and a unit that do not go together; the type is then
opened again on an axis that was substituted, so that it does not count as concrete.
-/

namespace PatchTyping

abbrev PortTyping := Std.ExtTreeMap PortKey PortType

structure Substitution where
  payload : Std.ExtTreeMap VarKey Payload := ∅
  unit : Std.ExtTreeMap VarKey UnitTag := ∅
  cardinality : Std.ExtTreeMap VarKey Cardinality := ∅
  /-- Ports whose cardinality is not what they declare. -/
  overrides : Std.ExtTreeMap PortKey Cardinality := ∅
deriving DecidableEq

/-- A variable with a value becomes that value. -/
def Axis.substitute {α : Type} (values : Std.ExtTreeMap VarKey α) (node : NodeId) :
    Axis α → Axis α
  | .inst a => .inst a
  | .var name =>
    match values[VarKey.mk node name]? with
    | some a => .inst a
    | none => .var name

namespace Substitution

def cardinalityOf (s : Substitution) (k : PortKey) (declared : Axis Cardinality) :
    Axis Cardinality :=
  match s.overrides[k]? with
  | some c => .inst c
  | none => declared.substitute s.cardinality k.node

/-- The declared type of a port with its variables replaced. -/
def substituted (s : Substitution) (k : PortKey) (declared : PortType) : PortType where
  payload := declared.payload.substitute s.payload k.node
  unit := declared.unit.substitute s.unit k.node
  cardinality := s.cardinalityOf k declared.cardinality
  temporality := declared.temporality

/-- Take back the unit if it was substituted, and the payload otherwise. -/
def reopened (declared t : PortType) : PortType :=
  if declared.unit.isVar then { t with unit := declared.unit }
  else { t with payload := declared.payload }

def resolve (s : Substitution) (k : PortKey) (declared : PortType) : PortType :=
  let t := s.substituted k declared
  match t.disallowedPair? with
  | none => t
  | some _ => reopened declared t

def invalidDiagnostic (k : PortKey) (e : TypeError) : Diagnostic where
  kind := .invalidPayloadUnitPair
  message := "port " ++ inQuotes k.text ++ " resolves to an invalid type: " ++ e.message
  targets := [.port k]

def resolveDiagnostic? (s : Substitution) (k : PortKey) (declared : PortType) : Option Diagnostic :=
  (s.substituted k declared).disallowedPair?.map fun (p, u) =>
    invalidDiagnostic k (.disallowedPair p u)

def typing (s : Substitution) (ports : PortTable) : PortTyping :=
  ports.map fun k info => s.resolve k info.type

def diagnostics (s : Substitution) (ports : PortTable) : List Diagnostic :=
  ports.toList.filterMap fun (k, info) => s.resolveDiagnostic? k info.type

end Substitution

namespace PortTyping

def concrete? (types : PortTyping) (k : PortKey) : Option ConcreteType := types[k]?.bind (·.concrete?)

end PortTyping

end PatchTyping
