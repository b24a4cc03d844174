import PatchTyping.JsonValues
import PatchTyping.PortKeys

/-!
# Diagnostics

Problems found in a patch are collected, not thrown. Each has a kind with a stable code, a message, the
elements of the patch it concerns, and sometimes a hint and an account of its causes.
-/

namespace PatchTyping

inductive DiagnosticKind where
  | invalidPayloadUnitPair
  | payloadConflict
  | unitConflict
  | unresolvedPayload
  | unresolvedUnit
  | cardinalityConflict
  | unresolvedCardinality
  | noConversionPath
  | ambiguousAdapter
  | illegalInstantaneousCycle
  | unknownBlockType
  | danglingEdge
  | multipleDrivers
  | nonConvergence
  | unknownPortOverride
deriving DecidableEq, Repr

inductive Severity where
  | error
  | warning
deriving DecidableEq, Repr

namespace DiagnosticKind

def all : List DiagnosticKind :=
  [invalidPayloadUnitPair, payloadConflict, unitConflict, unresolvedPayload, unresolvedUnit,
    cardinalityConflict, unresolvedCardinality, noConversionPath, ambiguousAdapter,
    illegalInstantaneousCycle, unknownBlockType, danglingEdge, multipleDrivers, nonConvergence,
    unknownPortOverride]

def name : DiagnosticKind → String
  | invalidPayloadUnitPair => "InvalidPayloadUnitPair"
  | payloadConflict => "PayloadConflict"
  | unitConflict => "UnitConflict"
  | unresolvedPayload => "UnresolvedPayload"
  | unresolvedUnit => "UnresolvedUnit"
  | cardinalityConflict => "CardinalityConflict"
  | unresolvedCardinality => "UnresolvedCardinality"
  | noConversionPath => "NoConversionPath"
  | ambiguousAdapter => "AmbiguousAdapter"
  | illegalInstantaneousCycle => "IllegalInstantaneousCycle"
  | unknownBlockType => "UnknownBlockType"
  | danglingEdge => "DanglingEdge"
  | multipleDrivers => "MultipleDrivers"
  | nonConvergence => "NonConvergence"
  | unknownPortOverride => "UnknownPortOverride"

def code : DiagnosticKind → String
  | invalidPayloadUnitPair => "E0100"
  | payloadConflict => "E0101"
  | unitConflict => "E0102"
  | unresolvedPayload => "E0103"
  | unresolvedUnit => "E0104"
  | cardinalityConflict => "E0110"
  | unresolvedCardinality => "E0111"
  | noConversionPath => "E0200"
  | ambiguousAdapter => "E0201"
  | illegalInstantaneousCycle => "E0300"
  | unknownBlockType => "E0400"
  | danglingEdge => "E0401"
  | multipleDrivers => "E0402"
  | nonConvergence => "E0900"
  | unknownPortOverride => "W0100"

def severity : DiagnosticKind → Severity
  | unknownPortOverride => .warning
  | _ => .error

end DiagnosticKind

namespace Severity

def name : Severity → String
  | error => "error"
  | warning => "warning"

end Severity

inductive Target where
  | node (id : NodeId)
  | port (key : PortKey)
  | edge (id : EdgeId)
deriving DecidableEq, Repr

namespace Target

def kindName : Target → String
  | node _ => "node"
  | port _ => "port"
  | edge _ => "edge"

def idText : Target → String
  | node id => id
  | port key => key.text
  | edge id => id

def text (t : Target) : String := t.kindName ++ " " ++ t.idText

def toJson (t : Target) : Json := .obj [("kind", .str t.kindName), ("id", .str t.idText)]

end Target

structure Diagnostic where
  kind : DiagnosticKind
  message : String
  targets : List Target := []
  hint : Option String := none
  causes : List String := []
deriving DecidableEq, Repr

namespace Diagnostic

def isError (d : Diagnostic) : Bool := d.kind.severity = .error

/-- The headline, then the causes, then the hint, each on a line of its own. -/
def text (d : Diagnostic) : String :=
  d.kind.severity.name ++ "[" ++ d.kind.code ++ "]: " ++ d.message
    ++ String.join (d.causes.map ("\n  note: " ++ ·))
    ++ (match d.hint with
        | some h => "\n  hint: " ++ h
        | none => "")

/-- Parts that are absent or empty are left out. -/
def fields (d : Diagnostic) : List (String × Json) :=
  [("kind", .str d.kind.name), ("code", .str d.kind.code), ("level", .str d.kind.severity.name),
    ("message", .str d.message)]
    ++ Json.optional "hint" (d.hint.map Json.str)
    ++ (if d.targets.isEmpty then [] else [("targets", .arr (d.targets.map Target.toJson))])
    ++ (if d.causes.isEmpty then [] else [("cause_chain", .arr (d.causes.map Json.str))])

def toJson (d : Diagnostic) : Json := .obj d.fields

end Diagnostic

def hasErrors (ds : List Diagnostic) : Bool := ds.any Diagnostic.isError

/-- A name between single quotes, as messages show it. -/
def inQuotes (s : String) : String := "'" ++ s ++ "'"

/-- Several names between single quotes. -/
def listed (names : List String) : String := ", ".intercalate (names.map inQuotes)

end PatchTyping
