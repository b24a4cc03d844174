import PatchTyping.PortKeys
import PatchTyping.PortTypes

/-!
# Block definitions

A block is a kind of node: its input and output ports with their declared types, constraint templates
over its ports, and, for blocks that convert signals, the conversion they perform. A `fixed` template
pins axes of a port and so takes part in the port's base type.
-/

namespace PatchTyping

inductive PortDirection where
  | input
  | output
deriving DecidableEq, Repr

structure PortDeclaration where
  name : String
  type : PortType
deriving DecidableEq, Repr

inductive AxisName where
  | payload
  | unit
  | cardinality
deriving DecidableEq, Repr

/-- A constraint that every node of the block is subject to. -/
inductive Template where
  /-- The listed ports agree on an axis. -/
  | equal (axis : AxisName) (ports : List String)
  /-- Single values among the listed ports are repeated for each element of a domain. -/
  | zipBroadcast (ports : List String)
  /-- The known axes of a type are pinned onto a port. -/
  | fixed (port : String) (type : PortType)
deriving DecidableEq, Repr

/-- The conversion that an adapter block performs on each number. -/
inductive Kernel where
  | scale (factor : Float)
  | affine (factor : Float) (offset : Float)
  | cast

structure AdapterSpec where
  cost : UInt32
  kernel : Kernel

structure Block where
  name : String
  inputs : List PortDeclaration := []
  outputs : List PortDeclaration := []
  templates : List Template := []
  adapter : Option AdapterSpec := none
  /-- The block reads values of the previous frame, so nothing flows through it within a frame. -/
  readsPreviousFrame : Bool := false

namespace PortDirection

def name : PortDirection → String
  | input => "input"
  | output => "output"

end PortDirection

namespace AxisName

def name : AxisName → String
  | payload => "payload"
  | unit => "unit"
  | cardinality => "cardinality"

def all : List AxisName := [payload, unit, cardinality]

end AxisName

namespace Kernel

/-- Multiplication and addition round separately. -/
def eval : Kernel → Float → Float
  | scale factor, x => x * factor
  | affine factor offset, x => x * factor + offset
  | cast, x => x

end Kernel

namespace Template

def ports : Template → List String
  | equal _ ps => ps
  | zipBroadcast ps => ps
  | fixed p _ => [p]

end Template

/-- The value of a pin wins over the declared value; a variable pins nothing. -/
def Axis.pinned {α : Type} (declared pin : Axis α) : Axis α :=
  if pin.isVar then declared else pin

/-- A written type cannot leave the temporality open, so only a discrete one is pinned. -/
def PortType.pinned (declared pin : PortType) : PortType where
  payload := declared.payload.pinned pin.payload
  unit := declared.unit.pinned pin.unit
  cardinality := declared.cardinality.pinned pin.cardinality
  temporality := if pin.temporality = .continuous then declared.temporality else pin.temporality

namespace Block

def ports (b : Block) : List (PortDirection × PortDeclaration) :=
  b.inputs.map (.input, ·) ++ b.outputs.map (.output, ·)

def port? (b : Block) (name : String) : Option (PortDirection × PortDeclaration) :=
  b.ports.find? (fun p => p.2.name == name)

/-- Ports that belong to some broadcast group. -/
def zipMembers (b : Block) : List String :=
  b.templates.flatMap fun
    | .zipBroadcast ps => ps
    | _ => []

def zipMemberNames (b : Block) : List String := (Std.ExtTreeSet.ofList b.zipMembers).toList

def pins (b : Block) (port : String) : List PortType :=
  b.templates.filterMap fun
    | .fixed p type => if p = port then some type else none
    | _ => none

/-- The declared type with every pin applied. -/
def baseType (b : Block) (p : PortDeclaration) : PortType :=
  (b.pins p.name).foldl PortType.pinned p.type

/-- Some pin gives the port a known cardinality. -/
def pinsCardinality (b : Block) (port : String) : Bool :=
  (b.pins port).any (fun pin => !pin.cardinality.isVar)

end Block

/-- Payload, unit and temporality that one side of an adapter handles; `none` stands for any. -/
structure TypePattern where
  payload : Option Payload
  unit : Option UnitTag
  temporality : Temporality
deriving DecidableEq, Repr

namespace TypePattern

def ofPortType (t : PortType) : TypePattern := ⟨t.payload.value?, t.unit.value?, t.temporality⟩

def admits (p : TypePattern) (t : ConcreteType) : Bool :=
  (match p.payload with
    | some x => decide (x = t.payload)
    | none => true)
    && (match p.unit with
        | some u => decide (u = t.unit)
        | none => true)
    && decide (p.temporality = t.temporality)

end TypePattern

/-- The patterns of the two sides of an adapter block. -/
def Block.adapterPatterns (b : Block) : Option (TypePattern × TypePattern) := do
  let _ ← b.adapter
  let input ← b.inputs.head?
  let output ← b.outputs.head?
  return (.ofPortType input.type, .ofPortType output.type)

end PatchTyping
