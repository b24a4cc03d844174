/-!
# The axes of a signal

A signal is described by the kind of value it carries, the unit that value is measured in, how many
values travel at once, and whether they vary continuously. The first three axes may be left open as
named variables. The table of admitted units is the only coupling between the axes.
-/

namespace PatchTyping

/-- Structural kind of a value. -/
inductive Payload where
  | float | int | vec2 | vec3 | color | bool | shape
deriving DecidableEq, Repr, Ord

/-- Semantic tag that tells otherwise identical payloads apart. -/
inductive UnitTag where
  | scalar | norm01 | phase01 | radians | degrees | ms | seconds | count
  | ndc2 | world2 | ndc3 | world3 | rgba01 | none
deriving DecidableEq, Repr, Ord

namespace UnitTag

def all : List UnitTag :=
  [scalar, norm01, phase01, radians, degrees, ms, seconds, count,
    ndc2, world2, ndc3, world3, rgba01, none]

def name : UnitTag → String
  | scalar => "scalar" | norm01 => "norm01" | phase01 => "phase01" | radians => "radians"
  | degrees => "degrees" | ms => "ms" | seconds => "seconds" | count => "count"
  | ndc2 => "ndc2" | world2 => "world2" | ndc3 => "ndc3" | world3 => "world3"
  | rgba01 => "rgba01" | none => "none"

def ofName? (text : String) : Option UnitTag := all.find? (fun u => u.name == text)

@[simp] theorem ofName?_name (u : UnitTag) : ofName? u.name = some u := by
  cases u <;> decide

end UnitTag

namespace Payload

def all : List Payload := [float, int, vec2, vec3, color, bool, shape]

def name : Payload → String
  | float => "float" | int => "int" | vec2 => "vec2" | vec3 => "vec3"
  | color => "color" | bool => "bool" | shape => "shape"

def ofName? (text : String) : Option Payload := all.find? (fun p => p.name == text)

@[simp] theorem ofName?_name (p : Payload) : ofName? p.name = some p := by
  cases p <;> decide

/-- The units that may tag a value of this kind, in the order in which they are listed to users. -/
def allowedUnits : Payload → List UnitTag
  | float => [.scalar, .norm01, .phase01, .radians, .degrees, .ms, .seconds]
  | int => [.count, .ms]
  | vec2 => [.ndc2, .world2, .scalar]
  | vec3 => [.ndc3, .world3, .scalar]
  | color => [.rgba01]
  | bool => [.none]
  | shape => [.none]

/-- The validity table of payload and unit. -/
def admits (p : Payload) (u : UnitTag) : Bool := p.allowedUnits.contains u

end Payload

/-- How many values a signal carries: a constant fixed before the first frame, a single value, or one
value for each element of a named instance domain. -/
inductive Cardinality where
  | zero
  | one
  | many (domain : String)
deriving DecidableEq, Repr, Ord

namespace Cardinality

def text : Cardinality → String
  | zero => "zero"
  | one => "one"
  | many d => "many(" ++ d ++ ")"

def domain? : Cardinality → Option String
  | many d => some d
  | _ => Option.none

end Cardinality

inductive Temporality where
  | continuous
  | discrete
deriving DecidableEq, Repr, Ord

namespace Temporality

def name : Temporality → String
  | continuous => "continuous"
  | discrete => "discrete"

end Temporality

/-- One axis of a declared type: a value, or a variable scoped to the block instance that declares it. -/
inductive Axis (α : Type) where
  | inst (value : α)
  | var (name : String)
deriving DecidableEq, Repr

namespace Axis

variable {α : Type}

def value? : Axis α → Option α
  | inst a => some a
  | var _ => Option.none

def name? : Axis α → Option String
  | inst _ => Option.none
  | var n => some n

def isVar : Axis α → Bool
  | inst _ => false
  | var _ => true

/-- A variable is written with a leading question mark. -/
def text (valueText : α → String) : Axis α → String
  | inst a => valueText a
  | var n => "?" ++ n

end Axis

end PatchTyping
