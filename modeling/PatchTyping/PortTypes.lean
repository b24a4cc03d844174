import PatchTyping.SignalAxes

/-!
# Port types and concrete types

A port type is what a block declares: any of its payload, unit and cardinality may be a variable. A
concrete type has no variable left, and its payload admits its unit by construction.
-/

namespace PatchTyping

structure PortType where
  payload : Axis Payload
  unit : Axis UnitTag
  cardinality : Axis Cardinality
  temporality : Temporality
deriving DecidableEq, Repr

/-- Type of a signal with every axis known. -/
structure ConcreteType where
  payload : Payload
  unit : UnitTag
  cardinality : Cardinality
  temporality : Temporality
  admitted : payload.admits unit = true
deriving DecidableEq

inductive TypeError where
  | disallowedPair (payload : Payload) (unit : UnitTag)
  | unresolved (type : PortType)
deriving DecidableEq

namespace PortType

/-- The written form: a cardinality of one and a continuous temporality go without saying. -/
def text (t : PortType) : String :=
  t.payload.text Payload.name ++ ":" ++ t.unit.text UnitTag.name
    ++ (if t.cardinality = .inst .one then "" else "@" ++ t.cardinality.text Cardinality.text)
    ++ (if t.temporality = .continuous then "" else "!" ++ t.temporality.name)

/-- The payload and unit, when both are known and do not go together. -/
def disallowedPair? (t : PortType) : Option (Payload × UnitTag) :=
  match t.payload, t.unit with
  | .inst p, .inst u => if p.admits u then none else some (p, u)
  | _, _ => none

def isConcrete (t : PortType) : Bool :=
  !t.payload.isVar && !t.unit.isVar && !t.cardinality.isVar

/-- Accept a type unless its payload and unit are both known and do not go together. -/
def check (t : PortType) : Except TypeError PortType :=
  match t.disallowedPair? with
  | none => .ok t
  | some (p, u) => .error (.disallowedPair p u)

/-- All three axes are open. -/
def polymorphic (payload unit cardinality : String) : PortType :=
  ⟨.var payload, .var unit, .var cardinality, .continuous⟩

def toConcrete (t : PortType) : Except TypeError ConcreteType :=
  match t.payload, t.unit, t.cardinality with
  | .inst p, .inst u, .inst c =>
    if h : p.admits u = true then .ok ⟨p, u, c, t.temporality, h⟩ else .error (.disallowedPair p u)
  | _, _, _ => .error (.unresolved t)

def concrete? (t : PortType) : Option ConcreteType := t.toConcrete.toOption

end PortType

namespace ConcreteType

def toPortType (t : ConcreteType) : PortType :=
  ⟨.inst t.payload, .inst t.unit, .inst t.cardinality, t.temporality⟩

def text (t : ConcreteType) : String := t.toPortType.text

def make (p : Payload) (u : UnitTag) (c : Cardinality) (m : Temporality) :
    Except TypeError ConcreteType :=
  (PortType.mk (.inst p) (.inst u) (.inst c) m).toConcrete

/-- A single continuous value. -/
def signal (p : Payload) (u : UnitTag) : Except TypeError ConcreteType := make p u .one .continuous

/-- One continuous value for each element of a domain. -/
def field (p : Payload) (u : UnitTag) (domain : String) : Except TypeError ConcreteType :=
  make p u (.many domain) .continuous

/-- Cardinality and temporality agree; converting payload and unit never touches them. -/
def sameExtent (a b : ConcreteType) : Bool :=
  decide (a.cardinality = b.cardinality) && decide (a.temporality = b.temporality)

def withCardinality (t : ConcreteType) (c : Cardinality) : ConcreteType :=
  ⟨t.payload, t.unit, c, t.temporality, t.admitted⟩

/-- By payload, then unit, then cardinality, then temporality. -/
def order (a b : ConcreteType) : Ordering :=
  (compare a.payload b.payload).then <| (compare a.unit b.unit).then <|
    (compare a.cardinality b.cardinality).then (compare a.temporality b.temporality)

@[simp] theorem toConcrete_toPortType (t : ConcreteType) : t.toPortType.toConcrete = .ok t := by
  simp [toPortType, PortType.toConcrete, t.admitted]

end ConcreteType

namespace TypeError

def message : TypeError → String
  | disallowedPair p u =>
    "unit '" ++ u.name ++ "' is not valid for payload '" ++ p.name ++ "' (allowed: "
      ++ ", ".intercalate (p.allowedUnits.map UnitTag.name) ++ ")"
  | unresolved t => "type '" ++ t.text ++ "' has unresolved axis variables"

end TypeError

end PatchTyping
