import PatchTyping.BlockDocuments
import PatchTyping.FileFaults
import PatchTyping.Sha256Digest

/-!
# The catalog of blocks

A catalog holds blocks by name. A block enters it only if its port names are distinct, its templates
speak of its own ports, its base types are admitted, and, for an adapter, if it converts one signal into
one signal of the same extent. Loading a file adds its blocks one by one and stops at the first that is
refused; the ones before it stay.
-/

namespace PatchTyping

/-- Why a block is not an adapter. -/
inductive AdapterFlaw where
  | portCount
  | constrained
  | cardinality
  | temporality
  | payloadHalfOpen
  | payloadVariables
deriving DecidableEq, Repr

inductive CatalogError where
  | unreadable (path : String) (fault : FileFault)
  | document (source : String) (error : DecodeError)
  | duplicateBlock (name : String)
  | duplicatePort (block port : String)
  | unknownTemplatePort (block port : String)
  | invalidAdapter (block : String) (flaw : AdapterFlaw)
  | invalidFixed (block port : String) (error : TypeError)

namespace AdapterFlaw

def message : AdapterFlaw → String
  | portCount => "adapters need exactly one input and one output"
  | constrained => "adapters cannot carry constraints or state"
  | cardinality => "input and output must share one cardinality variable"
  | temporality => "adapters cannot change temporality"
  | payloadHalfOpen => "payload must be fixed on both sides or shared"
  | payloadVariables => "payload variable must be shared"

end AdapterFlaw

namespace CatalogError

def inBlock (block : String) : String := "block '" ++ block ++ "': "

def message : CatalogError → String
  | unreadable path fault => path ++ ": " ++ fault.message
  | document source error => source ++ ": malformed catalog JSON: " ++ error.message
  | duplicateBlock name => "duplicate block '" ++ name ++ "'"
  | duplicatePort block port => inBlock block ++ "duplicate port '" ++ port ++ "'"
  | unknownTemplatePort block port =>
    inBlock block ++ "constraint names unknown port '" ++ port ++ "'"
  | invalidAdapter block flaw => inBlock block ++ "invalid adapter: " ++ flaw.message
  | invalidFixed block port error =>
    inBlock block ++ "fixed type for port '" ++ port ++ "' is invalid: " ++ error.message

end CatalogError

namespace Block

def repeated? : List String → List String → Option String
  | _, [] => none
  | seen, n :: ns => if n ∈ seen then some n else repeated? (n :: seen) ns

def portNames (b : Block) : List String := b.ports.map (·.2.name)

def unknownTemplatePort? (b : Block) : Option String :=
  (b.templates.flatMap Template.ports).find? (fun p => !b.portNames.contains p)

def invalidFixed? (b : Block) : Option (String × TypeError) :=
  b.ports.findSome? fun (_, p) =>
    match (b.baseType p).check with
    | .ok _ => none
    | .error e => some (p.name, e)

/-- What keeps a block with exactly these two port types from being an adapter. -/
def adapterTypeFlaw? (input output : PortType) : Option AdapterFlaw :=
  if input.cardinality.name?.isNone ∨ input.cardinality.name? ≠ output.cardinality.name? then
    some .cardinality
  else if input.temporality ≠ output.temporality then some .temporality
  else
    match input.payload, output.payload with
    | .inst _, .inst _ => none
    | .var a, .var b => if a = b then none else some .payloadVariables
    | _, _ => some .payloadHalfOpen

def adapterFlaw? (b : Block) : Option AdapterFlaw :=
  match b.inputs, b.outputs with
  | [input], [output] =>
    if !b.templates.isEmpty || b.readsPreviousFrame then some .constrained
    else adapterTypeFlaw? input.type output.type
  | _, _ => some .portCount

/-- Why a block cannot enter a catalog. -/
def refusal? (b : Block) : Option CatalogError :=
  match repeated? [] b.portNames with
  | some p => some (.duplicatePort b.name p)
  | none =>
  match b.unknownTemplatePort? with
  | some p => some (.unknownTemplatePort b.name p)
  | none =>
  match b.invalidFixed? with
  | some (p, e) => some (.invalidFixed b.name p e)
  | none =>
  if b.adapter.isSome then b.adapterFlaw?.map (.invalidAdapter b.name) else none

end Block

/-- Blocks by name. -/
structure Catalog where
  blocks : Std.ExtTreeMap String Block

namespace Catalog

def empty : Catalog := ⟨∅⟩

def lookup? (c : Catalog) (name : String) : Option Block := c.blocks[name]?

def toList (c : Catalog) : List Block := c.blocks.toList.map (·.2)

def size (c : Catalog) : Nat := c.blocks.size

def names (c : Catalog) : List String := c.blocks.keys

/-- Insert a block. The result has the error if it is refused. -/
def insert (c : Catalog) (b : Block) : Catalog × Option CatalogError :=
  if c.blocks.contains b.name then (c, some (.duplicateBlock b.name))
  else match b.refusal? with
    | some e => (c, some e)
    | none => (⟨c.blocks.insert b.name b⟩, none)

/-- Insert blocks in order up to the first that is refused. -/
def insertAll (c : Catalog) : List Block → Catalog × Option CatalogError
  | [] => (c, none)
  | b :: bs =>
    match c.insert b with
    | (c, none) => c.insertAll bs
    | (c, some e) => (c, some e)

/-- Load a catalog document; `source` names it in messages. The result has the number of blocks
loaded. -/
def load (c : Catalog) (source : String) (doc : DocumentText) : Catalog × Except CatalogError Nat :=
  match Block.fileDecoder.run doc with
  | .error e => (c, .error (.document source e))
  | .ok blocks =>
    match c.insertAll blocks with
    | (c, none) => (c, .ok blocks.length)
    | (c, some e) => (c, .error e)

def toJson (c : Catalog) : Json := Block.fileJson c.toList

/-- Compact text with the blocks in the order of their names. -/
def canonicalText (c : Catalog) : String := c.toJson.compact

def fingerprint (c : Catalog) : String := fingerprintOf c.canonicalText

end Catalog

end PatchTyping
