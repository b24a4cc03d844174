import PatchTyping.BlockDefinitions
import PatchTyping.JsonDecoding
import PatchTyping.TypeTextParsing

/-!
# Block definitions as JSON

Port types are written in the type text. Inputs and outputs are always written; the other parts of a
block only when there is something to say.
-/

namespace PatchTyping

namespace PortType

def decoder : Decoder PortType :=
  Decoder.parsed fun s => (parsePortType s).mapError TypeTextError.message

def toJson (t : PortType) : Json := .str t.text

end PortType

namespace PortDeclaration

def decoder : Decoder PortDeclaration :=
  (((Record.required "name" Decoder.string).and (Record.required "type" PortType.decoder)).map
    fun (name, type) => ⟨name, type⟩).decode "PortDef"

def toJson (p : PortDeclaration) : Json := .obj [("name", .str p.name), ("type", p.type.toJson)]

end PortDeclaration

namespace AxisName

def decoder : Decoder AxisName := Decoder.choice (all.map fun a => (a.name, a))

end AxisName

namespace Template

def union : TaggedUnion Template where
  title := "ConstraintTemplate"
  tagField := "kind"
  variants :=
    [.record "equal" "ConstraintTemplate::Equal"
      (((Record.required "axis" AxisName.decoder).and
        (Record.required "ports" (Decoder.list Decoder.string))).map
          fun (axis, ports) => .equal axis ports),
    .record "zip_broadcast" "ConstraintTemplate::ZipBroadcast"
      ((Record.required "ports" (Decoder.list Decoder.string)).map .zipBroadcast),
    .record "fixed" "ConstraintTemplate::Fixed"
      (((Record.required "port" Decoder.string).and
        (Record.required "type" PortType.decoder)).map fun (port, type) => .fixed port type)]

def decoder : Decoder Template := union.decode

def portList (ports : List String) : Json := .arr (ports.map Json.str)

def toJson : Template → Json
  | equal axis ports =>
    .obj [("kind", .str "equal"), ("axis", .str axis.name), ("ports", portList ports)]
  | zipBroadcast ports => .obj [("kind", .str "zip_broadcast"), ("ports", portList ports)]
  | fixed port type => .obj [("kind", .str "fixed"), ("port", .str port), ("type", type.toJson)]

end Template

namespace Kernel

def union : TaggedUnion Kernel where
  title := "AdapterKernel"
  tagField := "op"
  variants :=
    [.record "scale" "AdapterKernel::Scale" ((Record.required "factor" Decoder.real).map .scale),
    .record "affine" "AdapterKernel::Affine"
      (((Record.required "scale" Decoder.real).and (Record.required "offset" Decoder.real)).map
        fun (factor, offset) => .affine factor offset),
    .bare "cast" .cast]

def decoder : Decoder Kernel := union.decode

def toJson : Kernel → Json
  | scale factor => .obj [("op", .str "scale"), ("factor", .float factor)]
  | affine factor offset =>
    .obj [("op", .str "affine"), ("scale", .float factor), ("offset", .float offset)]
  | cast => .obj [("op", .str "cast")]

end Kernel

namespace AdapterSpec

/-- The cost is one unless it is given. -/
def decoder : Decoder AdapterSpec :=
  (((Record.defaulting "cost" Decoder.word32 1).and (Record.required "kernel" Kernel.decoder)).map
    fun (cost, kernel) => ⟨cost, kernel⟩).decode "AdapterSpec"

def toJson (s : AdapterSpec) : Json :=
  .obj [("cost", .int s.cost.toNat), ("kernel", s.kernel.toJson)]

end AdapterSpec

namespace Block

def record : Record Block :=
  ((Record.required "name" Decoder.string).and <|
    (Record.defaulting "inputs" (Decoder.list PortDeclaration.decoder) []).and <|
    (Record.defaulting "outputs" (Decoder.list PortDeclaration.decoder) []).and <|
    (Record.defaulting "constraints" (Decoder.list Template.decoder) []).and <|
    (Record.defaulting "adapter" (Decoder.optional AdapterSpec.decoder) none).and <|
    Record.defaulting "reads_previous_frame" Decoder.boolean false).map
  fun (name, inputs, outputs, templates, adapter, readsPreviousFrame) =>
    { name, inputs, outputs, templates, adapter, readsPreviousFrame }

def decoder : Decoder Block := record.decode "BlockDef"

def toJson (b : Block) : Json :=
  .obj <|
    [("name", .str b.name), ("inputs", .arr (b.inputs.map PortDeclaration.toJson)),
      ("outputs", .arr (b.outputs.map PortDeclaration.toJson))]
    ++ (if b.templates.isEmpty then []
        else [("constraints", .arr (b.templates.map Template.toJson))])
    ++ Json.optional "adapter" (b.adapter.map AdapterSpec.toJson)
    ++ (if b.readsPreviousFrame then [("reads_previous_frame", .bool true)] else [])

def fileDecoder : Decoder (List Block) :=
  (Record.required "blocks" (Decoder.list decoder)).decode "CatalogFile"

def fileJson (blocks : List Block) : Json := .obj [("blocks", .arr (blocks.map toJson))]

end Block

end PatchTyping
