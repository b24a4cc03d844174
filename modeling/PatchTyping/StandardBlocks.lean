import PatchTyping.BlockCatalog

/-!
# The standard blocks

Sources, broadcasting arithmetic, shaping and delay, sinks, and the adapters between the units in
everyday use.
-/

namespace PatchTyping.StandardBlocks

def single (name : String) (p : Payload) (u : UnitTag) : PortDeclaration :=
  ⟨name, ⟨.inst p, .inst u, .inst .one, .continuous⟩⟩

/-- A port that carries one value for each element of a domain. -/
def spread (name : String) (p : Payload) (u : UnitTag) (domain : String) : PortDeclaration :=
  ⟨name, ⟨.inst p, .inst u, .inst (.many domain), .continuous⟩⟩

/-- A port of known payload and unit whose cardinality is the block's variable. -/
def shaped (name : String) (p : Payload) (u : UnitTag) : PortDeclaration :=
  ⟨name, ⟨.inst p, .inst u, .var "C", .continuous⟩⟩

/-- A single value of known payload whose unit is the block's variable. -/
def measured (name : String) (p : Payload) : PortDeclaration :=
  ⟨name, ⟨.inst p, .var "U", .inst .one, .continuous⟩⟩

/-- A port of which nothing is known but that it agrees with its siblings. -/
def generic (name : String) : PortDeclaration := ⟨name, .polymorphic "T" "U" "C"⟩

def sources : List Block :=
  [{ name := "Constant", outputs := [⟨"out", ⟨.var "T", .var "U", .inst .zero, .continuous⟩⟩] },
    { name := "Time", outputs := [single "t" .float .ms] },
    { name := "Phasor"
      inputs := [single "rate" .float .scalar]
      outputs := [single "phase" .float .phase01] },
    { name := "Counter"
      inputs := [⟨"tick", ⟨.inst .bool, .inst .none, .inst .one, .discrete⟩⟩]
      outputs := [single "n" .int .count] },
    { name := "Grid"
      outputs := [spread "pos" .vec2 .ndc2 "grid", spread "index" .float .norm01 "grid"] },
    { name := "Particles", outputs := [spread "t" .float .norm01 "particles"] }]

def arithmetic : List Block :=
  [{ name := "Sin", inputs := [shaped "x" .float .radians], outputs := [shaped "y" .float .scalar] },
    { name := "Cos", inputs := [shaped "x" .float .radians], outputs := [shaped "y" .float .scalar] },
    { name := "Add"
      inputs := [measured "a" .float, measured "b" .float]
      outputs := [measured "out" .float]
      templates := [.zipBroadcast ["a", "b", "out"]] },
    { name := "Multiply"
      inputs := [measured "a" .float, single "b" .float .scalar]
      outputs := [measured "out" .float]
      templates := [.zipBroadcast ["a", "b", "out"]] },
    { name := "Offset2"
      inputs := [measured "pos" .vec2, measured "delta" .vec2]
      outputs := [measured "out" .vec2]
      templates := [.zipBroadcast ["pos", "delta", "out"]] },
    { name := "HsvColor"
      inputs := [single "hue" .float .phase01]
      outputs := [single "color" .color .rgba01]
      templates := [.zipBroadcast ["hue", "color"]] }]

def memory : List Block :=
  [{ name := "Smooth", inputs := [generic "x"], outputs := [generic "y"] },
    { name := "Delay"
      inputs := [generic "in"]
      outputs := [generic "out"]
      readsPreviousFrame := true }]

def sinks : List Block :=
  [{ name := "Circles"
     inputs := [single "pos" .vec2 .ndc2, single "radius" .float .scalar,
       single "color" .color .rgba01]
     templates := [.zipBroadcast ["pos", "radius", "color"]] },
    { name := "Output", inputs := [generic "value"] }]

def converter (name : String) (source target : Payload × UnitTag) (cost : UInt32) (kernel : Kernel) :
    Block where
  name := name
  inputs := [shaped "in" source.1 source.2]
  outputs := [shaped "out" target.1 target.2]
  adapter := some ⟨cost, kernel⟩

def converters : List Block :=
  [converter "PhaseToRadians" (.float, .phase01) (.float, .radians) 1 (.scale 6.283185307179586),
    converter "RadiansToPhase" (.float, .radians) (.float, .phase01) 1
      (.scale 0.15915494309189537),
    converter "DegreesToRadians" (.float, .degrees) (.float, .radians) 1
      (.scale 0.017453292519943295),
    converter "RadiansToDegrees" (.float, .radians) (.float, .degrees) 1
      (.scale 57.29577951308232),
    converter "MsToSeconds" (.float, .ms) (.float, .seconds) 1 (.scale 0.001),
    converter "SecondsToMs" (.float, .seconds) (.float, .ms) 1 (.scale 1000.0),
    converter "CountToFloat" (.int, .count) (.float, .scalar) 2 .cast,
    converter "Norm01ToScalar" (.float, .norm01) (.float, .scalar) 1 .cast]

def all : List Block := sources ++ arithmetic ++ memory ++ sinks ++ converters

end PatchTyping.StandardBlocks

namespace PatchTyping

def Catalog.standard : Catalog := (Catalog.empty.insertAll StandardBlocks.all).1

end PatchTyping
