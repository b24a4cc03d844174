import PatchTyping.BlockDocuments
import PatchTyping.PatchGraphs
import PatchTyping.Sha256Digest

/-!
# Patches as JSON

A patch document lists nodes and edges. Repeated names are looked for after the whole document has been
read. Written documents are in the order of the names.
-/

namespace PatchTyping

namespace PortKey

def decoder : Decoder PortKey :=
  Decoder.parsed fun s =>
    match parse? s with
    | some k => .ok k
    | none => .error (refusal s)

def toJson (k : PortKey) : Json := .str k.text

end PortKey

namespace Provenance

def union : TaggedUnion Provenance where
  title := "Provenance"
  tagField := "kind"
  variants :=
    [.bare "authored" .authored,
    .record "inserted" "Provenance::Inserted"
      (((Record.required "rule" Decoder.string).and
        (Record.required "replaced_edge" Decoder.string)).map
          fun (rule, edge) => .inserted rule edge)]

def decoder : Decoder Provenance := union.decode

def toJson : Provenance → Json
  | authored => .obj [("kind", .str "authored")]
  | inserted rule edge =>
    .obj [("kind", .str "inserted"), ("rule", .str rule), ("replaced_edge", .str edge)]

/-- What an author has written goes without saying. -/
def field (p : Provenance) : List (String × Json) :=
  if p.isAuthored then [] else [("provenance", p.toJson)]

end Provenance

/-- An object with a field for each entry, in the order of the keys. -/
def typeMapJson (m : Std.ExtTreeMap String PortType) : Json :=
  .obj (m.toList.map fun (name, t) => (name, t.toJson))

namespace Node

/-- Of two overrides of a port the later one counts. -/
def overridesDecoder : Decoder (Std.ExtTreeMap String PortType) := fun d =>
  (Decoder.entries PortType.decoder d).map fun es => Std.ExtTreeMap.ofList es

def decoder : Decoder (NodeId × Node) :=
  (((Record.required "id" Decoder.string).and <| (Record.required "block" Decoder.string).and <|
    (Record.defaulting "port_types" overridesDecoder ∅).and <|
    Record.defaulting "provenance" Provenance.decoder .authored).map
      fun (id, block, overrides, provenance) =>
        (id, { block, overrides, provenance })).decode "Node"

def toJson (id : NodeId) (n : Node) : Json :=
  .obj <|
    [("id", .str id), ("block", .str n.block)]
    ++ (if n.overrides.isEmpty then [] else [("port_types", typeMapJson n.overrides)])
    ++ n.provenance.field

end Node

namespace Edge

def decoder : Decoder (EdgeId × Edge) :=
  (((Record.required "id" Decoder.string).and <| (Record.required "from" PortKey.decoder).and <|
    Record.required "to" PortKey.decoder).map
      fun (id, source, target) => (id, ⟨source, target⟩)).decode "Edge"

def toJson (id : EdgeId) (e : Edge) : Json :=
  .obj [("id", .str id), ("from", e.source.toJson), ("to", e.target.toJson)]

end Edge

namespace Patch

def decoder : Decoder Patch := fun d => do
  let (nodes, edges) ←
    ((Record.defaulting "nodes" (Decoder.list Node.decoder) []).and
      (Record.defaulting "edges" (Decoder.list Edge.decoder) [])).decode "GraphFile" d
  match ofLists nodes edges with
  | .ok g => .ok g
  | .error e => Decoder.fault (.rejected e.message)

def ofText (text : String) : Except DecodeError Patch := decoder.run (readDocument text)

def toJson (g : Patch) : Json :=
  .obj [("nodes", .arr (g.nodes.toList.map fun (id, n) => n.toJson id)),
    ("edges", .arr (g.edges.toList.map fun (id, e) => e.toJson id))]

/-- Compact text in the order of the names. -/
def canonicalText (g : Patch) : String := g.toJson.compact

def fingerprint (g : Patch) : String := fingerprintOf g.canonicalText

end Patch

end PatchTyping
