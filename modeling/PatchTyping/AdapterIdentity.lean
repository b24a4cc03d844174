import PatchTyping.PortKeys
import PatchTyping.Sha256Digest

/-!
# Names of spliced adapters

The name of a spliced adapter is derived from what it connects and the rule it follows. It does not
depend on the rest of the patch, so splicing the same conversion again gives the same name.
-/

namespace PatchTyping

/-- The bytes that identify a splice: the parts in order with a zero byte between them. -/
def spliceBytes (source target : PortKey) (rule : String) : List UInt8 :=
  utf8Bytes "adapter" ++ 0 :: utf8Bytes source.node ++ 0 :: utf8Bytes source.port
    ++ 0 :: utf8Bytes target.node ++ 0 :: utf8Bytes target.port ++ 0 :: utf8Bytes rule

/-- Rule name and the first twelve digits of the digest. -/
def adapterNodeId (source target : PortKey) (rule : String) : NodeId :=
  "adapter." ++ rule ++ "." ++ hexText ((Sha256.digest (spliceBytes source target rule)).take 6)

def adapterEdgeId (adapter : NodeId) (port : String) : EdgeId := adapter ++ ":" ++ port

end PatchTyping
