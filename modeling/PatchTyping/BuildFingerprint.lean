import PatchTyping.BlockCatalog
import PatchTyping.PatchDocuments

/-!
# Build fingerprints

What identifies the inputs of a run: the patch, the catalog, and the version of the program.
-/

namespace PatchTyping

def programVersion : String := "0.3.2"

structure BuildFingerprint where
  patch : String
  catalog : String
  version : String
deriving DecidableEq, Repr

namespace BuildFingerprint

def ofInputs (g : Patch) (catalog : Catalog) : BuildFingerprint :=
  ⟨g.fingerprint, catalog.fingerprint, programVersion⟩

def toJson (f : BuildFingerprint) : Json :=
  .obj [("graph_hash", .str f.patch), ("catalog_fingerprint", .str f.catalog),
    ("compiler_version", .str f.version)]

def text (f : BuildFingerprint) : String := f.toJson.indented ++ "\n"

end BuildFingerprint

end PatchTyping
