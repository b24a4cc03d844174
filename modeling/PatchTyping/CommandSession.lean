import PatchTyping.BuildFingerprint
import PatchTyping.CommandOptions
import PatchTyping.DotDrawing
import PatchTyping.PassRuns
import PatchTyping.StandardBlocks

/-!
# Sessions of the command line

A session says what a run with given options does, as a function of what the files it asks for hold: the
notes it makes first, the text it puts out, the notes after that, and the exit code. A file that cannot
be read is given by its fault.
-/

namespace PatchTyping

/-- What the files hold. -/
abbrev FileReader := String → Except FileFault String

structure Session where
  notes : List String := []
  /-- Absent if the run stops before there is anything to put out. -/
  output : Option String := none
  /-- Notes made after the output. -/
  closing : List String := []
  exitCode : Nat := 0
deriving DecidableEq, Repr

def errorNote (reason : String) : String := "normc: error: " ++ reason

def errorAt (path reason : String) : String := errorNote (path ++ ": " ++ reason)

def blockedCode : Nat := 1

def failureCode : Nat := 2

namespace Session

def failed (notes : List String) (note : String) : Session where
  notes := notes ++ [note]
  exitCode := failureCode

/-- What is left of a session when its output cannot be written. -/
def afterFailedOutput (path : String) (fault : FileFault) : Session :=
  failed [] (errorAt path fault.message)

end Session

namespace CommandOptions

/-- Notes that are made only on demand. -/
def verboseNotes (o : CommandOptions) (notes : List String) : List String :=
  if o.verbose then notes else []

def files (o : CommandOptions) : List String := o.catalogs ++ [o.patch]

/-- Load catalog files in order. The notes are those made up to the end or the first error. -/
def loadCatalogs (o : CommandOptions) (read : FileReader) :
    List String → List String → Catalog → List String × Except CatalogError Catalog
  | notes, [], c => (notes, .ok c)
  | notes, path :: paths, c =>
    match read path with
    | .error fault => (notes, .error (.unreadable path fault))
    | .ok text =>
      match c.load path (readDocument text) with
      | (_, .error e) => (notes, .error e)
      | (c, .ok n) =>
        o.loadCatalogs read
          (notes ++ o.verboseNotes ["normc: loaded " ++ toString n ++ " blocks from " ++ path])
          paths c

def terminal (o : CommandOptions) : Pass :=
  match o.stage with
  | .constraints => .extract
  | _ => .lower

def normalization (o : CommandOptions) : NormalizationOptions where
  maxIterations := max 1 o.maxIterations

/-- The text of a value, on lines of its own. -/
def valueText (j : Json) : String := j.indented ++ "\n"

def optionalText (j : Option Json) : String := valueText (j.getD .null)

def rendered (o : CommandOptions) (r : PassRun) : String :=
  match o.stage with
  | .constraints => valueText r.constraints.toJson
  | .diagnostics => valueText (.arr (r.diagnostics.map Diagnostic.toJson))
  | .typed => optionalText (r.typed.map TypedPatch.toJson)
  | .backend => optionalText (r.backend.map BackendPatch.toJson)
  | .dot =>
    match r.typed with
    | some t => t.drawing r.cycles
    | none => ""
  | .catalog => ""
  | .buildInfo => ""

def blocked (o : CommandOptions) (r : PassRun) : Bool :=
  match o.stage with
  | .constraints => hasErrors r.diagnostics
  | _ => !r.ready

def diagnosticNotes (o : CommandOptions) (r : PassRun) : List String :=
  match o.stage with
  | .diagnostics => []
  | _ => r.diagnostics.map Diagnostic.text

def closingNote (r : PassRun) (blocked : Bool) : String :=
  "normc: " ++ toString r.iterations ++ " iteration(s), " ++ toString r.inserted.length
    ++ " adapter(s) inserted, ready_for_backend = " ++ toString !blocked

/-- The part of a session after the patch has been read. -/
def runSession (o : CommandOptions) (notes : List String) (catalog : Catalog) (g : Patch) :
    Session :=
  let r := g.runPasses catalog o.normalization o.terminal
  let blocked := o.blocked r
  { notes := notes
      ++ o.verboseNotes (r.log.map fun (p, _) => "normc: " ++ p.name ++ " complete")
      ++ o.diagnosticNotes r
    output := some (o.rendered r)
    closing := o.verboseNotes [closingNote r blocked]
    exitCode := if blocked then blockedCode else 0 }

def patchSession (o : CommandOptions) (read : FileReader) (notes : List String)
    (catalog : Catalog) : Session :=
  match read o.patch with
  | .error fault => .failed notes (errorAt o.patch fault.message)
  | .ok text =>
    match Patch.ofText text with
    | .error e => .failed notes (errorAt o.patch e.message)
    | .ok g =>
      let notes := notes ++ o.verboseNotes
        ["normc: read " ++ toString g.nodes.size ++ " nodes, " ++ toString g.edges.size ++ " edges"]
      match o.stage with
      | .buildInfo => { notes, output := some (BuildFingerprint.ofInputs g catalog).text }
      | _ => o.runSession notes catalog g

def session (o : CommandOptions) (read : FileReader) : Session :=
  let notes := o.verboseNotes
    ["normc: graph = " ++ o.patch, "normc: emit  = " ++ o.stage.title]
  let start := if o.noStandard then Catalog.empty else Catalog.standard
  match o.loadCatalogs read notes o.catalogs start with
  | (notes, .error e) => .failed notes (errorNote e.message)
  | (notes, .ok catalog) =>
    let notes := notes ++ o.verboseNotes
      ["normc: " ++ toString catalog.size ++ " blocks registered, "
        ++ toString catalog.adapterRules.length ++ " adapter rules"]
    match o.stage with
    | .catalog => { notes, output := some catalog.toJson.indented }
    | _ => o.patchSession read notes catalog

end CommandOptions

def versionText : String := "normc " ++ programVersion ++ "\n"

end PatchTyping
