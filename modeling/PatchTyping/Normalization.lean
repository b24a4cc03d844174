import PatchTyping.AdapterSplicing
import PatchTyping.AxisInference
import PatchTyping.BackendLowering
import PatchTyping.CardinalityInference
import PatchTyping.ConstraintExtraction
import PatchTyping.FeedbackCycles
import PatchTyping.PassPlan

/-!
# Normalization

A round infers the types of a patch and splices adapters into it. Rounds are repeated on the spliced
patch until one has nothing to splice; a bound on their number may come first, and then the patch stays
as the last round found it. Of the diagnostics only those of the last round count, since splicing
settles what earlier rounds may have complained of. A patch that has been typed without any error is
ready for the backend.
-/

namespace PatchTyping

structure NormalizationOptions where
  /-- The number of rounds allowed, with the last one, which splices nothing. There is always one. -/
  maxIterations : Nat := 4
  classifyCycles : Bool := true
deriving DecidableEq, Repr

/-- What one round finds out about a patch. -/
structure Round where
  patch : Patch
  constraints : ConstraintSet
  extraction : List Diagnostic
  payload : AxisSolution Payload
  unit : AxisSolution UnitTag
  cardinality : CardinalitySolution
  typing : PortTyping
  invalidTypes : List Diagnostic
  splicing : Splicing

namespace Round

def substitution (payload : AxisSolution Payload) (unit : AxisSolution UnitTag)
    (cardinality : CardinalitySolution) : Substitution where
  payload := payload.values
  unit := unit.values
  cardinality := cardinality.vars
  overrides := cardinality.overrides

/-- Infer the types of a patch and splice adapters into it. -/
def ofPatch (catalog : Catalog) (g : Patch) : Round :=
  let constraints := g.constraints catalog
  let payload := constraints.solvePayload
  let unit := constraints.solveUnit
  let cardinality := constraints.solveCardinality
  let s := substitution payload unit cardinality
  let typing := s.typing constraints.ports
  { patch := g
    constraints
    extraction := g.extractionDiagnostics catalog
    payload
    unit
    cardinality
    typing
    invalidTypes := s.diagnostics constraints.ports
    splicing := spliceAll catalog.adapterRules typing constraints.edgePairs g }

def isQuiet (r : Round) : Bool := r.splicing.inserted.isEmpty

def diagnosticsOf (r : Round) : Pass → List Diagnostic
  | .extract => r.extraction
  | .solvePayloadUnit => r.payload.diagnostics ++ r.unit.diagnostics
  | .solveCardinality => r.cardinality.diagnostics
  | .insertAdapters => r.invalidTypes ++ r.splicing.diagnostics
  | .classifyCycles => []
  | .lower => []

end Round

/-- Rounds up to the last. -/
structure Convergence where
  earlier : List Round
  last : Round

/-- Repeat rounds until one is quiet, with at most the given number after the first. -/
def converge (catalog : Catalog) : Nat → Patch → Convergence
  | 0, g => ⟨[], Round.ofPatch catalog g⟩
  | n + 1, g =>
    let r := Round.ofPatch catalog g
    if r.isQuiet then ⟨[], r⟩
    else
      let c := converge catalog n r.splicing.patch
      ⟨r :: c.earlier, c.last⟩

/-- The diagnostics of each pass, pass by pass. -/
abbrev PassLog := List (Pass × List Diagnostic)

def PassLog.diagnostics (log : PassLog) : List Diagnostic := log.flatMap (·.2)

namespace Convergence

def iterations (c : Convergence) : Nat := c.earlier.length + 1

def patch (c : Convergence) : Patch := c.last.patch

/-- All adapters in the patch that were spliced in, in order. -/
def inserted (c : Convergence) : List Splice := c.earlier.flatMap (·.splicing.inserted)

/-- The last round would still have spliced. -/
def nonConvergence (c : Convergence) : List Diagnostic :=
  if c.last.isQuiet then []
  else
    [{ kind := .nonConvergence
       message := "adapter insertion still changed the graph after " ++ toString c.iterations
        ++ " iterations"
       hint := "raise --max-iterations or check for adapter chains"
       causes := [toString c.last.splicing.inserted.length ++ " more adapter(s) were pending"] }]

def lastDiagnosticsOf (c : Convergence) : Pass → List Diagnostic
  | .insertAdapters => c.last.diagnosticsOf .insertAdapters ++ c.nonConvergence
  | p => c.last.diagnosticsOf p

def lastLog (c : Convergence) (passes : List Pass) : PassLog :=
  (passes.filter Pass.perIteration).map fun p => (p, c.lastDiagnosticsOf p)

/-- What the given passes report in the earlier rounds. -/
def earlierLog (c : Convergence) (passes : List Pass) : PassLog :=
  c.earlier.flatMap fun r => (passes.filter Pass.perIteration).map fun p => (p, r.diagnosticsOf p)

end Convergence

def cycleDiagnostics (cycles : List CycleReport) : List Diagnostic :=
  cycles.filterMap CycleReport.diagnostic?

/-- What the look at cycles reports, if there is one. -/
def cycleLog (classifies : Bool) (cycles : List CycleReport) : PassLog :=
  if classifies then [(.classifyCycles, cycleDiagnostics cycles)] else []

structure NormalizationResult where
  patch : Patch
  typed : TypedPatch
  /-- The constraints of the last round. -/
  constraints : ConstraintSet
  diagnostics : List Diagnostic
  cycles : List CycleReport
  iterations : Nat
  inserted : List Splice
  certificate : Certificate
  backend : Option BackendPatch
  ready : Bool
  /-- What each pass has reported, round by round. -/
  log : PassLog

/-- Ready for the backend: no error, everything typed, all obligations met. -/
def isReady (diagnostics : List Diagnostic) (typed : TypedPatch) (certificate : Certificate) : Bool :=
  !hasErrors diagnostics && typed.isFullyConcrete && certificate.allPass

def Patch.normalize (g : Patch) (catalog : Catalog) (options : NormalizationOptions) :
    NormalizationResult :=
  let c := converge catalog (options.maxIterations - 1) g
  let typed := c.patch.typed c.last.typing
  let cycles := if options.classifyCycles then c.patch.cycles catalog else []
  let closing := cycleLog options.classifyCycles cycles
  let diagnostics := (c.lastLog Pass.all).diagnostics ++ closing.diagnostics
  let certificate := typed.certificate
  let ready := isReady diagnostics typed certificate
  { patch := c.patch
    typed
    constraints := c.last.constraints
    diagnostics
    cycles
    iterations := c.iterations
    inserted := c.inserted
    certificate
    backend := if ready then typed.lower? catalog else none
    ready
    log := c.earlierLog Pass.all ++ c.lastLog Pass.all ++ closing ++ [(.lower, [])] }

end PatchTyping
