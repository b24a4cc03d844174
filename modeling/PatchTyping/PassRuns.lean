import PatchTyping.Normalization

/-!
# Runs up to a pass

A run stops after the pass it is asked for. It has the artifacts of the passes it took and a log of what
each of them reported, round by round.
-/

namespace PatchTyping

structure PassRun where
  patch : Patch
  iterations : Nat
  constraints : ConstraintSet
  substitution : Substitution
  cardinalityStates : Option (Std.ExtTreeMap PortKey CardinalityState)
  typing : Option PortTyping
  inserted : List Splice
  typed : Option TypedPatch
  cycles : List CycleReport
  certificate : Option Certificate
  backend : Option BackendPatch
  diagnostics : List Diagnostic
  log : PassLog

namespace PassRun

def ready (r : PassRun) : Bool :=
  match r.typed, r.certificate with
  | some typed, some certificate => isReady r.diagnostics typed certificate
  | _, _ => false

def solved (passes : List Pass) (r : Round) : Substitution where
  payload := if passes.contains .solvePayloadUnit then r.payload.values else ∅
  unit := if passes.contains .solvePayloadUnit then r.unit.values else ∅
  cardinality := if passes.contains .solveCardinality then r.cardinality.vars else ∅
  overrides := if passes.contains .solveCardinality then r.cardinality.overrides else ∅

end PassRun

/-- Keep something only if it was asked for. -/
def onlyIf {α : Type} (asked : Bool) (a : α) : Option α := if asked then some a else none

/-- Run the passes that the given one rests on. Without splicing there is one round. -/
def Patch.runPasses (g : Patch) (catalog : Catalog) (options : NormalizationOptions)
    (terminal : Pass) : PassRun :=
  let passes := terminal.required
  let splices := passes.contains .insertAdapters
  let c :=
    if splices then converge catalog (options.maxIterations - 1) g
    else ⟨[], Round.ofPatch catalog g⟩
  let typed := c.patch.typed c.last.typing
  let classifies := passes.contains .classifyCycles && options.classifyCycles
  let lowers := passes.contains .lower
  let cycles := if classifies then c.patch.cycles catalog else []
  let closing := cycleLog classifies cycles
  let diagnostics := (c.lastLog passes).diagnostics ++ closing.diagnostics
  let certificate := typed.certificate
  { patch := c.patch
    iterations := c.iterations
    constraints := c.last.constraints
    substitution := PassRun.solved passes c.last
    cardinalityStates := onlyIf (passes.contains .solveCardinality) c.last.cardinality.states
    typing := onlyIf splices c.last.typing
    inserted := c.inserted
    typed := onlyIf splices typed
    cycles
    certificate := onlyIf lowers certificate
    backend :=
      if lowers && isReady diagnostics typed certificate then typed.lower? catalog else none
    diagnostics
    log := c.earlierLog passes ++ c.lastLog passes ++ closing
      ++ if lowers then [(Pass.lower, [])] else [] }

end PatchTyping
