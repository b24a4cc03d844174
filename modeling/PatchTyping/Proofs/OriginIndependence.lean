import PatchTyping.Proofs.BackendReadiness
import PatchTyping.Proofs.QuietRounds

/-!
# Where nodes come from

A node carries a mark that says whether it was spliced in. Inference, splicing and the look at cycles go
by the blocks and overrides of nodes and never by their marks, so two patches that differ in marks only
go through the same rounds. The marks come through unchanged; one obligation reads them, and the patch
that is handed over no longer has them.
-/

namespace PatchTyping

/-- The node as if its author had written it. -/
def Node.unmarked (n : Node) : Node := { n with provenance := .authored }

def TypedNode.unmarked (n : TypedNode) : TypedNode := { n with provenance := .authored }

def Patch.unmarked (g : Patch) : Patch := { g with nodes := g.nodes.map fun _ n => n.unmarked }

def TypedPatch.unmarked (t : TypedPatch) : TypedPatch :=
  { t with nodes := t.nodes.map fun _ n => n.unmarked }

namespace Patch

variable (g : Patch) (catalog : Catalog)

@[simp] theorem getElem?_unmarked (id : NodeId) :
    g.unmarked.nodes[id]? = g.nodes[id]?.map Node.unmarked := by
  simp [unmarked]

@[simp] theorem contains_unmarked (id : NodeId) :
    g.unmarked.nodes.contains id = g.nodes.contains id := by
  rw [Std.ExtTreeMap.contains_eq_isSome_getElem?, Std.ExtTreeMap.contains_eq_isSome_getElem?,
    getElem?_unmarked, Option.isSome_map]

@[simp] theorem edges_unmarked : g.unmarked.edges = g.edges := rfl

theorem unmarked_eq_iff {g g' : Patch} : g.unmarked = g'.unmarked ↔
    (∀ id : NodeId, g.nodes[id]?.map Node.unmarked = g'.nodes[id]?.map Node.unmarked) ∧
      g.edges = g'.edges := by
  constructor
  · intro h
    refine ⟨fun id => ?_, ?_⟩
    · rw [← getElem?_unmarked, h, getElem?_unmarked]
    · rw [← g.edges_unmarked, h, edges_unmarked]
  · intro ⟨hnodes, hedges⟩
    have hmaps : g.unmarked.nodes = g'.unmarked.nodes := by
      apply Std.ExtTreeMap.ext_getElem?
      intro id
      rw [getElem?_unmarked, getElem?_unmarked, hnodes]
    rw [unmarked, unmarked, hedges]
    exact congrArg (Patch.mk · g'.edges) hmaps

theorem toList_unmarked : g.unmarked.nodes.toList = g.nodes.toList.map fun x => (x.1, x.2.unmarked) :=
  Std.ExtTreeMap.toList_map

@[simp] theorem keys_unmarked : g.unmarked.nodes.keys = g.nodes.keys := by
  rw [← Std.ExtTreeMap.map_fst_toList_eq_keys, ← Std.ExtTreeMap.map_fst_toList_eq_keys,
    toList_unmarked, List.map_map]
  rfl

theorem flatMap_knownNodes_unmarked {β : Type} {F : NodeId × Node × Block → List β}
    (hF : ∀ id n b, F (id, n.unmarked, b) = F (id, n, b)) :
    (g.unmarked.knownNodes catalog).flatMap F = (g.knownNodes catalog).flatMap F :=
  g.flatMap_knownNodes_map catalog Node.unmarked (fun _ => rfl) hF

theorem portTable_unmarked : g.unmarked.portTable catalog = g.portTable catalog := by
  rw [portTable, portTable, flatMap_knownNodes_unmarked g catalog fun _ _ _ => rfl]

theorem constraints_unmarked : g.unmarked.constraints catalog = g.constraints catalog := by
  have haxis : ∀ {α : Type} (ports : PortTable) (pairs : List EdgePair) (which : AxisName)
      (axis : PortType → Axis α), g.unmarked.axisConstraints catalog ports pairs which axis =
        g.axisConstraints catalog ports pairs which axis := by
    intro α ports pairs which axis
    rw [axisConstraints, axisConstraints, flatMap_knownNodes_unmarked g catalog fun _ _ _ => rfl]
  have hcardinality : ∀ (ports : PortTable) (pairs : List EdgePair),
      g.unmarked.cardinalityConstraints catalog ports pairs =
        g.cardinalityConstraints catalog ports pairs := by
    intro ports pairs
    rw [cardinalityConstraints, cardinalityConstraints,
      flatMap_knownNodes_unmarked g catalog fun _ _ _ => rfl]
  have hpairs : ∀ ports, g.unmarked.edgePairs ports = g.edgePairs ports := fun _ => rfl
  simp only [constraints, portTable_unmarked, haxis, hcardinality, hpairs]

theorem extractionDiagnostics_unmarked :
    g.unmarked.extractionDiagnostics catalog = g.extractionDiagnostics catalog := by
  have hnodes : (g.unmarked.nodes.toList.flatMap fun x => x.2.diagnostics catalog x.1) =
      g.nodes.toList.flatMap fun x => x.2.diagnostics catalog x.1 := by
    rw [toList_unmarked, List.flatMap_map]
    rfl
  have hedges : ∀ ports, g.unmarked.edgeDiagnostics ports = g.edgeDiagnostics ports := by
    intro ports
    simp only [edgeDiagnostics, endpointDiagnostics, contains_unmarked]
    rfl
  rw [extractionDiagnostics, extractionDiagnostics, portTable_unmarked, hedges]
  exact congrArg (· ++ _) hnodes

theorem cycles_unmarked : g.unmarked.cycles catalog = g.cycles catalog := by
  have hsuccessors : ∀ keep, g.unmarked.successors keep = g.successors keep := by
    intro keep
    simp only [successors, contains_unmarked, keys_unmarked]
    rfl
  have hframe : g.unmarked.readsPreviousFrame catalog = g.readsPreviousFrame catalog := by
    funext id
    simp only [readsPreviousFrame, getElem?_unmarked]
    cases g.nodes[id]? <;> rfl
  simp only [cycles, instantaneous, hsuccessors, hframe, keys_unmarked]

theorem typed_unmarked (types : PortTyping) : (g.typed types).unmarked = g.unmarked.typed types := by
  have hnodes : (g.typed types).unmarked.nodes = (g.unmarked.typed types).nodes := by
    apply Std.ExtTreeMap.ext_getElem?
    intro id
    simp only [TypedPatch.unmarked, typed, unmarked, Std.ExtTreeMap.getElem?_map, Option.map_map]
    rfl
  exact congrArg (TypedPatch.mk · _) hnodes

end Patch

namespace TypedPatch

variable (t : TypedPatch)

theorem all_nodes_unmarked {p : TypedNode → Bool} (hp : ∀ n, p n.unmarked = p n) :
    t.unmarked.nodes.values.all p = t.nodes.values.all p := by
  rw [OrderedMaps.values_eq_map_toList, OrderedMaps.values_eq_map_toList, unmarked,
    Std.ExtTreeMap.toList_map, List.map_map, List.all_map, List.all_map]
  exact congrArg (List.all _) (funext fun x => hp x.2)

theorem certificate_unmarked :
    t.unmarked.certificate.edgesConsistent = t.certificate.edgesConsistent ∧
      t.unmarked.certificate.fullyConcrete = t.certificate.fullyConcrete := by
  have hport : ∀ k, t.unmarked.portType? k = t.portType? k := by
    intro k
    simp only [portType?, unmarked, Std.ExtTreeMap.getElem?_map, Option.bind_map]
    rfl
  have hedge : t.unmarked.isConsistent = t.isConsistent := by
    funext e
    rw [isConsistent, isConsistent, hport, hport]
  constructor
  · exact congrArg (List.all t.edges.values) hedge
  · exact t.all_nodes_unmarked fun _ => rfl

theorem toBackend?_unmarked (catalog : Catalog) :
    t.unmarked.toBackend? catalog = t.toBackend? catalog := by
  have hnodes : (t.unmarked.nodes.toList.mapM fun x => x.2.lower? catalog x.1) =
      t.nodes.toList.mapM fun x => x.2.lower? catalog x.1 := by
    rw [unmarked, Std.ExtTreeMap.toList_map, List.mapM_map]
    rfl
  exact congrArg (· >>= fun nodes => (t.edges.toList.mapM fun x => x.2.lower? x.1) >>= fun edges =>
    pure (BackendPatch.mk nodes edges)) hnodes

end TypedPatch

/-! ### Runs side by side -/

/-- Both attempts fail for the same reason, or both succeed with results that are related. -/
inductive SameOutcome {ε α : Type} (R : α → α → Prop) : Except ε α → Except ε α → Prop where
  | error (e : ε) : SameOutcome R (.error e) (.error e)
  | ok {a a' : α} (h : R a a') : SameOutcome R (.ok a) (.ok a')

theorem SameOutcome.bind {ε α β : Type} {R : α → α → Prop} {S : β → β → Prop} {x x' : Except ε α}
    {f f' : α → Except ε β} (h : SameOutcome R x x')
    (hf : ∀ a a', R a a' → SameOutcome S (f a) (f' a')) :
    SameOutcome S (x >>= f) (x' >>= f') := by
  cases h with
  | error e => exact .error e
  | ok h => exact hf _ _ h

namespace Patch

/-- The patches are the same but for the marks of the given nodes. -/
structure SameButMarks (original : NodeId → Prop) (g g' : Patch) : Prop where
  unmarked_eq : g.unmarked = g'.unmarked
  others : ∀ id, ¬ original id → g.nodes[id]? = g'.nodes[id]?

namespace SameButMarks

variable {original : NodeId → Prop} {g g' : Patch}

theorem of_unmarked_eq (h : g.unmarked = g'.unmarked) : SameButMarks (· ∈ g.nodes) g g' where
  unmarked_eq := h
  others id hid := by
    have hnone : g.nodes[id]? = none := by simpa using hid
    have hmap := (unmarked_eq_iff.mp h).1 id
    rw [hnone, Option.map_none] at hmap
    rw [hnone, Option.map_eq_none_iff.mp hmap.symm]

variable (h : SameButMarks original g g')
include h

theorem edges_eq : g.edges = g'.edges := (unmarked_eq_iff.mp h.unmarked_eq).2

theorem contains_eq (id : NodeId) : g.nodes.contains id = g'.nodes.contains id := by
  rw [← g.contains_unmarked, h.unmarked_eq, g'.contains_unmarked]

theorem with_edges (es : Std.ExtTreeMap EdgeId Edge) :
    SameButMarks original { g with edges := es } { g' with edges := es } where
  unmarked_eq := unmarked_eq_iff.mpr ⟨(unmarked_eq_iff.mp h.unmarked_eq).1, rfl⟩
  others := h.others

theorem insert (id : NodeId) (n : Node) :
    SameButMarks original { g with nodes := g.nodes.insert id n }
      { g' with nodes := g'.nodes.insert id n } where
  unmarked_eq := by
    refine unmarked_eq_iff.mpr ⟨fun i => ?_, h.edges_eq⟩
    simp only [Std.ExtTreeMap.getElem?_insert]
    split
    · rfl
    · exact (unmarked_eq_iff.mp h.unmarked_eq).1 i
  others i hi := by
    simp only [Std.ExtTreeMap.getElem?_insert, h.others i hi]

theorem addNode (id : NodeId) (n : Node) :
    SameOutcome (SameButMarks original) (g.addNode id n) (g'.addNode id n) := by
  rw [Patch.addNode, Patch.addNode, h.contains_eq]
  split
  · exact .error _
  · exact .ok (h.insert id n)

theorem removeEdge (id : EdgeId) : SameButMarks original (g.removeEdge id) (g'.removeEdge id) := by
  rw [Patch.removeEdge, Patch.removeEdge, h.edges_eq]
  exact h.with_edges _

theorem addEdge (id : EdgeId) (e : Edge) :
    SameOutcome (SameButMarks original) (g.addEdge id e) (g'.addEdge id e) := by
  rw [Patch.addEdge, Patch.addEdge, h.edges_eq]
  split
  · exact .error _
  · exact .ok (h.with_edges _)

/-- An adapter is put into both patches or, for the same reason, into neither. -/
theorem spliceInto (p : EdgePair) (rule : AdapterRule) :
    SameOutcome (SameButMarks original) (p.spliceInto rule g) (p.spliceInto rule g') := by
  rw [EdgePair.spliceInto, EdgePair.spliceInto]
  simp only [h.edges_eq]
  by_cases htaken : (g'.edges.contains (p.entryEdge rule).1 ||
      g'.edges.contains (p.exitEdge rule).1) = true
  · simp only [htaken, if_true]
    exact .error _
  · simp only [htaken]
    refine (h.addNode _ _).bind fun a a' ha => ?_
    exact ((ha.removeEdge p.edge).addEdge _ _).bind fun b b' hb => hb.addEdge _ _

end SameButMarks

end Patch

/-- The edge meets the same fate, in patches that are alike. -/
inductive SpliceVerdict.SameButMarks (original : NodeId → Prop) :
    SpliceVerdict → SpliceVerdict → Prop where
  | keep : SameButMarks original .keep .keep
  | refuse (d : Diagnostic) : SameButMarks original (.refuse d) (.refuse d)
  | replace {g g' : Patch} (s : Splice) (h : g.SameButMarks original g') :
      SameButMarks original (.replace g s) (.replace g' s)

structure Splicing.SameButMarks (original : NodeId → Prop) (s s' : Splicing) : Prop where
  patch : s.patch.SameButMarks original s'.patch
  inserted : s.inserted = s'.inserted
  diagnostics : s.diagnostics = s'.diagnostics

/-- All but the patches is the same in both rounds. -/
structure Round.SameButMarks (original : NodeId → Prop) (r r' : Round) : Prop where
  patch : r.patch.SameButMarks original r'.patch
  splicing : r.splicing.SameButMarks original r'.splicing
  rest : { r with patch := r'.patch, splicing := r'.splicing } = r'

structure Convergence.SameButMarks (original : NodeId → Prop) (c c' : Convergence) : Prop where
  earlier : List.Forall₂ (Round.SameButMarks original) c.earlier c'.earlier
  last : c.last.SameButMarks original c'.last

section
variable {original : NodeId → Prop} {g g' : Patch} (rules : List AdapterRule) (types : PortTyping)

theorem Patch.SameButMarks.applyRule (h : g.SameButMarks original g') (p : EdgePair)
    (rule : AdapterRule) (source target : ConcreteType) :
    (p.applyRule rule source target g).SameButMarks original (p.applyRule rule source target g') := by
  rw [EdgePair.applyRule, EdgePair.applyRule]
  simp only [h.contains_eq]
  split
  · exact .refuse _
  · have hs := h.spliceInto p rule
    generalize p.spliceInto rule g = x at hs ⊢
    generalize p.spliceInto rule g' = x' at hs ⊢
    cases hs with
    | error e => exact .refuse _
    | ok ha => exact .replace _ ha

theorem Patch.SameButMarks.verdict (h : g.SameButMarks original g') (p : EdgePair) :
    (p.verdict rules types g).SameButMarks original (p.verdict rules types g') := by
  rw [EdgePair.verdict, EdgePair.verdict]
  split
  · split
    · exact .keep
    · split
      · exact .refuse _
      · exact h.applyRule p _ _ _
      · exact .refuse _
  · exact .keep

theorem Patch.SameButMarks.spliceAll (ps : List EdgePair) {g g' : Patch}
    (h : g.SameButMarks original g') :
    (spliceAll rules types ps g).SameButMarks original (spliceAll rules types ps g') := by
  induction ps generalizing g g' with
  | nil => exact ⟨h, rfl, rfl⟩
  | cons p ps ih =>
    rw [PatchTyping.spliceAll, PatchTyping.spliceAll]
    have hp := h.verdict rules types p
    generalize p.verdict rules types g = v at hp ⊢
    generalize p.verdict rules types g' = v' at hp ⊢
    cases hp with
    | keep => exact ih h
    | refuse d => exact ⟨(ih h).patch, (ih h).inserted, congrArg (d :: ·) (ih h).diagnostics⟩
    | replace s hs => exact ⟨(ih hs).patch, congrArg (s :: ·) (ih hs).inserted, (ih hs).diagnostics⟩

end

section
variable {original : NodeId → Prop} {catalog : Catalog}

theorem Patch.SameButMarks.round {g g' : Patch} (h : g.SameButMarks original g') :
    (Round.ofPatch catalog g).SameButMarks original (Round.ofPatch catalog g') := by
  have hconstraints : g.constraints catalog = g'.constraints catalog := by
    rw [← g.constraints_unmarked, h.unmarked_eq, constraints_unmarked]
  have hextraction : g.extractionDiagnostics catalog = g'.extractionDiagnostics catalog := by
    rw [← g.extractionDiagnostics_unmarked, h.unmarked_eq, extractionDiagnostics_unmarked]
  refine ⟨h, ?_, ?_⟩
  · simp only [Round.ofPatch, hconstraints]
    exact h.spliceAll _ _ _
  · simp only [Round.ofPatch, hconstraints, hextraction]

namespace Round.SameButMarks

variable {r r' : Round} (h : r.SameButMarks original r')
include h

theorem diagnosticsOf (p : Pass) : r.diagnosticsOf p = r'.diagnosticsOf p := by
  have hspliced := h.splicing.diagnostics
  rw [← h.rest]
  cases p <;> simp only [Round.diagnosticsOf, hspliced]

theorem constraints : r.constraints = r'.constraints := by rw [← h.rest]

theorem typing : r.typing = r'.typing := by rw [← h.rest]

theorem isQuiet : r.isQuiet = r'.isQuiet := congrArg List.isEmpty h.splicing.inserted

end Round.SameButMarks

/-- The runs have the same number of rounds, and round by round the same is found out. -/
theorem Patch.SameButMarks.converge (n : Nat) {g g' : Patch} (h : g.SameButMarks original g') :
    (converge catalog n g).SameButMarks original (converge catalog n g') := by
  induction n generalizing g g' with
  | zero => exact ⟨.nil, h.round⟩
  | succ n ih =>
    have hround : (Round.ofPatch catalog g).SameButMarks original (Round.ofPatch catalog g') :=
      h.round
    cases hq : (Round.ofPatch catalog g).isQuiet with
    | true =>
      rw [converge_of_quiet hq, converge_of_quiet (hround.isQuiet ▸ hq)]
      exact ⟨.nil, hround⟩
    | false =>
      rw [converge_of_busy hq, converge_of_busy (hround.isQuiet ▸ hq)]
      have hnext := ih hround.splicing.patch
      exact ⟨.cons hround hnext.earlier, hnext.last⟩

namespace Convergence.SameButMarks

variable {c c' : Convergence} (h : c.SameButMarks original c')
include h

theorem flatMap_earlier {β : Type} {f : Round → List β}
    (hf : ∀ r r' : Round, r.SameButMarks original r' → f r = f r') :
    c.earlier.flatMap f = c'.earlier.flatMap f := by
  have hmap : c.earlier.map f = c'.earlier.map f := by
    rw [← List.forall₂_eq_eq_eq, List.forall₂_map_left_iff, List.forall₂_map_right_iff]
    exact h.earlier.imp fun r r' hr => hf r r' hr
  rw [List.flatMap_def, List.flatMap_def, hmap]

theorem iterations : c.iterations = c'.iterations := congrArg (· + 1) h.earlier.length_eq

theorem inserted : c.inserted = c'.inserted := h.flatMap_earlier fun _ _ hr => hr.splicing.inserted

theorem earlierLog (passes : List Pass) : c.earlierLog passes = c'.earlierLog passes :=
  h.flatMap_earlier fun r r' hr => by simp only [hr.diagnosticsOf]

theorem lastLog (passes : List Pass) : c.lastLog passes = c'.lastLog passes := by
  have hpending : c.nonConvergence = c'.nonConvergence := by
    simp only [nonConvergence, h.last.isQuiet, h.iterations, h.last.splicing.inserted]
  have hpass : ∀ p, c.lastDiagnosticsOf p = c'.lastDiagnosticsOf p := by
    intro p
    cases p <;> simp only [lastDiagnosticsOf, h.last.diagnosticsOf, hpending]
  simp only [Convergence.lastLog, hpass]

end Convergence.SameButMarks

end

/-- The typed patches are the same but for the marks of the given nodes. -/
structure TypedPatch.SameButMarks (original : NodeId → Prop) (t t' : TypedPatch) : Prop where
  unmarked_eq : t.unmarked = t'.unmarked
  others : ∀ id, ¬ original id → t.nodes[id]? = t'.nodes[id]?

theorem Patch.SameButMarks.typed {original : NodeId → Prop} {g g' : Patch}
    (h : g.SameButMarks original g') (types : PortTyping) : (g.typed types).SameButMarks original (g'.typed types) where
  unmarked_eq := by rw [typed_unmarked, h.unmarked_eq, typed_unmarked]
  others id hid := by rw [getElem?_typed_nodes, getElem?_typed_nodes, h.others id hid]

namespace Patch

theorem backend_of_ready {g : Patch} {catalog : Catalog} {options : NormalizationOptions}
    (h : (g.normalize catalog options).ready = true) :
    (g.normalize catalog options).backend = (g.normalize catalog options).typed.toBackend? catalog := by
  have hpass : (g.normalize catalog options).typed.certificate.allPass = true :=
    (Bool.and_eq_true_iff.mp h).2
  change (if (g.normalize catalog options).ready = true then
    (g.normalize catalog options).typed.lower? catalog else none) = _
  rw [if_pos h, TypedPatch.lower?, if_pos hpass]

/-- Patches that differ in marks only go through the same run. What comes out differs in the marks of
their own nodes only, and for the backend not at all. -/
theorem normalize_ignores_marks (catalog : Catalog) (options : NormalizationOptions) {g g' : Patch}
    (h : g.unmarked = g'.unmarked) :
    let r := g.normalize catalog options
    let r' := g'.normalize catalog options
    r.iterations = r'.iterations ∧ r.diagnostics = r'.diagnostics ∧ r.log = r'.log ∧
      r.inserted = r'.inserted ∧ r.cycles = r'.cycles ∧ r.constraints = r'.constraints ∧
      r.patch.SameButMarks (· ∈ g.nodes) r'.patch ∧ r.typed.SameButMarks (· ∈ g.nodes) r'.typed ∧
      r.certificate.edgesConsistent = r'.certificate.edgesConsistent ∧
      r.certificate.fullyConcrete = r'.certificate.fullyConcrete ∧
      (r.ready = true → r'.ready = true → r.backend = r'.backend) := by
  intro r r'
  have hrun : (converge catalog (options.maxIterations - 1) g).SameButMarks (· ∈ g.nodes)
      (converge catalog (options.maxIterations - 1) g') := (SameButMarks.of_unmarked_eq h).converge _
  have hlast := hrun.last
  have hpatch : r.patch.SameButMarks (· ∈ g.nodes) r'.patch := hlast.patch
  have htyped : r.typed.SameButMarks (· ∈ g.nodes) r'.typed := by
    change (r.patch.typed _).SameButMarks _ (r'.patch.typed _)
    rw [hlast.typing]
    exact hpatch.typed _
  have hcycles : r.cycles = r'.cycles := by
    change (if _ then r.patch.cycles catalog else []) = if _ then r'.patch.cycles catalog else []
    rw [← r.patch.cycles_unmarked, hpatch.unmarked_eq, cycles_unmarked]
  have hdiagnostics : r.diagnostics = r'.diagnostics := by
    change _ ++ (cycleLog _ r.cycles).diagnostics = _ ++ (cycleLog _ r'.cycles).diagnostics
    rw [hcycles, hrun.lastLog]
  have hlog : r.log = r'.log := by
    change _ ++ _ ++ cycleLog _ r.cycles ++ _ = _ ++ _ ++ cycleLog _ r'.cycles ++ _
    rw [hcycles, hrun.lastLog, hrun.earlierLog]
  obtain ⟨hedges, hconcrete⟩ := r.typed.certificate_unmarked
  obtain ⟨hedges', hconcrete'⟩ := r'.typed.certificate_unmarked
  rw [htyped.unmarked_eq] at hedges hconcrete
  refine ⟨hrun.iterations, hdiagnostics, hlog, hrun.inserted, hcycles,
    hlast.constraints, hpatch, htyped, hedges.symm.trans hedges',
    hconcrete.symm.trans hconcrete', fun hr hr' => ?_⟩
  rw [backend_of_ready hr, backend_of_ready hr', ← r.typed.toBackend?_unmarked, htyped.unmarked_eq,
    TypedPatch.toBackend?_unmarked]

/-- The sine of a phase, with the sine marked as if it had been spliced in. -/
def sineOfPhaseMarked : Patch :=
  { sineOfPhase with nodes := sineOfPhase.nodes.insert "sine" ⟨"Sin", ∅, .inserted "Sin" "e"⟩ }

/-- The mark stays in the patch and is gone in the backend. -/
theorem sineOfPhaseMarked_same_backend :
    let r := sineOfPhase.normalize .standard {}
    let r' := sineOfPhaseMarked.normalize .standard {}
    sineOfPhase.unmarked = sineOfPhaseMarked.unmarked ∧ r.patch ≠ r'.patch ∧ r.inserted ≠ [] ∧
      r.inserted = r'.inserted ∧ r.ready = true ∧ r'.ready = true ∧ r.backend = r'.backend := by
  intro r r'
  have hsame : sineOfPhase.unmarked = sineOfPhaseMarked.unmarked := by decide +kernel
  have hrun : r.patch ≠ r'.patch ∧ r.inserted ≠ [] ∧ r.ready = true ∧ r'.ready = true := by
    decide +kernel
  obtain ⟨hpatch, hsome, hr, hr'⟩ := hrun
  obtain ⟨-, -, -, hinserted, -, -, -, -, -, -, hbackend⟩ := normalize_ignores_marks .standard {} hsame
  exact ⟨hsame, hpatch, hsome, hinserted, hr, hr', hbackend hr hr'⟩

end Patch

end PatchTyping
