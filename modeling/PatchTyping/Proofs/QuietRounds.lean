import PatchTyping.Proofs.BackendReadiness

/-!
# Quiet rounds

A round that splices nothing in is the last one, whatever the bound. So there are never more rounds than
the bound allows, a larger bound changes nothing once it has been enough, and a patch that has been
normalized is normal: doing it again takes one round, which finds out the same things.
-/

namespace PatchTyping

section Rounds

variable {catalog : Catalog} {g : Patch}

theorem converge_of_quiet (hq : (Round.ofPatch catalog g).isQuiet = true) (n : Nat) :
    converge catalog n g = ⟨[], Round.ofPatch catalog g⟩ := by
  cases n with
  | zero => rfl
  | succ n => simp only [converge, hq, if_true]

theorem converge_of_busy (hq : (Round.ofPatch catalog g).isQuiet = false) (n : Nat) :
    converge catalog (n + 1) g =
      ⟨Round.ofPatch catalog g :: (converge catalog n (Round.ofPatch catalog g).splicing.patch).earlier,
        (converge catalog n (Round.ofPatch catalog g).splicing.patch).last⟩ := by
  simp only [converge, hq, Bool.false_eq_true, if_false]

theorem converge_iterations_le (catalog : Catalog) (n : Nat) (g : Patch) :
    (converge catalog n g).iterations ≤ n + 1 := by
  induction n generalizing g with
  | zero => exact Nat.le_refl 1
  | succ n ih =>
    cases hq : (Round.ofPatch catalog g).isQuiet with
    | true =>
      rw [converge_of_quiet hq]
      exact Nat.le_add_left 1 (n + 1)
    | false =>
      rw [converge_of_busy hq]
      exact Nat.succ_le_succ (ih _)

theorem converge_of_le {n m : Nat} (hq : (converge catalog n g).last.isQuiet = true) (hnm : n ≤ m) :
    converge catalog m g = converge catalog n g := by
  induction n generalizing m g with
  | zero => exact converge_of_quiet hq m
  | succ n ih =>
    obtain ⟨m, rfl⟩ : ∃ k, m = k + 1 := ⟨m - 1, by omega⟩
    cases hfirst : (Round.ofPatch catalog g).isQuiet with
    | true => rw [converge_of_quiet hfirst, converge_of_quiet hfirst]
    | false =>
      rw [converge_of_busy hfirst] at hq
      rw [converge_of_busy hfirst, converge_of_busy hfirst, ih hq (Nat.le_of_succ_le_succ hnm)]

end Rounds

namespace Convergence

theorem isQuiet_of_noNonConvergence (c : Convergence) {ds : List Diagnostic}
    (h : ∀ d ∈ (c.lastLog Pass.all).diagnostics ++ ds, d.kind ≠ .nonConvergence) :
    c.last.isQuiet = true := by
  by_contra hq
  have hentry : (Pass.insertAdapters, c.last.diagnosticsOf .insertAdapters ++ c.nonConvergence) ∈
      c.lastLog Pass.all :=
    List.mem_map.mpr ⟨.insertAdapters, by decide, rfl⟩
  have hnon : ∀ d ∈ c.nonConvergence, d ∈ (c.lastLog Pass.all).diagnostics ++ ds := by
    intro d hd
    apply List.mem_append_left
    exact List.mem_flatMap.mpr ⟨_, hentry, List.mem_append_right _ hd⟩
  simp only [nonConvergence, hq, if_false, List.mem_singleton] at hnon
  exact h _ (hnon _ rfl) rfl

theorem lastLog_eq_of_quiet {c c' : Convergence} (hlast : c.last = c'.last)
    (hq : c.last.isQuiet = true) (passes : List Pass) : c.lastLog passes = c'.lastLog passes := by
  have hdiag : ∀ p, c.lastDiagnosticsOf p = c'.lastDiagnosticsOf p := by
    intro p
    have hq' : c'.last.isQuiet = true := hlast ▸ hq
    cases p <;> simp only [lastDiagnosticsOf, nonConvergence, hq', hlast, if_true]
  simp only [lastLog, hdiag]

end Convergence

namespace Patch

/-- The constraints are those of the patch that comes out. -/
theorem constraints_normalize (g : Patch) (catalog : Catalog) (options : NormalizationOptions) :
    (g.normalize catalog options).constraints =
      (g.normalize catalog options).patch.constraints catalog := by
  change (converge catalog (options.maxIterations - 1) g).last.constraints = _
  rw [converge_last]
  rfl

/-- The typed patch has the types that inference on the patch itself gives. -/
theorem portType?_normalize (g : Patch) (catalog : Catalog) (options : NormalizationOptions)
    (k : PortKey) :
    (g.normalize catalog options).typed.portType? k =
      (Round.ofPatch catalog (g.normalize catalog options).patch).typing[k]? := by
  rw [typed_normalize]
  generalize (g.normalize catalog options).patch = g'
  cases hn : g'.nodes[k.node]? with
  | some n => exact portType?_typed hn
  | none =>
    have hport : (g'.portTable catalog)[k]? = none := by
      cases hk : (g'.portTable catalog)[k]? with
      | none => rfl
      | some info =>
        have hmem := Std.ExtTreeMap.mem_iff_isSome_getElem?.mp (node_mem_of_portTable hk)
        rw [hn] at hmem
        cases hmem
    rw [Round.getElem?_typing, hport, TypedPatch.portType?, getElem?_typed_nodes, hn]
    rfl

/-- Apart from the count of rounds and what they spliced in, all that comes out is read off a quiet last
round. -/
theorem normalize_of_last {catalog : Catalog} {g g' : Patch} (options options' : NormalizationOptions)
    (hlast : (converge catalog (options.maxIterations - 1) g).last =
      (converge catalog (options'.maxIterations - 1) g').last)
    (hq : (converge catalog (options.maxIterations - 1) g).last.isQuiet = true)
    (hcycles : options.classifyCycles = options'.classifyCycles) :
    let r := g.normalize catalog options
    let r' := g'.normalize catalog options'
    r.patch = r'.patch ∧ r.typed = r'.typed ∧ r.diagnostics = r'.diagnostics ∧
      r.cycles = r'.cycles ∧ r.certificate = r'.certificate ∧ r.backend = r'.backend ∧
      r.ready = r'.ready := by
  intro r r'
  have hlog := Convergence.lastLog_eq_of_quiet hlast hq Pass.all
  have hpatch : r.patch = r'.patch := congrArg Round.patch hlast
  have htyped : r.typed = r'.typed := by
    simp only [r, r', normalize, Convergence.patch, hlast]
  have hreports : r.cycles = r'.cycles := by
    simp only [r, r', normalize, Convergence.patch, hlast, hcycles]
  have hdiag : r.diagnostics = r'.diagnostics := by
    change _ ++ (cycleLog options.classifyCycles r.cycles).diagnostics =
      _ ++ (cycleLog options'.classifyCycles r'.cycles).diagnostics
    rw [hlog, hreports, hcycles]
  have hready : r.ready = r'.ready := by
    change isReady r.diagnostics r.typed r.typed.certificate =
      isReady r'.diagnostics r'.typed r'.typed.certificate
    rw [hdiag, htyped]
  have hbackend : r.backend = r'.backend := by
    change (if r.ready then r.typed.lower? catalog else none) =
      if r'.ready then r'.typed.lower? catalog else none
    rw [hready, htyped]
  exact ⟨hpatch, htyped, hdiag, hreports, congrArg TypedPatch.certificate htyped, hbackend, hready⟩

/-- Rounds are bounded, all that comes out belongs to the last of them, and once the last one is quiet
neither another run nor a larger bound changes anything. -/
theorem normalize_fixpoint (g : Patch) (catalog : Catalog) (options : NormalizationOptions) :
    let r := g.normalize catalog options
    let s := r.patch.constraints catalog
    r.iterations ≤ max 1 options.maxIterations ∧
      r.constraints = s ∧
      (∀ k : PortKey, r.typed.portType? k =
        ((Round.substitution s.solvePayload s.solveUnit s.solveCardinality).typing s.ports)[k]?) ∧
      ((∀ d ∈ r.diagnostics, d.kind ≠ .nonConvergence) →
        (∀ m : Nat,
          let r' := r.patch.normalize catalog { options with maxIterations := m }
          r'.iterations = 1 ∧ r'.inserted = [] ∧ r'.patch = r.patch ∧ r'.typed = r.typed ∧
            r'.diagnostics = r.diagnostics ∧ r'.cycles = r.cycles ∧
            r'.certificate = r.certificate ∧ r'.backend = r.backend ∧ r'.ready = r.ready) ∧
        ∀ m : Nat, options.maxIterations ≤ m →
          g.normalize catalog { options with maxIterations := m } = r) := by
  intro r s
  have hlast := converge_last catalog (options.maxIterations - 1) g
  refine ⟨?_, constraints_normalize g catalog options, portType?_normalize g catalog options,
    fun hdiag => ?_⟩
  · have hle := converge_iterations_le catalog (options.maxIterations - 1) g
    change (converge catalog (options.maxIterations - 1) g).iterations ≤ _
    omega
  · have hquiet := Convergence.isQuiet_of_noNonConvergence _ hdiag
    refine ⟨fun m => ?_, fun m hm => ?_⟩
    · have hagain : converge catalog (m - 1) r.patch = ⟨[], Round.ofPatch catalog r.patch⟩ :=
        converge_of_quiet (hlast ▸ hquiet) (m - 1)
      have hsame : (converge catalog (m - 1) r.patch).last =
          (converge catalog (options.maxIterations - 1) g).last := by
        rw [hagain, hlast]
        rfl
      have hone : (converge catalog (m - 1) r.patch).iterations = 1 := by rw [hagain]; rfl
      have hnone : (converge catalog (m - 1) r.patch).inserted = [] := by rw [hagain]; rfl
      exact ⟨hone, hnone, normalize_of_last { options with maxIterations := m } options hsame
        (hsame ▸ hquiet) rfl⟩
    · have hmore : converge catalog (m - 1) g = converge catalog (options.maxIterations - 1) g :=
        converge_of_le hquiet (Nat.sub_le_sub_right hm 1)
      simp only [normalize, hmore, r]

/-- The sine of a phase is normal after two rounds. -/
theorem sineOfPhase_fixpoint :
    let r := sineOfPhase.normalize .standard {}
    r.iterations = 2 ∧ (∀ d ∈ r.diagnostics, d.kind ≠ .nonConvergence) ∧
      (r.patch.normalize .standard { maxIterations := 0 }).iterations = 1 ∧
      (r.patch.normalize .standard { maxIterations := 0 }).typed = r.typed ∧
      sineOfPhase.normalize .standard { maxIterations := 9 } = r := by
  intro r
  have hrun : (r.iterations, r.diagnostics) = (2, []) := by decide +kernel
  obtain ⟨htwo, hnone⟩ := Prod.mk.inj hrun
  have hsilent : ∀ d ∈ r.diagnostics, d.kind ≠ .nonConvergence := by simp [hnone]
  obtain ⟨-, -, -, hquiet⟩ := normalize_fixpoint sineOfPhase .standard {}
  obtain ⟨hagain, hmore⟩ := hquiet hsilent
  exact ⟨htwo, hsilent, (hagain 0).1, (hagain 0).2.2.2.1, hmore 9 (by decide)⟩

end Patch

end PatchTyping
