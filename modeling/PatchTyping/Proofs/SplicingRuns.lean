import PatchTyping.Proofs.QuietRounds

/-!
# Runs of splicing

Normalization puts adapters into edges one after the other, in rounds. A relation between the patch
before, the adapters in order and the patch after holds of a whole run if it holds of a single adapter,
of none, and of two runs in a row.
-/

namespace PatchTyping

/-- The relation holds of one adapter, of none, and of two runs in a row. -/
structure SpliceChain (catalog : Catalog) (R : Patch → List Splice → Patch → Prop) : Prop where
  none : ∀ g, R g [] g
  one : ∀ {g g' : Patch} {r : Replacement},
    g.edges[r.pair.edge]? = some ⟨r.pair.source, r.pair.target⟩ → r.rule ∈ catalog.adapterRules →
      r.pair.spliceInto r.rule g = .ok g' → R g [r.splice] g'
  append : ∀ {g g' g'' : Patch} {ss ss' : List Splice}, R g ss g' → R g' ss' g'' →
    R g (ss ++ ss') g''

namespace SpliceChain

variable {catalog : Catalog} {R : Patch → List Splice → Patch → Prop} (h : SpliceChain catalog R)
include h

/-- Going through edges of a patch, each of them once. The ones still to come are not touched. -/
theorem spliceAll (types : PortTyping) {pairs : List EdgePair} {g : Patch}
    (hpairs : ∀ p ∈ pairs, g.edges[p.edge]? = some ⟨p.source, p.target⟩)
    (hnodup : (pairs.map (·.edge)).Nodup) :
    R g (spliceAll catalog.adapterRules types pairs g).inserted
      (spliceAll catalog.adapterRules types pairs g).patch := by
  induction pairs generalizing g with
  | nil => exact h.none g
  | cons p ps ih =>
    have hp := hpairs p List.mem_cons_self
    have hps : ∀ q ∈ ps, g.edges[q.edge]? = some ⟨q.source, q.target⟩ :=
      fun q hq => hpairs q (List.mem_cons_of_mem _ hq)
    obtain ⟨hpnot, hnodup⟩ := List.nodup_cons.mp hnodup
    rcases p.verdict_cases catalog.adapterRules types g with ⟨-, hv⟩ | ⟨-, d, hv, -⟩ |
      ⟨rule, a, b, g', hfit, hs, hv⟩
    · simp only [PatchTyping.spliceAll, hv]
      exact ih hps hnodup
    · simp only [PatchTyping.spliceAll, hv]
      exact ih hps hnodup
    · simp only [PatchTyping.spliceAll, hv]
      have hps' : ∀ q ∈ ps, g'.edges[q.edge]? = some ⟨q.source, q.target⟩ := by
        intro q hq
        refine (Patch.Spliced.edges_step (r := ⟨p, rule, a, b⟩) hs _ _).mpr (.inl ⟨hps q hq, ?_⟩)
        exact fun heq => hpnot (List.mem_map.mpr ⟨q, hq, heq.symm⟩)
      exact h.append (h.one (r := ⟨p, rule, a, b⟩) hp hfit.rule_mem hs) (ih hps' hnodup)

theorem round (g : Patch) :
    R g (Round.ofPatch catalog g).splicing.inserted (Round.ofPatch catalog g).splicing.patch :=
  h.spliceAll _ (fun _ hp => (Patch.mem_edgePairs_iff.mp hp).1) (g.edgePairs_nodup _)

/-- Any number of rounds, by induction on it. What the last round would have spliced in was dropped. -/
theorem converge (n : Nat) (g : Patch) :
    R g (converge catalog n g).inserted (converge catalog n g).patch := by
  induction n generalizing g with
  | zero => exact h.none g
  | succ n ih =>
    cases hq : (Round.ofPatch catalog g).isQuiet with
    | true =>
      rw [converge_of_quiet hq]
      exact h.none g
    | false =>
      rw [converge_of_busy hq]
      exact h.append (h.round g) (ih _)

end SpliceChain

end PatchTyping
