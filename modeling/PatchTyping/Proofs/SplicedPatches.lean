import PatchTyping.AdapterSplicing
import PatchTyping.Proofs.ExtractedPorts
import PatchTyping.Proofs.PatchAssembly

/-!
# Patches after splicing

Splicing keeps every node, adds one adapter for each edge it replaces, and leaves all other edges where
they are. The names of the new edges may be those of edges that were replaced before, but of no other.
-/

namespace PatchTyping

/-- An edge that is replaced, the rule that does it, and the types of its ends. -/
structure Replacement where
  pair : EdgePair
  rule : AdapterRule
  source : ConcreteType
  target : ConcreteType

namespace Replacement

def id (r : Replacement) : NodeId := adapterNodeId r.pair.source r.pair.target r.rule.block

/-- The adapter. -/
def node (r : Replacement) : Node where
  block := r.rule.block
  overrides := ∅
  provenance := .inserted r.rule.block r.pair.edge

/-- The edge from the source to the adapter. -/
def entry (r : Replacement) : EdgeId × Edge :=
  (adapterEdgeId r.id r.rule.inputPort, ⟨r.pair.source, ⟨r.id, r.rule.inputPort⟩⟩)

/-- The edge from the adapter to the target. -/
def exit (r : Replacement) : EdgeId × Edge :=
  (adapterEdgeId r.id r.rule.outputPort, ⟨⟨r.id, r.rule.outputPort⟩, r.pair.target⟩)

/-- What is noted down of it. -/
def splice (r : Replacement) : Splice := ⟨r.id, r.rule.block, r.pair.edge, r.source, r.target⟩

/-- The rule converts what the ends of the edge carry, and they carry different things. -/
structure Fits (rules : List AdapterRule) (types : PortTyping) (r : Replacement) : Prop where
  source_eq : types.concrete? r.pair.source = some r.source
  target_eq : types.concrete? r.pair.target = some r.target
  differ : r.source ≠ r.target
  cardinality_eq : r.source.cardinality = r.target.cardinality
  rule_mem : r.rule ∈ rules
  converts : r.rule.converts r.source r.target = true

end Replacement

namespace Patch

/-- The second patch is the first one with adapters in place of some edges. -/
structure Spliced (g g' : Patch) (rs : List Replacement) : Prop where
  node_iff : ∀ (id : NodeId) (n : Node),
    g'.nodes[id]? = some n ↔ g.nodes[id]? = some n ∨ ∃ r ∈ rs, id = r.id ∧ n = r.node
  fresh : ∀ r ∈ rs, g.nodes[r.id]? = none
  ids_nodup : (rs.map Replacement.id).Nodup
  pairs_nodup : (rs.map (·.pair.edge)).Nodup
  edge_iff : ∀ (id : EdgeId) (e : Edge), g'.edges[id]? = some e ↔
    (g.edges[id]? = some e ∧ ∀ r ∈ rs, r.pair.edge ≠ id) ∨
      ∃ r ∈ rs, (id, e) = r.entry ∨ (id, e) = r.exit
  reused : ∀ r ∈ rs, ∀ id : EdgeId, id = r.entry.1 ∨ id = r.exit.1 →
    g.edges[id]? = none ∨ ∃ r' ∈ rs, r'.pair.edge = id

theorem Spliced.refl (g : Patch) : g.Spliced g [] where
  node_iff id n := by simp
  fresh r hr := by cases hr
  ids_nodup := List.nodup_nil
  pairs_nodup := List.nodup_nil
  edge_iff id e := by simp
  reused r hr := by cases hr

end Patch

namespace EdgePair

theorem spliceInto_ok {p : EdgePair} {rule : AdapterRule} {g g' : Patch}
    (h : p.spliceInto rule g = .ok g') :
    g.nodes[p.adapterId rule]? = none ∧ g.edges[(p.entryEdge rule).1]? = none ∧
      g.edges[(p.exitEdge rule).1]? = none ∧ (p.entryEdge rule).1 ≠ (p.exitEdge rule).1 ∧
      g'.nodes = g.nodes.insert (p.adapterId rule) (p.adapterNode rule) ∧
      g'.edges = ((g.edges.erase p.edge).insert (p.entryEdge rule).1 (p.entryEdge rule).2).insert
        (p.exitEdge rule).1 (p.exitEdge rule).2 := by
  unfold spliceInto at h
  by_cases htaken : (g.edges.contains (p.entryEdge rule).1 ||
      g.edges.contains (p.exitEdge rule).1) = true
  · simp only [htaken, if_true] at h
    cases h
  · simp only [htaken] at h
    obtain ⟨g₁, hnode, h⟩ := exists_of_bind_eq_ok h
    obtain ⟨g₂, hentry, hexit⟩ := exists_of_bind_eq_ok h
    obtain ⟨hfresh, rfl⟩ := Patch.addNode_eq_ok_iff.mp hnode
    obtain ⟨-, rfl⟩ := Patch.addEdge_eq_ok_iff.mp hentry
    obtain ⟨hfree, rfl⟩ := Patch.addEdge_eq_ok_iff.mp hexit
    simp only [Bool.or_eq_true, not_or, Std.ExtTreeMap.contains_eq_isSome_getElem?,
      Option.not_isSome_iff_eq_none] at htaken
    refine ⟨hfresh, htaken.1, htaken.2, fun heq => ?_, rfl, rfl⟩
    simp [heq, Patch.removeEdge] at hfree

/-- The edge stays: a type is not known, or both ends carry the same, or inference has complained. -/
def Kept (types : PortTyping) (p : EdgePair) : Prop :=
  ∀ a b, types.concrete? p.source = some a → types.concrete? p.target = some b →
    a = b ∨ a.cardinality ≠ b.cardinality

theorem verdict_cases (p : EdgePair) (rules : List AdapterRule) (types : PortTyping) (g : Patch) :
    (p.Kept types ∧ p.verdict rules types g = .keep) ∨
      (¬ p.Kept types ∧ ∃ d, p.verdict rules types g = .refuse d ∧ d.isError = true) ∨
      ∃ rule a b g', (⟨p, rule, a, b⟩ : Replacement).Fits rules types ∧
        p.spliceInto rule g = .ok g' ∧
        p.verdict rules types g = .replace g' (⟨p, rule, a, b⟩ : Replacement).splice := by
  unfold verdict
  cases ha : types.concrete? p.source with
  | none => exact .inl ⟨fun a b h => by simp [ha] at h, rfl⟩
  | some a =>
    cases hb : types.concrete? p.target with
    | none => exact .inl ⟨fun a b _ h => by simp [hb] at h, rfl⟩
    | some b =>
      by_cases hkeep : a = b ∨ a.cardinality ≠ b.cardinality
      · refine .inl ⟨fun a' b' ha' hb' => ?_, by simp only [hkeep, if_true]⟩
        cases ha.symm.trans ha'
        cases hb.symm.trans hb'
        exact hkeep
      · right
        have hnot : ¬ p.Kept types := fun h => hkeep (h a b ha hb)
        simp only [hkeep, if_false]
        cases hrules : candidateRules rules a b with
        | nil => exact .inl ⟨hnot, _, rfl, rfl⟩
        | cons rule others =>
          cases others with
          | cons _ _ => exact .inl ⟨hnot, _, rfl, rfl⟩
          | nil =>
            have hrule : rule ∈ candidateRules rules a b := by simp [hrules]
            obtain ⟨hmem, hconv⟩ := List.mem_filter.mp hrule
            have hdiff : a ≠ b ∧ a.cardinality = b.cardinality := by simpa [not_or] using hkeep
            simp only [applyRule]
            by_cases htaken : g.nodes.contains (p.adapterId rule) = true
            · exact .inl ⟨hnot, _, if_pos htaken, rfl⟩
            · rw [if_neg htaken]
              cases hs : p.spliceInto rule g with
              | error e => exact .inl ⟨hnot, _, rfl, rfl⟩
              | ok g' => exact .inr ⟨rule, a, b, g',
                  ⟨ha, hb, hdiff.1, hdiff.2, hmem, hconv⟩, hs, rfl⟩

end EdgePair

theorem Replacement.spliceInto_ok {r : Replacement} {g g' : Patch}
    (h : r.pair.spliceInto r.rule g = .ok g') :
    g.nodes[r.id]? = none ∧ g.edges[r.entry.1]? = none ∧ g.edges[r.exit.1]? = none ∧
      r.entry.1 ≠ r.exit.1 ∧ g'.nodes = g.nodes.insert r.id r.node ∧
      g'.edges = ((g.edges.erase r.pair.edge).insert r.entry.1 r.entry.2).insert r.exit.1 r.exit.2 :=
  EdgePair.spliceInto_ok h

namespace Patch.Spliced

variable {g h h' : Patch} {done : List Replacement}

theorem edges_step {r : Replacement} (hs : r.pair.spliceInto r.rule h = .ok h')
    (id : EdgeId) (e : Edge) :
    h'.edges[id]? = some e ↔
      (h.edges[id]? = some e ∧ r.pair.edge ≠ id) ∨ (id, e) = r.entry ∨ (id, e) = r.exit := by
  obtain ⟨-, hentry, hexit, hne, -, hedges⟩ := Replacement.spliceInto_ok hs
  rw [hedges, Std.ExtTreeMap.getElem?_insert, Std.ExtTreeMap.getElem?_insert,
    Std.ExtTreeMap.getElem?_erase]
  by_cases hx : r.exit.1 = id
  · subst hx
    have hne' : r.exit.1 ≠ r.entry.1 := hne.symm
    simp only [Std.ReflOrd.compare_self, if_true, hexit, reduceCtorEq, false_and, false_or,
      Prod.ext_iff, hne', true_and, Option.some.injEq]
    exact eq_comm
  · by_cases hn : r.entry.1 = id
    · subst hn
      have hcmp : compare r.exit.1 r.entry.1 ≠ .eq := fun heq => hx (Std.LawfulEqOrd.eq_of_compare heq)
      simp only [hcmp, if_false, Std.ReflOrd.compare_self, if_true, hentry, reduceCtorEq, false_and,
        false_or, Prod.ext_iff, hne, or_false, true_and, Option.some.injEq]
      exact eq_comm
    · have hold : (id, e) ≠ r.entry ∧ (id, e) ≠ r.exit :=
        ⟨fun heq => hn (congrArg Prod.fst heq).symm, fun heq => hx (congrArg Prod.fst heq).symm⟩
      by_cases hp : r.pair.edge = id
      · simp [hx, hn, hp, hold.1, hold.2]
      · simp [hx, hn, hp, hold.1, hold.2]

section Step

variable (hg : g.Spliced h done) {r : Replacement} (hs : r.pair.spliceInto r.rule h = .ok h')
include hg hs

private theorem not_taken (n : Node) :
    ¬ (g.nodes[r.id]? = some n ∨ ∃ r' ∈ done, r.id = r'.id ∧ n = r'.node) := by
  intro hn
  have hfresh := (Replacement.spliceInto_ok hs).1
  rw [(hg.node_iff r.id n).mpr hn] at hfresh
  cases hfresh

private theorem node_step (id : NodeId) (n : Node) :
    h'.nodes[id]? = some n ↔
      g.nodes[id]? = some n ∨ ∃ r' ∈ done ++ [r], id = r'.id ∧ n = r'.node := by
  obtain ⟨-, -, -, -, hnodes, -⟩ := Replacement.spliceInto_ok hs
  rw [hnodes, Std.ExtTreeMap.getElem?_insert]
  by_cases hid : r.id = id
  · subst hid
    have hno := not_taken hg hs n
    simp only [not_or] at hno
    simp only [Std.ReflOrd.compare_self, if_true, hno.1, false_or, List.mem_append,
      List.mem_singleton, Option.some.injEq]
    constructor
    · rintro rfl
      exact ⟨r, .inr rfl, rfl, rfl⟩
    · rintro ⟨r', hr' | rfl, hr'id⟩
      · exact absurd ⟨r', hr', hr'id⟩ hno.2
      · exact hr'id.2.symm
  · have hcmp : compare r.id id ≠ .eq := fun heq => hid (Std.LawfulEqOrd.eq_of_compare heq)
    rw [if_neg hcmp, hg.node_iff]
    simp only [List.mem_append, List.mem_singleton, or_and_right, exists_or, exists_eq_left,
      Ne.symm hid, false_and, or_false]

omit hg hs in
private theorem nodup_map_concat {α : Type} {f : Replacement → α} (hdone : (done.map f).Nodup)
    (hnew : ∀ r' ∈ done, f r' ≠ f r) : ((done ++ [r]).map f).Nodup := by
  rw [List.map_append, List.nodup_append]
  refine ⟨hdone, by simp, fun a ha b hb hab => ?_⟩
  obtain ⟨r', hr', rfl⟩ := List.mem_map.mp ha
  have hb' : b = f r := by simpa using hb
  exact hnew r' hr' (hab.trans hb')

omit hs in
/-- A name that was free when it was given to a new edge is not that of an edge still to be replaced. -/
private theorem edge_not_new (hedge : g.edges[r.pair.edge]? = some ⟨r.pair.source, r.pair.target⟩)
    (hleft : ∀ r' ∈ done, r'.pair.edge ≠ r.pair.edge) {r' : Replacement} (hr' : r' ∈ done)
    (e : Edge) : (r.pair.edge, e) ≠ r'.entry ∧ (r.pair.edge, e) ≠ r'.exit := by
  have hnot : ¬ (r.pair.edge = r'.entry.1 ∨ r.pair.edge = r'.exit.1) := by
    intro hor
    rcases hg.reused r' hr' _ hor with hno | ⟨r'', hr'', heq⟩
    · rw [hedge] at hno
      cases hno
    · exact hleft r'' hr'' heq
  exact ⟨fun heq => hnot (.inl (congrArg Prod.fst heq)), fun heq => hnot (.inr (congrArg Prod.fst heq))⟩

omit hs in
/-- A name that is free is not of the first patch, or its edge has been replaced. -/
private theorem replaced_of_free {id : EdgeId} (hid : h.edges[id]? = none) :
    g.edges[id]? = none ∨ ∃ r' ∈ done, r'.pair.edge = id := by
  cases he : g.edges[id]? with
  | none => exact .inl rfl
  | some e =>
    right
    by_contra hno
    have hstill : ∀ r' ∈ done, r'.pair.edge ≠ id := fun r' hr' heq => hno ⟨r', hr', heq⟩
    rw [(hg.edge_iff id e).mpr (.inl ⟨he, hstill⟩)] at hid
    cases hid

/-- One more adapter. The edge it replaces is an edge of the first patch that is still there. -/
theorem step (hedge : g.edges[r.pair.edge]? = some ⟨r.pair.source, r.pair.target⟩)
    (hleft : ∀ r' ∈ done, r'.pair.edge ≠ r.pair.edge) : g.Spliced h' (done ++ [r]) where
  node_iff := node_step hg hs
  fresh r' hr' := by
    rcases List.mem_append.mp hr' with hr' | hr'
    · exact hg.fresh r' hr'
    · rw [List.mem_singleton.mp hr']
      cases hn : g.nodes[r.id]? with
      | none => rfl
      | some n => exact absurd (.inl hn) (not_taken hg hs n)
  ids_nodup := by
    apply nodup_map_concat hg.ids_nodup
    intro r' hr' hid
    exact not_taken hg hs r'.node (.inr ⟨r', hr', hid.symm, rfl⟩)
  pairs_nodup := nodup_map_concat hg.pairs_nodup hleft
  edge_iff id e := by
    rw [edges_step hs, hg.edge_iff]
    simp only [List.mem_append, List.mem_singleton, or_imp, forall_and, forall_eq, or_and_right,
      exists_or, exists_eq_left]
    constructor
    · rintro ((⟨⟨he, hdone⟩, hne⟩ | ⟨⟨r', hr', hr'e⟩, -⟩) | hnew)
      · exact .inl ⟨he, hdone, hne⟩
      · exact .inr (.inl ⟨r', hr', hr'e⟩)
      · exact .inr (.inr hnew)
    · rintro (⟨he, hdone, hne⟩ | ⟨r', hr', hr'e⟩ | hnew)
      · exact .inl (.inl ⟨⟨he, hdone⟩, hne⟩)
      · refine .inl (.inr ⟨⟨r', hr', hr'e⟩, ?_⟩)
        rintro rfl
        have hnot := edge_not_new hg hedge hleft hr' e
        exact hr'e.elim hnot.1 hnot.2
      · exact .inr hnew
  reused r' hr' id hid := by
    have hbefore : g.edges[id]? = none ∨ ∃ r'' ∈ done, r''.pair.edge = id := by
      rcases List.mem_append.mp hr' with hr' | hr'
      · exact hg.reused r' hr' id hid
      · cases List.mem_singleton.mp hr'
        obtain ⟨-, hentry, hexit, -⟩ := Replacement.spliceInto_ok hs
        rcases hid with rfl | rfl
        · exact replaced_of_free hg hentry
        · exact replaced_of_free hg hexit
    rcases hbefore with hno | ⟨r'', hr'', heq⟩
    · exact .inl hno
    · exact .inr ⟨r'', List.mem_append_left _ hr'', heq⟩

end Step

end Patch.Spliced

theorem Replacement.Fits.not_kept {rules : List AdapterRule} {types : PortTyping} {r : Replacement}
    (h : r.Fits rules types) : ¬ r.pair.Kept types := by
  intro hkept
  rcases hkept _ _ h.source_eq h.target_eq with heq | hne
  · exact h.differ heq
  · exact hne h.cardinality_eq

section SpliceAll

variable {rules : List AdapterRule} {types : PortTyping}

theorem spliceAll_of_kept {pairs : List EdgePair} (h : ∀ p ∈ pairs, p.Kept types) (g : Patch) :
    spliceAll rules types pairs g = { patch := g } := by
  induction pairs with
  | nil => rfl
  | cons p ps ih =>
    have hp := h p List.mem_cons_self
    have hps := ih fun q hq => h q (List.mem_cons_of_mem _ hq)
    rcases p.verdict_cases rules types g with ⟨-, hv⟩ | ⟨hnot, -⟩ | ⟨rule, a, b, g', hfit, -⟩
    · simp only [spliceAll, hv, hps]
    · exact absurd hp hnot
    · exact absurd hp hfit.not_kept

theorem isError_of_mem_spliceAll {pairs : List EdgePair} {g : Patch} {d : Diagnostic}
    (hd : d ∈ (spliceAll rules types pairs g).diagnostics) : d.isError = true := by
  induction pairs generalizing g with
  | nil => cases hd
  | cons p ps ih =>
    rcases p.verdict_cases rules types g with ⟨-, hv⟩ | ⟨-, d', hv, herr⟩ | ⟨rule, a, b, g', -, -, hv⟩
    · simp only [spliceAll, hv] at hd
      exact ih hd
    · simp only [spliceAll, hv, List.mem_cons] at hd
      rcases hd with rfl | hd
      · exact herr
      · exact ih hd
    · simp only [spliceAll, hv] at hd
      exact ih hd

private theorem spliceAll_from (rules : List AdapterRule) (types : PortTyping) {g h : Patch}
    {done : List Replacement} (hg : g.Spliced h done) {pairs : List EdgePair}
    (hpairs : ∀ p ∈ pairs, g.edges[p.edge]? = some ⟨p.source, p.target⟩)
    (hnodup : (pairs.map (·.edge)).Nodup)
    (hleft : ∀ r ∈ done, ∀ p ∈ pairs, r.pair.edge ≠ p.edge) :
    ∃ rs, g.Spliced (spliceAll rules types pairs h).patch (done ++ rs) ∧
      (∀ r ∈ rs, r.pair ∈ pairs ∧ r.Fits rules types) ∧
      ((spliceAll rules types pairs h).inserted = [] ↔ rs = []) ∧
      ((spliceAll rules types pairs h).diagnostics = [] →
        ∀ p ∈ pairs, p.Kept types ∨ ∃ r ∈ rs, r.pair = p) := by
  induction pairs generalizing h done with
  | nil => exact ⟨[], by simpa [spliceAll] using hg, by simp, by simp [spliceAll], by simp⟩
  | cons p ps ih =>
    have hps : ∀ q ∈ ps, g.edges[q.edge]? = some ⟨q.source, q.target⟩ :=
      fun q hq => hpairs q (List.mem_cons_of_mem _ hq)
    obtain ⟨hp, hnodup'⟩ := List.nodup_cons.mp hnodup
    have hleft' : ∀ r ∈ done, ∀ q ∈ ps, r.pair.edge ≠ q.edge :=
      fun r hr q hq => hleft r hr q (List.mem_cons_of_mem _ hq)
    rcases p.verdict_cases rules types h with ⟨hkept, hv⟩ | ⟨-, d, hv, -⟩ |
      ⟨rule, a, b, h', hfit, hs, hv⟩
    · obtain ⟨rs, hsp, hall, hins, hclean⟩ := ih hg hps hnodup' hleft'
      simp only [spliceAll, hv]
      refine ⟨rs, hsp, fun r hr => ?_, hins, fun hd q hq => ?_⟩
      · exact ⟨List.mem_cons_of_mem _ (hall r hr).1, (hall r hr).2⟩
      · rcases List.mem_cons.mp hq with rfl | hq
        · exact .inl hkept
        · exact hclean hd q hq
    · obtain ⟨rs, hsp, hall, hins, -⟩ := ih hg hps hnodup' hleft'
      simp only [spliceAll, hv]
      refine ⟨rs, hsp, fun r hr => ?_, hins, fun hd => by cases hd⟩
      exact ⟨List.mem_cons_of_mem _ (hall r hr).1, (hall r hr).2⟩
    · have hstep : g.Spliced h' (done ++ [⟨p, rule, a, b⟩]) :=
        hg.step hs (hpairs p List.mem_cons_self) fun r hr => hleft r hr p List.mem_cons_self
      have hleft'' : ∀ r ∈ done ++ [(⟨p, rule, a, b⟩ : Replacement)], ∀ q ∈ ps,
          r.pair.edge ≠ q.edge := by
        intro r hr q hq
        rcases List.mem_append.mp hr with hr | hr
        · exact hleft' r hr q hq
        · rw [List.mem_singleton.mp hr]
          exact fun heq => hp (List.mem_map.mpr ⟨q, hq, heq.symm⟩)
      obtain ⟨rs, hsp, hall, -, hclean⟩ := ih hstep hps hnodup' hleft''
      simp only [spliceAll, hv]
      refine ⟨⟨p, rule, a, b⟩ :: rs, by simpa using hsp, fun r hr => ?_, by simp, fun hd q hq => ?_⟩
      · rcases List.mem_cons.mp hr with rfl | hr
        · exact ⟨List.mem_cons_self, hfit⟩
        · exact ⟨List.mem_cons_of_mem _ (hall r hr).1, (hall r hr).2⟩
      · rcases List.mem_cons.mp hq with rfl | hq
        · exact .inr ⟨_, List.mem_cons_self, rfl⟩
        · rcases hclean hd q hq with hkept | ⟨r, hr, heq⟩
          · exact .inl hkept
          · exact .inr ⟨r, List.mem_cons_of_mem _ hr, heq⟩

end SpliceAll

theorem Patch.edgePairs_nodup (g : Patch) (ports : PortTable) :
    ((g.edgePairs ports).map (·.edge)).Nodup := by
  refine (OrderedMaps.nodup_keys g.edges).sublist ?_
  unfold Patch.edgePairs
  induction g.edges.toList with
  | nil => exact .slnil
  | cons x l ih =>
    by_cases hx : (ports.joins x.2 && decide ((g.drivers ports)[x.2.target]? = some x.1)) = true
    · simp only [List.filterMap_cons, hx, if_true, List.map_cons]
      exact ih.cons_cons _
    · simp only [List.filterMap_cons, hx, List.map_cons]
      exact ih.cons _

/-- Splicing describes itself: which edges it replaces, that it is quiet exactly if it replaces none, and
that without complaint every edge that counts is kept or replaced. -/
theorem Patch.spliceAll_spliced (g : Patch) (ports : PortTable) (rules : List AdapterRule)
    (types : PortTyping) :
    ∃ rs, g.Spliced (spliceAll rules types (g.edgePairs ports) g).patch rs ∧
      (∀ r ∈ rs, r.pair ∈ g.edgePairs ports ∧ r.Fits rules types) ∧
      ((spliceAll rules types (g.edgePairs ports) g).inserted = [] ↔ rs = []) ∧
      ((spliceAll rules types (g.edgePairs ports) g).diagnostics = [] →
        ∀ p ∈ g.edgePairs ports, p.Kept types ∨ ∃ r ∈ rs, r.pair = p) := by
  have h := spliceAll_from rules types (Spliced.refl g)
    (fun p hp => (mem_edgePairs_iff.mp hp).1) (g.edgePairs_nodup ports) (by simp)
  simpa only [List.nil_append] using h

end PatchTyping
