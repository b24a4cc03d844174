import PatchTyping.Proofs.RoundLocality
import PatchTyping.Proofs.SpliceReversal

/-!
# Splicing into a part of a patch

Whether an adapter can be put into an edge depends on the types of its ends and on the names that are
taken. If the adapters that are spliced into a part, and the edges that come with them, have names that
are not used in the rest, and the other way round, then rounds on the whole splice into the part what
rounds on the part splice into it. One side may come to rest before the other.
-/

namespace PatchTyping

open ValuedPartition CardinalityInference AxisInference

/-- The names of the edges that come with an adapter. -/
def Splice.edgeNames (catalog : Catalog) (s : Splice) : List EdgeId :=
  match catalog.rule? s.rule with
  | some rule => [adapterEdgeId s.node rule.inputPort, adapterEdgeId s.node rule.outputPort]
  | none => []

theorem Replacement.edgeNames_splice {catalog : Catalog} (hc : catalog.Built) {r : Replacement}
    (hr : r.rule ∈ catalog.adapterRules) : r.splice.edgeNames catalog = [r.entry.1, r.exit.1] := by
  have hrule : catalog.rule? r.splice.rule = some r.rule := hc.rule?_eq hr
  simp only [Splice.edgeNames, hrule]
  rfl

namespace EdgePair

variable {p : EdgePair} {rules : List AdapterRule} {types types' : PortTyping} {g g' : Patch}
  {s : Splice}

theorem exists_spliceInto {rule : AdapterRule} (hnode : g.nodes[p.adapterId rule]? = none)
    (hentry : g.edges[(p.entryEdge rule).1]? = none) (hexit : g.edges[(p.exitEdge rule).1]? = none)
    (hne : (p.entryEdge rule).1 ≠ (p.exitEdge rule).1) : ∃ g', p.spliceInto rule g = .ok g' := by
  have hcmp : compare (p.entryEdge rule).1 (p.exitEdge rule).1 ≠ .eq :=
    fun heq => hne (Std.LawfulEqOrd.eq_of_compare heq)
  have hentry' : (g.edges.erase p.edge)[(p.entryEdge rule).1]? = none := by
    rw [Std.ExtTreeMap.getElem?_erase, hentry, ite_self]
  have hexit' : ((g.edges.erase p.edge).insert (p.entryEdge rule).1
      (p.entryEdge rule).2)[(p.exitEdge rule).1]? = none := by
    rw [Std.ExtTreeMap.getElem?_insert, if_neg hcmp, Std.ExtTreeMap.getElem?_erase, hexit, ite_self]
  simp only [spliceInto, Patch.addNode, Patch.addEdge, Patch.removeEdge, bind, Except.bind,
    Std.ExtTreeMap.contains_eq_isSome_getElem?, hnode, hentry, hexit, hentry', hexit', Option.isSome_none,
    Bool.or_self, Bool.false_eq_true, if_false]
  exact ⟨_, rfl⟩

theorem verdict_eq_replace_iff : p.verdict rules types g = .replace g' s ↔
    ∃ r : Replacement, r.pair = p ∧ types.concrete? p.source = some r.source ∧
      types.concrete? p.target = some r.target ∧
      ¬ (r.source = r.target ∨ r.source.cardinality ≠ r.target.cardinality) ∧
      candidateRules rules r.source r.target = [r.rule] ∧ p.spliceInto r.rule g = .ok g' ∧
      s = r.splice := by
  constructor
  · intro h
    unfold verdict at h
    split at h
    · next a b ha hb =>
      split at h
      · cases h
      · next hkeep =>
        split at h
        · cases h
        · next rule hrule =>
          unfold applyRule at h
          dsimp only at h
          split at h
          · cases h
          · split at h
            · next g'' hg =>
              cases h
              exact ⟨⟨p, rule, a, b⟩, rfl, ha, hb, hkeep, hrule, hg, rfl⟩
            · cases h
        · cases h
    · cases h
  · rintro ⟨⟨p', rule, a, b⟩, rfl, ha, hb, hkeep, hrule, hg, rfl⟩
    have hfree : g.nodes.contains (p'.adapterId rule) = false := by
      rw [Std.ExtTreeMap.contains_eq_isSome_getElem?, (spliceInto_ok hg).1]
      rfl
    simp only [verdict, ha, hb, hkeep, if_false, hrule, applyRule, hfree, Bool.false_eq_true, hg]
    rfl

end EdgePair

section Cons

variable {p : EdgePair} (ps : List EdgePair) {rules : List AdapterRule} {types : PortTyping}
  {g g' : Patch} {s : Splice}

theorem spliceAll_cons_of_replace (h : p.verdict rules types g = .replace g' s) :
    (spliceAll rules types (p :: ps) g).patch = (spliceAll rules types ps g').patch ∧
      (spliceAll rules types (p :: ps) g).inserted =
        s :: (spliceAll rules types ps g').inserted := by
  simp only [spliceAll, h, and_self]

theorem spliceAll_cons_of_not_replace (h : ∀ g' s, p.verdict rules types g ≠ .replace g' s) :
    (spliceAll rules types (p :: ps) g).patch = (spliceAll rules types ps g).patch ∧
      (spliceAll rules types (p :: ps) g).inserted = (spliceAll rules types ps g).inserted := by
  cases hv : p.verdict rules types g with
  | keep => simp only [spliceAll, hv, and_self]
  | refuse d => simp only [spliceAll, hv, and_self]
  | replace g' s => exact absurd hv (h g' s)

end Cons

theorem spliceAll_patch_of_inserted_eq_nil {pairs : List EdgePair} {rules : List AdapterRule}
    {types : PortTyping} {g : Patch} (h : (spliceAll rules types pairs g).inserted = []) :
    (spliceAll rules types pairs g).patch = g := by
  induction pairs generalizing g with
  | nil => rfl
  | cons p ps ih =>
    by_cases hrep : ∃ g' s, p.verdict rules types g = .replace g' s
    · obtain ⟨g', s, hv⟩ := hrep
      rw [(spliceAll_cons_of_replace ps hv).2] at h
      cases h
    · obtain ⟨hpatch, hins⟩ := spliceAll_cons_of_not_replace ps fun g' s hv => hrep ⟨g', s, hv⟩
      rw [hins] at h
      rw [hpatch, ih h]

/-- One round and then the others. If the first is quiet, the others do nothing. -/
theorem converge_succ (catalog : Catalog) (n : Nat) (g : Patch) :
    (converge catalog (n + 1) g).patch =
        (converge catalog n (Round.ofPatch catalog g).splicing.patch).patch ∧
      (converge catalog (n + 1) g).inserted = (Round.ofPatch catalog g).splicing.inserted ++
        (converge catalog n (Round.ofPatch catalog g).splicing.patch).inserted := by
  cases hq : (Round.ofPatch catalog g).isQuiet with
  | true =>
    have hnil : (Round.ofPatch catalog g).splicing.inserted = [] := List.isEmpty_iff.mp hq
    have hsame : (Round.ofPatch catalog g).splicing.patch = g :=
      spliceAll_patch_of_inserted_eq_nil hnil
    rw [hsame, hnil, converge_of_quiet hq, converge_of_quiet hq]
    exact ⟨rfl, rfl⟩
  | false =>
    rw [converge_of_busy hq]
    exact ⟨rfl, rfl⟩

namespace Patch

/-- No edge leads from some nodes to others, and the name of an edge tells where it belongs. -/
structure Sorted (mine : NodeId → Bool) (owned : EdgeId → Bool) (g : Patch) : Prop where
  parted : g.Parted mine
  owned_eq : ∀ (id : EdgeId) (e : Edge), g.edges[id]? = some e → owned id = mine e.source.node

variable {mine : NodeId → Bool} {owned : EdgeId → Bool} {g g' : Patch} {catalog : Catalog}

theorem Sorted.not (h : g.Sorted mine owned) : g.Sorted (!mine ·) (!owned ·) :=
  ⟨h.parted.not, fun id e he => congrArg Bool.not (h.owned_eq id e he)⟩

theorem Sorted.edge_free (h : g.Sorted mine owned) {id : EdgeId} (hid : owned id = true)
    (hfree : (g.part mine).edges[id]? = none) : g.edges[id]? = none := by
  cases he : g.edges[id]? with
  | none => rfl
  | some e =>
    have hmine : mine e.source.node = true := (h.owned_eq id e he).symm.trans hid
    rw [getElem?_edges_part_iff.mpr ⟨he, hmine⟩] at hfree
    cases hfree

theorem part_ext {v : Patch} (hnodes : ∀ id : NodeId, (g.part mine).nodes[id]? = v.nodes[id]?)
    (hedges : ∀ (id : EdgeId) (e : Edge),
      g.edges[id]? = some e ∧ mine e.source.node = true ↔ v.edges[id]? = some e) : g.part mine = v := by
  have hn : (g.part mine).nodes = v.nodes := Std.ExtTreeMap.ext_getElem? fun id => hnodes id
  have he : (g.part mine).edges = v.edges := by
    apply Std.ExtTreeMap.ext_getElem?
    intro id
    apply Option.ext
    intro e
    rw [getElem?_edges_part_iff, hedges]
  cases v
  exact Patch.mk.injEq .. |>.mpr ⟨hn, he⟩

/-- An adapter with names of a part can be put in if it can be put into the part, and has no effect on the
rest. -/
theorem Sorted.spliceInto (h : g.Sorted mine owned) {r : Replacement} {v : Patch}
    (hedge : g.edges[r.pair.edge]? = some ⟨r.pair.source, r.pair.target⟩)
    (hsrc : mine r.pair.source.node = true) (hid : mine r.id = true)
    (hentry : owned r.entry.1 = true) (hexit : owned r.exit.1 = true)
    (hv : r.pair.spliceInto r.rule (g.part mine) = .ok v) :
    ∃ g', r.pair.spliceInto r.rule g = .ok g' ∧ g'.part mine = v ∧
      g'.part (!mine ·) = g.part (!mine ·) ∧ g'.Sorted mine owned := by
  obtain ⟨hnode, hfreeEntry, hfreeExit, hne, hnodes, -⟩ := Replacement.spliceInto_ok hv
  rw [getElem?_nodes_part, if_pos hid] at hnode
  obtain ⟨g', hg'⟩ := EdgePair.exists_spliceInto (p := r.pair) hnode (h.edge_free hentry hfreeEntry)
    (h.edge_free hexit hfreeExit) hne
  obtain ⟨-, -, -, -, hnodes', -⟩ := Replacement.spliceInto_ok hg'
  have htgt : mine r.pair.target.node = true := (h.parted _ _ hedge).trans hsrc
  refine ⟨g', hg', part_ext (fun id => ?_) fun id e => ?_, part_ext (fun id => ?_) fun id e => ?_,
    fun id e he => ?_, fun id e he => ?_⟩
  · rw [getElem?_nodes_part, hnodes, hnodes', Std.ExtTreeMap.getElem?_insert,
      Std.ExtTreeMap.getElem?_insert, getElem?_nodes_part]
    by_cases heq : r.id = id
    · simp [← heq, hid]
    · simp [heq]
  · rw [Spliced.edges_step hg', Spliced.edges_step hv, getElem?_edges_part_iff]
    constructor
    · rintro ⟨⟨he, hother⟩ | hnew, hmine⟩
      · exact .inl ⟨⟨he, hmine⟩, hother⟩
      · exact .inr hnew
    · rintro (⟨⟨he, hmine⟩, hother⟩ | hnew | hnew)
      · exact ⟨.inl ⟨he, hother⟩, hmine⟩
      · exact ⟨.inr (.inl hnew), (congrArg (fun x => mine x.2.source.node) hnew).trans hsrc⟩
      · exact ⟨.inr (.inr hnew), (congrArg (fun x => mine x.2.source.node) hnew).trans hid⟩
  · rw [getElem?_nodes_part, getElem?_nodes_part, hnodes', Std.ExtTreeMap.getElem?_insert]
    by_cases heq : r.id = id
    · simp [← heq, hid]
    · simp [heq]
  · rw [Spliced.edges_step hg', getElem?_edges_part_iff]
    constructor
    · rintro ⟨⟨he, -⟩ | hnew | hnew, hnot⟩
      · exact ⟨he, hnot⟩
      · rw [(congrArg (fun x => mine x.2.source.node) hnew).trans hsrc] at hnot
        cases hnot
      · rw [(congrArg (fun x => mine x.2.source.node) hnew).trans hid] at hnot
        cases hnot
    · rintro ⟨he, hnot⟩
      refine ⟨.inl ⟨he, ?_⟩, hnot⟩
      rintro rfl
      rw [hedge] at he
      cases he
      rw [hsrc] at hnot
      cases hnot
  · rcases (Spliced.edges_step hg' id e).mp he with ⟨he, -⟩ | hnew | hnew
    · exact h.parted id e he
    · rw [(congrArg (fun x => mine x.2.source.node) hnew).trans hsrc]
      exact (congrArg (fun x => mine x.2.target.node) hnew).trans hid
    · rw [(congrArg (fun x => mine x.2.source.node) hnew).trans hid]
      exact (congrArg (fun x => mine x.2.target.node) hnew).trans htgt
  · rcases (Spliced.edges_step hg' id e).mp he with ⟨he, -⟩ | hnew | hnew
    · exact h.owned_eq id e he
    · rw [(congrArg (fun x => mine x.2.source.node) hnew).trans hsrc]
      exact (congrArg (fun x => owned x.1) hnew).trans hentry
    · rw [(congrArg (fun x => mine x.2.source.node) hnew).trans hid]
      exact (congrArg (fun x => owned x.1) hnew).trans hexit

theorem spliceInto_part_of_whole (mine : NodeId → Bool) {p : EdgePair} {rule : AdapterRule}
    (h : p.spliceInto rule g = .ok g') : ∃ v, p.spliceInto rule (g.part mine) = .ok v := by
  obtain ⟨hnode, hentry, hexit, hne, -, -⟩ := EdgePair.spliceInto_ok h
  have hfree : ∀ id : EdgeId, g.edges[id]? = none → (g.part mine).edges[id]? = none := by
    intro id hid
    cases he : (g.part mine).edges[id]? with
    | none => rfl
    | some e =>
      rw [(getElem?_edges_part_iff.mp he).1] at hid
      cases hid
  refine EdgePair.exists_spliceInto ?_ (hfree _ hentry) (hfree _ hexit) hne
  rw [getElem?_nodes_part, hnode, ite_self]

end Patch

/-- The adapter and its edges have names of one side. -/
structure Splice.Named (mine : NodeId → Bool) (owned : EdgeId → Bool) (catalog : Catalog) (s : Splice) :
    Prop where
  node : mine s.node = true
  edges : ∀ id ∈ s.edgeNames catalog, owned id = true

namespace Patch.Sorted

variable {mine : NodeId → Bool} {owned : EdgeId → Bool} {g : Patch} {catalog : Catalog}
  {types types' : PortTyping} {p : EdgePair}

/-- An edge of a part is replaced in the whole as it is in the part. -/
theorem verdict_of_part (hc : catalog.Built) (h : g.Sorted mine owned)
    (htypes : ∀ k : PortKey, mine k.node = true → types'.concrete? k = types.concrete? k)
    (hedge : g.edges[p.edge]? = some ⟨p.source, p.target⟩) (hsrc : mine p.source.node = true)
    {v : Patch} {s : Splice} (hv : p.verdict catalog.adapterRules types' (g.part mine) = .replace v s)
    (hs : s.Named mine owned catalog) :
    ∃ g', p.verdict catalog.adapterRules types g = .replace g' s ∧ g'.part mine = v ∧
      g'.part (!mine ·) = g.part (!mine ·) ∧ g'.Sorted mine owned := by
  obtain ⟨r, rfl, ha, hb, hdiff, hrule, hsplice, rfl⟩ := EdgePair.verdict_eq_replace_iff.mp hv
  have hmem : r.rule ∈ catalog.adapterRules := by
    have hcand : r.rule ∈ candidateRules catalog.adapterRules r.source r.target := by simp [hrule]
    exact (List.mem_filter.mp hcand).1
  have hnames := hs.edges
  rw [Replacement.edgeNames_splice hc hmem] at hnames
  rw [htypes _ hsrc] at ha
  rw [htypes _ ((h.parted _ _ hedge).trans hsrc)] at hb
  obtain ⟨g', hg', hrest⟩ := h.spliceInto hedge hsrc hs.node (hnames _ (by simp))
    (hnames _ (by simp)) hsplice
  exact ⟨g', EdgePair.verdict_eq_replace_iff.mpr ⟨r, rfl, ha, hb, hdiff, hrule, hg', rfl⟩, hrest⟩

/-- An edge that is not replaced in its part is not replaced in the whole. -/
theorem not_replace_of_part (h : g.Sorted mine owned)
    (htypes : ∀ k : PortKey, mine k.node = true → types'.concrete? k = types.concrete? k)
    (hedge : g.edges[p.edge]? = some ⟨p.source, p.target⟩) (hsrc : mine p.source.node = true)
    (hnot : ∀ v s, p.verdict catalog.adapterRules types' (g.part mine) ≠ .replace v s) :
    ∀ g' s, p.verdict catalog.adapterRules types g ≠ .replace g' s := by
  intro g' s hg'
  obtain ⟨r, rfl, ha, hb, hdiff, hrule, hsplice, rfl⟩ := EdgePair.verdict_eq_replace_iff.mp hg'
  obtain ⟨v, hv⟩ := spliceInto_part_of_whole mine hsplice
  rw [← htypes _ hsrc] at ha
  rw [← htypes _ ((h.parted _ _ hedge).trans hsrc)] at hb
  exact hnot v r.splice
    (EdgePair.verdict_eq_replace_iff.mpr ⟨r, rfl, ha, hb, hdiff, hrule, hv, rfl⟩)

theorem edges_of_replace {ps : List EdgePair}
    (hps : ∀ q ∈ ps, g.edges[q.edge]? = some ⟨q.source, q.target⟩) (hp : p.edge ∉ ps.map (·.edge))
    {g' : Patch} {s : Splice} (hv : p.verdict catalog.adapterRules types g = .replace g' s) :
    ∀ q ∈ ps, g'.edges[q.edge]? = some ⟨q.source, q.target⟩ := by
  obtain ⟨r, rfl, -, -, -, -, hsplice, -⟩ := EdgePair.verdict_eq_replace_iff.mp hv
  intro q hq
  refine (Spliced.edges_step hsplice _ _).mpr (.inl ⟨hps q hq, ?_⟩)
  exact fun heq => hp (List.mem_map.mpr ⟨q, hq, heq.symm⟩)

/-- Going through edges of a patch. What is spliced into the part is what is spliced into it when its own
edges are gone through. -/
theorem spliceAll_part (hc : catalog.Built) {types₁ types₂ : PortTyping}
    (h₁ : ∀ k : PortKey, mine k.node = true → types₁.concrete? k = types.concrete? k)
    (h₂ : ∀ k : PortKey, (!mine k.node) = true → types₂.concrete? k = types.concrete? k)
    {ps : List EdgePair} {g : Patch} (h : g.Sorted mine owned)
    (hps : ∀ p ∈ ps, g.edges[p.edge]? = some ⟨p.source, p.target⟩)
    (hnodup : (ps.map (·.edge)).Nodup)
    (hin : ∀ s ∈ (spliceAll catalog.adapterRules types₁ (ps.filter fun p => mine p.source.node)
      (g.part mine)).inserted, s.Named mine owned catalog)
    (hout : ∀ s ∈ (spliceAll catalog.adapterRules types₂ (ps.filter fun p => !mine p.source.node)
      (g.part (!mine ·))).inserted, s.Named (!mine ·) (!owned ·) catalog) :
    (spliceAll catalog.adapterRules types ps g).patch.Sorted mine owned ∧
      (spliceAll catalog.adapterRules types ps g).patch.part mine =
        (spliceAll catalog.adapterRules types₁ (ps.filter fun p => mine p.source.node)
          (g.part mine)).patch ∧
      (spliceAll catalog.adapterRules types ps g).inserted.filter (fun s => mine s.node) =
        (spliceAll catalog.adapterRules types₁ (ps.filter fun p => mine p.source.node)
          (g.part mine)).inserted := by
  induction ps generalizing g with
  | nil => exact ⟨h, rfl, rfl⟩
  | cons p ps ih =>
    have hedge := hps p List.mem_cons_self
    have hrest : ∀ q ∈ ps, g.edges[q.edge]? = some ⟨q.source, q.target⟩ :=
      fun q hq => hps q (List.mem_cons_of_mem _ hq)
    obtain ⟨hp, hnodup⟩ := List.nodup_cons.mp hnodup
    cases hmine : mine p.source.node with
    | true =>
      rw [List.filter_cons_of_pos (p := fun p : EdgePair => mine p.source.node) hmine] at hin ⊢
      rw [List.filter_cons_of_neg (p := fun p : EdgePair => !mine p.source.node)
        (by simp [hmine])] at hout
      by_cases hrep : ∃ v s, p.verdict catalog.adapterRules types₁ (g.part mine) = .replace v s
      · obtain ⟨v, s, hv⟩ := hrep
        obtain ⟨hpatch, hins⟩ := spliceAll_cons_of_replace (ps.filter fun p => mine p.source.node) hv
        have hs : s.Named mine owned catalog := hin s (by simp [hins])
        obtain ⟨g', hg', rfl, hother, hsorted⟩ := h.verdict_of_part hc h₁ hedge hmine hv hs
        obtain ⟨hpatch', hins'⟩ := spliceAll_cons_of_replace ps hg'
        rw [hins] at hin
        rw [hpatch, hins, hpatch', hins', List.filter_cons_of_pos (by exact hs.node)]
        obtain ⟨hsorted', hpart, hsplices⟩ := ih hsorted (edges_of_replace hrest hp hg') hnodup
          (fun s' hs' => hin s' (List.mem_cons_of_mem _ hs')) (hother ▸ hout)
        exact ⟨hsorted', hpart, by rw [hsplices]⟩
      · have hnot := fun v s hv => hrep ⟨v, s, hv⟩
        obtain ⟨hpatch, hins⟩ :=
          spliceAll_cons_of_not_replace (ps.filter fun p => mine p.source.node) hnot
        obtain ⟨hpatch', hins'⟩ :=
          spliceAll_cons_of_not_replace ps (h.not_replace_of_part h₁ hedge hmine hnot)
        rw [hins] at hin
        rw [hpatch, hins, hpatch', hins']
        exact ih h hrest hnodup hin hout
    | false =>
      have hmine' : (!mine p.source.node) = true := by simp [hmine]
      rw [List.filter_cons_of_neg (p := fun p : EdgePair => mine p.source.node)
        (by simp [hmine])] at hin ⊢
      rw [List.filter_cons_of_pos (p := fun p : EdgePair => !mine p.source.node) hmine'] at hout
      by_cases hrep : ∃ v s, p.verdict catalog.adapterRules types₂ (g.part (!mine ·)) = .replace v s
      · obtain ⟨v, s, hv⟩ := hrep
        obtain ⟨-, hins⟩ := spliceAll_cons_of_replace (ps.filter fun p => !mine p.source.node) hv
        have hs : s.Named (!mine ·) (!owned ·) catalog := hout s (by simp [hins])
        obtain ⟨g', hg', rfl, hother, hsorted⟩ := h.not.verdict_of_part hc h₂ hedge hmine' hv hs
        obtain ⟨hpatch', hins'⟩ := spliceAll_cons_of_replace ps hg'
        have hsorted : g'.Sorted mine owned := by simpa only [Bool.not_not] using hsorted.not
        have hsame : g'.part mine = g.part mine := by simpa only [Bool.not_not] using hother
        have hnode : mine s.node = false := by simpa using hs.node
        rw [hins] at hout
        rw [hpatch', hins', List.filter_cons_of_neg (by simp [hnode]), ← hsame]
        exact ih hsorted (edges_of_replace hrest hp hg') hnodup (hsame ▸ hin)
          (fun s' hs' => hout s' (List.mem_cons_of_mem _ hs'))
      · have hnot := fun v s hv => hrep ⟨v, s, hv⟩
        obtain ⟨-, hins⟩ :=
          spliceAll_cons_of_not_replace (ps.filter fun p => !mine p.source.node) hnot
        obtain ⟨hpatch', hins'⟩ :=
          spliceAll_cons_of_not_replace ps (h.not.not_replace_of_part h₂ hedge hmine' hnot)
        rw [hins] at hout
        rw [hpatch', hins']
        exact ih h hrest hnodup hin hout

theorem splicing_part (hc : catalog.Built) (h : g.Sorted mine owned)
    (hin : ∀ s ∈ (Round.ofPatch catalog (g.part mine)).splicing.inserted, s.Named mine owned catalog)
    (hout : ∀ s ∈ (Round.ofPatch catalog (g.part (!mine ·))).splicing.inserted,
      s.Named (!mine ·) (!owned ·) catalog) :
    (Round.ofPatch catalog g).splicing.patch.Sorted mine owned ∧
      (Round.ofPatch catalog g).splicing.patch.part mine =
        (Round.ofPatch catalog (g.part mine)).splicing.patch ∧
      (Round.ofPatch catalog g).splicing.inserted.filter (fun s => mine s.node) =
        (Round.ofPatch catalog (g.part mine)).splicing.inserted := by
  have hsplicing : ∀ {f : NodeId → Bool}, g.Parted f → (Round.ofPatch catalog (g.part f)).splicing =
      spliceAll catalog.adapterRules (Round.ofPatch catalog (g.part f)).typing
        ((g.edgePairs (g.portTable catalog)).filter fun p => f p.source.node) (g.part f) := by
    intro f hf
    rw [← edgePairs_part hf, ← portTable_part]
    rfl
  rw [hsplicing h.parted] at hin ⊢
  rw [hsplicing h.parted.not] at hout
  exact spliceAll_part hc (fun k hk => Round.concrete?_part hc h.parted hk)
    (fun k hk => Round.concrete?_part hc h.parted.not hk) h
    (fun p hp => (mem_edgePairs_iff.mp hp).1) (g.edgePairs_nodup _) hin hout

theorem converge_part (hc : catalog.Built) (n : Nat) (h : g.Sorted mine owned)
    (hin : ∀ s ∈ (converge catalog n (g.part mine)).inserted, s.Named mine owned catalog)
    (hout : ∀ s ∈ (converge catalog n (g.part (!mine ·))).inserted,
      s.Named (!mine ·) (!owned ·) catalog) :
    (converge catalog n g).patch.Sorted mine owned ∧
      (converge catalog n g).patch.part mine = (converge catalog n (g.part mine)).patch ∧
      (converge catalog n g).inserted.filter (fun s => mine s.node) =
        (converge catalog n (g.part mine)).inserted := by
  induction n generalizing g with
  | zero => exact ⟨h, rfl, rfl⟩
  | succ n ih =>
    obtain ⟨hpatch, hins⟩ := converge_succ catalog n g
    obtain ⟨hpatch₁, hins₁⟩ := converge_succ catalog n (g.part mine)
    obtain ⟨-, hins₂⟩ := converge_succ catalog n (g.part (!mine ·))
    rw [hins₁] at hin
    rw [hins₂] at hout
    have hin' := fun s hs => hin s (List.mem_append_left _ hs)
    have hout' := fun s hs => hout s (List.mem_append_left _ hs)
    obtain ⟨hsorted, hpart, hsplices⟩ := h.splicing_part hc hin' hout'
    have hother : (Round.ofPatch catalog g).splicing.patch.part (!mine ·) =
        (Round.ofPatch catalog (g.part (!mine ·))).splicing.patch := by
      refine (h.not.splicing_part hc hout' ?_).2.1
      simpa only [Bool.not_not] using hin'
    obtain ⟨hsorted', hpart', hsplices'⟩ := ih hsorted
      (fun s hs => hin s (List.mem_append_right _ (hpart ▸ hs)))
      (fun s hs => hout s (List.mem_append_right _ (hother ▸ hs)))
    rw [hpatch, hins, hpatch₁, hins₁, ← hpart, List.filter_append, hsplices, hsplices']
    exact ⟨hsorted', hpart', rfl⟩

end Patch.Sorted

end PatchTyping
