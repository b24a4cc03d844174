import PatchTyping.Proofs.RelabelledPatches
import PatchTyping.Proofs.SpliceLocality

/-!
# Splicing under other edge names

What splicing puts into an edge does not depend on the name of the edge, unless a name that it makes up is
taken. The order of the names is the order in which edges are replaced; if all are replaced, the order makes
no difference to the patch.
-/

namespace PatchTyping

/-- The adapter without the name of the edge that it replaced. -/
def Splice.unnamed (s : Splice) : Splice := { s with replacedEdge := "" }

/-- It is reported that the name of an edge at an adapter is taken. -/
def ReportsTaken (ds : List Diagnostic) : Prop :=
  ∃ (p : EdgePair) (rule : AdapterRule) (id : EdgeId),
    p.cannotSplice rule (PatchError.duplicateEdge id).message [] ∈ ds

theorem ReportsTaken.mono {ds ds' : List Diagnostic} (h : ReportsTaken ds) (hsub : ds ⊆ ds') :
    ReportsTaken ds' := by
  obtain ⟨p, rule, id, hmem⟩ := h
  exact ⟨p, rule, id, hsub hmem⟩

theorem mem_of_candidateRules {rules : List AdapterRule} {rule : AdapterRule}
    {source target : ConcreteType} (h : candidateRules rules source target = [rule]) : rule ∈ rules :=
  List.mem_of_mem_filter (h ▸ List.mem_singleton_self rule)

namespace Replacement

/-- The same adapter in an edge of another name. -/
def relabel (f : EdgeId → EdgeId) (r : Replacement) : Replacement := { r with pair := r.pair.relabel f }

/-- The edges at the adapter keep the names that are made up for them. -/
def newNames (f : EdgeId → EdgeId) (r : Replacement) (id : EdgeId) : EdgeId :=
  if id = r.entry.1 ∨ id = r.exit.1 then id else f id

variable {f : EdgeId → EdgeId} (r : Replacement)

theorem newNames_new {id : EdgeId} {e : Edge} (h : (id, e) = r.entry ∨ (id, e) = r.exit) :
    r.newNames f id = id :=
  if_pos (h.imp (congrArg Prod.fst) (congrArg Prod.fst))

theorem newNames_old {g v : Patch} (hs : r.pair.spliceInto r.rule g = .ok v) {id : EdgeId} {e : Edge}
    (he : g.edges[id]? = some e) : r.newNames f id = f id := by
  obtain ⟨-, hentry, hexit, -⟩ := Replacement.spliceInto_ok hs
  refine if_neg ?_
  rintro (rfl | rfl)
  · rw [hentry] at he
    cases he
  · rw [hexit] at he
    cases he

end Replacement

/-- An adapter that has a rule and a name for its node is put in, or a name of its edges is taken. -/
theorem EdgePair.verdict_of_node_free {p : EdgePair} {rules : List AdapterRule} {types : PortTyping}
    {g : Patch} {r : Replacement} (hpair : r.pair = p) (hsource : types.concrete? p.source = some r.source)
    (htarget : types.concrete? p.target = some r.target)
    (hkeep : ¬ (r.source = r.target ∨ r.source.cardinality ≠ r.target.cardinality))
    (hrule : candidateRules rules r.source r.target = [r.rule]) (hnode : g.nodes[r.id]? = none)
    (hne : r.entry.1 ≠ r.exit.1) :
    (∃ v s, p.verdict rules types g = .replace v s) ∨
      p.verdict rules types g =
        .refuse (p.cannotSplice r.rule (PatchError.duplicateEdge r.entry.1).message []) := by
  subst hpair
  cases htaken : g.edges.contains r.entry.1 || g.edges.contains r.exit.1 with
  | false =>
    simp only [Bool.or_eq_false_iff, Std.ExtTreeMap.contains_eq_isSome_getElem?, Option.isSome_eq_false_iff,
      Option.isNone_iff_eq_none] at htaken
    obtain ⟨v, hv⟩ := exists_spliceInto hnode htaken.1 htaken.2 hne
    exact .inl ⟨v, r.splice, verdict_eq_replace_iff.mpr
      ⟨r, rfl, hsource, htarget, hkeep, hrule, hv, rfl⟩⟩
  | true =>
    right
    have hfree : g.nodes.contains (r.pair.adapterId r.rule) = false := by
      rw [Std.ExtTreeMap.contains_eq_isSome_getElem?]
      exact Option.isSome_eq_false_iff.mpr (Option.isNone_iff_eq_none.mpr hnode)
    have hrefused : r.pair.spliceInto r.rule g = .error (.duplicateEdge r.entry.1) := if_pos htaken
    simp only [verdict, hsource, htarget, hkeep, if_false, hrule, applyRule, hfree, Bool.false_eq_true,
      hrefused]

namespace Patch

/-- The same patch but for the names of edges between old nodes, and no edge has one of the given names
without having had it before. -/
structure Alongside (f : EdgeId → EdgeId) (old : NodeId → Bool) (names : List EdgeId) (g g' : Patch) :
    Prop where
  relabelled : Relabelled f g g'
  old_mem : ∀ id, old id = true → id ∈ g.nodes
  fixed : ∀ {id : EdgeId} {e : Edge}, g.edges[id]? = some e →
    (!(old e.source.node && old e.target.node)) = true → f id = id
  clear : ∀ {id : EdgeId} {e : Edge}, g.edges[id]? = some e → f id ∈ names → f id = id

theorem Relabelled.node_free_iff {f : EdgeId → EdgeId} {g g' : Patch} (h : Relabelled f g g') {id : NodeId} :
    g'.nodes[id]? = none ↔ g.nodes[id]? = none := by
  rw [← Option.not_isSome_iff_eq_none, ← Option.not_isSome_iff_eq_none,
    ← Std.ExtTreeMap.mem_iff_isSome_getElem?, ← Std.ExtTreeMap.mem_iff_isSome_getElem?, h.node_mem_iff]

namespace Alongside

variable {f : EdgeId → EdgeId} {old : NodeId → Bool} {names : List EdgeId} {g g' : Patch}
  (h : g.Alongside f old names g')
include h

theorem edge_free {id : EdgeId} (hid : id ∈ names) (hfree : g.edges[id]? = none) :
    g'.edges[id]? = none := by
  cases he : g'.edges[id]? with
  | none => rfl
  | some e =>
    obtain ⟨o, ho, rfl⟩ := h.relabelled.exists_edge he
    rw [h.clear ho hid, ho] at hfree
    cases hfree

theorem exists_spliceInto {r : Replacement} (hentry : r.entry.1 ∈ names) (hexit : r.exit.1 ∈ names)
    {v : Patch} (hs : r.pair.spliceInto r.rule g = .ok v) :
    ∃ v', (r.relabel f).pair.spliceInto r.rule g' = .ok v' := by
  obtain ⟨hnode, hen, hex, hne, -⟩ := Replacement.spliceInto_ok hs
  exact EdgePair.exists_spliceInto (p := (r.relabel f).pair) (h.relabelled.node_free_iff.mpr hnode)
    (h.edge_free hentry hen) (h.edge_free hexit hex) hne

section Spliced

variable {r : Replacement} {v v' : Patch} (hentry : r.entry.1 ∈ names) (hexit : r.exit.1 ∈ names)
  (hs : r.pair.spliceInto r.rule g = .ok v)
  (hs' : (r.relabel f).pair.spliceInto r.rule g' = .ok v')
include hentry hexit hs

private theorem newNames_injective : ∀ {a b : EdgeId} {d e : Edge}, v.edges[a]? = some d →
    v.edges[b]? = some e → r.newNames f a = r.newNames f b → a = b := by
  have hmixed : ∀ {a b : EdgeId} {d e : Edge}, (a, d) = r.entry ∨ (a, d) = r.exit →
      g.edges[b]? = some e → r.newNames f a = r.newNames f b → a = b := by
    intro a b d e ha hb heq
    rw [r.newNames_new ha, r.newNames_old hs hb] at heq
    have hmem : a ∈ names := by
      rcases ha with ha | ha
      · cases ha
        exact hentry
      · cases ha
        exact hexit
    rw [heq, h.clear hb (heq ▸ hmem)]
  intro a b d e ha hb heq
  rcases (Spliced.edges_step hs a d).mp ha with ⟨ha, -⟩ | ha
  · rcases (Spliced.edges_step hs b e).mp hb with ⟨hb, -⟩ | hb
    · rw [r.newNames_old hs ha, r.newNames_old hs hb] at heq
      exact h.relabelled.injective ha hb heq
    · exact (hmixed hb ha heq.symm).symm
  · rcases (Spliced.edges_step hs b e).mp hb with ⟨hb, -⟩ | hb
    · exact hmixed ha hb heq
    · rwa [r.newNames_new ha, r.newNames_new hb] at heq

include hs'

private theorem relabelled_spliceInto (hedge : r.pair.edge ∈ g.edges) :
    Relabelled (r.newNames f) v v' := by
  obtain ⟨d, hpair⟩ := OrderedMaps.mem_iff_exists.mp hedge
  refine ⟨?_, fun {id e} he => ?_, fun {id e} he => ?_, h.newNames_injective hentry hexit hs⟩
  · rw [(Replacement.spliceInto_ok hs).2.2.2.2.1, (Replacement.spliceInto_ok (r := r.relabel f) hs').2.2.2.2.1]
    apply Std.ExtTreeMap.ext_getElem?
    intro id
    simp only [Std.ExtTreeMap.getElem?_map, Std.ExtTreeMap.getElem?_insert]
    change Option.map _ (if compare r.id id = .eq then _ else _) = _
    split
    · rfl
    · exact h.relabelled.getElem?_unnamed id
  · apply (Spliced.edges_step (r := r.relabel f) hs' _ _).mpr
    rcases (Spliced.edges_step hs id e).mp he with ⟨he, hne⟩ | hid
    · rw [r.newNames_old hs he]
      exact .inl ⟨h.relabelled.edge he, fun heq => hne (h.relabelled.injective hpair he heq)⟩
    · rw [r.newNames_new hid]
      exact .inr hid
  · rcases (Spliced.edges_step (r := r.relabel f) hs' id e).mp he with ⟨he, hne⟩ | hid
    · obtain ⟨o, ho, rfl⟩ := h.relabelled.exists_edge he
      exact ⟨o, (Spliced.edges_step hs _ _).mpr (.inl ⟨ho, fun heq => hne (congrArg f heq)⟩),
        r.newNames_old hs ho⟩
    · exact ⟨id, (Spliced.edges_step hs _ _).mpr (.inr hid), r.newNames_new hid⟩

theorem spliceInto (hedge : r.pair.edge ∈ g.edges) : v.Alongside (r.newNames f) old names v' where
  relabelled := h.relabelled_spliceInto hentry hexit hs hs' hedge
  old_mem id hid := by
    rw [(Replacement.spliceInto_ok hs).2.2.2.2.1]
    exact Std.ExtTreeMap.mem_insert.mpr (.inr (h.old_mem id hid))
  fixed {id e} he hends := by
    rcases (Spliced.edges_step hs id e).mp he with ⟨he, -⟩ | hid
    · rw [r.newNames_old hs he, h.fixed he hends]
    · exact r.newNames_new hid
  clear {id e} he hid := by
    rcases (Spliced.edges_step hs id e).mp he with ⟨he, -⟩ | hnew
    · rw [r.newNames_old hs he] at hid ⊢
      exact h.clear he hid
    · exact r.newNames_new hnew

end Spliced

section Verdicts

variable {p : EdgePair} {types : PortTyping}

/-- Where an adapter goes into an edge, the same one goes into the relabelled edge. -/
theorem replace {catalog : Catalog} (hc : catalog.Built) (hedge : p.edge ∈ g.edges) {v : Patch}
    {s : Splice} (hv : p.verdict catalog.adapterRules types g = .replace v s)
    (hnames : ∀ id ∈ s.edgeNames catalog, id ∈ names) :
    ∃ f' v' s', (p.relabel f).verdict catalog.adapterRules types g' = .replace v' s' ∧
      s'.unnamed = s.unnamed ∧ v.Alongside f' old names v' ∧
      ∀ {id : EdgeId} {e : Edge}, g.edges[id]? = some e → f' id = f id := by
  obtain ⟨r, rfl, hsource, htarget, hkeep, hrule, hs, rfl⟩ := EdgePair.verdict_eq_replace_iff.mp hv
  rw [r.edgeNames_splice hc (mem_of_candidateRules hrule)] at hnames
  have hentry : r.entry.1 ∈ names := hnames _ (by simp)
  have hexit : r.exit.1 ∈ names := hnames _ (by simp)
  obtain ⟨v', hs'⟩ := h.exists_spliceInto hentry hexit hs
  have hv' := EdgePair.verdict_eq_replace_iff.mpr
    ⟨r.relabel f, rfl, hsource, htarget, hkeep, hrule, hs', rfl⟩
  exact ⟨r.newNames f, v', (r.relabel f).splice, hv', rfl, h.spliceInto hentry hexit hs hs' hedge,
    r.newNames_old hs⟩

/-- Where an adapter is refused, it is refused in the relabelled edge, unless a name was taken. -/
theorem not_replace {rules : List AdapterRule} {d : Diagnostic}
    (hp : p.verdict rules types g = .refuse d)
    (hd : ∀ rule id, d ≠ p.cannotSplice rule (PatchError.duplicateEdge id).message [])
    (v' : Patch) (s' : Splice) : (p.relabel f).verdict rules types g' ≠ .replace v' s' := by
  intro hv
  obtain ⟨r', -, hsource, htarget, hkeep, hrule, hs, -⟩ := EdgePair.verdict_eq_replace_iff.mp hv
  obtain ⟨hnode, -, -, hne, -⟩ := EdgePair.spliceInto_ok hs
  let r : Replacement := { r' with pair := p }
  rcases EdgePair.verdict_of_node_free (r := r) rfl hsource htarget hkeep hrule
    (h.relabelled.node_free_iff.mp hnode) hne with ⟨v, s, hreplace⟩ | hrefuse
  · rw [hp] at hreplace
    cases hreplace
  · rw [hp] at hrefuse
    exact hd _ _ (SpliceVerdict.refuse.inj hrefuse)

end Verdicts

theorem splicing {catalog : Catalog} (hc : catalog.Built) (types : PortTyping) {ps : List EdgePair}
    (hps : ∀ p ∈ ps, p.edge ∈ g.edges) (hnodup : (ps.map (·.edge)).Nodup)
    (hclash : ¬ ReportsTaken (spliceAll catalog.adapterRules types ps g).diagnostics)
    (hnames : ∀ s ∈ (spliceAll catalog.adapterRules types ps g).inserted,
      ∀ id ∈ s.edgeNames catalog, id ∈ names) :
    let a := spliceAll catalog.adapterRules types ps g
    let b := spliceAll catalog.adapterRules types (ps.map (EdgePair.relabel f)) g'
    (∃ f', a.patch.Alongside f' old names b.patch) ∧
      b.inserted.map Splice.unnamed = a.inserted.map Splice.unnamed ∧
      (a.diagnostics = [] → b.diagnostics = []) := by
  intro a b
  induction ps generalizing f g g' with
  | nil => exact ⟨⟨f, h⟩, rfl, id⟩
  | cons p ps ih =>
    obtain ⟨hfirst, hnodup⟩ := List.nodup_cons.mp hnodup
    have hrest : ∀ q ∈ ps, q.edge ∈ g.edges := fun q hq => hps q (List.mem_cons_of_mem _ hq)
    rcases p.verdict_cases catalog.adapterRules types g with ⟨hkept, hv⟩ | ⟨-, d, hv, -⟩ |
      ⟨rule, s, t, v, -, hs, hv⟩
    · have hv' : (p.relabel f).verdict catalog.adapterRules types g' = .keep := by
        rcases (p.relabel f).verdict_cases catalog.adapterRules types g' with ⟨-, hv'⟩ | ⟨hnot, -⟩ |
          ⟨_, _, _, _, hfits, -, -⟩
        · exact hv'
        · exact absurd hkept hnot
        · exact absurd hkept hfits.not_kept
      simp only [a, b, List.map_cons, spliceAll, hv, hv'] at hclash hnames ⊢
      exact ih h hrest hnodup hclash hnames
    · simp only [spliceAll, hv] at hclash hnames
      have hnot := h.not_replace hv fun rule id heq =>
        hclash ⟨p, rule, id, List.mem_cons.mpr (.inl heq.symm)⟩
      obtain ⟨hpatch, hins⟩ := spliceAll_cons_of_not_replace (ps.map (EdgePair.relabel f)) hnot
      simp only [a, b, List.map_cons, hpatch, hins]
      simp only [spliceAll, hv]
      obtain ⟨halong, hsame, -⟩ := ih h hrest hnodup
        (fun htaken => hclash (htaken.mono (List.subset_cons_self _ _))) hnames
      exact ⟨halong, hsame, fun hnil => by cases hnil⟩
    · rw [(spliceAll_cons_of_replace ps hv).2, List.forall_mem_cons] at hnames
      obtain ⟨f', v', s', hv', hs', halong, hold⟩ := h.replace hc (hps p List.mem_cons_self) hv hnames.1
      let r : Replacement := ⟨p, rule, s, t⟩
      have hrest' : ∀ q ∈ ps, q.edge ∈ v.edges := by
        intro q hq
        obtain ⟨e, he⟩ := OrderedMaps.mem_iff_exists.mp (hrest q hq)
        have hstays : p.edge ≠ q.edge := fun heq => hfirst (List.mem_map.mpr ⟨q, hq, heq.symm⟩)
        have he' := (Spliced.edges_step (r := r) hs q.edge e).mpr (.inl ⟨he, hstays⟩)
        exact OrderedMaps.mem_iff_exists.mpr ⟨_, he'⟩
      have hsame : ps.map (EdgePair.relabel f) = ps.map (EdgePair.relabel f') := by
        refine List.map_congr_left fun q hq => ?_
        obtain ⟨e, he⟩ := OrderedMaps.mem_iff_exists.mp (hrest q hq)
        rw [EdgePair.relabel, EdgePair.relabel, hold he]
      simp only [spliceAll, hv] at hclash
      simp only [a, b, List.map_cons, hsame, spliceAll, hv, hv', hs']
      obtain ⟨hnext, hins, hnil⟩ := ih halong hrest' hnodup hclash hnames.2
      exact ⟨hnext, by rw [hins], hnil⟩

end Alongside

end Patch

section Order

private theorem swap_iff {A P Q X Y : Prop} (hx : X → Q) (hy : Y → P) :
    (A ∧ Q ∨ Y) ∧ P ∨ X ↔ (A ∧ P ∨ X) ∧ Q ∨ Y := by
  tauto

/-- Two adapters can be put in in either order, if neither brings in an edge under the name of the edge that
the other one replaces. -/
theorem Replacement.spliceInto_swap {r s : Replacement} {g v w : Patch}
    (hr : r.pair.spliceInto r.rule g = .ok v) (hs : s.pair.spliceInto s.rule v = .ok w)
    (hrs : ∀ id, id = s.entry.1 ∨ id = s.exit.1 → r.pair.edge ≠ id)
    (hsr : ∀ id, id = r.entry.1 ∨ id = r.exit.1 → s.pair.edge ≠ id) :
    ∃ u, s.pair.spliceInto s.rule g = .ok u ∧ r.pair.spliceInto r.rule u = .ok w := by
  obtain ⟨hrnode, hren, hrex, hrne, hrnodes, -⟩ := Replacement.spliceInto_ok hr
  obtain ⟨hsnode, hsen, hsex, hsne, hsnodes, -⟩ := Replacement.spliceInto_ok hs
  have hne : r.id ≠ s.id := by
    intro heq
    rw [hrnodes, ← heq, Std.ExtTreeMap.getElem?_insert_self] at hsnode
    cases hsnode
  have hcmp : compare r.id s.id ≠ .eq := fun heq => hne (Std.LawfulEqOrd.eq_of_compare heq)
  have hcmp' : compare s.id r.id ≠ .eq := fun heq => hne (Std.LawfulEqOrd.eq_of_compare heq).symm
  have hsnode' : g.nodes[s.id]? = none := by
    rwa [hrnodes, Std.ExtTreeMap.getElem?_insert, if_neg hcmp] at hsnode
  have hfree : ∀ id, id = s.entry.1 ∨ id = s.exit.1 → v.edges[id]? = none → g.edges[id]? = none := by
    intro id hid hnone
    apply Option.eq_none_iff_forall_ne_some.mpr
    intro e he
    rw [(Patch.Spliced.edges_step hr id e).mpr (.inl ⟨he, hrs id hid⟩)] at hnone
    cases hnone
  obtain ⟨u, hu⟩ := EdgePair.exists_spliceInto hsnode' (hfree _ (.inl rfl) hsen)
    (hfree _ (.inr rfl) hsex) hsne
  have hunodes := (Replacement.spliceInto_ok hu).2.2.2.2.1
  have hrnode' : u.nodes[r.id]? = none := by
    rw [hunodes, Std.ExtTreeMap.getElem?_insert, if_neg hcmp', hrnode]
  have hfree' : ∀ x, x = r.entry ∨ x = r.exit → g.edges[x.1]? = none → u.edges[x.1]? = none := by
    intro x hx hnone
    apply Option.eq_none_iff_forall_ne_some.mpr
    intro e he
    have htaken : v.edges[x.1]? = some x.2 :=
      (Patch.Spliced.edges_step hr x.1 x.2).mpr (.inr (by simpa using hx))
    rcases (Patch.Spliced.edges_step hu x.1 e).mp he with ⟨he, -⟩ | heq | heq
    · rw [hnone] at he
      cases he
    · rw [(congrArg Prod.fst heq :), hsen] at htaken
      cases htaken
    · rw [(congrArg Prod.fst heq :), hsex] at htaken
      cases htaken
  obtain ⟨w', hw⟩ := EdgePair.exists_spliceInto hrnode' (hfree' _ (.inl rfl) hren)
    (hfree' _ (.inr rfl) hrex) hrne
  have hnodes : w'.nodes = w.nodes := by
    rw [(Replacement.spliceInto_ok hw).2.2.2.2.1, hunodes, hsnodes, hrnodes]
    apply Std.ExtTreeMap.ext_getElem?
    intro id
    simp only [Std.ExtTreeMap.getElem?_insert]
    by_cases hid : compare r.id id = .eq
    · rw [← Std.LawfulEqOrd.eq_of_compare hid]
      simp [hcmp']
    · simp [hid]
  have hedges : w'.edges = w.edges := by
    apply Std.ExtTreeMap.ext_getElem?
    intro id
    apply Option.ext
    intro e
    rw [Patch.Spliced.edges_step hw, Patch.Spliced.edges_step hu, Patch.Spliced.edges_step hs,
      Patch.Spliced.edges_step hr]
    have hrs' : (id, e) = s.entry ∨ (id, e) = s.exit → r.pair.edge ≠ id :=
      fun heq => hrs id (heq.imp (congrArg Prod.fst) (congrArg Prod.fst))
    have hsr' : (id, e) = r.entry ∨ (id, e) = r.exit → s.pair.edge ≠ id :=
      fun heq => hsr id (heq.imp (congrArg Prod.fst) (congrArg Prod.fst))
    exact swap_iff hsr' hrs'
  have hsame : w' = w := by
    cases w
    exact Patch.mk.injEq .. |>.mpr ⟨hnodes, hedges⟩
  exact ⟨u, hu, hsame ▸ hw⟩

variable {rules : List AdapterRule} {types : PortTyping} {g : Patch}

theorem spliceAll_cons_of_kept {p : EdgePair} (hp : p.Kept types) (ps : List EdgePair) :
    spliceAll rules types (p :: ps) g = spliceAll rules types ps g := by
  rcases p.verdict_cases rules types g with ⟨-, hv⟩ | ⟨hnot, -⟩ | ⟨_, _, _, _, hfits, -, -⟩
  · simp only [spliceAll, hv]
  · exact absurd hp hnot
  · exact absurd hp hfits.not_kept

theorem spliceAll_cons_congr (p : EdgePair) {ps qs : List EdgePair}
    (h : ∀ v, spliceAll rules types ps v = spliceAll rules types qs v) :
    spliceAll rules types (p :: ps) g = spliceAll rules types (p :: qs) g := by
  cases hv : p.verdict rules types g <;> simp only [spliceAll, hv, h]

theorem spliceAll_filter {P : EdgePair → Bool} {ps : List EdgePair}
    (h : ∀ p ∈ ps, P p = false → p.Kept types) :
    spliceAll rules types (ps.filter P) g = spliceAll rules types ps g := by
  induction ps generalizing g with
  | nil => rfl
  | cons p ps ih =>
    have hps : ∀ q ∈ ps, P q = false → q.Kept types := fun q hq => h q (List.mem_cons_of_mem _ hq)
    cases hp : P p with
    | false =>
      rw [List.filter_cons_of_neg (by simp [hp]), ih hps,
        spliceAll_cons_of_kept (h p List.mem_cons_self hp)]
    | true =>
      rw [List.filter_cons_of_pos hp]
      exact spliceAll_cons_congr p fun v => ih hps

private theorem spliceAll_cons_of_not_kept {p : EdgePair} (hp : ¬ p.Kept types) {ps : List EdgePair}
    (hnil : (spliceAll rules types (p :: ps) g).diagnostics = []) :
    ∃ v s, p.verdict rules types g = .replace v s ∧ (spliceAll rules types ps v).diagnostics = [] := by
  rcases p.verdict_cases rules types g with ⟨hkept, -⟩ | ⟨-, d, hv, -⟩ | ⟨_, _, _, v, -, -, hv⟩
  · exact absurd hkept hp
  · simp [spliceAll, hv] at hnil
  · simp only [spliceAll, hv] at hnil
    exact ⟨v, _, hv, hnil⟩

private theorem verdict_swap {catalog : Catalog} (hc : catalog.Built) {p q : EdgePair} {v w : Patch}
    {s t : Splice} (hq : q.verdict catalog.adapterRules types g = .replace v s)
    (hp : p.verdict catalog.adapterRules types v = .replace w t)
    (hqt : q.edge ∉ t.edgeNames catalog) (hps : p.edge ∉ s.edgeNames catalog) :
    ∃ u, p.verdict catalog.adapterRules types g = .replace u t ∧
      q.verdict catalog.adapterRules types u = .replace w s := by
  obtain ⟨r, rfl, hrs, hrt, hrk, hrr, hr, rfl⟩ := EdgePair.verdict_eq_replace_iff.mp hq
  obtain ⟨o, rfl, hos, hot, hok, hor, ho, rfl⟩ := EdgePair.verdict_eq_replace_iff.mp hp
  rw [o.edgeNames_splice hc (mem_of_candidateRules hor)] at hqt
  rw [r.edgeNames_splice hc (mem_of_candidateRules hrr)] at hps
  obtain ⟨u, hu, hw⟩ := Replacement.spliceInto_swap hr ho
    (fun id hid heq => hqt (by simpa [heq] using hid)) fun id hid heq => hps (by simpa [heq] using hid)
  exact ⟨u, EdgePair.verdict_eq_replace_iff.mpr ⟨o, rfl, hos, hot, hok, hor, hu, rfl⟩,
    EdgePair.verdict_eq_replace_iff.mpr ⟨r, rfl, hrs, hrt, hrk, hrr, hw, rfl⟩⟩

/-- In whatever order edges are replaced, the outcome is the same, provided that there are no complaints
and that no new edge takes over the name of a replaced one. -/
theorem spliceAll_perm {catalog : Catalog} (hc : catalog.Built) {names : List EdgeId}
    {ps qs : List EdgePair} (hperm : ps.Perm qs)
    (hnil : (spliceAll catalog.adapterRules types ps g).diagnostics = [])
    (hclear : ∀ p ∈ ps, p.edge ∉ names)
    (hnames : ∀ s ∈ (spliceAll catalog.adapterRules types ps g).inserted,
      ∀ id ∈ s.edgeNames catalog, id ∈ names) :
    let a := spliceAll catalog.adapterRules types ps g
    let b := spliceAll catalog.adapterRules types qs g
    b.patch = a.patch ∧ b.inserted.Perm a.inserted ∧ b.diagnostics = [] := by
  intro a b
  induction hperm generalizing g with
  | nil => exact ⟨rfl, .refl _, rfl⟩
  | cons p hperm ih =>
    have hclear' := fun q hq => hclear q (List.mem_cons_of_mem p hq)
    by_cases hp : p.Kept types
    · simp only [a, b, spliceAll_cons_of_kept hp] at hnil hnames ⊢
      exact ih hnil hclear' hnames
    · obtain ⟨v, s, hv, hnil'⟩ := spliceAll_cons_of_not_kept hp hnil
      simp only [a, b, spliceAll, hv, List.forall_mem_cons] at hnames ⊢
      obtain ⟨hpatch, hins, hdiag⟩ := ih hnil' hclear' hnames.2
      exact ⟨hpatch, hins.cons s, hdiag⟩
  | swap p q l =>
    by_cases hq : q.Kept types
    · have hsame : b = a := (spliceAll_cons_congr p fun v => spliceAll_cons_of_kept hq l).trans
        (spliceAll_cons_of_kept hq _).symm
      exact ⟨by rw [hsame], by rw [hsame], hsame ▸ hnil⟩
    by_cases hp : p.Kept types
    · have hsame : b = a := (spliceAll_cons_of_kept hp _).trans
        (spliceAll_cons_congr q fun v => (spliceAll_cons_of_kept hp l).symm)
      exact ⟨by rw [hsame], by rw [hsame], hsame ▸ hnil⟩
    obtain ⟨v, s, hv, hnil'⟩ := spliceAll_cons_of_not_kept hq hnil
    obtain ⟨w, t, hw, hnil''⟩ := spliceAll_cons_of_not_kept hp hnil'
    simp only [spliceAll, hv, hw, List.forall_mem_cons] at hnames
    obtain ⟨u, hu, hw'⟩ := verdict_swap hc hv hw (fun hmem => hclear q (by simp) (hnames.2.1 _ hmem))
      fun hmem => hclear p (by simp) (hnames.1 _ hmem)
    simp only [a, b, spliceAll, hv, hw, hu, hw']
    exact ⟨trivial, .swap _ _ _, hnil''⟩
  | trans hperm hperm' ih ih' =>
    obtain ⟨hpatch, hins, hdiag⟩ := ih hnil hclear hnames
    obtain ⟨hpatch', hins', hdiag'⟩ := ih' hdiag (fun p hp => hclear p (hperm.mem_iff.mpr hp))
      fun s hs => hnames s (hins.mem_iff.mp hs)
    exact ⟨hpatch'.trans hpatch, hins'.trans hins, hdiag'⟩

end Order

end PatchTyping
