import PatchTyping.Proofs.SpliceLocality

/-!
# What becomes of an edge

Splicing looks at each edge once and finds it in one of three cases: there is nothing to convert, there
is no single adapter or no room for it, or an adapter takes its place. Which names are taken is judged on
the patch as the edges before have left it. Whatever happens to later edges, the case shows in the
outcome: a complaint that names the edge, or an adapter that is noted down for it, or neither; and the
edge itself is untouched or gone.
-/

namespace PatchTyping

/-- What can become of an edge. -/
inductive EdgeFate where
  | kept
  | refused
  | replaced (r : Replacement)

namespace EdgePair

variable {rules : List AdapterRule} {types : PortTyping} {g : Patch} {p : EdgePair}

/-- The ends of the edge carry known types that differ, but not in cardinality. -/
structure Mismatched (types : PortTyping) (p : EdgePair) (a b : ConcreteType) : Prop where
  source : types.concrete? p.source = some a
  target : types.concrete? p.target = some b
  differ : a ≠ b
  cardinality : a.cardinality = b.cardinality

/-- The name of the adapter or of an edge at it is in use. -/
def NamesTaken (p : EdgePair) (rule : AdapterRule) (g : Patch) : Prop :=
  let id := adapterNodeId p.source p.target rule.block
  id ∈ g.nodes ∨ adapterEdgeId id rule.inputPort ∈ g.edges ∨ adapterEdgeId id rule.outputPort ∈ g.edges

/-- The case that an edge falls into. -/
inductive Falls (rules : List AdapterRule) (types : PortTyping) (g : Patch) (p : EdgePair) :
    EdgeFate → Prop
  | kept : p.Kept types → Falls rules types g p .kept
  | unclear {a b : ConcreteType} : p.Mismatched types a b →
      (candidateRules rules a b).length ≠ 1 → Falls rules types g p .refused
  | noRoom {a b : ConcreteType} {rule : AdapterRule} : p.Mismatched types a b →
      candidateRules rules a b = [rule] → p.NamesTaken rule g → Falls rules types g p .refused
  | replaced {a b : ConcreteType} {rule : AdapterRule} : p.Mismatched types a b →
      candidateRules rules a b = [rule] → ¬ p.NamesTaken rule g →
      Falls rules types g p (.replaced ⟨p, rule, a, b⟩)

theorem Mismatched.not_kept {a b : ConcreteType} (h : p.Mismatched types a b) : ¬ p.Kept types := by
  intro hkept
  rcases hkept a b h.source h.target with heq | hne
  · exact h.differ heq
  · exact hne h.cardinality

theorem Mismatched.unique {a b a' b' : ConcreteType} (h : p.Mismatched types a b)
    (h' : p.Mismatched types a' b') : a' = a ∧ b' = b :=
  ⟨Option.some.inj (h'.source.symm.trans h.source), Option.some.inj (h'.target.symm.trans h.target)⟩

theorem exists_mismatched (h : ¬ p.Kept types) : ∃ a b, p.Mismatched types a b := by
  simp only [Kept, not_forall, not_or, ne_eq, not_not] at h
  obtain ⟨a, b, ha, hb, hne, hcard⟩ := h
  exact ⟨a, b, ha, hb, hne, hcard⟩

theorem exists_falls (rules : List AdapterRule) (types : PortTyping) (g : Patch) (p : EdgePair) :
    ∃ fate, p.Falls rules types g fate := by
  by_cases hkept : p.Kept types
  · exact ⟨_, .kept hkept⟩
  · obtain ⟨a, b, hab⟩ := exists_mismatched hkept
    by_cases hone : (candidateRules rules a b).length = 1
    · obtain ⟨rule, hrule⟩ := List.length_eq_one_iff.mp hone
      by_cases htaken : p.NamesTaken rule g
      · exact ⟨_, .noRoom hab hrule htaken⟩
      · exact ⟨_, .replaced hab hrule htaken⟩
    · exact ⟨_, .unclear hab hone⟩

theorem Falls.unique {fate fate' : EdgeFate} (h : p.Falls rules types g fate)
    (h' : p.Falls rules types g fate') : fate' = fate := by
  cases h with
  | kept hkept =>
    cases h' with
    | kept _ => rfl
    | unclear hab _ => exact absurd hkept hab.not_kept
    | noRoom hab _ _ => exact absurd hkept hab.not_kept
    | replaced hab _ _ => exact absurd hkept hab.not_kept
  | unclear hab hnot =>
    cases h' with
    | kept hkept => exact absurd hkept hab.not_kept
    | unclear _ _ => rfl
    | noRoom _ _ _ => rfl
    | replaced hab' hrule _ =>
      obtain ⟨rfl, rfl⟩ := hab.unique hab'
      simp [hrule] at hnot
  | noRoom hab hrule htaken =>
    cases h' with
    | kept hkept => exact absurd hkept hab.not_kept
    | unclear _ _ => rfl
    | noRoom _ _ _ => rfl
    | replaced hab' hrule' hfree =>
      obtain ⟨rfl, rfl⟩ := hab.unique hab'
      cases hrule.symm.trans hrule'
      exact absurd htaken hfree
  | replaced hab hrule hfree =>
    cases h' with
    | kept hkept => exact absurd hkept hab.not_kept
    | unclear hab' hnot =>
      obtain ⟨rfl, rfl⟩ := hab.unique hab'
      simp [hrule] at hnot
    | noRoom hab' hrule' htaken =>
      obtain ⟨rfl, rfl⟩ := hab.unique hab'
      cases hrule.symm.trans hrule'
      exact absurd htaken hfree
    | replaced hab' hrule' _ =>
      obtain ⟨rfl, rfl⟩ := hab.unique hab'
      cases hrule.symm.trans hrule'
      rfl

/-! ### One edge -/

/-- A complaint about the edge and about no other. -/
structure Blames (p : EdgePair) (d : Diagnostic) : Prop where
  isError : d.isError = true
  edge_iff : ∀ e : EdgeId, .edge e ∈ d.targets ↔ e = p.edge

theorem blames_noConversion (p : EdgePair) (a b : ConcreteType) : p.Blames (p.noConversion a b) :=
  ⟨rfl, fun e => by simp [noConversion]⟩

theorem blames_ambiguous (p : EdgePair) (a b : ConcreteType) (several : List AdapterRule) :
    p.Blames (p.ambiguous a b several) :=
  ⟨rfl, fun e => by simp [ambiguous]⟩

theorem blames_cannotSplice (p : EdgePair) (rule : AdapterRule) (reason : String) {more : List Target}
    (hmore : ∀ e, .edge e ∉ more) : p.Blames (p.cannotSplice rule reason more) :=
  ⟨rfl, fun e => by simp [cannotSplice, hmore]⟩

theorem Falls.verdict_kept (h : p.Falls rules types g .kept) : p.verdict rules types g = .keep := by
  cases h with
  | kept hkept =>
    rcases p.verdict_cases rules types g with ⟨-, hv⟩ | ⟨hnot, -⟩ | ⟨rule, a, b, g', hfit, -⟩
    · exact hv
    · exact absurd hkept hnot
    · exact absurd hkept hfit.not_kept

theorem Mismatched.not_alike {a b : ConcreteType} (h : p.Mismatched types a b) :
    ¬ (a = b ∨ a.cardinality ≠ b.cardinality) := by
  simp [h.differ, h.cardinality]

theorem Falls.verdict_refused (h : p.Falls rules types g .refused) :
    ∃ d, p.verdict rules types g = .refuse d ∧ p.Blames d := by
  cases h with
  | @unclear a b hab hnot =>
    simp only [verdict, hab.source, hab.target, if_neg hab.not_alike]
    split
    · exact ⟨_, rfl, p.blames_noConversion a b⟩
    · next hrule => simp [hrule] at hnot
    · exact ⟨_, rfl, p.blames_ambiguous a b _⟩
  | @noRoom a b rule hab hrule htaken =>
    simp only [verdict, hab.source, hab.target, if_neg hab.not_alike, hrule, applyRule]
    by_cases hnode : g.nodes.contains (p.adapterId rule) = true
    · exact ⟨_, if_pos hnode, p.blames_cannotSplice rule _ (by simp)⟩
    · have hedge : (g.edges.contains (p.entryEdge rule).1 ||
          g.edges.contains (p.exitEdge rule).1) = true := by
        rw [Std.ExtTreeMap.contains_iff_mem] at hnode
        rw [Bool.or_eq_true, Std.ExtTreeMap.contains_iff_mem, Std.ExtTreeMap.contains_iff_mem]
        exact htaken.resolve_left hnode
      have hrefused : p.spliceInto rule g = .error (.duplicateEdge (p.entryEdge rule).1) :=
        if_pos hedge
      simp only [if_neg hnode, hrefused]
      exact ⟨_, rfl, p.blames_cannotSplice rule _ (fun _ => List.not_mem_nil)⟩

theorem Falls.pair_eq {r : Replacement} (h : p.Falls rules types g (.replaced r)) : r.pair = p := by
  cases h with
  | replaced _ _ _ => rfl

theorem adapterEdgeId_injective {id : NodeId} {x y : String}
    (h : adapterEdgeId id x = adapterEdgeId id y) : x = y := by
  have hchars := congrArg String.toList h
  simp only [adapterEdgeId, String.toList_append, List.append_cancel_left_eq] at hchars
  exact String.toList_inj.mp hchars

/-- The two ports of an adapter have different names, and so do the edges at them. -/
theorem entryEdge_ne_exitEdge {registry : Catalog} (hc : registry.Built) {rule : AdapterRule}
    (hrule : rule ∈ registry.adapterRules) (p : EdgePair) :
    (p.entryEdge rule).1 ≠ (p.exitEdge rule).1 := by
  intro heq
  obtain ⟨b, input, output, hlookup, hconv, -, -, hin, hout, -⟩ := hc.exists_block hrule
  have hnames := (hc.valid hlookup).names_nodup
  simp only [Block.portNames, hconv.ports_eq, List.map_cons, List.map_nil, List.nodup_cons,
    List.mem_singleton] at hnames
  have hport := adapterEdgeId_injective heq
  rw [hin, hout] at hport
  exact hnames.1 hport

/-- An adapter with room for it is put in, and nothing can go wrong halfway. -/
theorem Falls.verdict_replaced {registry : Catalog} (hc : registry.Built) {r : Replacement}
    (h : p.Falls registry.adapterRules types g (.replaced r)) :
    ∃ v, p.verdict registry.adapterRules types g = .replace v r.splice ∧
      p.spliceInto r.rule g = .ok v := by
  cases h with
  | @replaced a b rule hab hrule hfree =>
    simp only [NamesTaken, not_or, Std.ExtTreeMap.mem_iff_isSome_getElem?,
      Option.not_isSome_iff_eq_none] at hfree
    have hmem : rule ∈ registry.adapterRules :=
      List.mem_of_mem_filter (hrule ▸ List.mem_singleton_self rule)
    obtain ⟨v, hv⟩ := exists_spliceInto hfree.1 hfree.2.1 hfree.2.2 (entryEdge_ne_exitEdge hc hmem p)
    exact ⟨v, verdict_eq_replace_iff.mpr ⟨⟨p, rule, a, b⟩, rfl, hab.source, hab.target,
      hab.not_alike, hrule, hv, rfl⟩, hv⟩

end EdgePair

/-! ### All edges in order -/

/-- One splicing after another. -/
def Splicing.then (r r' : Splicing) : Splicing :=
  ⟨r'.patch, r.inserted ++ r'.inserted, r.diagnostics ++ r'.diagnostics⟩

section Runs

variable {rules : List AdapterRule} {types : PortTyping} {g : Patch}

theorem spliceAll_append (ps qs : List EdgePair) (g : Patch) :
    spliceAll rules types (ps ++ qs) g =
      (spliceAll rules types ps g).then (spliceAll rules types qs (spliceAll rules types ps g).patch) := by
  induction ps generalizing g with
  | nil => rfl
  | cons p ps ih =>
    cases hv : p.verdict rules types g with
    | keep => simp only [List.cons_append, spliceAll, hv, ih]
    | refuse d => simp only [List.cons_append, spliceAll, hv, ih, Splicing.then]
    | replace g' s => simp only [List.cons_append, spliceAll, hv, ih, Splicing.then]

/-- The case in which an edge is found when its turn comes. -/
def EdgePair.Meets (rules : List AdapterRule) (types : PortTyping) (g : Patch) (pairs : List EdgePair)
    (p : EdgePair) (fate : EdgeFate) : Prop :=
  ∃ i, pairs[i]? = some p ∧ p.Falls rules types (spliceAll rules types (pairs.take i) g).patch fate

namespace EdgePair.Meets

variable {pairs : List EdgePair} {p q : EdgePair} {fate fate' : EdgeFate}

theorem mem (h : p.Meets rules types g pairs fate) : p ∈ pairs := by
  obtain ⟨i, hi, -⟩ := h
  exact List.mem_of_getElem? hi

theorem exists_of_mem (rules : List AdapterRule) (types : PortTyping) (g : Patch) (hp : p ∈ pairs) :
    ∃ fate, p.Meets rules types g pairs fate := by
  obtain ⟨i, hi⟩ := List.mem_iff_getElem?.mp hp
  obtain ⟨fate, hfate⟩ := exists_falls rules types (spliceAll rules types (pairs.take i) g).patch p
  exact ⟨fate, i, hi, hfate⟩

theorem unique (hnodup : (pairs.map (·.edge)).Nodup) (h : p.Meets rules types g pairs fate)
    (h' : q.Meets rules types g pairs fate') (hedge : p.edge = q.edge) : p = q ∧ fate = fate' := by
  obtain rfl : p = q := List.inj_on_of_nodup_map hnodup h.mem h'.mem hedge
  obtain ⟨i, hi, hfate⟩ := h
  obtain ⟨j, hj, hfate'⟩ := h'
  obtain ⟨hlt, -⟩ := List.getElem?_eq_some_iff.mp hi
  obtain rfl : i = j := (List.getElem?_inj hlt hnodup.of_map).mp (hi.trans hj.symm)
  exact ⟨rfl, hfate'.unique hfate⟩

theorem concat_iff : p.Meets rules types g (pairs ++ [q]) fate ↔
    p.Meets rules types g pairs fate ∨
      p = q ∧ q.Falls rules types (spliceAll rules types pairs g).patch fate := by
  constructor
  · rintro ⟨i, hi, hfate⟩
    rcases Nat.lt_or_ge i pairs.length with hlt | hge
    · rw [List.getElem?_append_left hlt] at hi
      rw [List.take_append_of_le_length hlt.le] at hfate
      exact .inl ⟨i, hi, hfate⟩
    · rw [List.getElem?_append_right hge, List.getElem?_singleton] at hi
      split at hi
      · next hlast =>
        obtain rfl : i = pairs.length := by omega
        obtain rfl : q = p := Option.some.inj hi
        rw [List.take_left] at hfate
        exact .inr ⟨rfl, hfate⟩
      · cases hi
  · rintro (⟨i, hi, hfate⟩ | ⟨rfl, hfate⟩)
    · obtain ⟨hlt, -⟩ := List.getElem?_eq_some_iff.mp hi
      refine ⟨i, by rw [List.getElem?_append_left hlt, hi], ?_⟩
      rwa [List.take_append_of_le_length hlt.le]
    · exact ⟨pairs.length, by simp, by rwa [List.take_left]⟩

end EdgePair.Meets

/-- A splicing accounted for edge by edge: who was refused and why, and who was replaced. -/
structure Splicing.Account (rules : List AdapterRule) (types : PortTyping) (g : Patch)
    (pairs : List EdgePair) (refusals : List (EdgePair × Diagnostic)) (rs : List Replacement)
    (r : Splicing) : Prop where
  diagnostics : r.diagnostics = refusals.map (·.2)
  inserted : r.inserted = rs.map Replacement.splice
  spliced : g.Spliced r.patch rs
  blames : ∀ x ∈ refusals, x.1.Blames x.2
  refused_nodup : (refusals.map (·.1.edge)).Nodup
  refused_iff : ∀ p, (∃ d, (p, d) ∈ refusals) ↔ p.Meets rules types g pairs .refused
  replaced_iff : ∀ x, x ∈ rs ↔ x.pair.Meets rules types g pairs (.replaced x)

namespace Splicing.Account

variable {pairs : List EdgePair} {refusals : List (EdgePair × Diagnostic)} {rs : List Replacement}
  {r : Splicing}

theorem nil : Account rules types g [] [] [] { patch := g } where
  diagnostics := rfl
  inserted := rfl
  spliced := .refl g
  blames x hx := by cases hx
  refused_nodup := List.nodup_nil
  refused_iff p := by simp [EdgePair.Meets]
  replaced_iff x := by simp [EdgePair.Meets]

section Concat

variable {q : EdgePair} (h : Account rules types g pairs refusals rs r)
include h

theorem keep (hq : q.Falls rules types (spliceAll rules types pairs g).patch .kept) :
    Account rules types g (pairs ++ [q]) refusals rs r where
  diagnostics := h.diagnostics
  inserted := h.inserted
  spliced := h.spliced
  blames := h.blames
  refused_nodup := h.refused_nodup
  refused_iff p := by
    rw [h.refused_iff, EdgePair.Meets.concat_iff, or_iff_left]
    rintro ⟨-, hq'⟩
    cases hq.unique hq'
  replaced_iff x := by
    rw [h.replaced_iff, EdgePair.Meets.concat_iff, or_iff_left]
    rintro ⟨-, hq'⟩
    cases hq.unique hq'

theorem refuse {d : Diagnostic}
    (hq : q.Falls rules types (spliceAll rules types pairs g).patch .refused) (hd : q.Blames d)
    (hnew : q.edge ∉ pairs.map (·.edge)) :
    Account rules types g (pairs ++ [q]) (refusals ++ [(q, d)]) rs
      { r with diagnostics := r.diagnostics ++ [d] } where
  diagnostics := by simp [h.diagnostics]
  inserted := h.inserted
  spliced := h.spliced
  blames x hx := by
    rcases List.mem_append.mp hx with hx | hx
    · exact h.blames x hx
    · rw [List.mem_singleton.mp hx]
      exact hd
  refused_nodup := by
    rw [List.map_append, List.map_singleton, ← List.concat_eq_append]
    refine h.refused_nodup.concat fun hmem => hnew ?_
    obtain ⟨x, hx, hedge⟩ := List.mem_map.mp hmem
    exact List.mem_map.mpr ⟨x.1, ((h.refused_iff x.1).mp ⟨x.2, hx⟩).mem, hedge⟩
  refused_iff p := by
    rw [EdgePair.Meets.concat_iff, ← h.refused_iff]
    simp only [List.mem_append, List.mem_singleton, Prod.mk.injEq, exists_or, exists_and_left,
      exists_eq, and_true, hq]
  replaced_iff x := by
    rw [h.replaced_iff, EdgePair.Meets.concat_iff, or_iff_left]
    rintro ⟨-, hq'⟩
    cases hq.unique hq'

theorem replace {x : Replacement} {v : Patch}
    (hx : x.pair.Falls rules types (spliceAll rules types pairs g).patch (.replaced x))
    (hs : x.pair.spliceInto x.rule r.patch = .ok v)
    (hedge : g.edges[x.pair.edge]? = some ⟨x.pair.source, x.pair.target⟩)
    (hnew : x.pair.edge ∉ pairs.map (·.edge)) :
    Account rules types g (pairs ++ [x.pair]) refusals (rs ++ [x])
      { r with patch := v, inserted := r.inserted ++ [x.splice] } where
  diagnostics := h.diagnostics
  inserted := by simp [h.inserted]
  spliced := by
    refine h.spliced.step hs hedge fun y hy heq => hnew ?_
    exact List.mem_map.mpr ⟨y.pair, ((h.replaced_iff y).mp hy).mem, heq⟩
  blames := h.blames
  refused_nodup := h.refused_nodup
  refused_iff p := by
    rw [h.refused_iff, EdgePair.Meets.concat_iff, or_iff_left]
    rintro ⟨-, hx'⟩
    cases hx.unique hx'
  replaced_iff y := by
    rw [EdgePair.Meets.concat_iff, ← h.replaced_iff, List.mem_append, List.mem_singleton]
    refine or_congr_right ⟨?_, ?_⟩
    · rintro rfl
      exact ⟨rfl, hx⟩
    · rintro ⟨-, hy⟩
      cases hx.unique hy
      rfl

end Concat

/-- Edges that are all there, each listed once, are all accounted for. -/
theorem ofPairs {registry : Catalog} (hc : registry.Built) (types : PortTyping) {g : Patch}
    {pairs : List EdgePair} (hpairs : ∀ p ∈ pairs, g.edges[p.edge]? = some ⟨p.source, p.target⟩)
    (hnodup : (pairs.map (·.edge)).Nodup) :
    ∃ refusals rs, Account registry.adapterRules types g pairs refusals rs
      (spliceAll registry.adapterRules types pairs g) := by
  induction pairs using List.reverseRecOn with
  | nil => exact ⟨[], [], .nil⟩
  | append_singleton pairs q ih =>
    rw [List.map_append, List.nodup_append] at hnodup
    have hnew : q.edge ∉ pairs.map (·.edge) := fun hmem => hnodup.2.2 _ hmem _ (by simp) rfl
    obtain ⟨refusals, rs, h⟩ := ih (fun p hp => hpairs p (List.mem_append_left _ hp)) hnodup.1
    obtain ⟨fate, hfate⟩ := q.exists_falls registry.adapterRules types
      (spliceAll registry.adapterRules types pairs g).patch
    rw [spliceAll_append]
    cases fate with
    | kept =>
      simp only [spliceAll, hfate.verdict_kept, Splicing.then, List.append_nil]
      exact ⟨refusals, rs, h.keep hfate⟩
    | refused =>
      obtain ⟨d, hv, hd⟩ := hfate.verdict_refused
      simp only [spliceAll, hv, Splicing.then, List.append_nil]
      exact ⟨_, _, h.refuse hfate hd hnew⟩
    | replaced x =>
      obtain rfl := hfate.pair_eq
      obtain ⟨v, hv, hs⟩ := hfate.verdict_replaced hc
      simp only [spliceAll, hv, Splicing.then, List.append_nil]
      exact ⟨_, _, h.replace hfate hs (hpairs _ (by simp)) hnew⟩

end Splicing.Account

end Runs

/-! ### What the outcome shows -/

theorem filter_key_eq_singleton {α β : Type} [DecidableEq β] {f : α → β} {l : List α}
    (hnodup : (l.map f).Nodup) {x : α} (hx : x ∈ l) : (l.filter fun y => decide (f y = f x)) = [x] := by
  induction l with
  | nil => cases hx
  | cons y l ih =>
    obtain ⟨hy, hnodup⟩ := List.nodup_cons.mp hnodup
    rcases List.mem_cons.mp hx with rfl | hx
    · have hrest : (l.filter fun z => decide (f z = f x)) = [] := by
        refine List.filter_eq_nil_iff.mpr fun z hz => ?_
        simpa using fun heq => hy (List.mem_map.mpr ⟨z, hz, heq⟩)
      simp [hrest]
    · have hne : f y ≠ f x := fun heq => hy (List.mem_map.mpr ⟨x, hx, heq.symm⟩)
      simp [hne, ih hnodup hx]

namespace Splicing

/-- The complaints that name an edge. -/
def complaints (r : Splicing) (e : EdgeId) : List Diagnostic :=
  r.diagnostics.filter fun d => decide (.edge e ∈ d.targets)

/-- The adapters that are noted down for an edge. -/
def adaptersAt (r : Splicing) (e : EdgeId) : List Splice :=
  r.inserted.filter fun s => decide (s.replacedEdge = e)

/-- What is to be seen of an edge in the end, by what became of it. -/
def Shows (g : Patch) (r : Splicing) (p : EdgePair) : EdgeFate → Prop
  | .kept => r.complaints p.edge = [] ∧ r.adaptersAt p.edge = [] ∧
      r.patch.edges[p.edge]? = some ⟨p.source, p.target⟩
  | .refused => (∃ d, r.complaints p.edge = [d] ∧ d.isError = true) ∧ r.adaptersAt p.edge = [] ∧
      r.patch.edges[p.edge]? = some ⟨p.source, p.target⟩
  | .replaced ⟨_, rule, source, target⟩ =>
    let id := adapterNodeId p.source p.target rule.block
    r.complaints p.edge = [] ∧ r.adaptersAt p.edge = [⟨id, rule.block, p.edge, source, target⟩] ∧
      r.patch.edges[p.edge]? ≠ some ⟨p.source, p.target⟩ ∧ g.nodes[id]? = none ∧
      r.patch.nodes[id]? = some ⟨rule.block, ∅, .inserted rule.block p.edge⟩ ∧
      r.patch.edges[adapterEdgeId id rule.inputPort]? = some ⟨p.source, ⟨id, rule.inputPort⟩⟩ ∧
      r.patch.edges[adapterEdgeId id rule.outputPort]? = some ⟨⟨id, rule.outputPort⟩, p.target⟩

namespace Account

variable {rules : List AdapterRule} {types : PortTyping} {g : Patch} {pairs : List EdgePair}
  {refusals : List (EdgePair × Diagnostic)} {rs : List Replacement} {r : Splicing}
  (h : Account rules types g pairs refusals rs r)
include h

theorem complaints_eq (e : EdgeId) :
    r.complaints e = (refusals.filter fun x => decide (x.1.edge = e)).map (·.2) := by
  rw [complaints, h.diagnostics, List.filter_map]
  congr 1
  refine List.filter_congr fun x hx => ?_
  simp only [Function.comp_apply, (h.blames x hx).edge_iff, eq_comm]

theorem adaptersAt_eq (e : EdgeId) :
    r.adaptersAt e = (rs.filter fun x => decide (x.pair.edge = e)).map Replacement.splice := by
  rw [adaptersAt, h.inserted, List.filter_map]
  rfl

variable (hnodup : (pairs.map (·.edge)).Nodup) {p : EdgePair} {fate : EdgeFate}
  (hp : p.Meets rules types g pairs fate)
include hnodup hp

theorem complaints_eq_nil (hfate : fate ≠ .refused) : r.complaints p.edge = [] := by
  rw [h.complaints_eq, List.map_eq_nil_iff, List.filter_eq_nil_iff]
  intro x hx
  have hmeets := (h.refused_iff x.1).mp ⟨x.2, hx⟩
  simpa using fun hedge => hfate (hp.unique hnodup hmeets hedge.symm).2

theorem not_replaced (hfate : ∀ x, fate ≠ .replaced x) {x : Replacement} (hx : x ∈ rs) :
    x.pair.edge ≠ p.edge :=
  fun hedge => hfate x (hp.unique hnodup ((h.replaced_iff x).mp hx) hedge.symm).2

theorem adaptersAt_eq_nil (hfate : ∀ x, fate ≠ .replaced x) : r.adaptersAt p.edge = [] := by
  rw [h.adaptersAt_eq, List.map_eq_nil_iff, List.filter_eq_nil_iff]
  intro x hx
  simpa using h.not_replaced hnodup hp hfate hx

theorem edge_stays (hedge : g.edges[p.edge]? = some ⟨p.source, p.target⟩)
    (hfate : ∀ x, fate ≠ .replaced x) : r.patch.edges[p.edge]? = some ⟨p.source, p.target⟩ :=
  (h.spliced.edge_iff _ _).mpr (.inl ⟨hedge, fun _ => h.not_replaced hnodup hp hfate⟩)

omit hnodup hp in
/-- The name of a replaced edge may be given to an edge at a later adapter, but that one does not join
two nodes of the first patch. -/
theorem edge_gone {x : Replacement} (hx : x ∈ rs) (hedge : x.pair.edge = p.edge)
    (hsource : p.source.node ∈ g.nodes) (htarget : p.target.node ∈ g.nodes) :
    r.patch.edges[p.edge]? ≠ some ⟨p.source, p.target⟩ := by
  have hfresh : ∀ y ∈ rs, y.id ∉ g.nodes := by
    intro y hy
    rw [Std.ExtTreeMap.mem_iff_isSome_getElem?, h.spliced.fresh y hy]
    exact Bool.false_ne_true
  intro he
  rcases (h.spliced.edge_iff _ _).mp he with ⟨-, hnot⟩ | ⟨y, hy, hentry | hexit⟩
  · exact hnot x hx hedge
  · have htarget' : p.target.node = y.id := congrArg (fun z => z.2.target.node) hentry
    exact hfresh y hy (htarget' ▸ htarget)
  · have hsource' : p.source.node = y.id := congrArg (fun z => z.2.source.node) hexit
    exact hfresh y hy (hsource' ▸ hsource)

theorem shows (hedge : g.edges[p.edge]? = some ⟨p.source, p.target⟩)
    (hsource : p.source.node ∈ g.nodes) (htarget : p.target.node ∈ g.nodes) : r.Shows g p fate := by
  cases fate with
  | kept =>
    exact ⟨h.complaints_eq_nil hnodup hp (by simp), h.adaptersAt_eq_nil hnodup hp (by simp),
      h.edge_stays hnodup hp hedge (by simp)⟩
  | refused =>
    obtain ⟨d, hd⟩ := (h.refused_iff p).mpr hp
    refine ⟨⟨d, ?_, (h.blames _ hd).isError⟩, h.adaptersAt_eq_nil hnodup hp (by simp),
      h.edge_stays hnodup hp hedge (by simp)⟩
    rw [h.complaints_eq, filter_key_eq_singleton (f := fun x => x.1.edge) h.refused_nodup hd]
    rfl
  | replaced x =>
    obtain ⟨i, hi, hfate⟩ := hp
    obtain rfl := hfate.pair_eq
    have hx : x ∈ rs := (h.replaced_iff x).mpr ⟨i, hi, hfate⟩
    refine ⟨h.complaints_eq_nil hnodup ⟨i, hi, hfate⟩ (by simp), ?_,
      h.edge_gone hx rfl hsource htarget, h.spliced.fresh x hx,
      (h.spliced.node_iff _ _).mpr (.inr ⟨x, hx, rfl, rfl⟩),
      (h.spliced.edge_iff _ _).mpr (.inr ⟨x, hx, .inl rfl⟩),
      (h.spliced.edge_iff _ _).mpr (.inr ⟨x, hx, .inr rfl⟩)⟩
    rw [h.adaptersAt_eq, filter_key_eq_singleton (f := fun x => x.pair.edge) h.spliced.pairs_nodup hx]
    rfl

end Account

end Splicing

namespace Patch

/-- Every edge that counts meets one fate, and the outcome shows it. Each complaint is about one of these
edges. All nodes stay, all edges stay that are not replaced, and what is new is the adapters of the
replaced edges, each with two edges. -/
theorem spliceAll_decides (g : Patch) (catalog : Catalog) {registry : Catalog} (hc : registry.Built)
    (types : PortTyping) :
    let rules := registry.adapterRules
    let pairs := (g.constraints catalog).edgePairs
    let whole := spliceAll rules types pairs g
    (∀ p ∈ pairs, ∃ fate, p.Meets rules types g pairs fate ∧ whole.Shows g p fate ∧
        ∀ fate', p.Meets rules types g pairs fate' → fate' = fate) ∧
      (∀ d ∈ whole.diagnostics, ∃ p ∈ pairs, p.Meets rules types g pairs .refused ∧ p.Blames d) ∧
      (∃ rs, (∀ x, x ∈ rs ↔ ∃ p ∈ pairs, p.Meets rules types g pairs (.replaced x)) ∧
        whole.inserted = rs.map Replacement.splice ∧ g.Spliced whole.patch rs) ∧
      whole.patch.nodes.size = g.nodes.size + whole.inserted.length ∧
      whole.patch.edges.size = g.edges.size + whole.inserted.length := by
  intro rules pairs whole
  have hpairs : ∀ p ∈ pairs, g.edges[p.edge]? = some ⟨p.source, p.target⟩ :=
    fun p hp => (mem_edgePairs_iff.mp hp).1
  have hnodup : (pairs.map (·.edge)).Nodup := g.edgePairs_nodup _
  obtain ⟨refusals, rs, h⟩ := Splicing.Account.ofPairs hc types hpairs hnodup
  have hsize : whole.patch.Unwinds registry whole.inserted g :=
    (unwinds_chain hc).spliceAll types hpairs hnodup
  refine ⟨fun p hp => ?_, fun d hd => ?_, ⟨rs, fun x => ?_, h.inserted, h.spliced⟩,
    hsize.nodes_size, hsize.edges_size⟩
  · obtain ⟨fate, hfate⟩ := EdgePair.Meets.exists_of_mem rules types g hp
    obtain ⟨hsource, htarget⟩ := PortTable.joins_iff.mp (mem_edgePairs_iff.mp hp).2.1
    obtain ⟨_, hsource, -⟩ := PortTable.faces_iff.mp hsource
    obtain ⟨_, htarget, -⟩ := PortTable.faces_iff.mp htarget
    refine ⟨fate, hfate, ?_, fun fate' hfate' => (hfate'.unique hnodup hfate rfl).2⟩
    exact h.shows hnodup hfate (hpairs p hp) (node_mem_of_portTable hsource)
      (node_mem_of_portTable htarget)
  · rw [h.diagnostics] at hd
    obtain ⟨x, hx, rfl⟩ := List.mem_map.mp hd
    have hmeets := (h.refused_iff x.1).mp ⟨x.2, hx⟩
    exact ⟨x.1, hmeets.mem, hmeets, h.blames x hx⟩
  · rw [h.replaced_iff]
    constructor
    · exact fun hx => ⟨x.pair, hx.mem, hx⟩
    · rintro ⟨p, -, i, hi, hfate⟩
      obtain rfl := hfate.pair_eq
      exact ⟨i, hi, hfate⟩

/-- A clock that drives two timers, and a relay that has taken the name of the adapter for the second
of them. -/
def crowdedClock : Patch where
  nodes := (∅ : Std.ExtTreeMap NodeId Node).insert "clock" { block := "Clock" }
    |>.insert "timer" { block := "Timer" }
    |>.insert "spare" { block := "Timer" }
    |>.insert (adapterNodeId ⟨"clock", "t"⟩ ⟨"spare", "t"⟩ "Relay") { block := "Relay" }
  edges := (∅ : Std.ExtTreeMap EdgeId Edge).insert "a" ⟨⟨"clock", "t"⟩, ⟨"timer", "t"⟩⟩
    |>.insert "b" ⟨⟨"clock", "t"⟩, ⟨"spare", "t"⟩⟩
    |>.insert "c" ⟨⟨"clock", "t"⟩, ⟨adapterNodeId ⟨"clock", "t"⟩ ⟨"spare", "t"⟩ "Relay", "in"⟩⟩

/-- The first edge is replaced, the second refused, and the third kept. -/
theorem crowdedClock_decided :
    let types := (Round.ofPatch .relays crowdedClock).typing
    let pairs := (crowdedClock.constraints .relays).edgePairs
    let whole := spliceAll Catalog.relays.adapterRules types pairs crowdedClock
    let id := adapterNodeId ⟨"clock", "t"⟩ ⟨"timer", "t"⟩ "Relay"
    (pairs.map (·.edge) = ["a", "b", "c"] ∧ whole.inserted.map (·.replacedEdge) = ["a"] ∧
        whole.complaints "b" = whole.diagnostics ∧ whole.diagnostics.length = 1) ∧
      (whole.patch.nodes[id]? = some ⟨"Relay", ∅, .inserted "Relay" "a"⟩ ∧
        whole.patch.edges[adapterEdgeId id "in"]? = some ⟨⟨"clock", "t"⟩, ⟨id, "in"⟩⟩ ∧
        whole.patch.edges[adapterEdgeId id "out"]? = some ⟨⟨id, "out"⟩, ⟨"timer", "t"⟩⟩) ∧
      (∀ p ∈ pairs, ∃ fate, p.Meets Catalog.relays.adapterRules types crowdedClock pairs fate ∧
        whole.Shows crowdedClock p fate) ∧
      whole.patch.nodes.size = crowdedClock.nodes.size + whole.inserted.length := by
  intro types pairs whole id
  obtain ⟨hfates, -, -, hsize, -⟩ :=
    spliceAll_decides crowdedClock .relays Catalog.relays_built types
  refine ⟨by decide +kernel, by decide +kernel, fun p hp => ?_, hsize⟩
  obtain ⟨fate, hmeets, hshows, -⟩ := hfates p hp
  exact ⟨fate, hmeets, hshows⟩

end Patch

end PatchTyping
