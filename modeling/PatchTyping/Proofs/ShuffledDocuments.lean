import Mathlib.Data.List.Forall2
import PatchTyping.Proofs.WrittenPatches

/-!
# Documents in another order

The lists of nodes and edges in a document may be shuffled: the same patch is read from it, or there is
an error in both cases. Which error that is may depend on the order, since the first one counts.
-/

namespace PatchTyping

/-- The second document is the first one, or both are lists of the same items. -/
inductive Document.Reordered : Document → Document → Prop
  | refl (d : Document) : Reordered d d
  | list {deep : Bool} {items items' : List Document} :
      items.Perm items' → Reordered (.list deep items) (.list deep items')

/-- The second document is the first one, except that lists right below the root may be shuffled. -/
inductive Document.Shuffled : Document → Document → Prop
  | object {deep : Bool} {fields fields' : List (Except JsonFault String × Document)} :
      List.Forall₂ (fun f f' => f.1 = f'.1 ∧ f.2.Reordered f'.2) fields fields' →
        Shuffled (.object deep fields) (.object deep fields')
  | list {deep : Bool} {items items' : List Document} :
      List.Forall₂ Document.Reordered items items' → Shuffled (.list deep items) (.list deep items')

namespace Document

theorem Reordered.symm {d d' : Document} (h : d.Reordered d') : d'.Reordered d := by
  cases h with
  | refl => exact .refl d
  | list hperm => exact .list hperm.symm

theorem Shuffled.symm {d d' : Document} (h : d.Shuffled d') : d'.Shuffled d := by
  cases h with
  | object hfields =>
    exact .object (hfields.imp fun _ _ hf => ⟨hf.1.symm, hf.2.symm⟩).flip
  | list hitems => exact .list (hitems.imp fun _ _ hd => hd.symm).flip

theorem cutInItems?_eq_none_iff {items : List Document} :
    cutInItems? items = none ↔ ∀ d ∈ items, d.cut? = none := by
  induction items with
  | nil => simp [cutInItems?]
  | cons d items ih => simp [cutInItems?, ih]

theorem Reordered.cut?_eq_none {d d' : Document} (h : d.Reordered d') (hd : d.cut? = none) :
    d'.cut? = none := by
  cases h with
  | refl => exact hd
  | list hperm =>
    rw [cut?, cutInItems?_eq_none_iff] at hd ⊢
    exact fun d hmem => hd d (hperm.mem_iff.mpr hmem)

end Document

theorem toOption_eq_of_ok_iff {ε ε' α : Type} {x : Except ε α} {y : Except ε' α}
    (h : ∀ a, x = .ok a ↔ y = .ok a) : x.toOption = y.toOption := by
  cases hx : x with
  | ok a =>
    rw [(h a).mp hx]
    rfl
  | error e =>
    cases hy : y with
    | ok a => cases hx.symm.trans ((h a).mpr hy)
    | error e' => rfl

variable {α β : Type} {P : α → α → Prop} {Q : β → β → Prop}

namespace Decoder

/-- What is read from a document is read from a reordered one, up to the relation. -/
def Follows (decoder : Decoder α) (P : α → α → Prop) : Prop :=
  ∀ {d d' a}, d.Reordered d' → decoder d = .ok a → ∃ a', decoder d' = .ok a' ∧ P a a'

theorem mapM_perm {ε : Type} {f : α → Except ε β} {as as' : List α} (h : as.Perm as') {bs : List β}
    (hbs : as.mapM f = .ok bs) : ∃ bs', as'.mapM f = .ok bs' ∧ bs.Perm bs' := by
  induction h generalizing bs with
  | nil => exact ⟨bs, hbs, .refl bs⟩
  | cons a _ ih =>
    rw [List.mapM_cons] at hbs
    obtain ⟨b, hb, hbs⟩ := exists_of_bind_eq_ok hbs
    obtain ⟨cs, hcs, hbs⟩ := exists_of_bind_eq_ok hbs
    cases hbs
    obtain ⟨cs', hcs', hperm⟩ := ih hcs
    refine ⟨b :: cs', ?_, hperm.cons b⟩
    rw [List.mapM_cons, hb, hcs']
    rfl
  | swap a a' as =>
    rw [List.mapM_cons] at hbs
    obtain ⟨b', hb', hbs⟩ := exists_of_bind_eq_ok hbs
    obtain ⟨cs, hcs, hbs⟩ := exists_of_bind_eq_ok hbs
    rw [List.mapM_cons] at hcs
    obtain ⟨b, hb, hcs⟩ := exists_of_bind_eq_ok hcs
    obtain ⟨ds, hds, hcs⟩ := exists_of_bind_eq_ok hcs
    cases hcs
    cases hbs
    refine ⟨b :: b' :: ds, ?_, .swap b b' ds⟩
    rw [List.mapM_cons, List.mapM_cons, hb, hb', hds]
    rfl
  | trans _ _ ih ih' =>
    obtain ⟨cs, hcs, hperm⟩ := ih hbs
    obtain ⟨ds, hds, hperm'⟩ := ih' hcs
    exact ⟨ds, hds, hperm.trans hperm'⟩

theorem Follows.list (item : Decoder α) : (list item).Follows List.Perm := by
  intro d d' as h hd
  cases h with
  | refl => exact ⟨as, hd, .refl as⟩
  | @list deep items items' hperm =>
    cases deep with
    | true => cases hd
    | false => exact mapM_perm hperm hd

end Decoder

namespace Record

/-- Fields of reordered documents are taken alike, and so are items of lists. -/
structure Parallel (r : Record α) (Keeps : r.Slots → r.Slots → Prop) (P : α → α → Prop) : Prop where
  start : Keeps r.start r.start
  accept : ∀ {s t s' k d d'}, Keeps s t → d.Reordered d' → r.accept s k d = some (.ok s') →
    ∃ t', r.accept t k d' = some (.ok t') ∧ Keeps s' t'
  unknown : ∀ {s t k d d'}, Keeps s t → r.accept s k d = none → r.accept t k d' = none
  complete : ∀ {s t a}, Keeps s t → r.complete s = .ok a → ∃ a', r.complete t = .ok a' ∧ P a a'
  ofItems : ∀ {index expected items items' a rest}, List.Forall₂ Document.Reordered items items' →
    r.ofItems index expected items = .ok (a, rest) →
      ∃ a' rest', r.ofItems index expected items' = .ok (a', rest') ∧ P a a' ∧
        List.Forall₂ Document.Reordered rest rest'

/-- What is read as the record is read from shuffled documents, up to the relation. -/
def Follows (r : Record α) (P : α → α → Prop) : Prop := ∃ Keeps, r.Parallel Keeps P

theorem Follows.defaulting (name : String) {value : Decoder α} (h : value.Follows P) {a : α}
    (ha : P a a) : (defaulting name value a).Follows P := by
  refine ⟨Option.Rel P, .none, ?_, ?_, ?_, ?_⟩
  · intro s t s' k d d' hst hd haccept
    simp only [Record.defaulting, Record.field] at haccept ⊢
    split at haccept
    · next hk =>
      cases hst with
      | some _ => cases haccept
      | none =>
        obtain ⟨b, hb, rfl⟩ := exists_of_map_eq_ok (Option.some.inj haccept)
        obtain ⟨b', hb', hbb'⟩ := h hd hb
        refine ⟨some b', ?_, .some hbb'⟩
        rw [if_pos hk, hb']
        rfl
    · cases haccept
  · intro s t k d d' hst haccept
    simp only [Record.defaulting, Record.field] at haccept ⊢
    split at haccept
    · cases hst <;> cases haccept
    · next hk => exact if_neg hk
  · intro s t b hst hcomplete
    cases hst with
    | none =>
      cases hcomplete
      exact ⟨a, rfl, ha⟩
    | some hbb' =>
      cases hcomplete
      exact ⟨_, rfl, hbb'⟩
  · intro index expected items items' b rest hitems hread
    cases hitems with
    | nil =>
      cases hread
      exact ⟨a, [], rfl, ha, .nil⟩
    | cons hd hrest =>
      obtain ⟨c, hc, hread⟩ := exists_of_bind_eq_ok hread
      cases hread
      obtain ⟨c', hc', hcc'⟩ := h hd hc
      refine ⟨c', _, ?_, hcc', hrest⟩
      simp only [Record.defaulting, Record.field, hc']
      rfl

theorem Follows.and {r : Record α} {q : Record β} (hr : r.Follows P) (hq : q.Follows Q) :
    (r.and q).Follows fun x y => P x.1 y.1 ∧ Q x.2 y.2 := by
  obtain ⟨keepsR, hr⟩ := hr
  obtain ⟨keepsQ, hq⟩ := hq
  refine ⟨fun s t => keepsR s.1 t.1 ∧ keepsQ s.2 t.2, ⟨hr.start, hq.start⟩, ?_, ?_, ?_, ?_⟩
  · rintro s t s' k d d' ⟨hst, hst'⟩ hd haccept
    simp only [Record.and] at haccept ⊢
    split at haccept
    · next result hresult =>
      obtain ⟨u, rfl, rfl⟩ := exists_of_map_eq_ok (Option.some.inj haccept)
      obtain ⟨u', hu', hkeeps⟩ := hr.accept hst hd hresult
      exact ⟨(u', t.2), by rw [hu']; rfl, hkeeps, hst'⟩
    · next hnone =>
      obtain ⟨result, hresult, haccept⟩ := Option.map_eq_some_iff.mp haccept
      obtain ⟨u, rfl, rfl⟩ := exists_of_map_eq_ok haccept
      obtain ⟨u', hu', hkeeps⟩ := hq.accept hst' hd hresult
      exact ⟨(t.1, u'), by rw [hr.unknown hst hnone, hu']; rfl, hst, hkeeps⟩
  · rintro s t k d d' ⟨hst, hst'⟩ haccept
    simp only [Record.and] at haccept ⊢
    split at haccept
    · cases haccept
    · next hnone =>
      rw [hr.unknown hst hnone, hq.unknown hst' (Option.map_eq_none_iff.mp haccept)]
      rfl
  · rintro s t x ⟨hst, hst'⟩ hcomplete
    obtain ⟨a, ha, hcomplete⟩ := exists_of_bind_eq_ok hcomplete
    obtain ⟨b, hb, hcomplete⟩ := exists_of_bind_eq_ok hcomplete
    cases hcomplete
    obtain ⟨a', ha', haa'⟩ := hr.complete hst ha
    obtain ⟨b', hb', hbb'⟩ := hq.complete hst' hb
    refine ⟨(a', b'), ?_, haa', hbb'⟩
    simp only [Record.and, ha', hb']
    rfl
  · intro index expected items items' x rest hitems hread
    obtain ⟨⟨a, middle⟩, ha, hread⟩ := exists_of_bind_eq_ok hread
    obtain ⟨⟨b, rest⟩, hb, hread⟩ := exists_of_bind_eq_ok hread
    cases hread
    obtain ⟨a', middle', ha', haa', hmiddle⟩ := hr.ofItems hitems ha
    obtain ⟨b', rest', hb', hbb', hrest⟩ := hq.ofItems hmiddle hb
    refine ⟨(a', b'), rest', ?_, ⟨haa', hbb'⟩, hrest⟩
    simp only [Record.and, ha', bind, Except.bind, hb']
    rfl

theorem Parallel.foldlM_step {r : Record α} {keeps : r.Slots → r.Slots → Prop} (h : r.Parallel keeps P)
    {fields fields' : List (Except JsonFault String × Document)}
    (hfields : List.Forall₂ (fun f f' => f.1 = f'.1 ∧ f.2.Reordered f'.2) fields fields')
    {s t s' : r.Slots} (hst : keeps s t) (hread : fields.foldlM r.step s = .ok s') :
    ∃ t', fields'.foldlM r.step t = .ok t' ∧ keeps s' t' := by
  induction hfields generalizing s t with
  | nil =>
    cases hread
    exact ⟨t, rfl, hst⟩
  | @cons f f' _ _ hf _ ih =>
    rw [List.foldlM_cons] at hread
    obtain ⟨u, hu, hread⟩ := exists_of_bind_eq_ok hread
    have hstep : ∃ u', r.step t f' = .ok u' ∧ keeps u u' := by
      obtain ⟨k, hk, hu⟩ := exists_of_bind_eq_ok hu
      simp only [step, ← hf.1, hk, bind, Except.bind]
      split at hu
      · next haccept =>
        obtain ⟨u', hu', hkeeps⟩ := h.accept hst hf.2 (hu ▸ haccept)
        exact ⟨u', by rw [hu'], hkeeps⟩
      · next hunknown =>
        obtain ⟨_, hcut, hu⟩ := exists_of_bind_eq_ok hu
        cases hu
        have hnone : f.2.cut? = none := by
          cases hf : f.2.cut? with
          | none => rfl
          | some fault =>
            rw [hf] at hcut
            cases hcut
        rw [h.unknown hst hunknown, hf.2.cut?_eq_none hnone]
        exact ⟨t, rfl, hst⟩
    obtain ⟨u', hu', hkeeps⟩ := hstep
    rw [List.foldlM_cons, hu']
    exact ih hkeeps hread

theorem Follows.decode {r : Record α} (h : r.Follows P) (name : String) {d d' : Document}
    (hd : d.Shuffled d') {a : α} (ha : r.decode name d = .ok a) :
    ∃ a', r.decode name d' = .ok a' ∧ P a a' := by
  obtain ⟨keeps, h⟩ := h
  cases hd with
  | @object deep fields fields' hfields =>
    cases deep with
    | true => cases ha
    | false =>
      obtain ⟨s, hs, hcomplete⟩ := exists_of_bind_eq_ok ha
      obtain ⟨t, ht, hst⟩ := h.foldlM_step hfields h.start hs
      obtain ⟨a', ha', haa'⟩ := h.complete hst hcomplete
      refine ⟨a', ?_, haa'⟩
      change (fields'.foldlM r.step r.start >>= r.complete) = _
      rw [ht]
      exact ha'
  | @list deep items items' hitems =>
    cases deep with
    | true => cases ha
    | false =>
      obtain ⟨⟨b, rest⟩, hb, ha⟩ := exists_of_bind_eq_ok ha
      obtain ⟨_, hmore, ha⟩ := exists_of_bind_eq_ok ha
      cases ha
      obtain ⟨a', rest', ha', haa', hrest⟩ := h.ofItems hitems hb
      have hnil : rest = [] := by
        unfold noMore at hmore
        split at hmore
        · rfl
        · cases hmore
        · cases hmore
      subst hnil
      cases hrest
      refine ⟨a', ?_, haa'⟩
      simp only [Record.decode, ha', Bool.false_eq_true, if_false, bind, Except.bind]
      rfl

end Record

namespace Patch

/-- A patch is read from a shuffled document as well. -/
theorem decoder_of_shuffled {d d' : Document} (h : d.Shuffled d') {g : Patch}
    (hd : decoder d = .ok g) : decoder d' = .ok g := by
  obtain ⟨⟨nodes, edges⟩, hlists, hd⟩ := exists_of_bind_eq_ok hd
  have hfields :=
    (Record.Follows.defaulting "nodes" (Decoder.Follows.list Node.decoder) (List.Perm.refl [])).and
      (Record.Follows.defaulting "edges" (Decoder.Follows.list Edge.decoder) (List.Perm.refl []))
  obtain ⟨⟨nodes', edges'⟩, hlists', hnodes, hedges⟩ := hfields.decode "GraphFile" h hlists
  have hofLists : ofLists nodes edges = .ok g := by
    dsimp only at hd
    split at hd
    · next h =>
      cases hd
      exact h
    · cases hd
  have hofLists' : ofLists nodes' edges' = .ok g := (ofLists_perm hnodes hedges).mp hofLists
  simp only [decoder, hlists', bind, Except.bind, hofLists']

theorem ofText_of_shuffled {text text' : String}
    (hroot : (readDocument text).root.Shuffled (readDocument text').root)
    (htail : (readDocument text).tail = (readDocument text').tail) {g : Patch}
    (h : ofText text = .ok g) : ofText text' = .ok g := by
  obtain ⟨g', hg', h⟩ := exists_of_bind_eq_ok h
  obtain ⟨_, hend, h⟩ := exists_of_bind_eq_ok h
  cases h
  simp only [ofText, Decoder.run, decoder_of_shuffled hroot hg', ← htail, hend, bind, Except.bind]
  rfl

/-- A patch that was read is read back from its own text, and so with its fingerprint. Nodes and edges in
another order, as lists or in a document, make the same patch with the same text, or none in both cases.
If a name occurs twice there is none: the error names a node, or an edge, that has the name of one
before. -/
theorem documents_order_free :
    (∀ (text : String) (g : Patch), ofText text = .ok g → ofText g.canonicalText = .ok g ∧
        (ofText g.canonicalText).map fingerprint = .ok g.fingerprint) ∧
      (∀ (nodes nodes' : List (NodeId × Node)) (edges edges' : List (EdgeId × Edge)),
        nodes.Perm nodes' → edges.Perm edges' →
          (ofLists nodes edges).toOption = (ofLists nodes' edges').toOption ∧
          (ofLists nodes edges).toOption.map canonicalText =
            (ofLists nodes' edges').toOption.map canonicalText) ∧
      (∀ text text' : String, (readDocument text).root.Shuffled (readDocument text').root →
        (readDocument text).tail = (readDocument text').tail →
          (ofText text).toOption = (ofText text').toOption) ∧
      (∀ (nodes : List (NodeId × Node)) (edges : List (EdgeId × Edge)), ¬ (nodes.map (·.1)).Nodup →
        ∃ before n after, nodes = before ++ n :: after ∧ n.1 ∈ before.map (·.1) ∧
          ofLists nodes edges = .error (.duplicateNode n.1)) ∧
      ∀ (nodes : List (NodeId × Node)) (edges : List (EdgeId × Edge)), (nodes.map (·.1)).Nodup →
        ¬ (edges.map (·.1)).Nodup →
        ∃ before e after, edges = before ++ e :: after ∧ e.1 ∈ before.map (·.1) ∧
          ofLists nodes edges = .error (.duplicateEdge e.1) := by
  refine ⟨fun text g h => ?_, fun nodes nodes' edges edges' hnodes hedges => ?_,
    fun text text' hroot htail => ?_, fun nodes edges => ofLists_of_duplicate_node edges,
    fun nodes edges => ofLists_of_duplicate_edge⟩
  · have hback : ofText g.canonicalText = .ok g := ofText_canonicalText_iff.mpr (fromText_of_run h)
    exact ⟨hback, by rw [hback]; rfl⟩
  · have hsame := toOption_eq_of_ok_iff fun g => ofLists_perm hnodes hedges (g := g)
    exact ⟨hsame, by rw [hsame]⟩
  · exact toOption_eq_of_ok_iff fun g =>
      ⟨ofText_of_shuffled hroot htail, ofText_of_shuffled hroot.symm htail.symm⟩

/-- A document with nodes only. -/
def nodesJson (nodes : List (NodeId × Node)) : Json :=
  .obj [("nodes", .arr (nodes.map fun x => x.2.toJson x.1))]

/-- A clock and a timer are read in both orders, and read back. Two clocks under one name
are no patch, and neither are two edges. -/
theorem clockAndTimer_order_free :
    let clock : NodeId × Node := ("clock", { block := "Clock" })
    let timer : NodeId × Node := ("timer", { block := "Timer" })
    let edge : EdgeId × Edge := ("e", ⟨⟨"clock", "t"⟩, ⟨"timer", "t"⟩⟩)
    let text (nodes : List (NodeId × Node)) : String := (nodesJson nodes).compact
    (∃ g, ofText (text [timer, clock]) = .ok g ∧ ofText g.canonicalText = .ok g ∧
        (ofText (text [clock, timer])).toOption = some g) ∧
      (ofLists [timer, clock] []).toOption = (ofLists [clock, timer] []).toOption ∧
      (∃ n, ofLists [clock, timer, clock] [] = .error (.duplicateNode n)) ∧
      ∃ e, ofLists [clock, timer] [edge, edge] = .error (.duplicateEdge e) := by
  intro clock timer edge text
  obtain ⟨hback, hlists, htexts, hnode, hedge⟩ := documents_order_free
  have hdocument : ∀ nodes, readDocument (text nodes) = ⟨(nodesJson nodes).documentAt 0, none⟩ := by
    intro nodes
    refine Json.readDocument_compact (.obj (List.forall_mem_singleton.mpr (.arr ?_)))
    exact List.forall_mem_map.mpr fun x _ => x.2.legible_toJson x.1
  have hshuffled : ((nodesJson [timer, clock]).documentAt 0).Shuffled
      ((nodesJson [clock, timer]).documentAt 0) :=
    .object (.cons ⟨rfl, .list (.swap _ _ _)⟩ .nil)
  have hread : (ofText (text [timer, clock])).toOption.isSome = true := by decide +kernel
  obtain ⟨g, hg⟩ := Option.isSome_iff_exists.mp hread
  have hsame := htexts (text [timer, clock]) (text [clock, timer])
    (by rw [hdocument, hdocument]; exact hshuffled) (by rw [hdocument, hdocument])
  refine ⟨⟨g, eq_ok_of_toOption hg, (hback _ g (eq_ok_of_toOption hg)).1, hsame ▸ hg⟩,
    (hlists _ _ _ _ (.swap _ _ _) .nil).1, ?_, ?_⟩
  · obtain ⟨-, n, -, -, -, herror⟩ := hnode [clock, timer, clock] [] (by decide)
    exact ⟨n.1, herror⟩
  · obtain ⟨-, e, -, -, -, herror⟩ := hedge [clock, timer] [edge, edge] (by decide) (by decide)
    exact ⟨e.1, herror⟩

end Patch

end PatchTyping
