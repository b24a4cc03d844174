import PatchTyping.PatchDocuments
import PatchTyping.Proofs.PatchAssembly
import PatchTyping.Proofs.TypeTextRoundTrip

/-!
# What decoders accept

A property of the parts that a decoder reads is a property of all data it accepts, however the document
was laid out: the fields of a record come in any order or as a list, some are left out, others are passed
over. So every type in a patch that was read stands in some text, and so does every port its edges name.
-/

namespace PatchTyping

theorem exists_of_map_eq_ok {ε α β : Type} {x : Except ε α} {f : α → β} {b : β}
    (h : f <$> x = .ok b) : ∃ a, x = .ok a ∧ f a = b := by
  cases x with
  | error e => cases h
  | ok a => exact ⟨a, rfl, Except.ok.inj h⟩

theorem eq_ok_of_toOption {ε α : Type} {x : Except ε α} {a : α} (h : x.toOption = some a) :
    x = .ok a := by
  cases x with
  | error e => cases h
  | ok b => rw [Option.some.inj h]

theorem exists_of_mem_mapM {ε α β : Type} {f : α → Except ε β} {as : List α} {bs : List β}
    (h : as.mapM f = .ok bs) {b : β} (hb : b ∈ bs) : ∃ a ∈ as, f a = .ok b := by
  induction as generalizing bs with
  | nil =>
    cases h
    cases hb
  | cons a as ih =>
    rw [List.mapM_cons] at h
    obtain ⟨b', hb', h⟩ := exists_of_bind_eq_ok h
    obtain ⟨bs', hbs', h⟩ := exists_of_bind_eq_ok h
    cases h
    rcases List.mem_cons.mp hb with rfl | hb
    · exact ⟨a, List.mem_cons_self, hb'⟩
    · obtain ⟨a', ha', hfa'⟩ := ih hbs' hb
      exact ⟨a', List.mem_cons_of_mem _ ha', hfa'⟩

variable {α β : Type} {P : α → Prop} {Q : β → Prop}

namespace Decoder

/-- Whatever the decoder accepts has the property. -/
def Yields (decoder : Decoder α) (P : α → Prop) : Prop := ∀ d a, decoder d = .ok a → P a

theorem mismatch_ne_ok (expected : String) (d : Document) (a : α) :
    mismatch expected d ≠ .ok a := by
  intro h
  unfold mismatch at h
  split at h <;> cases h

theorem Yields.parsed {parse : String → Except String α} (h : ∀ s a, parse s = .ok a → P a) :
    (parsed parse).Yields P := by
  intro d a hd
  obtain ⟨s, -, hs⟩ := exists_of_bind_eq_ok hd
  split at hs
  · next b hb =>
    cases hs
    exact h s _ hb
  · cases hs

theorem Yields.list {item : Decoder α} (h : item.Yields P) :
    (list item).Yields fun as => ∀ a ∈ as, P a := by
  intro d as hd a ha
  unfold Decoder.list at hd
  split at hd
  · split at hd
    · cases hd
    · obtain ⟨d', -, hd'⟩ := exists_of_mem_mapM hd ha
      exact h d' a hd'
  · exact absurd hd (mismatch_ne_ok _ _ _)

theorem Yields.entries {value : Decoder α} (h : value.Yields P) :
    (entries value).Yields fun es => ∀ e ∈ es, P e.2 := by
  intro d es hd e he
  unfold Decoder.entries at hd
  split at hd
  · split at hd
    · cases hd
    · obtain ⟨f, -, hf⟩ := exists_of_mem_mapM hd he
      obtain ⟨k, -, hf⟩ := exists_of_bind_eq_ok hf
      obtain ⟨a, ha, hf⟩ := exists_of_bind_eq_ok hf
      cases hf
      exact h f.2 a ha
  · exact absurd hd (mismatch_ne_ok _ _ _)

end Decoder

namespace Record

/-- The record has the property once it is complete, because of what its slots keep on the way. -/
structure Ensures (r : Record α) (Keeps : r.Slots → Prop) (P : α → Prop) : Prop where
  start : Keeps r.start
  accept : ∀ {slots slots' k d}, Keeps slots → r.accept slots k d = some (.ok slots') → Keeps slots'
  complete : ∀ {slots a}, Keeps slots → r.complete slots = .ok a → P a
  ofItems : ∀ {index expected items a rest},
    r.ofItems index expected items = .ok (a, rest) → P a

/-- Whatever is read as the record has the property. -/
def Yields (r : Record α) (P : α → Prop) : Prop := ∃ Keeps, r.Ensures Keeps P

theorem Yields.trivial (r : Record α) : r.Yields fun _ => True :=
  ⟨fun _ => True, True.intro, fun _ _ => True.intro, fun _ _ => True.intro, fun _ => True.intro⟩

theorem Yields.field (name : String) {value : Decoder α} (h : value.Yields P) (default : Option α)
    (hdefault : ∀ a ∈ default, P a) : (field name value default).Yields P := by
  refine ⟨fun slot : Option α => ∀ a ∈ slot, P a, fun a ha => (Option.not_mem_none a ha).elim, ?_, ?_, ?_⟩
  · intro slot slot' k d _ haccept a ha
    simp only [Record.field] at haccept
    split at haccept
    · split at haccept
      · cases haccept
      · obtain ⟨b, hb, heq⟩ := exists_of_map_eq_ok (Option.some.inj haccept)
        rw [← heq] at ha
        cases ha
        exact h d a hb
    · cases haccept
  · intro slot a hslot hcomplete
    simp only [Record.field] at hcomplete
    cases slot with
    | some b =>
      cases hcomplete
      exact hslot a rfl
    | none =>
      cases default with
      | some b =>
        cases hcomplete
        exact hdefault a rfl
      | none => cases hcomplete
  · intro index expected items a rest hitems
    simp only [Record.field] at hitems
    split at hitems
    · obtain ⟨b, hb, heq⟩ := exists_of_bind_eq_ok hitems
      cases heq
      exact h _ a hb
    · cases hitems
      exact hdefault a rfl
    · cases hitems

theorem Yields.and {r : Record α} {q : Record β} (hr : r.Yields P) (hq : q.Yields Q) :
    (r.and q).Yields fun x => P x.1 ∧ Q x.2 := by
  obtain ⟨keepsR, hr⟩ := hr
  obtain ⟨keepsQ, hq⟩ := hq
  refine ⟨fun slots => keepsR slots.1 ∧ keepsQ slots.2, ⟨hr.start, hq.start⟩, ?_, ?_, ?_⟩
  · rintro slots slots' k d ⟨hslots, hslots'⟩ haccept
    simp only [Record.and] at haccept
    split at haccept
    · next result hresult =>
      obtain ⟨s, rfl, rfl⟩ := exists_of_map_eq_ok (Option.some.inj haccept)
      exact ⟨hr.accept hslots hresult, hslots'⟩
    · obtain ⟨result, hresult, haccept⟩ := Option.map_eq_some_iff.mp haccept
      obtain ⟨s, rfl, rfl⟩ := exists_of_map_eq_ok haccept
      exact ⟨hslots, hq.accept hslots' hresult⟩
  · rintro slots a ⟨hslots, hslots'⟩ hcomplete
    obtain ⟨b, hb, hcomplete⟩ := exists_of_bind_eq_ok hcomplete
    obtain ⟨c, hc, hcomplete⟩ := exists_of_bind_eq_ok hcomplete
    cases hcomplete
    exact ⟨hr.complete hslots hb, hq.complete hslots' hc⟩
  · intro index expected items a rest hitems
    obtain ⟨b, hb, hitems⟩ := exists_of_bind_eq_ok hitems
    obtain ⟨c, hc, hitems⟩ := exists_of_bind_eq_ok hitems
    cases hitems
    exact ⟨hr.ofItems hb, hq.ofItems hc⟩

theorem Yields.map {r : Record α} (h : r.Yields P) {f : α → β} (hf : ∀ a, P a → Q (f a)) :
    (r.map f).Yields Q := by
  obtain ⟨keeps, h⟩ := h
  refine ⟨keeps, h.start, h.accept, fun hslots hcomplete => ?_, fun hitems => ?_⟩
  · obtain ⟨a, ha, rfl⟩ := exists_of_map_eq_ok hcomplete
    exact hf a (h.complete hslots ha)
  · obtain ⟨a, ha, hitems⟩ := exists_of_bind_eq_ok hitems
    cases hitems
    exact hf _ (h.ofItems ha)

theorem Ensures.ofFields {r : Record α} {keeps : r.Slots → Prop} (h : r.Ensures keeps P)
    {fields : List (Except JsonFault String × Document)} {a : α} (ha : r.ofFields fields = .ok a) :
    P a := by
  obtain ⟨slots, hslots, hcomplete⟩ := exists_of_bind_eq_ok ha
  have hkeeps : ∀ {fields : List (Except JsonFault String × Document)} {slots slots' : r.Slots},
      keeps slots → fields.foldlM r.step slots = .ok slots' → keeps slots' := by
    intro fields
    induction fields with
    | nil =>
      intro slots slots' hs heq
      cases heq
      exact hs
    | cons entry fields ih =>
      intro slots slots' hs heq
      rw [List.foldlM_cons] at heq
      obtain ⟨next, hnext, heq⟩ := exists_of_bind_eq_ok heq
      refine ih ?_ heq
      obtain ⟨k, -, hnext⟩ := exists_of_bind_eq_ok hnext
      split at hnext
      · next hresult => exact h.accept hs (hnext ▸ hresult)
      · obtain ⟨-, -, hnext⟩ := exists_of_bind_eq_ok hnext
        cases hnext
        exact hs
  exact h.complete (hkeeps h.start hslots) hcomplete

theorem Yields.decode {r : Record α} (h : r.Yields P) (name : String) :
    (r.decode name).Yields P := by
  obtain ⟨keeps, h⟩ := h
  intro d a hd
  unfold Record.decode at hd
  split at hd
  · split at hd
    · cases hd
    · exact h.ofFields hd
  · split at hd
    · cases hd
    · obtain ⟨b, hb, hd⟩ := exists_of_bind_eq_ok hd
      obtain ⟨-, -, hd⟩ := exists_of_bind_eq_ok hd
      cases hd
      exact h.ofItems hb
  · exact absurd hd (Decoder.mismatch_ne_ok _ _ _)

end Record

namespace Variant

/-- Whatever is read as the variant has the property. -/
structure Yields (v : Variant α) (P : α → Prop) : Prop where
  ofFields : ∀ {fields a}, v.ofFields fields = .ok a → P a
  ofItems : ∀ {items a}, v.ofItems items = .ok a → P a

theorem Yields.record (tag title : String) {r : Record α} (h : r.Yields P) :
    (record tag title r).Yields P := by
  obtain ⟨keeps, h⟩ := h
  constructor
  · exact fun ha => h.ofFields ha
  · intro items a ha
    obtain ⟨b, hb, ha⟩ := exists_of_bind_eq_ok ha
    obtain ⟨-, -, ha⟩ := exists_of_bind_eq_ok ha
    cases ha
    exact h.ofItems hb

end Variant

namespace TaggedUnion

theorem mem_of_variant_eq_ok {u : TaggedUnion α} {d : Document} {v : Variant α}
    (h : u.variant d = .ok v) : v ∈ u.variants := by
  unfold variant at h
  split at h
  · split at h
    · next hfind =>
      cases h
      exact List.mem_of_find?_eq_some hfind
    · cases h
  · exact absurd h (Decoder.mismatch_ne_ok _ _ _)

theorem mem_of_foldlM_step {u : TaggedUnion α} {fields : List (Except JsonFault String × Document)}
    {seen seen' : Seen α} (hseen : ∀ v ∈ seen.variant, v ∈ u.variants)
    (h : fields.foldlM u.step seen = .ok seen') : ∀ v ∈ seen'.variant, v ∈ u.variants := by
  induction fields generalizing seen with
  | nil =>
    cases h
    exact hseen
  | cons entry fields ih =>
    rw [List.foldlM_cons] at h
    obtain ⟨next, hnext, h⟩ := exists_of_bind_eq_ok h
    refine ih ?_ h
    obtain ⟨k, -, hnext⟩ := exists_of_bind_eq_ok hnext
    split at hnext
    · split at hnext
      · cases hnext
      · obtain ⟨v, hv, hnext⟩ := exists_of_bind_eq_ok hnext
        cases hnext
        rintro _ ⟨⟩
        exact mem_of_variant_eq_ok hv
    · obtain ⟨-, -, hnext⟩ := exists_of_bind_eq_ok hnext
      cases hnext
      exact hseen

theorem decode_yields {u : TaggedUnion α} (h : ∀ v ∈ u.variants, v.Yields P) : u.decode.Yields P := by
  intro d a hd
  unfold decode at hd
  split at hd
  · split at hd
    · cases hd
    · obtain ⟨seen, hseen, hd⟩ := exists_of_bind_eq_ok hd
      have hmem := mem_of_foldlM_step (by simp) hseen
      split at hd
      · cases hd
      · next v hv => exact (h v (hmem v hv)).ofFields hd
  · split at hd
    · cases hd
    · unfold ofItems at hd
      split at hd
      · cases hd
      · obtain ⟨v, hv, hd⟩ := exists_of_bind_eq_ok hd
        obtain ⟨-, -, hd⟩ := exists_of_bind_eq_ok hd
        exact (h v (mem_of_variant_eq_ok hv)).ofItems hd
  · exact absurd hd (Decoder.mismatch_ne_ok _ _ _)

end TaggedUnion

namespace Patch

/-- Every type that overrides another stands in some text, and so does every end of an edge. -/
structure FromText (g : Patch) : Prop where
  override : ∀ {id : NodeId} {n : Node} {name : String} {t : PortType},
    g.nodes[id]? = some n → n.overrides[name]? = some t → ∃ s, parsePortType s = .ok t
  ends : ∀ {id : EdgeId} {e : Edge}, g.edges[id]? = some e →
    (∃ s, PortKey.parse? s = some e.source) ∧ ∃ s, PortKey.parse? s = some e.target

end Patch

theorem PortType.decoder_yields : decoder.Yields fun t => ∃ s, parsePortType s = .ok t := by
  refine Decoder.Yields.parsed fun s t h => ⟨s, ?_⟩
  cases hs : parsePortType s with
  | ok u =>
    rw [hs] at h
    cases h
    rfl
  | error e =>
    rw [hs] at h
    cases h

theorem PortKey.decoder_yields : decoder.Yields fun k => ∃ s, parse? s = some k := by
  refine Decoder.Yields.parsed fun s k h => ⟨s, ?_⟩
  split at h
  · next hs =>
    cases h
    exact hs
  · cases h

theorem Node.decoder_yields : decoder.Yields fun n => ∀ (name : String) (t : PortType),
    n.2.overrides[name]? = some t → ∃ s, parsePortType s = .ok t := by
  have hoverrides : overridesDecoder.Yields fun m => ∀ (name : String) (t : PortType),
      m[name]? = some t → ∃ s, parsePortType s = .ok t := by
    intro d m hd name t ht
    obtain ⟨es, hes, rfl⟩ := exists_of_map_eq_ok hd
    exact PortType.decoder_yields.entries d es hes _ (OrderedMaps.mem_of_getElem?_ofList ht)
  have hfield := Record.Yields.field "port_types" hoverrides (some ∅) (by simp)
  refine Record.Yields.decode (Record.Yields.map ((Record.Yields.trivial _).and
    ((Record.Yields.trivial _).and (hfield.and (Record.Yields.trivial _)))) ?_) "Node"
  rintro ⟨id, block, overrides, provenance⟩ ⟨-, -, h, -⟩
  exact h

theorem Edge.decoder_yields : decoder.Yields fun e =>
    (∃ s, PortKey.parse? s = some e.2.source) ∧ ∃ s, PortKey.parse? s = some e.2.target := by
  have hfield name := Record.Yields.field name PortKey.decoder_yields none (by simp)
  refine Record.Yields.decode (Record.Yields.map ((Record.Yields.trivial _).and
    ((hfield "from").and (hfield "to"))) ?_) "Edge"
  rintro ⟨id, source, target⟩ ⟨-, hsource, htarget⟩
  exact ⟨hsource, htarget⟩

/-- Every patch that was read is from a text in all its parts. -/
theorem Patch.decoder_yields : decoder.Yields FromText := by
  intro d g hd
  obtain ⟨⟨nodes, edges⟩, hlists, hd⟩ := exists_of_bind_eq_ok hd
  have hnodes := Record.Yields.field "nodes" Node.decoder_yields.list (some []) (by simp)
  have hedges := Record.Yields.field "edges" Edge.decoder_yields.list (some []) (by simp)
  have hfields := (hnodes.and hedges).decode "GraphFile" d _ hlists
  have hofLists : ofLists nodes edges = .ok g := by
    dsimp only at hd
    split at hd
    · next h =>
      cases hd
      exact h
    · cases hd
  obtain ⟨-, -, rfl⟩ := ofLists_eq_ok_iff.mp hofLists
  constructor
  · intro id n name t hn ht
    exact hfields.1 _ (OrderedMaps.mem_of_getElem?_ofList hn) name t ht
  · intro id e he
    exact hfields.2 _ (OrderedMaps.mem_of_getElem?_ofList he)

theorem Patch.fromText_of_run {doc : DocumentText} {g : Patch} (h : decoder.run doc = .ok g) :
    g.FromText := by
  obtain ⟨g', hg', h⟩ := exists_of_bind_eq_ok h
  obtain ⟨-, -, h⟩ := exists_of_bind_eq_ok h
  cases h
  exact decoder_yields _ _ hg'

end PatchTyping
