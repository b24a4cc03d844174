import PatchTyping.Proofs.DecodedData
import PatchTyping.Proofs.WrittenRecords

/-!
# Patches that are written down and read back

The text of a patch is read as that same patch exactly when every type in it and every end of an edge
could have been read from some text in the first place. For a type this means proper names and an
admitted pair; for an end of an edge that the name of its port is not empty and has no dot.
-/

namespace PatchTyping

variable {depth : Nat}

namespace PortKey

theorem splitAtLastDot_eq_none_iff {cs : List Char} : splitAtLastDot cs = none ↔ '.' ∉ cs := by
  induction cs with
  | nil => simp [splitAtLastDot]
  | cons c cs ih =>
    rw [splitAtLastDot, List.mem_cons, not_or, ← ih]
    cases splitAtLastDot cs with
    | some x => simp
    | none => by_cases hc : c = '.' <;> simp [hc, eq_comm]

theorem splitAtLastDot_eq_some_iff {cs front back : List Char} :
    splitAtLastDot cs = some (front, back) ↔ cs = front ++ '.' :: back ∧ '.' ∉ back := by
  induction cs generalizing front with
  | nil => simp [splitAtLastDot]
  | cons c cs ih =>
    have hnone : splitAtLastDot cs = none ↔ '.' ∉ cs := splitAtLastDot_eq_none_iff
    rw [splitAtLastDot]
    cases front with
    | nil =>
      cases hcs : splitAtLastDot cs with
      | some x => grind
      | none => by_cases hc : c = '.' <;> grind
    | cons f front =>
      have hback : cs = front ++ '.' :: back → '.' ∈ cs := fun h => by simp [h]
      cases hcs : splitAtLastDot cs with
      | some x => grind
      | none => by_cases hc : c = '.' <;> grind

/-- A key is read from its own text only, and from that exactly when both names are there and the name
of the port has no dot. -/
theorem parse?_eq_some_iff {s : String} {k : PortKey} :
    parse? s = some k ↔ s = k.text ∧ k.node ≠ "" ∧ k.port ≠ "" ∧ '.' ∉ k.port.toList := by
  have htext : s = k.text ↔ s.toList = k.node.toList ++ '.' :: k.port.toList := by
    rw [← String.toList_inj]
    simp [text]
  have hempty : ∀ {n : String}, n.toList.isEmpty = false ↔ n ≠ "" := by simp
  rw [htext]
  constructor
  · intro h
    unfold parse? at h
    split at h
    · next node port hsplit =>
      obtain ⟨hs, hdot⟩ := splitAtLastDot_eq_some_iff.mp hsplit
      split at h
      · cases h
      · next hnames =>
        cases h
        rw [Bool.not_eq_true, Bool.or_eq_false_iff] at hnames
        rw [← hempty, ← hempty, String.toList_ofList, String.toList_ofList]
        exact ⟨hs, hnames.1, hnames.2, hdot⟩
    · cases h
  · rintro ⟨hs, hnode, hport, hdot⟩
    have hsplit := splitAtLastDot_eq_some_iff.mpr ⟨hs, hdot⟩
    simp only [parse?, hsplit, hempty.mpr hnode, hempty.mpr hport, Bool.or_self, String.ofList_toList]
    rfl

theorem decoder_toJson {k : PortKey} (h : ∃ s, parse? s = some k) :
    decoder (k.toJson.documentAt depth) = .ok k := by
  obtain ⟨s, hs⟩ := h
  obtain ⟨rfl, -⟩ := parse?_eq_some_iff.mp hs
  simp only [decoder, Decoder.parsed, toJson, Json.documentAt, Decoder.string, hs, bind, Except.bind]

end PortKey

theorem PortType.decoder_toJson {t : PortType} (h : ∃ s, parsePortType s = .ok t) :
    decoder (t.toJson.documentAt depth) = .ok t := by
  obtain ⟨s, hs⟩ := h
  obtain ⟨hnames, hpair⟩ := isWord_of_parsePortType hs
  simp only [decoder, Decoder.parsed, toJson, Json.documentAt, Decoder.string,
    parsePortType_text hnames hpair, bind, Except.bind]
  rfl

theorem Provenance.decoder_toJson (p : Provenance) (hdepth : depth < Document.depthLimit) :
    decoder (p.toJson.documentAt depth) = .ok p := by
  cases p with
  | authored =>
    exact TaggedUnion.decode_written (u := union) (v := .bare "authored" .authored) rfl (by simp) rfl
      hdepth
  | inserted rule edge =>
    have hfields := ((Record.Reads.string (depth + 1) "rule" rule).and
      (Record.Reads.string (depth + 1) "replaced_edge" edge) (by simp)).map
        fun x => Provenance.inserted x.1 x.2
    exact TaggedUnion.decode_written (u := union)
      (v := .record "inserted" "Provenance::Inserted" _) rfl
      (by simp [Json.documentAt, Document.fault?, Document.textFault?, union]) hfields.ofFields hdepth

theorem Node.overridesDecoder_typeMapJson {m : Std.ExtTreeMap String PortType}
    (h : ∀ (name : String) (t : PortType), m[name]? = some t → ∃ s, parsePortType s = .ok t)
    (hdepth : depth < Document.depthLimit) :
    overridesDecoder ((typeMapJson m).documentAt depth) = .ok m := by
  have hentries : Decoder.entries PortType.decoder ((typeMapJson m).documentAt depth) =
      .ok m.toList := by
    simp only [typeMapJson, Json.documentAt, Decoder.entries, Nat.not_le.mpr hdepth, decide_false,
      Json.fieldsAt_eq_map, List.map_map]
    refine mapM_map_eq_ok fun x hx => ?_
    have ht := h x.1 x.2 (Std.ExtTreeMap.mem_toList_iff_getElem?_eq_some.mp hx)
    simp only [Function.comp, Decoder.key, PortType.decoder_toJson ht, bind, Except.bind]
    rfl
  rw [overridesDecoder, hentries]
  exact congrArg Except.ok (OrderedMaps.ofList_toList m)

theorem Node.decoder_toJson (id : NodeId) {n : Node}
    (h : ∀ (name : String) (t : PortType), n.overrides[name]? = some t → ∃ s, parsePortType s = .ok t)
    (hdepth : depth + 1 < Document.depthLimit) :
    decoder ((n.toJson id).documentAt depth) = .ok (id, n) := by
  have hoverrides : (Record.defaulting "port_types" overridesDecoder ∅).Reads (depth + 1) ["port_types"]
      (if n.overrides.isEmpty then [] else [("port_types", typeMapJson n.overrides)]) n.overrides := by
    by_cases hempty : n.overrides.isEmpty = true
    · have heq : n.overrides = ∅ := by simpa using hempty
      rw [if_pos hempty, heq]
      exact .absent
    · rw [if_neg hempty]
      exact .present (overridesDecoder_typeMapJson h hdepth) _
  have hprovenance : (Record.defaulting "provenance" Provenance.decoder .authored).Reads (depth + 1)
      ["provenance"] n.provenance.field n.provenance := by
    rw [Provenance.field]
    cases hp : n.provenance with
    | authored => exact .absent
    | inserted rule edge => exact .present (Provenance.decoder_toJson _ hdepth) _
  have hfields := ((Record.Reads.string (depth + 1) "id" id).and
    ((Record.Reads.string (depth + 1) "block" n.block).and (hoverrides.and hprovenance (by simp))
      (by simp)) (by simp)).map
        fun x => (x.1, (⟨x.2.1, x.2.2.1, x.2.2.2⟩ : Node))
  rw [toJson, List.append_assoc]
  exact hfields.decode (Nat.lt_of_succ_lt hdepth) "Node"

theorem Edge.decoder_toJson (id : EdgeId) {e : Edge} (hsource : ∃ s, PortKey.parse? s = some e.source)
    (htarget : ∃ s, PortKey.parse? s = some e.target) (hdepth : depth < Document.depthLimit) :
    decoder ((e.toJson id).documentAt depth) = .ok (id, e) := by
  have hfrom : (Record.required "from" PortKey.decoder).Reads (depth + 1) ["from"]
      [("from", e.source.toJson)] e.source := .present (PortKey.decoder_toJson hsource) none
  have hto : (Record.required "to" PortKey.decoder).Reads (depth + 1) ["to"]
      [("to", e.target.toJson)] e.target := .present (PortKey.decoder_toJson htarget) none
  have hfields := ((Record.Reads.string (depth + 1) "id" id).and (hfrom.and hto (by simp))
    (by simp)).map fun x => (x.1, (⟨x.2.1, x.2.2⟩ : Edge))
  exact hfields.decode hdepth "Edge"

/-! ### Texts without numbers -/

theorem legible_typeMapJson (m : Std.ExtTreeMap String PortType) : (typeMapJson m).Legible :=
  .obj (List.forall_mem_map.mpr fun x _ => .str x.2.text)

theorem Provenance.legible_toJson (p : Provenance) : p.toJson.Legible := by
  cases p with
  | authored => exact .obj (by simp [Json.Legible.str])
  | inserted rule edge => exact .obj (by simp [Json.Legible.str])

theorem Node.legible_toJson (id : NodeId) (n : Node) : (n.toJson id).Legible := by
  refine .obj fun f hf => ?_
  rcases List.mem_append.mp hf with hf | hf
  · rcases List.mem_append.mp hf with hf | hf
    · rcases List.mem_pair.mp hf with rfl | rfl <;> exact .str _
    · split at hf
      · cases hf
      · cases List.mem_singleton.mp hf
        exact legible_typeMapJson n.overrides
  · rw [Provenance.field] at hf
    split at hf
    · cases hf
    · cases List.mem_singleton.mp hf
      exact n.provenance.legible_toJson

theorem Edge.legible_toJson (id : EdgeId) (e : Edge) : (e.toJson id).Legible :=
  .obj (by simp [Json.Legible.str, PortKey.toJson])

namespace Patch

variable {g : Patch}

theorem decoder_toJson (h : g.FromText) : decoder (g.toJson.documentAt 0) = .ok g := by
  have hnodes : Decoder.list Node.decoder
      ((Json.arr (g.nodes.toList.map fun x => x.2.toJson x.1)).documentAt 1) = .ok g.nodes.toList := by
    simp only [Json.documentAt, Decoder.list, Json.itemsAt_eq_map, List.map_map]
    refine mapM_map_eq_ok fun x hx => Node.decoder_toJson x.1 (fun name t ht => ?_) (by decide)
    exact h.override (Std.ExtTreeMap.mem_toList_iff_getElem?_eq_some.mp hx) ht
  have hedges : Decoder.list Edge.decoder
      ((Json.arr (g.edges.toList.map fun x => x.2.toJson x.1)).documentAt 1) = .ok g.edges.toList := by
    simp only [Json.documentAt, Decoder.list, Json.itemsAt_eq_map, List.map_map]
    refine mapM_map_eq_ok fun x hx => ?_
    obtain ⟨hsource, htarget⟩ := h.ends (Std.ExtTreeMap.mem_toList_iff_getElem?_eq_some.mp hx)
    exact Edge.decoder_toJson x.1 hsource htarget (by decide)
  have hfields : ((Record.defaulting "nodes" (Decoder.list Node.decoder) []).and
      (Record.defaulting "edges" (Decoder.list Edge.decoder) [])).Reads 1 (["nodes"] ++ ["edges"])
        _ (g.nodes.toList, g.edges.toList) :=
    (Record.Reads.present hnodes _).and (Record.Reads.present hedges _) (by simp)
  have hlists : ofLists g.nodes.toList g.edges.toList = .ok g := by
    refine ofLists_eq_ok_iff.mpr ⟨OrderedMaps.nodup_keys _, OrderedMaps.nodup_keys _, ?_⟩
    rw [OrderedMaps.ofList_toList, OrderedMaps.ofList_toList]
  have hrecord : Record.decode _ "GraphFile" (g.toJson.documentAt 0) =
      .ok (g.nodes.toList, g.edges.toList) := hfields.decode (by decide) "GraphFile"
  simp only [decoder, hrecord, bind, Except.bind, hlists]

theorem legible_toJson (g : Patch) : g.toJson.Legible := by
  refine .obj (List.forall_mem_cons.mpr ⟨.arr ?_, List.forall_mem_singleton.mpr (.arr ?_)⟩)
  · exact List.forall_mem_map.mpr fun x _ => x.2.legible_toJson x.1
  · exact List.forall_mem_map.mpr fun x _ => x.2.legible_toJson x.1

/-- A patch is read back from its text exactly when all its parts could have been read from one. -/
theorem ofText_canonicalText_iff : ofText g.canonicalText = .ok g ↔ g.FromText := by
  refine ⟨fromText_of_run, fun h => ?_⟩
  rw [ofText, canonicalText, Json.readDocument_compact g.legible_toJson]
  simp only [Decoder.run, decoder_toJson h]
  rfl

end Patch

end PatchTyping
