import PatchTyping.Proofs.WrittenNumbers
import PatchTyping.Proofs.WrittenPatches

/-!
# Blocks that are written down and read back

A block that was read from a document has types that stand in some text. The text of such a block is
read as that block, provided that the numbers of its kernel are read back from their own text.
-/

namespace PatchTyping

variable {depth : Nat}

/-! ### Blocks from a document -/

/-- The type that a template pins stands in some text. -/
def Template.FromText (t : Template) : Prop :=
  ∀ port type, t = .fixed port type → ∃ s, parsePortType s = .ok type

/-- Every type in the block stands in some text. -/
structure Block.FromText (b : Block) : Prop where
  input : ∀ p ∈ b.inputs, ∃ s, parsePortType s = .ok p.type
  output : ∀ p ∈ b.outputs, ∃ s, parsePortType s = .ok p.type
  template : ∀ t ∈ b.templates, t.FromText

theorem PortDeclaration.decoder_yields :
    decoder.Yields fun p => ∃ s, parsePortType s = .ok p.type := by
  refine (((Record.Yields.trivial _).and
    (Record.Yields.field "type" PortType.decoder_yields none (by simp))).map ?_).decode _
  exact fun x hx => hx.2

theorem Template.decoder_yields : decoder.Yields FromText := by
  refine TaggedUnion.decode_yields fun v hv => ?_
  simp only [union, List.mem_cons, List.not_mem_nil, or_false] at hv
  rcases hv with rfl | rfl | rfl
  · refine .record _ _ ((Record.Yields.trivial _).map ?_)
    exact fun x _ port type h => by cases h
  · refine .record _ _ ((Record.Yields.trivial _).map ?_)
    exact fun x _ port type h => by cases h
  · refine .record _ _ (((Record.Yields.trivial _).and
      (Record.Yields.field "type" PortType.decoder_yields none (by simp))).map ?_)
    rintro x hx port type ⟨⟩
    exact hx.2

theorem Block.decoder_yields : decoder.Yields FromText := by
  have hinputs := Record.Yields.field "inputs" PortDeclaration.decoder_yields.list (some []) (by simp)
  have houtputs := Record.Yields.field "outputs" PortDeclaration.decoder_yields.list (some []) (by simp)
  have htemplates := Record.Yields.field "constraints" Template.decoder_yields.list (some []) (by simp)
  refine (((Record.Yields.trivial _).and (hinputs.and (houtputs.and (htemplates.and
    (Record.Yields.trivial _))))).map ?_).decode _
  rintro x ⟨-, hinputs, houtputs, htemplates, -⟩
  exact ⟨hinputs, houtputs, htemplates⟩

theorem Block.fileDecoder_yields : fileDecoder.Yields fun bs => ∀ b ∈ bs, b.FromText :=
  (Record.Yields.field "blocks" decoder_yields.list none (by simp)).decode _

/-! ### Reading the fields back -/

theorem PortDeclaration.decoder_toJson {p : PortDeclaration} (h : ∃ s, parsePortType s = .ok p.type)
    (hdepth : depth < Document.depthLimit) : decoder (p.toJson.documentAt depth) = .ok p := by
  have htype : (Record.required "type" PortType.decoder).Reads (depth + 1) ["type"]
      [("type", p.type.toJson)] p.type := .present (PortType.decoder_toJson h) none
  have hfields := ((Record.Reads.string (depth + 1) "name" p.name).and htype (by simp)).map
    fun x => (⟨x.1, x.2⟩ : PortDeclaration)
  exact hfields.decode hdepth "PortDef"

theorem AxisName.decoder_name (a : AxisName) : decoder (.string (.ok a.name)) = .ok a := by
  cases a <;> rfl

namespace Template

theorem decoder_portList (ports : List String) (hdepth : depth < Document.depthLimit) :
    Decoder.list Decoder.string ((portList ports).documentAt depth) = .ok ports := by
  simp only [portList, Json.documentAt, Decoder.list, Nat.not_le.mpr hdepth, decide_false,
    Json.itemsAt_eq_map, List.map_map]
  exact mapM_map_eq_ok fun s _ => rfl

theorem fault?_portList (ports : List String) (hdepth : depth < Document.depthLimit) :
    ((portList ports).documentAt depth).fault? = none := by
  have hitems : ∀ ports : List String,
      Document.faultInItems? (Json.itemsAt (depth + 1) (ports.map Json.str)) = none := by
    intro ports
    induction ports with
    | nil => rfl
    | cons p ports ih =>
      simp [Json.itemsAt, Json.documentAt, Document.faultInItems?, Document.fault?,
        Document.textFault?, ih]
  simp [portList, Json.documentAt, Document.fault?, Nat.not_le.mpr hdepth, hitems]

theorem decoder_toJson {t : Template} (h : t.FromText) (hdepth : depth + 1 < Document.depthLimit) :
    decoder (t.toJson.documentAt depth) = .ok t := by
  have hports (ports : List String) : (Record.required "ports" (Decoder.list Decoder.string)).Reads
      (depth + 1) ["ports"] [("ports", portList ports)] ports :=
    .present (decoder_portList ports hdepth) none
  have hlast := Nat.lt_of_succ_lt hdepth
  cases t with
  | equal axis ports =>
    have haxis : (Record.required "axis" AxisName.decoder).Reads (depth + 1) ["axis"]
        [("axis", .str axis.name)] axis := .present axis.decoder_name none
    have hfields := (haxis.and (hports ports) (by simp)).map fun x => Template.equal x.1 x.2
    exact TaggedUnion.decode_written (u := union)
      (v := .record "equal" "ConstraintTemplate::Equal" _) rfl
      (by simp [fault?_portList ports hdepth, Json.documentAt, Document.fault?, Document.textFault?, union])
      hfields.ofFields hlast
  | zipBroadcast ports =>
    exact TaggedUnion.decode_written (u := union)
      (v := .record "zip_broadcast" "ConstraintTemplate::ZipBroadcast" _) rfl
      (by simp [fault?_portList ports hdepth, union]) ((hports ports).map Template.zipBroadcast).ofFields
      hlast
  | fixed port type =>
    have htype : (Record.required "type" PortType.decoder).Reads (depth + 1) ["type"]
        [("type", type.toJson)] type := .present (PortType.decoder_toJson (h port type rfl)) none
    have hfields := ((Record.Reads.string (depth + 1) "port" port).and htype (by simp)).map
      fun x => Template.fixed x.1 x.2
    exact TaggedUnion.decode_written (u := union)
      (v := .record "fixed" "ConstraintTemplate::Fixed" _) rfl
      (by simp [PortType.toJson, Json.documentAt, Document.fault?, Document.textFault?, union])
      hfields.ofFields hlast

end Template

namespace Kernel

/-- The numbers that are written with a kernel. -/
def numbers : Kernel → List Float
  | scale factor => [factor]
  | affine factor offset => [factor, offset]
  | cast => []

theorem decoder_toJson (k : Kernel) (hdepth : depth < Document.depthLimit) :
    decoder (k.toJson.documentAt depth) = .ok k := by
  have hreal (name : String) (x : Float) : (Record.required name Decoder.real).Reads (depth + 1) [name]
      [(name, .float x)] x := by
    have hx : Decoder.real ((Json.float x).documentAt (depth + 1)) = .ok x := rfl
    exact .present hx none
  cases k with
  | scale factor =>
    exact TaggedUnion.decode_written (u := union) (v := .record "scale" "AdapterKernel::Scale" _) rfl
      (by simp [Json.documentAt, Document.fault?, Document.textFault?, union])
      ((hreal "factor" factor).map Kernel.scale).ofFields hdepth
  | affine factor offset =>
    have hfields := ((hreal "scale" factor).and (hreal "offset" offset) (by simp)).map
      fun x => Kernel.affine x.1 x.2
    exact TaggedUnion.decode_written (u := union) (v := .record "affine" "AdapterKernel::Affine" _) rfl
      (by simp [Json.documentAt, Document.fault?, Document.textFault?, union]) hfields.ofFields hdepth
  | cast =>
    exact TaggedUnion.decode_written (u := union) (v := .bare "cast" .cast) rfl (by simp) rfl hdepth

end Kernel

theorem AdapterSpec.decoder_toJson (s : AdapterSpec) (hdepth : depth + 1 < Document.depthLimit) :
    decoder (s.toJson.documentAt depth) = .ok s := by
  have hword : Decoder.word32 ((Json.int s.cost.toNat).documentAt (depth + 1)) = .ok s.cost := by
    have hfits : 0 ≤ (s.cost.toNat : Int) ∧ (s.cost.toNat : Int).toNat < UInt32.size :=
      ⟨Int.natCast_nonneg _, s.cost.toNat_lt_size⟩
    simp only [Json.documentAt, Decoder.word32, if_pos hfits]
    exact congrArg Except.ok UInt32.ofNat_toNat
  have hcost : (Record.defaulting "cost" Decoder.word32 1).Reads (depth + 1) ["cost"]
      [("cost", .int s.cost.toNat)] s.cost := .present hword _
  have hkernel : (Record.required "kernel" Kernel.decoder).Reads (depth + 1) ["kernel"]
      [("kernel", s.kernel.toJson)] s.kernel := .present (s.kernel.decoder_toJson hdepth) none
  have hfields := (hcost.and hkernel (by simp)).map fun x => (⟨x.1, x.2⟩ : AdapterSpec)
  exact hfields.decode (Nat.lt_of_succ_lt hdepth) "AdapterSpec"

namespace Block

theorem decoder_toJson {b : Block} (h : b.FromText) (hdepth : depth + 3 < Document.depthLimit) :
    decoder (b.toJson.documentAt depth) = .ok b := by
  have hlists {α : Type} {item : Decoder α} {write : α → Json} {as : List α}
      (hitem : ∀ a ∈ as, item ((write a).documentAt (depth + 2)) = .ok a) :
      Decoder.list item ((Json.arr (as.map write)).documentAt (depth + 1)) = .ok as := by
    simp only [Json.documentAt, Decoder.list, Json.itemsAt_eq_map, List.map_map,
      Nat.not_le.mpr (show depth + 1 < Document.depthLimit by omega), decide_false]
    exact mapM_map_eq_ok hitem
  have hports (name : String) {ps : List PortDeclaration}
      (hps : ∀ p ∈ ps, ∃ s, parsePortType s = .ok p.type) :
      (Record.defaulting name (Decoder.list PortDeclaration.decoder) []).Reads (depth + 1) [name]
        [(name, .arr (ps.map PortDeclaration.toJson))] ps :=
    .present (hlists fun p hp => PortDeclaration.decoder_toJson (hps p hp) (by omega)) _
  have htemplates : (Record.defaulting "constraints" (Decoder.list Template.decoder) []).Reads
      (depth + 1) ["constraints"] (if b.templates.isEmpty then []
        else [("constraints", .arr (b.templates.map Template.toJson))]) b.templates := by
    by_cases hempty : b.templates.isEmpty = true
    · rw [if_pos hempty, List.isEmpty_iff.mp hempty]
      exact .absent
    · rw [if_neg hempty]
      exact .present (hlists fun t ht => Template.decoder_toJson (h.template t ht) (by omega)) _
  have hadapter : (Record.defaulting "adapter" (Decoder.optional AdapterSpec.decoder) none).Reads
      (depth + 1) ["adapter"] (Json.optional "adapter" (b.adapter.map AdapterSpec.toJson))
        b.adapter := by
    cases b.adapter with
    | none => exact .absent
    | some spec =>
      refine .present ?_ _
      change some <$> AdapterSpec.decoder (spec.toJson.documentAt (depth + 1)) = _
      rw [spec.decoder_toJson (by omega)]
      rfl
  have hframe : (Record.defaulting "reads_previous_frame" Decoder.boolean false).Reads (depth + 1)
      ["reads_previous_frame"]
      (if b.readsPreviousFrame then [("reads_previous_frame", .bool true)] else [])
        b.readsPreviousFrame := by
    cases b.readsPreviousFrame with
    | false => exact .absent
    | true =>
      have htrue : Decoder.boolean ((Json.bool true).documentAt (depth + 1)) = .ok true := rfl
      exact .present htrue _
  have hfields := ((Record.Reads.string (depth + 1) "name" b.name).and ((hports "inputs" h.input).and
    ((hports "outputs" h.output).and (htemplates.and (hadapter.and hframe (by simp)) (by simp))
      (by simp)) (by simp)) (by simp)).map fun x =>
        ({ name := x.1, inputs := x.2.1, outputs := x.2.2.1, templates := x.2.2.2.1,
           adapter := x.2.2.2.2.1, readsPreviousFrame := x.2.2.2.2.2 } : Block)
  rw [toJson, List.append_assoc, List.append_assoc]
  exact hfields.decode (by omega) "BlockDef"

theorem fileDecoder_fileJson {bs : List Block} (h : ∀ b ∈ bs, b.FromText) :
    fileDecoder ((fileJson bs).documentAt 0) = .ok bs := by
  have hblocks : Decoder.list decoder ((Json.arr (bs.map toJson)).documentAt 1) = .ok bs := by
    simp only [Json.documentAt, Decoder.list, Json.itemsAt_eq_map, List.map_map]
    exact mapM_map_eq_ok fun b hb => decoder_toJson (h b hb) (by decide)
  have hfield : (Record.required "blocks" (Decoder.list decoder)).Reads 1 ["blocks"]
      [("blocks", .arr (bs.map toJson))] bs := .present hblocks none
  exact hfield.decode (by decide) "CatalogFile"

end Block

/-! ### Texts with numbers -/

/-- The text of every number of the kernel is read as that number. -/
def Kernel.ReadBack (k : Kernel) : Prop :=
  ∀ x ∈ k.numbers, Json.parse? (Json.float x).compact = some (.float x)

theorem Kernel.legible_toJson {k : Kernel} (h : k.ReadBack) : k.toJson.Legible := by
  cases k with
  | scale factor => exact .obj (by simp [Json.Legible.str, Json.legible_float (h factor (by simp [numbers]))])
  | affine factor offset =>
    exact .obj (by simp [Json.Legible.str, Json.legible_float (h factor (by simp [numbers])),
      Json.legible_float (h offset (by simp [numbers]))])
  | cast => exact .obj (by simp [Json.Legible.str])

theorem AdapterSpec.legible_toJson {s : AdapterSpec} (h : s.kernel.ReadBack) : s.toJson.Legible := by
  have hcost : s.cost.toNat < UInt64.size := s.cost.toNat_lt_size.trans (by decide)
  refine .obj (List.forall_mem_cons.mpr ⟨.int (Json.spells_int hcost), ?_⟩)
  exact List.forall_mem_singleton.mpr (Kernel.legible_toJson h)

theorem PortDeclaration.legible_toJson (p : PortDeclaration) : p.toJson.Legible :=
  .obj (by simp [Json.Legible.str, PortType.toJson])

theorem Template.legible_toJson (t : Template) : t.toJson.Legible := by
  have hports (ports : List String) : (portList ports).Legible :=
    .arr (List.forall_mem_map.mpr fun s _ => .str s)
  cases t <;> exact .obj (by simp [Json.Legible.str, PortType.toJson, hports])

namespace Block

/-- The kernel, if there is one, has numbers that are read back. -/
def NumbersReadBack (b : Block) : Prop := ∀ spec ∈ b.adapter, spec.kernel.ReadBack

theorem legible_toJson {b : Block} (h : b.NumbersReadBack) : b.toJson.Legible := by
  have hports (ps : List PortDeclaration) : (Json.arr (ps.map PortDeclaration.toJson)).Legible :=
    .arr (List.forall_mem_map.mpr fun p _ => p.legible_toJson)
  refine .obj (List.forall_mem_append.mpr ⟨List.forall_mem_append.mpr
    ⟨List.forall_mem_append.mpr ⟨?_, ?_⟩, ?_⟩, ?_⟩)
  · simp [Json.Legible.str, hports]
  · split
    · simp
    · exact List.forall_mem_singleton.mpr (.arr (List.forall_mem_map.mpr fun t _ => t.legible_toJson))
  · cases hb : b.adapter with
    | none => simp [Json.optional]
    | some spec => exact List.forall_mem_singleton.mpr (AdapterSpec.legible_toJson (h spec hb))
  · split
    · exact List.forall_mem_singleton.mpr (.bool true)
    · simp

/-- The text of blocks is read as these blocks. -/
theorem fileDecoder_run_compact {bs : List Block} (h : ∀ b ∈ bs, b.FromText)
    (hnumbers : ∀ b ∈ bs, b.NumbersReadBack) :
    fileDecoder.run (readDocument (fileJson bs).compact) = .ok bs := by
  have hlegible : (fileJson bs).Legible :=
    .obj (List.forall_mem_singleton.mpr (.arr (List.forall_mem_map.mpr fun b hb =>
      legible_toJson (hnumbers b hb))))
  rw [Json.readDocument_compact hlegible]
  simp only [Decoder.run, fileDecoder_fileJson h]
  rfl

end Block

end PatchTyping
