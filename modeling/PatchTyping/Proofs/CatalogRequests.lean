import PatchTyping.Proofs.CatalogValidity
import PatchTyping.Proofs.WrittenBlocks

/-!
# Requests to a catalog

A catalog is filled by requests that may fail. A block that is refused changes nothing, and a document
that is refused at some block has added the blocks before it. The order in which blocks are added makes
no difference to the outcome if all are accepted, and none to whether they are. A catalog that was only
filled from documents is read back from its own text.
-/

namespace PatchTyping

namespace Block

/-- What holds of every block in a catalog. -/
structure WellFormed (b : Block) : Prop where
  names_nodup : ((b.inputs ++ b.outputs).map (·.name)).Nodup
  template_ports : ∀ t ∈ b.templates, ∀ name ∈ t.ports, ∃ q ∈ b.inputs ++ b.outputs, q.name = name
  base_admitted : ∀ q ∈ b.inputs ++ b.outputs, ∀ p u, (b.baseType q).payload = .inst p →
    (b.baseType q).unit = .inst u → p.admits u = true
  adapter : b.adapter.isSome = true → ∃ input output, b.Converts input output

theorem map_snd_ports (b : Block) : b.ports.map (·.2) = b.inputs ++ b.outputs := by
  simp [ports, Function.comp_def]

theorem portNames_eq (b : Block) : b.portNames = (b.inputs ++ b.outputs).map (·.name) := by
  rw [← map_snd_ports, List.map_map]
  rfl

theorem Valid.wellFormed {b : Block} (h : b.Valid) : b.WellFormed where
  names_nodup := b.portNames_eq ▸ h.names_nodup
  template_ports t ht name hname := by
    have hport := h.template_ports t ht name hname
    rwa [portNames_eq, List.mem_map] at hport
  base_admitted q hq p u hp hu := by
    rw [← map_snd_ports] at hq
    obtain ⟨x, hx, rfl⟩ := List.mem_map.mp hq
    have hpair := h.base_admitted x hx
    simpa [PortType.disallowedPair?, hp, hu] using hpair
  adapter ha := converts_of_adapterFlaw?_eq_none (h.adapter_sound ha)

end Block

namespace Catalog

/-! ### One block -/

theorem insert_eq_none_iff {c c' : Catalog} {b : Block} : c.insert b = (c', none) ↔
    c.lookup? b.name = none ∧ b.Valid ∧ c' = ⟨c.blocks.insert b.name b⟩ := by
  rw [← Block.refusal?_eq_none_iff]
  unfold insert
  split
  · next h => simp_all [lookup?]
  · next h =>
    have hfree : c.lookup? b.name = none := by simpa [lookup?] using h
    cases b.refusal? with
    | some e => simp
    | none => simp [hfree, eq_comm]

/-- A block that is refused changes nothing. -/
theorem insert_eq_some {c c' : Catalog} {b : Block} {e : CatalogError}
    (h : c.insert b = (c', some e)) : c' = c := by
  unfold insert at h
  split at h
  · exact (congrArg Prod.fst h).symm
  · split at h
    · exact (congrArg Prod.fst h).symm
    · cases h

/-! ### Blocks in order -/

section InsertAll

variable {c c' : Catalog} {bs : List Block}

theorem insertAll_eq_none_iff : c.insertAll bs = (c', none) ↔
    (bs.map (·.name)).Nodup ∧ (∀ b ∈ bs, c.lookup? b.name = none ∧ b.Valid) ∧
      c' = ⟨c.blocks.insertMany (bs.map fun b => (b.name, b))⟩ := by
  induction bs generalizing c with
  | nil => simp [insertAll, eq_comm]
  | cons b bs ih =>
    have hrest : (∀ d ∈ bs, lookup? ⟨c.blocks.insert b.name b⟩ d.name = none ∧ d.Valid) ↔
        b.name ∉ bs.map (·.name) ∧ ∀ d ∈ bs, c.lookup? d.name = none ∧ d.Valid := by
      simp only [lookup?, Std.ExtTreeMap.getElem?_insert, Std.LawfulEqOrd.compare_eq_iff_eq,
        List.mem_map, not_exists, not_and]
      grind
    rw [insertAll, List.map_cons, List.nodup_cons, List.forall_mem_cons, List.map_cons,
      Std.ExtTreeMap.insertMany_cons]
    split
    · next c₁ hb =>
      obtain ⟨hfree, hvalid, rfl⟩ := insert_eq_none_iff.mp hb
      simp only [ih, hrest]
      grind
    · next c₁ e hb =>
      simp only [Prod.mk.injEq, reduceCtorEq, and_false, false_iff]
      rintro ⟨-, ⟨⟨hfree, hvalid⟩, -⟩, -⟩
      rw [insert_eq_none_iff.mpr ⟨hfree, hvalid, rfl⟩] at hb
      cases hb

/-- The blocks before the refused one have all been added. -/
theorem insertAll_stops {e : CatalogError} (h : c.insertAll bs = (c', some e)) :
    ∃ before b after, bs = before ++ b :: after ∧ c.insertAll before = (c', none) ∧
      c'.insert b = (c', some e) := by
  induction bs generalizing c with
  | nil => cases h
  | cons b bs ih =>
    rw [insertAll] at h
    split at h
    · next c₁ hb =>
      obtain ⟨before, d, after, rfl, hbefore, hd⟩ := ih h
      exact ⟨b :: before, d, after, rfl, by rw [insertAll, hb]; exact hbefore, hd⟩
    · next c₁ e' hb =>
      cases h
      obtain rfl := insert_eq_some hb
      exact ⟨[], b, bs, rfl, rfl, hb⟩

theorem lookup?_insertAll (h : c.insertAll bs = (c', none)) {name : String} {b : Block} :
    c'.lookup? name = some b ↔ c.lookup? name = some b ∨ b ∈ bs ∧ b.name = name := by
  induction bs generalizing c with
  | nil =>
    cases h
    simp
  | cons d bs ih =>
    rw [insertAll] at h
    split at h
    · next c₁ hd =>
      obtain ⟨hfree, -, rfl⟩ := insert_eq_none_iff.mp hd
      have hstep : lookup? ⟨c.blocks.insert d.name d⟩ name = some b ↔
          c.lookup? name = some b ∨ b = d ∧ b.name = name := by
        simp only [lookup?, Std.ExtTreeMap.getElem?_insert, Std.LawfulEqOrd.compare_eq_iff_eq]
          at hfree ⊢
        grind
      rw [ih h, hstep, List.mem_cons, or_and_right, or_assoc]
    · cases h

/-- Blocks may be added in any order. -/
theorem insertAll_perm {bs' : List Block} (hperm : bs.Perm bs') :
    c.insertAll bs = (c', none) ↔ c.insertAll bs' = (c', none) := by
  rw [insertAll_eq_none_iff, insertAll_eq_none_iff, (hperm.map (·.name)).nodup_iff]
  refine and_congr_right fun hnodup => and_congr (by simp only [hperm.mem_iff]) ?_
  have hkeys : ((bs'.map fun b => (b.name, b)).map (·.1)).Nodup := by
    rwa [List.map_map]
  rw [OrderedMaps.insertMany_perm (hperm.symm.map fun b => (b.name, b)) hkeys]

/-- Nothing enters but what was listed, whether or not all of it does. -/
theorem mem_of_lookup?_insertAll {name : String} {b : Block}
    (h : (c.insertAll bs).1.lookup? name = some b) : c.lookup? name = some b ∨ b ∈ bs := by
  cases hall : c.insertAll bs with
  | mk c' error =>
    rw [hall] at h
    cases error with
    | none => exact ((lookup?_insertAll hall).mp h).imp_right And.left
    | some e =>
      obtain ⟨before, d, after, rfl, hbefore, -⟩ := insertAll_stops hall
      exact ((lookup?_insertAll hbefore).mp h).imp_right fun hb => List.mem_append_left _ hb.1

end InsertAll

/-! ### Documents -/

/-- A document that is refused cannot be read, or its blocks have been added up to a refused one. -/
theorem load_eq_error {c c' : Catalog} {source : String} {doc : DocumentText} {e : CatalogError}
    (h : c.load source doc = (c', .error e)) :
    (c' = c ∧ ∃ fault, Block.fileDecoder.run doc = .error fault ∧ e = .document source fault) ∨
      ∃ before b after, Block.fileDecoder.run doc = .ok (before ++ b :: after) ∧
        c.insertAll before = (c', none) ∧ c'.insert b = (c', some e) := by
  unfold load at h
  split at h
  · next fault hrun =>
    cases h
    exact .inl ⟨rfl, fault, hrun, rfl⟩
  · next blocks hrun =>
    split at h
    · cases h
    · next hall =>
      cases h
      obtain ⟨before, b, after, rfl, hbefore, hb⟩ := insertAll_stops hall
      exact .inr ⟨before, b, after, hrun, hbefore, hb⟩

/-- All types in the catalog stand in some text. -/
def AllFromText (c : Catalog) : Prop := ∀ name b, c.lookup? name = some b → b.FromText

theorem allFromText_empty : empty.AllFromText := by
  intro name b hb
  simp [lookup?, empty] at hb

theorem AllFromText.load {c : Catalog} (h : c.AllFromText) (source : String) (doc : DocumentText) :
    (c.load source doc).1.AllFromText := by
  unfold Catalog.load
  split
  · exact h
  · next blocks hrun =>
    obtain ⟨_, hdecode, hrun⟩ := exists_of_bind_eq_ok hrun
    obtain ⟨-, -, hrun⟩ := exists_of_bind_eq_ok hrun
    cases hrun
    have hblocks := Block.fileDecoder_yields _ _ hdecode
    have hall : (c.insertAll blocks).1.AllFromText := by
      intro name b hb
      rcases mem_of_lookup?_insertAll hb with hold | hnew
      · exact h name b hold
      · exact hblocks b hnew
    split
    · next heq => rwa [heq] at hall
    · next heq => rwa [heq] at hall

theorem exists_of_mem_toList {c : Catalog} {b : Block} (h : b ∈ c.toList) :
    ∃ name, c.lookup? name = some b := by
  obtain ⟨x, hx, rfl⟩ := List.mem_map.mp h
  exact ⟨x.1, Std.ExtTreeMap.mem_toList_iff_getElem?_eq_some.mp hx⟩

theorem load_canonicalText {c : Catalog} (hvalid : c.AllValid) (htext : c.AllFromText)
    (hnumbers : ∀ name b, c.lookup? name = some b → b.NumbersReadBack) (source : String) :
    empty.load source (readDocument c.canonicalText) = (c, .ok c.size) := by
  have hrun : Block.fileDecoder.run (readDocument c.canonicalText) = .ok c.toList := by
    refine Block.fileDecoder_run_compact (fun b hb => ?_) fun b hb => ?_
    · obtain ⟨name, hname⟩ := exists_of_mem_toList hb
      exact htext name b hname
    · obtain ⟨name, hname⟩ := exists_of_mem_toList hb
      exact hnumbers name b hname
  have hentries : (c.toList.map fun b => (b.name, b)) = c.blocks.toList := by
    rw [toList, List.map_map]
    refine (List.map_congr_left fun x hx => ?_).trans (List.map_id _)
    have hx' := hvalid x.1 x.2 (Std.ExtTreeMap.mem_toList_iff_getElem?_eq_some.mp hx)
    exact Prod.ext hx'.1 rfl
  have hall : empty.insertAll c.toList = (c, none) := by
    refine insertAll_eq_none_iff.mpr ⟨?_, fun b hb => ⟨by simp [lookup?, empty], ?_⟩, ?_⟩
    · have hkeys := OrderedMaps.nodup_keys c.blocks
      rwa [← hentries, List.map_map] at hkeys
    · obtain ⟨name, hname⟩ := exists_of_mem_toList hb
      exact (hvalid name b hname).2
    · rw [hentries, empty, ← Std.ExtTreeMap.ofList_eq_insertMany_empty, OrderedMaps.ofList_toList]
  have hsize : c.toList.length = c.size := by
    rw [toList, List.length_map, Std.ExtTreeMap.length_toList]
    rfl
  simp only [load, hrun, hall, hsize]

end Catalog

/-! ### Requests -/

/-- What can be asked of a catalog. -/
inductive CatalogRequest where
  | insert (b : Block)
  | load (source text : String)

/-- The catalog after a request, and the error if it fails. -/
def CatalogRequest.answer (c : Catalog) : CatalogRequest → Catalog × Option CatalogError
  | insert b => c.insert b
  | load source text =>
    match c.load source (readDocument text) with
    | (c', .ok _) => (c', none)
    | (c', .error e) => (c', some e)

namespace Catalog

/-- The catalog after requests, of which any may fail. -/
def serve (c : Catalog) (requests : List CatalogRequest) : Catalog :=
  requests.foldl (fun c r => (r.answer c).1) c

theorem answer_load_fst (c : Catalog) (source text : String) :
    ((CatalogRequest.load source text).answer c).1 = (c.load source (readDocument text)).1 := by
  unfold CatalogRequest.answer
  dsimp only
  split
  · next h => rw [h]
  · next h => rw [h]

theorem Built.answer {c : Catalog} (h : c.Built) (r : CatalogRequest) : (r.answer c).1.Built := by
  cases r with
  | insert b => exact h.insert b
  | load source text =>
    rw [answer_load_fst]
    exact h.load source _

theorem Built.serve {c : Catalog} (h : c.Built) (requests : List CatalogRequest) :
    (c.serve requests).Built := by
  induction requests generalizing c with
  | nil => exact h
  | cons r requests ih => exact ih (h.answer r)

theorem AllFromText.serve {c : Catalog} (h : c.AllFromText) (loads : List (String × String)) :
    (c.serve (loads.map fun x => .load x.1 x.2)).AllFromText := by
  induction loads generalizing c with
  | nil => exact h
  | cons x loads ih =>
    have hload : ((CatalogRequest.load x.1 x.2).answer c).1.AllFromText := by
      rw [answer_load_fst]
      exact h.load x.1 _
    exact ih hload

/-- After any requests all blocks are well formed and stand under their own names. A refused block
changes nothing, and a refused document has added what stands before its first refused block, or nothing
if it cannot be read. Blocks may be added in any order. A catalog that was filled from documents is read
back from its text, if the numbers in it are. -/
theorem requests_exact :
    (∀ (requests : List CatalogRequest) (name : String) (b : Block),
        (empty.serve requests).lookup? name = some b → b.name = name ∧ b.WellFormed) ∧
      (∀ (c c' : Catalog) (b : Block) (e : CatalogError),
        (CatalogRequest.insert b).answer c = (c', some e) → c' = c) ∧
      (∀ (c c' : Catalog) (source text : String) (e : CatalogError),
        (CatalogRequest.load source text).answer c = (c', some e) →
          (c' = c ∧ ∃ fault, Block.fileDecoder.run (readDocument text) = .error fault ∧
            e = .document source fault) ∨
          ∃ before b after, Block.fileDecoder.run (readDocument text) = .ok (before ++ b :: after) ∧
            c'.insert b = (c', some e) ∧ ∀ name d, c'.lookup? name = some d ↔
              c.lookup? name = some d ∨ d ∈ before ∧ d.name = name) ∧
      (∀ (c : Catalog) (bs bs' : List Block), bs.Perm bs' →
        ((c.insertAll bs).2 = none ↔ (c.insertAll bs').2 = none) ∧
          ((c.insertAll bs).2 = none → (c.insertAll bs').1 = (c.insertAll bs).1 ∧
            (c.insertAll bs').1.canonicalText = (c.insertAll bs).1.canonicalText)) ∧
      ∀ (loads : List (String × String)) (source : String),
        let c := empty.serve (loads.map fun x => .load x.1 x.2)
        (∀ name b, c.lookup? name = some b → b.NumbersReadBack) →
          empty.load source (readDocument c.canonicalText) = (c, .ok c.size) := by
  refine ⟨fun requests name b hb => ?_, fun c c' b e => insert_eq_some, fun c c' source text e h => ?_,
    fun c bs bs' hperm => ?_, fun loads source hnumbers => ?_⟩
  · obtain ⟨hname, hvalid⟩ := (Built.empty.serve requests).allValid name b hb
    exact ⟨hname, hvalid.wellFormed⟩
  · have hload : c.load source (readDocument text) = (c', .error e) := by
      unfold CatalogRequest.answer at h
      dsimp only at h
      split at h
      · cases h
      · next hload =>
        cases h
        exact hload
    rcases load_eq_error hload with hunread | ⟨before, b, after, hrun, hbefore, hb⟩
    · exact .inl hunread
    · exact .inr ⟨before, b, after, hrun, hb, fun name d => lookup?_insertAll hbefore⟩
  · have hsame : ∀ {bs bs' : List Block}, bs.Perm bs' → (c.insertAll bs).2 = none →
        c.insertAll bs' = c.insertAll bs := by
      intro bs bs' hperm hnone
      have hall : c.insertAll bs = ((c.insertAll bs).1, none) := Prod.ext rfl hnone
      rw [(insertAll_perm hperm).mp hall, ← hnone]
    refine ⟨⟨fun h => by rw [hsame hperm h, h], fun h => by rw [hsame hperm.symm h, h]⟩, fun h => ?_⟩
    rw [hsame hperm h]
    exact ⟨rfl, rfl⟩
  · exact load_canonicalText (Built.empty.serve _).allValid (allFromText_empty.serve loads) hnumbers
      source

/-- A clock that counts in milliseconds, and an adapter that turns them into a number with a fraction. -/
def clockDocument : String :=
  "\x7b\"blocks\":[\x7b\"name\":\"Clock\",\"outputs\":[\x7b\"name\":\"t\",\"type\":\"int:ms\"\x7d]\x7d,"
    ++ "\x7b\"name\":\"Cast\",\"inputs\":[\x7b\"name\":\"in\",\"type\":\"int:ms@?C\"\x7d],"
    ++ "\"outputs\":[\x7b\"name\":\"out\",\"type\":\"float:ms@?C\"\x7d],"
    ++ "\"adapter\":\x7b\"kernel\":\x7b\"op\":\"cast\"\x7d\x7d\x7d]\x7d"

/-- The document is loaded and read back. A second time it is refused at its first block, and so is
another block of that name. -/
theorem clockDocument_requests :
    let c := empty.serve [.load "clocks" clockDocument]
    (∃ b, c.lookup? "Cast" = some b ∧ b.adapter.isSome = true ∧ b.WellFormed) ∧
      (∃ e, (CatalogRequest.insert { name := "Clock" }).answer c = (c, some e)) ∧
      (∃ c' e, (CatalogRequest.load "again" clockDocument).answer c = (c', some e) ∧
        ∀ d, c.lookup? "Cast" = some d → c'.lookup? "Cast" = some d) ∧
      (empty.insertAll [{ name := "Clock" }, { name := "Timer" }]).1 =
        (empty.insertAll [{ name := "Timer" }, { name := "Clock" }]).1 ∧
      empty.load "copy" (readDocument c.canonicalText) = (c, .ok 2) := by
  intro c
  obtain ⟨hwell, hinsert, hload, horder, hback⟩ := requests_exact
  obtain ⟨hcast, hclock, hagain, hplain, hsize⟩ :
      ((c.lookup? "Cast").any fun b => b.adapter.isSome) = true ∧
        ((CatalogRequest.insert { name := "Clock" }).answer c).2.isSome = true ∧
        ((CatalogRequest.load "again" clockDocument).answer c).2.isSome = true ∧
        (c.toList.all fun b => b.adapter.all fun spec => spec.kernel.numbers.isEmpty) = true ∧
        c.size = 2 := by
    decide +kernel
  have hboth : (empty.insertAll [{ name := "Timer" }, { name := "Clock" }]).2.isNone = true := by
    decide +kernel
  have hnumbers : ∀ name b, c.lookup? name = some b → b.NumbersReadBack := by
    intro name b hb spec hspec x hx
    have hmem : b ∈ c.toList :=
      List.mem_map.mpr ⟨(name, b), Std.ExtTreeMap.mem_toList_iff_getElem?_eq_some.mpr hb, rfl⟩
    have hnone := List.all_eq_true.mp hplain b hmem
    rw [Option.mem_def.mp hspec, Option.all_some, List.isEmpty_iff] at hnone
    rw [hnone] at hx
    cases hx
  have hc : c = empty.serve [.load "clocks" clockDocument] := rfl
  have hcopy := hback [("clocks", clockDocument)] "copy" hnumbers
  clear_value c
  obtain ⟨b, hb, hadapter⟩ := (Option.any_eq_true _ _).mp hcast
  cases hrefused : (CatalogRequest.insert { name := "Clock" }).answer c with
  | mk c₁ error =>
    cases hstopped : (CatalogRequest.load "again" clockDocument).answer c with
    | mk c₂ error' =>
      rw [hrefused] at hclock
      rw [hstopped] at hagain
      obtain ⟨e, rfl⟩ := Option.isSome_iff_exists.mp hclock
      obtain ⟨e', rfl⟩ := Option.isSome_iff_exists.mp hagain
      refine ⟨⟨b, hb, hadapter, (hwell _ "Cast" b (hc ▸ hb)).2⟩, ⟨e, ?_⟩,
        ⟨c₂, e', rfl, fun d hd => ?_⟩, ?_, ?_⟩
      · rw [hinsert c c₁ _ e hrefused]
      · rcases hload c c₂ _ _ e' hstopped with ⟨rfl, -⟩ | ⟨_, _, _, -, -, hlookup⟩
        · exact hd
        · exact (hlookup "Cast" d).mpr (.inl hd)
      · exact ((horder empty _ _ (.swap _ _ _)).2 (Option.isNone_iff_eq_none.mp hboth)).1
      · rw [← hsize, hc]
        exact hcopy

end Catalog

end PatchTyping
