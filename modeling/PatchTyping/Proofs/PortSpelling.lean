import PatchTyping.Proofs.ReadinessCondition
import PatchTyping.Proofs.SpliceReversal
import PatchTyping.Proofs.WrittenPatches

/-!
# Spelling of ports after normalization

In a text a port is spelled as the name of its node, a dot and its own name, and it is taken apart at
the last dot. Ports that an author has written come from such a text. The ports of a spliced adapter
come from the catalog, which does not look at how they are spelled. So a normalized patch is read back
from its text exactly when no adapter that was put in has a port with an empty name or a dot in its name.
-/

namespace PatchTyping

/-- The port can be told from its node in a text. -/
def IsPortName (name : String) : Prop := name ≠ "" ∧ '.' ∉ name.toList

instance (name : String) : Decidable (IsPortName name) := inferInstanceAs (Decidable (_ ∧ _))

/-- The two ports of an adapter that was put in. -/
def Splice.ports (catalog : Catalog) (s : Splice) : List PortKey :=
  match catalog.rule? s.rule with
  | some rule => [⟨s.node, rule.inputPort⟩, ⟨s.node, rule.outputPort⟩]
  | none => []

theorem adapterNodeId_ne_empty (source target : PortKey) (rule : String) :
    adapterNodeId source target rule ≠ "" := by
  intro h
  have hchars := congrArg String.toList h
  simp [adapterNodeId] at hchars

namespace Patch

/-- An edge starts or ends at the port. -/
def Touches (g : Patch) (k : PortKey) : Prop :=
  ∃ (id : EdgeId) (e : Edge), g.edges[id]? = some e ∧ (e.source = k ∨ e.target = k)

/-- The second patch touches the ports that the first one does, and those of the adapters. -/
structure Reaches (catalog : Catalog) (g : Patch) (ss : List Splice) (g' : Patch) : Prop where
  touches_iff : ∀ k, g'.Touches k ↔ g.Touches k ∨ ∃ s ∈ ss, k ∈ s.ports catalog
  adapters : ∀ s ∈ ss, s.node ≠ "" ∧ ∃ rule, catalog.rule? s.rule = some rule

section Step

variable {catalog : Catalog} {g g' : Patch} {r : Replacement}
  (hedge : g.edges[r.pair.edge]? = some ⟨r.pair.source, r.pair.target⟩)
  (hs : r.pair.spliceInto r.rule g = .ok g')
include hedge hs

/-- The ends of the replaced edge are still touched, by the edges to and from the adapter. -/
theorem touches_spliceInto (k : PortKey) : g'.Touches k ↔
    g.Touches k ∨ k = ⟨r.id, r.rule.inputPort⟩ ∨ k = ⟨r.id, r.rule.outputPort⟩ := by
  have hiff := Spliced.edges_step hs
  have hentry : g'.edges[r.entry.1]? = some r.entry.2 := (hiff _ _).mpr (.inr (.inl rfl))
  have hexit : g'.edges[r.exit.1]? = some r.exit.2 := (hiff _ _).mpr (.inr (.inr rfl))
  constructor
  · rintro ⟨id, e, he, hk⟩
    rcases (hiff id e).mp he with ⟨hold, -⟩ | heq | heq
    · exact .inl ⟨id, e, hold, hk⟩
    · cases heq
      rcases hk with rfl | rfl
      · exact .inl ⟨_, _, hedge, .inl rfl⟩
      · exact .inr (.inl rfl)
    · cases heq
      rcases hk with rfl | rfl
      · exact .inr (.inr rfl)
      · exact .inl ⟨_, _, hedge, .inr rfl⟩
  · rintro (⟨id, e, he, hk⟩ | rfl | rfl)
    · by_cases hid : r.pair.edge = id
      · rw [← hid, hedge] at he
        cases he
        rcases hk with rfl | rfl
        · exact ⟨_, _, hentry, .inl rfl⟩
        · exact ⟨_, _, hexit, .inr rfl⟩
      · exact ⟨id, e, (hiff id e).mpr (.inl ⟨he, hid⟩), hk⟩
    · exact ⟨_, _, hentry, .inr rfl⟩
    · exact ⟨_, _, hexit, .inl rfl⟩

end Step

theorem reaches_chain {catalog : Catalog} (hc : catalog.Built) :
    SpliceChain catalog (Reaches catalog) where
  none g := ⟨by simp, by simp⟩
  one {g g' r} hedge hr hs := by
    have hrule : catalog.rule? r.splice.rule = some r.rule := hc.rule?_eq hr
    have hports : r.splice.ports catalog =
        [⟨r.id, r.rule.inputPort⟩, ⟨r.id, r.rule.outputPort⟩] := by
      simp only [Splice.ports, hrule]
      rfl
    refine ⟨fun k => ?_, ?_⟩
    · rw [touches_spliceInto hedge hs]
      simp [hports]
    · rintro s hs'
      cases List.mem_singleton.mp hs'
      exact ⟨adapterNodeId_ne_empty _ _ _, _, hrule⟩
  append {g g' g'' ss ss'} h h' := by
    refine ⟨fun k => ?_, fun s hs => ?_⟩
    · rw [h'.touches_iff, h.touches_iff]
      simp only [List.mem_append, or_and_right, exists_or, or_assoc]
    · exact (List.mem_append.mp hs).elim (h.adapters s) (h'.adapters s)

/-- A run adds nothing but adapters to a patch that was read, so only their ports can be misspelled. -/
theorem FromText.grows_iff {catalog : Catalog} {g g' : Patch} (h : g.FromText)
    (hgrows : g.Grows catalog g') :
    g'.FromText ↔ ∀ k, g'.Touches k → PortKey.parse? k.text = some k := by
  constructor
  · rintro hread k ⟨id, e, he, rfl | rfl⟩
    · obtain ⟨s, hs⟩ := (hread.ends he).1
      exact (PortKey.parse?_eq_some_iff.mp hs).1 ▸ hs
    · obtain ⟨s, hs⟩ := (hread.ends he).2
      exact (PortKey.parse?_eq_some_iff.mp hs).1 ▸ hs
  · intro hread
    refine ⟨fun {id n name t} hn ht => ?_, fun he => ?_⟩
    · rcases hgrows.node_new id n hn with hold | ⟨rule, -, -, hnone⟩
      · exact h.override hold ht
      · simp [hnone] at ht
    · exact ⟨⟨_, hread _ ⟨_, _, he, .inl rfl⟩⟩, _, hread _ ⟨_, _, he, .inr rfl⟩⟩

theorem Reaches.parse?_text_iff {catalog : Catalog} {g g' : Patch} {ss : List Splice}
    (h : g.Reaches catalog ss g') (hg : ∀ k, g.Touches k → PortKey.parse? k.text = some k) :
    (∀ k, g'.Touches k → PortKey.parse? k.text = some k) ↔
      ∀ s ∈ ss, ∃ rule, catalog.rule? s.rule = some rule ∧
        IsPortName rule.inputPort ∧ IsPortName rule.outputPort := by
  have hspelled : ∀ s ∈ ss, ∀ rule, catalog.rule? s.rule = some rule →
      ((∀ k ∈ s.ports catalog, PortKey.parse? k.text = some k) ↔
        IsPortName rule.inputPort ∧ IsPortName rule.outputPort) := by
    intro s hs rule hrule
    have hnode := (h.adapters s hs).1
    simp [Splice.ports, hrule, PortKey.parse?_eq_some_iff, IsPortName, hnode]
  constructor
  · intro hall s hs
    obtain ⟨rule, hrule⟩ := (h.adapters s hs).2
    exact ⟨rule, hrule, (hspelled s hs rule hrule).mp fun k hk =>
      hall k ((h.touches_iff k).mpr (.inr ⟨s, hs, hk⟩))⟩
  · intro hall k hk
    rcases (h.touches_iff k).mp hk with hold | ⟨s, hs, hk⟩
    · exact hg k hold
    · obtain ⟨rule, hrule, hnames⟩ := hall s hs
      exact (hspelled s hs rule hrule).mpr hnames k hk

/-- A patch that was read is, once normalized, read back from its text exactly when every end of every
edge is, and that is exactly when all adapters that were put in have ports with proper names. -/
theorem normalize_reads_back_iff {doc : DocumentText} {g : Patch} (h : decoder.run doc = .ok g)
    {catalog : Catalog} (hc : catalog.Built) (options : NormalizationOptions) :
    let r := g.normalize catalog options
    (ofText r.patch.canonicalText = .ok r.patch ↔
      ∀ (id : EdgeId) (e : Edge), r.patch.edges[id]? = some e →
        PortKey.parse? e.source.text = some e.source ∧
          PortKey.parse? e.target.text = some e.target) ∧
      (ofText r.patch.canonicalText = .ok r.patch ↔
        ∀ s ∈ r.inserted, ∃ rule, catalog.rule? s.rule = some rule ∧
          IsPortName rule.inputPort ∧ IsPortName rule.outputPort) := by
  intro r
  have hg : g.FromText := fromText_of_run h
  have hends := hg.grows_iff (.refl catalog g)
  have hgrows : g.Grows catalog r.patch := converge_grows hc _ g
  have hreaches : g.Reaches catalog r.inserted r.patch := (reaches_chain hc).converge _ g
  have hback : ofText r.patch.canonicalText = .ok r.patch ↔
      ∀ k, r.patch.Touches k → PortKey.parse? k.text = some k :=
    ofText_canonicalText_iff.trans (hg.grows_iff hgrows)
  refine ⟨hback.trans ⟨fun hall id e he => ?_, fun hall k => ?_⟩,
    hback.trans (hreaches.parse?_text_iff (hends.mp hg))⟩
  · exact ⟨hall _ ⟨id, e, he, .inl rfl⟩, hall _ ⟨id, e, he, .inr rfl⟩⟩
  · rintro ⟨id, e, he, rfl | rfl⟩
    · exact (hall id e he).1
    · exact (hall id e he).2

end Patch

namespace Catalog

/-- A clock that counts in whole milliseconds, a timer that wants a fraction, and an adapter from the
one to the other whose input has the given name. -/
def casting (input : String) : Catalog := (Catalog.empty.insertAll [
  { name := "Clock", outputs := [⟨"t", ⟨.inst .int, .inst .ms, .inst .one, .continuous⟩⟩] },
  { name := "Timer", inputs := [⟨"t", ⟨.inst .float, .inst .ms, .inst .one, .continuous⟩⟩] },
  { name := "Cast"
    inputs := [⟨input, ⟨.inst .int, .inst .ms, .var "C", .continuous⟩⟩]
    outputs := [⟨"out", ⟨.inst .float, .inst .ms, .var "C", .continuous⟩⟩]
    adapter := some { cost := 1, kernel := .cast } }]).1

theorem casting_built (input : String) : (casting input).Built := Built.empty.insertAll _

end Catalog

namespace Patch

/-- The catalog takes all three names, and each time the patch is ready for the backend. It comes back
from its text with the first name only. -/
theorem timedClock_reads_back :
    let r input := timedClock.normalize (.casting input) {}
    ofText timedClock.canonicalText = .ok timedClock ∧
      (∀ input ∈ ["in", "in.int", ""], (Catalog.casting input).Built ∧
        (r input).ready = true ∧ (r input).inserted.map (·.rule) = ["Cast"]) ∧
      ofText (r "in").patch.canonicalText = .ok (r "in").patch ∧
      ofText (r "in.int").patch.canonicalText ≠ .ok (r "in.int").patch ∧
      ofText (r "").patch.canonicalText ≠ .ok (r "").patch := by
  intro r
  have hread : ofText timedClock.canonicalText = .ok timedClock := eq_ok_of_toOption (by decide +kernel)
  have hruns : ∀ input ∈ ["in", "in.int", ""],
      (r input).ready = true ∧ (r input).inserted.map (·.rule) = ["Cast"] := by decide +kernel
  have hports : ∀ input ∈ ["in", "in.int", ""],
      ((Catalog.casting input).rule? "Cast").map (fun rule => (rule.inputPort, rule.outputPort)) =
        some (input, "out") := by decide +kernel
  have hiff : ∀ input ∈ ["in", "in.int", ""],
      (ofText (r input).patch.canonicalText = .ok (r input).patch ↔ IsPortName input) := by
    intro input hinput
    obtain ⟨rule, hrule, hnames⟩ := Option.map_eq_some_iff.mp (hports input hinput)
    obtain ⟨hin, hout⟩ := Prod.mk.inj hnames
    obtain ⟨s, hs, hcast⟩ := List.map_eq_singleton_iff.mp (hruns input hinput).2
    have hproper : IsPortName "out" := by decide +kernel
    have hback : _ ↔ ∀ s ∈ (r input).inserted, _ :=
      (normalize_reads_back_iff hread (Catalog.casting_built input) {}).2
    simpa only [hs, List.forall_mem_singleton, hcast, hrule, Option.some.injEq, exists_eq_left', hin,
      hout, hproper, and_true] using hback
  refine ⟨hread, fun input hinput => ⟨Catalog.casting_built input, hruns input hinput⟩, ?_, ?_, ?_⟩
  · exact (hiff "in" (by simp)).mpr (by decide +kernel)
  · exact mt (hiff "in.int" (by simp)).mp (by decide +kernel)
  · exact mt (hiff "" (by simp)).mp (by decide +kernel)

end Patch

end PatchTyping
