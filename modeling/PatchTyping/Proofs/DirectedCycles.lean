import Mathlib.Data.List.Chain
import Mathlib.Data.List.Nodup
import PatchTyping.Proofs.ComponentListings
import PatchTyping.StandardBlocks

/-!
# Directed cycles and their reports

A directed cycle is a list of different nodes, each leading to the next and the last to the first. Every
way from a node back to itself runs through one. So the reports can be read off the cycles of a patch: one
report for each strong component with a cycle, illegal when a cycle in it passes no block that reads the
previous frame.
-/

namespace PatchTyping

open Relation

/-! ## Closed walks -/

section ClosedWalks

variable {A : Type} {R : A → A → Prop} {c : List A}

/-- Each of the list leads to the next, and the last to the first. -/
structure ClosedWalk (R : A → A → Prop) (c : List A) : Prop where
  ne_nil : c ≠ []
  chain : (c ++ c.take 1).IsChain R

theorem exists_closedWalk {v : A} (h : TransGen R v v) : ∃ c, ClosedWalk R c := by
  obtain ⟨w, hvw, hwv⟩ := TransGen.tail'_iff.mp h
  obtain ⟨l, hchain, hlast⟩ := List.exists_isChain_cons_of_relationReflTransGen hvw
  refine ⟨v :: l, List.cons_ne_nil v l, List.isChain_append.mpr ⟨hchain, .singleton v, ?_⟩⟩
  intro x hx y hy
  rw [List.getLast?_eq_some_getLast (List.cons_ne_nil v l), Option.mem_some, hlast] at hx
  cases hx
  cases hy
  exact hwv

namespace ClosedWalk

theorem exists_transGen (h : ClosedWalk R c) : ∃ v ∈ c, TransGen R v v := by
  obtain ⟨hne, hchain⟩ := h
  cases c with
  | nil => exact absurd rfl hne
  | cons v l =>
    obtain ⟨hwalk, -, hback⟩ := List.isChain_append.mp hchain
    have hreach := List.relationReflTransGen_of_exists_isChain_cons l hwalk rfl
    have hlast := List.getLast_mem_getLast? (List.cons_ne_nil v l)
    exact ⟨v, List.mem_cons_self, TransGen.tail' hreach (hback _ hlast v rfl)⟩

theorem entered (h : ClosedWalk R c) {w : A} (hw : w ∈ c) : ∃ u ∈ c, R u w := by
  have hnext : ∀ (l : List A) (v : A), (v :: l).IsChain R → ∀ w ∈ l, ∃ u ∈ (v :: l).dropLast, R u w := by
    intro l
    induction l with
    | nil => simp
    | cons x l ih =>
      intro v hchain w hw
      obtain ⟨hvx, hchain⟩ := List.isChain_cons_cons.mp hchain
      rw [List.dropLast_cons_cons]
      rcases List.mem_cons.mp hw with rfl | hw
      · exact ⟨v, List.mem_cons_self, hvx⟩
      · obtain ⟨u, hu, huw⟩ := ih x hchain w hw
        exact ⟨u, List.mem_cons_of_mem _ hu, huw⟩
  obtain ⟨hne, hchain⟩ := h
  cases c with
  | nil => exact absurd rfl hne
  | cons v l =>
    have hmem : w ∈ l ++ [v] := by
      rcases List.mem_cons.mp hw with rfl | hw
      · exact List.mem_append_right _ List.mem_cons_self
      · exact List.mem_append_left _ hw
    have hentered := hnext (l ++ [v]) v hchain w hmem
    rwa [← List.cons_append, List.dropLast_concat] at hentered

/-- A node that comes twice cuts off a shorter closed walk. -/
theorem exists_shorter (h : ClosedWalk R c) (hc : ¬ c.Nodup) :
    ∃ d, ClosedWalk R d ∧ d.length < c.length := by
  have hsplit : ∀ l : List A, ¬ l.Nodup → ∃ a x b e, l = a ++ x :: (b ++ x :: e) := by
    intro l hl
    induction l with
    | nil => exact absurd List.nodup_nil hl
    | cons x l ih =>
      by_cases hx : x ∈ l
      · obtain ⟨b, e, rfl⟩ := List.append_of_mem hx
        exact ⟨[], x, b, e, rfl⟩
      · obtain ⟨a, y, b, e, rfl⟩ := ih fun hnodup => hl (List.nodup_cons.mpr ⟨hx, hnodup⟩)
        exact ⟨x :: a, y, b, e, rfl⟩
  obtain ⟨a, x, b, e, hce⟩ := hsplit c hc
  refine ⟨x :: b, ⟨List.cons_ne_nil x b, ?_⟩, ?_⟩
  · have hchain := h.chain
    rw [hce, List.append_assoc, List.cons_append, List.append_assoc, List.cons_append] at hchain
    have htail := (List.isChain_split.mp hchain).2
    rw [← List.cons_append] at htail
    exact (List.isChain_split.mp htail).1
  · rw [hce]
    simp only [List.length_append, List.length_cons]
    omega

theorem exists_nodup (h : ClosedWalk R c) : ∃ d, ClosedWalk R d ∧ d.Nodup := by
  induction hn : c.length using Nat.strongRecOn generalizing c with
  | ind n ih =>
    by_cases hc : c.Nodup
    · exact ⟨c, h, hc⟩
    · obtain ⟨d, hd, hlt⟩ := h.exists_shorter hc
      exact ih d.length (hn ▸ hlt) hd rfl

end ClosedWalk

end ClosedWalks

namespace Patch

variable {g : Patch} {catalog : Catalog} {v : NodeId} {nodes c : List NodeId} {r : CycleReport}

/-! ## Components and cycles of a patch -/

/-- The nodes, in order, are all that lead to and from one of the patch. -/
structure StrongComponent (g : Patch) (nodes : List NodeId) : Prop where
  sorted : nodes.Pairwise (· < ·)
  members : ∃ v ∈ g.nodes, ∀ w, w ∈ nodes ↔ ReflTransGen g.Leads v w ∧ ReflTransGen g.Leads w v

/-- Different nodes that lead around in this order. -/
structure DirectedCycle (g : Patch) (c : List NodeId) : Prop where
  nodup : c.Nodup
  around : ClosedWalk g.Leads c

/-- The node is an instance of a block that reads the previous frame. -/
def Delays (g : Patch) (catalog : Catalog) (v : NodeId) : Prop :=
  ∃ n b, g.nodes[v]? = some n ∧ catalog.lookup? n.block = some b ∧ b.readsPreviousFrame = true

/-- Some cycle among the nodes is evaluated within a single frame. -/
def HasInstantCycle (g : Patch) (catalog : Catalog) (nodes : List NodeId) : Prop :=
  ∃ c, g.DirectedCycle c ∧ ∀ v ∈ c, v ∈ nodes ∧ ¬ g.Delays catalog v

theorem readsPreviousFrame_eq_false_iff :
    g.readsPreviousFrame catalog v = false ↔ ¬ g.Delays catalog v := by
  unfold readsPreviousFrame Delays
  cases g.nodes[v]? with
  | none => simp
  | some n => cases hb : catalog.lookup? n.block <;> simp [hb]

/-- A cycle is instantaneous when it never enters a block that reads the previous frame. -/
theorem hasInstantCycle_iff : g.HasInstantCycle catalog nodes ↔
    ∃ v, TransGen (fun u w => u ∈ nodes ∧ w ∈ nodes ∧ g.LeadsAtOnce catalog u w) v v := by
  constructor
  · rintro ⟨c, ⟨-, hne, hchain⟩, hc⟩
    have hmem : ∀ v ∈ c ++ c.take 1, v ∈ c := by
      intro v hv
      rcases List.mem_append.mp hv with hv | hv
      · exact hv
      · exact List.mem_of_mem_take hv
    have hinstant : ClosedWalk (fun u w => u ∈ nodes ∧ w ∈ nodes ∧ g.LeadsAtOnce catalog u w) c := by
      refine ⟨hne, List.isChain_iff_getElem.mpr fun i hi => ?_⟩
      have hu := hc _ (hmem _ (List.getElem_mem (Nat.lt_of_succ_lt hi)))
      have hw := hc _ (hmem _ (List.getElem_mem hi))
      exact ⟨hu.1, hw.1, List.isChain_iff_getElem.mp hchain i hi,
        readsPreviousFrame_eq_false_iff.mpr hw.2⟩
    obtain ⟨v, -, hv⟩ := hinstant.exists_transGen
    exact ⟨v, hv⟩
  · rintro ⟨v, hv⟩
    obtain ⟨d, hd⟩ := exists_closedWalk hv
    obtain ⟨c, hc, hnodup⟩ := hd.exists_nodup
    refine ⟨c, ⟨hnodup, hc.ne_nil, hc.chain.imp fun _ _ h => h.2.2.1⟩, fun w hw => ?_⟩
    obtain ⟨u, -, -, hmem, -, hreads⟩ := hc.entered hw
    exact ⟨hmem, readsPreviousFrame_eq_false_iff.mp hreads⟩

/-! ## The reports -/

theorem Reports.strongComponent (h : g.Reports catalog r) : g.StrongComponent r.nodes := by
  obtain ⟨v, hv, -⟩ := h.nonempty
  exact ⟨h.ordered.imp compare_eq_lt_iff.mp, v, h.mem_nodes hv, fun w => h.mem_iff hv⟩

namespace StrongComponent

variable (h : g.StrongComponent nodes)

include h

theorem mem_iff {u : NodeId} (hu : u ∈ nodes) :
    v ∈ nodes ↔ ReflTransGen g.Leads u v ∧ ReflTransGen g.Leads v u := by
  obtain ⟨root, -, hroot⟩ := h.members
  exact mutual_iff_of_mem hroot hu

theorem hasInstantCycle_iff : g.HasInstantCycle catalog nodes ↔
    ∃ v ∈ nodes, TransGen (g.LeadsAtOnce catalog) v v := by
  obtain ⟨root, -, hroot⟩ := h.members
  rw [Patch.hasInstantCycle_iff, exists_transGen_within_iff hroot fun _ _ h => h.1]

/-- A component has a cycle exactly if it has several nodes or one that leads to itself. -/
theorem exists_transGen_iff : (∃ v ∈ nodes, TransGen g.Leads v v) ↔
    1 < nodes.length ∨ ∃ v ∈ nodes, g.Leads v v := by
  constructor
  · rintro ⟨v, hv, hloop⟩
    obtain ⟨w, hvw, hwv⟩ := TransGen.head'_iff.mp hloop
    by_cases hne : w = v
    · exact .inr ⟨v, hv, hne ▸ hvw⟩
    · have hw : w ∈ nodes := (h.mem_iff hv).mpr ⟨.single hvw, hwv⟩
      left
      match nodes with
      | [] => cases hv
      | [x] => exact absurd ((List.mem_singleton.mp hw).trans (List.mem_singleton.mp hv).symm) hne
      | _ :: _ :: _ => simp
  · rintro (hlength | ⟨v, hv, hvv⟩)
    · match nodes with
      | [] => simp at hlength
      | [_] => simp at hlength
      | x :: y :: rest =>
        have hlt : x < y := (List.pairwise_cons.mp h.sorted).1 y List.mem_cons_self
        obtain ⟨hxy, hyx⟩ := (h.mem_iff List.mem_cons_self).mp (List.mem_cons_of_mem x List.mem_cons_self)
        have hpath := (reflTransGen_iff_eq_or_transGen.mp hxy).resolve_left fun heq => by
          rw [heq] at hlt
          exact String.lt_irrefl x hlt
        exact ⟨x, List.mem_cons_self, hpath.trans_left hyx⟩
    · exact ⟨v, hv, .single hvv⟩

end StrongComponent

/-- A report is a component with a cycle, and illegal if one of its cycles is instantaneous. -/
theorem reports_iff : g.Reports catalog r ↔
    g.StrongComponent r.nodes ∧ (1 < r.nodes.length ∨ ∃ v ∈ r.nodes, g.Leads v v) ∧
      (r.cycleClass = .illegalInstantaneous ↔ g.HasInstantCycle catalog r.nodes) := by
  constructor
  · intro h
    refine ⟨h.strongComponent, h.strongComponent.exists_transGen_iff.mp h.nonempty, ?_⟩
    rw [h.illegal_iff, h.strongComponent.hasInstantCycle_iff]
  · rintro ⟨hcomponent, hcycle, hclass⟩
    obtain ⟨v, hv, hloop⟩ := hcomponent.exists_transGen_iff.mpr hcycle
    refine ⟨hcomponent.sorted.imp compare_eq_lt_iff.mpr, ⟨v, hloop, fun w => hcomponent.mem_iff hv⟩, ?_⟩
    rw [hclass, hcomponent.hasInstantCycle_iff]

/-- The reports are the strong components with a cycle, each once and in ascending order, and tell which
of them have a cycle within a frame. -/
theorem cycles_exact (g : Patch) (catalog : Catalog) :
    (g.cycles catalog).Pairwise (fun r r' => r.nodes < r'.nodes) ∧
      ∀ r : CycleReport, r ∈ g.cycles catalog ↔
        g.StrongComponent r.nodes ∧ (1 < r.nodes.length ∨ ∃ v ∈ r.nodes, g.Leads v v) ∧
          (r.cycleClass = .illegalInstantaneous ↔ g.HasInstantCycle catalog r.nodes) ∧
          (r.cycleClass = .legalFeedback ↔ ¬ g.HasInstantCycle catalog r.nodes) := by
  refine ⟨cycles_ascending g catalog, fun r => ?_⟩
  have hclass : r.cycleClass = .legalFeedback ↔ ¬ r.cycleClass = .illegalInstantaneous := by
    cases r.cycleClass <;> simp
  rw [mem_cycles_iff, reports_iff, hclass, not_iff_not]
  tauto

/-- A sum that is fed back at once through a filter and a frame later through a delay. -/
def echoes : Patch where
  nodes := (∅ : Std.ExtTreeMap NodeId Node).insert "delay" { block := "Delay" }
    |>.insert "filter" { block := "Smooth" } |>.insert "sum" { block := "Add" }
  edges := (∅ : Std.ExtTreeMap EdgeId Edge).insert "a" ⟨⟨"sum", "out"⟩, ⟨"filter", "x"⟩⟩
    |>.insert "b" ⟨⟨"filter", "y"⟩, ⟨"sum", "a"⟩⟩ |>.insert "c" ⟨⟨"sum", "out"⟩, ⟨"delay", "in"⟩⟩
    |>.insert "d" ⟨⟨"delay", "out"⟩, ⟨"sum", "b"⟩⟩

example : echoes.cycles .standard = [⟨["delay", "filter", "sum"], .illegalInstantaneous⟩] := by
  decide +kernel

end Patch

end PatchTyping
