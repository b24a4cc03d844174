import PatchTyping.PatchGraphs
import PatchTyping.Proofs.OrderedMaps

/-!
# Patches put together

A node or an edge is added under a name that is not taken, or not at all. So a list of nodes and edges
makes a patch exactly when no name occurs twice.
-/

namespace PatchTyping

theorem exists_of_bind_eq_ok {ε α β : Type} {x : Except ε α} {f : α → Except ε β} {b : β}
    (h : x >>= f = .ok b) : ∃ a, x = .ok a ∧ f a = .ok b := by
  cases x with
  | error e => cases h
  | ok a => exact ⟨a, rfl, h⟩

namespace OrderedMaps

open Std

variable {S E K V : Type} [Ord K] [TransOrd K] [LawfulEqOrd K]

/-- Entries are added to a part of a state one by one, each under a name that is not taken. -/
theorem foldlM_insert_eq_ok_iff (part : S → ExtTreeMap K V) (update : S → ExtTreeMap K V → S)
    {add : S → K × V → Except E S} (hpart : ∀ s m, part (update s m) = m)
    (hself : ∀ s, update s (part s) = s) (hupdate : ∀ s m m', update (update s m) m' = update s m')
    (hadd : ∀ s x s', add s x = .ok s' ↔
      (part s)[x.1]? = none ∧ s' = update s ((part s).insert x.1 x.2))
    {xs : List (K × V)} {s s' : S} :
    xs.foldlM add s = .ok s' ↔ (xs.map (·.1)).Nodup ∧ (∀ x ∈ xs, (part s)[x.1]? = none) ∧
      s' = update s ((part s).insertMany xs) := by
  induction xs generalizing s with
  | nil =>
    rw [ExtTreeMap.insertMany_nil, hself]
    constructor
    · intro h
      cases h
      exact ⟨List.nodup_nil, fun x hx => (List.not_mem_nil hx).elim, rfl⟩
    · rintro ⟨-, -, rfl⟩
      rfl
  | cons x xs ih =>
    have hnames : (∀ y ∈ xs, ((part s).insert x.1 x.2)[y.1]? = none) ↔
        x.1 ∉ xs.map (·.1) ∧ ∀ y ∈ xs, (part s)[y.1]? = none := by
      simp only [ExtTreeMap.getElem?_insert, LawfulEqOrd.compare_eq_iff_eq, List.mem_map, not_exists,
        not_and]
      grind
    rw [List.foldlM_cons, ExtTreeMap.insertMany_cons, List.map_cons, List.nodup_cons,
      List.forall_mem_cons]
    constructor
    · intro h
      obtain ⟨t, ht, h⟩ := exists_of_bind_eq_ok h
      obtain ⟨hfree, rfl⟩ := (hadd s x t).mp ht
      obtain ⟨hnodup, hfrees, rfl⟩ := ih.mp h
      rw [hpart, hnames] at hfrees
      rw [hpart, hupdate]
      exact ⟨⟨hfrees.1, hnodup⟩, ⟨hfree, hfrees.2⟩, rfl⟩
    · rintro ⟨⟨hnot, hnodup⟩, ⟨hfree, hfrees⟩, rfl⟩
      rw [(hadd s x _).mpr ⟨hfree, rfl⟩]
      refine ih.mpr ⟨hnodup, ?_, ?_⟩
      · rw [hpart, hnames]
        exact ⟨hnot, hfrees⟩
      · rw [hpart, hupdate]

/-- The entry at which it ends has a name that was taken at the start, or by an entry before. -/
theorem foldlM_insert_stops (part : S → ExtTreeMap K V) {add : S → K × V → Except E S} {taken : K → E}
    (hadd : ∀ {s x s'}, add s x = .ok s' → part s' = (part s).insert x.1 x.2)
    (hrefused : ∀ {s x e}, add s x = .error e → x.1 ∈ part s ∧ e = taken x.1)
    {xs : List (K × V)} {s : S} {e : E} (h : xs.foldlM add s = .error e) :
    ∃ before x after, xs = before ++ x :: after ∧ (x.1 ∈ part s ∨ x.1 ∈ before.map (·.1)) ∧
      e = taken x.1 := by
  induction xs generalizing s with
  | nil => cases h
  | cons x xs ih =>
    rw [List.foldlM_cons] at h
    cases hx : add s x with
    | error e' =>
      rw [hx] at h
      cases h
      obtain ⟨hmem, rfl⟩ := hrefused hx
      exact ⟨[], x, xs, rfl, .inl hmem, rfl⟩
    | ok s' =>
      rw [hx] at h
      obtain ⟨before, y, after, rfl, htaken, rfl⟩ := ih h
      refine ⟨x :: before, y, after, rfl, ?_, rfl⟩
      rw [hadd hx, ExtTreeMap.mem_insert, LawfulEqOrd.compare_eq_iff_eq] at htaken
      rw [List.map_cons, List.mem_cons]
      grind

theorem insertMany_perm {xs ys : List (K × V)} (h : xs.Perm ys) (hnodup : (xs.map (·.1)).Nodup)
    (m : ExtTreeMap K V) : m.insertMany xs = m.insertMany ys := by
  induction h generalizing m with
  | nil => rfl
  | cons x _ ih =>
    rw [ExtTreeMap.insertMany_cons, ExtTreeMap.insertMany_cons]
    exact ih (List.nodup_cons.mp hnodup).2 _
  | swap x y xs =>
    have hne : x.1 ≠ y.1 := by
      intro heq
      simp [heq] at hnodup
    have hcomm : (m.insert y.1 y.2).insert x.1 x.2 = (m.insert x.1 x.2).insert y.1 y.2 := by
      apply ExtTreeMap.ext_getElem?
      intro k
      simp only [ExtTreeMap.getElem?_insert, LawfulEqOrd.compare_eq_iff_eq]
      grind
    rw [ExtTreeMap.insertMany_cons, ExtTreeMap.insertMany_cons, hcomm, ← ExtTreeMap.insertMany_cons,
      ← ExtTreeMap.insertMany_cons]
  | trans h _ ih ih' => exact (ih hnodup m).trans (ih' ((h.map (·.1)).nodup_iff.mp hnodup) m)

end OrderedMaps

namespace Patch

theorem addNode_eq_ok_iff {g g' : Patch} {id : NodeId} {n : Node} : g.addNode id n = .ok g' ↔
    g.nodes[id]? = none ∧ g' = { g with nodes := g.nodes.insert id n } := by
  unfold addNode
  split
  · next h => simp_all
  · next h =>
    rw [Except.ok.injEq]
    have hfree : g.nodes[id]? = none := by simpa using h
    exact ⟨fun heq => ⟨hfree, heq.symm⟩, fun heq => heq.2.symm⟩

theorem addEdge_eq_ok_iff {g g' : Patch} {id : EdgeId} {e : Edge} : g.addEdge id e = .ok g' ↔
    g.edges[id]? = none ∧ g' = { g with edges := g.edges.insert id e } := by
  unfold addEdge
  split
  · next h => simp_all
  · next h =>
    rw [Except.ok.injEq]
    have hfree : g.edges[id]? = none := by simpa using h
    exact ⟨fun heq => ⟨hfree, heq.symm⟩, fun heq => heq.2.symm⟩

theorem addNode_eq_error {g : Patch} {id : NodeId} {n : Node} {e : PatchError}
    (h : g.addNode id n = .error e) : id ∈ g.nodes ∧ e = .duplicateNode id := by
  unfold addNode at h
  split at h
  · next hmem =>
    cases h
    exact ⟨Std.ExtTreeMap.contains_iff_mem.mp hmem, rfl⟩
  · cases h

theorem addEdge_eq_error {g : Patch} {id : EdgeId} {e : Edge} {err : PatchError}
    (h : g.addEdge id e = .error err) : id ∈ g.edges ∧ err = .duplicateEdge id := by
  unfold addEdge at h
  split at h
  · next hmem =>
    cases h
    exact ⟨Std.ExtTreeMap.contains_iff_mem.mp hmem, rfl⟩
  · cases h

/-- Nodes and edges in any order make a patch, unless a name occurs twice. -/
theorem ofLists_eq_ok_iff {nodes : List (NodeId × Node)} {edges : List (EdgeId × Edge)} {g : Patch} :
    ofLists nodes edges = .ok g ↔ (nodes.map (·.1)).Nodup ∧ (edges.map (·.1)).Nodup ∧
      g = ⟨Std.ExtTreeMap.ofList nodes, Std.ExtTreeMap.ofList edges⟩ := by
  have hnodes (g' : Patch) : nodes.foldlM (fun g n => g.addNode n.1 n.2) empty = .ok g' ↔
      (nodes.map (·.1)).Nodup ∧ g' = ⟨Std.ExtTreeMap.ofList nodes, ∅⟩ := by
    rw [OrderedMaps.foldlM_insert_eq_ok_iff Patch.nodes
      (fun g m => { g with nodes := m }) (fun _ _ => rfl) (fun _ => rfl) (fun _ _ _ => rfl)
      (fun _ _ _ => addNode_eq_ok_iff), Std.ExtTreeMap.ofList_eq_insertMany_empty]
    simp [empty]
  have hedges (h : Patch) (hempty : h.edges = ∅) :
      edges.foldlM (fun g e => g.addEdge e.1 e.2) h = .ok g ↔
        (edges.map (·.1)).Nodup ∧ g = ⟨h.nodes, Std.ExtTreeMap.ofList edges⟩ := by
    rw [OrderedMaps.foldlM_insert_eq_ok_iff Patch.edges
      (fun g m => { g with edges := m }) (fun _ _ => rfl) (fun _ => rfl) (fun _ _ _ => rfl)
      (fun _ _ _ => addEdge_eq_ok_iff), Std.ExtTreeMap.ofList_eq_insertMany_empty, hempty]
    simp
  constructor
  · intro h
    obtain ⟨g', hg', h⟩ := exists_of_bind_eq_ok h
    obtain ⟨hnodup, rfl⟩ := (hnodes g').mp hg'
    obtain ⟨hnodup', rfl⟩ := (hedges _ rfl).mp h
    exact ⟨hnodup, hnodup', rfl⟩
  · rintro ⟨hnodup, hnodup', rfl⟩
    rw [ofLists, (hnodes _).mpr ⟨hnodup, rfl⟩]
    exact (hedges _ rfl).mpr ⟨hnodup', rfl⟩

theorem ofLists_perm {nodes nodes' : List (NodeId × Node)} {edges edges' : List (EdgeId × Edge)}
    (hnodes : nodes.Perm nodes') (hedges : edges.Perm edges') {g : Patch} :
    ofLists nodes edges = .ok g ↔ ofLists nodes' edges' = .ok g := by
  rw [ofLists_eq_ok_iff, ofLists_eq_ok_iff, (hnodes.map (·.1)).nodup_iff, (hedges.map (·.1)).nodup_iff]
  refine and_congr_right fun hnodup => and_congr_right fun hnodup' => ?_
  rw [Std.ExtTreeMap.ofList_eq_insertMany_empty, Std.ExtTreeMap.ofList_eq_insertMany_empty,
    Std.ExtTreeMap.ofList_eq_insertMany_empty, Std.ExtTreeMap.ofList_eq_insertMany_empty,
    OrderedMaps.insertMany_perm hnodes.symm hnodup, OrderedMaps.insertMany_perm hedges.symm hnodup']

theorem ofLists_of_duplicate_node {nodes : List (NodeId × Node)} (edges : List (EdgeId × Edge))
    (hdup : ¬ (nodes.map (·.1)).Nodup) :
    ∃ before n after, nodes = before ++ n :: after ∧ n.1 ∈ before.map (·.1) ∧
      ofLists nodes edges = .error (.duplicateNode n.1) := by
  cases h : nodes.foldlM (fun g n => g.addNode n.1 n.2) empty with
  | ok g =>
    have hok : ofLists nodes [] = .ok g := by
      rw [ofLists, h]
      rfl
    exact absurd (ofLists_eq_ok_iff.mp hok).1 hdup
  | error e =>
    obtain ⟨before, n, after, rfl, htaken, rfl⟩ := OrderedMaps.foldlM_insert_stops Patch.nodes
      (fun hs => (addNode_eq_ok_iff.mp hs).2 ▸ rfl) (fun hs => addNode_eq_error hs) h
    refine ⟨before, n, after, rfl, htaken.resolve_left (by simp [empty]), ?_⟩
    rw [ofLists, h]
    rfl

/-- If the nodes have names of their own but edges share one, then such a name is the error. -/
theorem ofLists_of_duplicate_edge {nodes : List (NodeId × Node)} {edges : List (EdgeId × Edge)}
    (hnodup : (nodes.map (·.1)).Nodup) (hdup : ¬ (edges.map (·.1)).Nodup) :
    ∃ before e after, edges = before ++ e :: after ∧ e.1 ∈ before.map (·.1) ∧
      ofLists nodes edges = .error (.duplicateEdge e.1) := by
  have hnodes : ofLists nodes [] = .ok ⟨Std.ExtTreeMap.ofList nodes, ∅⟩ :=
    ofLists_eq_ok_iff.mpr ⟨hnodup, List.nodup_nil, by simp⟩
  obtain ⟨g, hg, hnil⟩ := exists_of_bind_eq_ok hnodes
  cases hnil
  cases h : ofLists nodes edges with
  | ok g => exact absurd (ofLists_eq_ok_iff.mp h).2.1 hdup
  | error e =>
    have hfold := h
    rw [ofLists, hg] at hfold
    obtain ⟨before, x, after, rfl, htaken, rfl⟩ := OrderedMaps.foldlM_insert_stops Patch.edges
      (fun hs => (addEdge_eq_ok_iff.mp hs).2 ▸ rfl) (fun hs => addEdge_eq_error hs) hfold
    exact ⟨before, x, after, rfl, htaken.resolve_left (by simp), rfl⟩

end Patch

end PatchTyping
