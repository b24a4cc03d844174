import PatchTyping.Proofs.CycleReports

/-!
# The list of strong components

The search is a recursion that is cut off at a certain depth. Without the cut it would end by itself, with
the same result: no search starts at a node that has been met. The components that it closes contain every
node that occurs once, and the order in which they are closed follows the edges backwards.
-/

namespace PatchTyping

open Relation

/-! ## The search without a bound -/

namespace ComponentSearch

variable {succ : SuccessorMap} {s : ComponentSearch} {v w : NodeId}

mutual

/-- The search from `v` ends with a low link and in a state, however deep it has to go. -/
inductive Visits (succ : SuccessorMap) : NodeId → ComponentSearch → Nat → ComponentSearch → Prop
  | leave {v : NodeId} {s s' : ComponentSearch} :
      Scans succ (succ.targets v) s.numbers.size (s.enter v) s.numbers.size s' →
      Visits succ v s s.numbers.size (s'.close v)
  | stay {v : NodeId} {s s' : ComponentSearch} {low : Nat} :
      Scans succ (succ.targets v) s.numbers.size (s.enter v) low s' → low ≠ s.numbers.size →
      Visits succ v s low s'

/-- The scan of a list of targets ends with a low link and in a state. -/
inductive Scans (succ : SuccessorMap) :
    List NodeId → Nat → ComponentSearch → Nat → ComponentSearch → Prop
  | done {low : Nat} {s : ComponentSearch} : Scans succ [] low s low s
  | new {w : NodeId} {ws : List NodeId} {low below low' : Nat} {s s' s'' : ComponentSearch} :
      w ∉ s.numbers → Visits succ w s below s' → Scans succ ws (min low below) s' low' s'' →
      Scans succ (w :: ws) low s low' s''
  | met {w : NodeId} {ws : List NodeId} {low low' : Nat} {s s' : ComponentSearch} :
      w ∈ s.numbers →
      Scans succ ws (if w ∈ s.stack then min low (s.number w) else low) s low' s' →
      Scans succ (w :: ws) low s low' s'

end

/-- The search from each of the nodes that is new when its turn comes ends in a state. -/
inductive Searches (succ : SuccessorMap) : List NodeId → ComponentSearch → ComponentSearch → Prop
  | done {s : ComponentSearch} : Searches succ [] s s
  | new {v : NodeId} {vs : List NodeId} {s s' s'' : ComponentSearch} {low : Nat} :
      v ∉ s.numbers → Visits succ v s low s' → Searches succ vs s' s'' →
      Searches succ (v :: vs) s s''
  | met {v : NodeId} {vs : List NodeId} {s s' : ComponentSearch} :
      v ∈ s.numbers → Searches succ vs s s' → Searches succ (v :: vs) s s'

theorem mem_numbers_visit (succ : SuccessorMap) (depth : Nat) (v : NodeId) (s : ComponentSearch)
    (hw : w ∈ s.numbers) : w ∈ (visit succ depth v s).2.numbers := by
  induction depth generalizing v s with
  | zero => exact hw
  | succ depth ih =>
    have hscan : ∀ (ws : List NodeId) (found : Nat × ComponentSearch), w ∈ found.2.numbers →
        w ∈ (ws.foldl (look succ depth) found).2.numbers := by
      intro ws
      induction ws with
      | nil => exact fun _ h => h
      | cons x ws ihws =>
        intro found hfound
        apply ihws
        unfold look
        split
        · exact ih x found.2 hfound
        · exact hfound
    have hfound := hscan (succ.targets v) (s.numbers.size, s.enter v)
      (mem_numbers_enter.mpr (.inr hw))
    rw [visit_succ]
    dsimp only
    split
    · exact hfound
    · exact hfound

/-- The depth of the number of nodes yet to be met is as good as no bound. -/
theorem visits_visit (depth : Nat) (hv : v ∉ s.numbers) (hocc : v ∈ succ.occurring)
    (hdepth : s.unmet succ ≤ depth) :
    Visits succ v s (visit succ depth v s).1 (visit succ depth v s).2 := by
  induction depth generalizing v s with
  | zero =>
    have hless := unmet_enter hv hocc
    omega
  | succ depth ih =>
    have hscan : ∀ (ws : List NodeId) (low : Nat) (s : ComponentSearch),
        (∀ w ∈ ws, w ∈ succ.occurring) → s.unmet succ ≤ depth →
        Scans succ ws low s (ws.foldl (look succ depth) (low, s)).1
          (ws.foldl (look succ depth) (low, s)).2 := by
      intro ws
      induction ws with
      | nil => exact fun _ _ _ _ => .done
      | cons w ws ihws =>
        intro low s hws hs
        have hrest := fun x hx => hws x (List.mem_cons_of_mem _ hx)
        rw [List.foldl_cons]
        cases hw : s.numbers[w]? with
        | none =>
          have hnew : w ∉ s.numbers := fun hmem => by
            rw [Std.ExtTreeMap.mem_iff_isSome_getElem?, hw] at hmem
            cases hmem
          have hlook : look succ depth (low, s) w =
              (min low (visit succ depth w s).1, (visit succ depth w s).2) := by
            simp [look, hw]
          rw [hlook]
          refine .new hnew (ih hnew (hws w List.mem_cons_self) hs) (ihws _ _ hrest ?_)
          exact Nat.le_trans (unmet_mono fun x => mem_numbers_visit succ depth w s) hs
        | some m =>
          have hmet : w ∈ s.numbers := OrderedMaps.mem_iff_exists.mpr ⟨m, hw⟩
          have hlook : look succ depth (low, s) w =
              (if w ∈ s.stack then min low (s.number w) else low, s) := by
            simp [look, number, hw]
          rw [hlook]
          exact .met hmet (ihws _ _ hrest hs)
    have hless := unmet_enter hv hocc
    have htargets := hscan (succ.targets v) s.numbers.size (s.enter v)
      (fun w hw => (SuccessorMap.mem_occurring_of_leads (SuccessorMap.mem_targets_iff.mp hw)).2)
      (by omega)
    rw [visit_succ]
    dsimp only
    split
    · rename_i hlow
      rw [hlow] at htargets ⊢
      exact .leave htargets
    · rename_i hlow
      exact .stay htargets hlow

theorem searches_run (succ : SuccessorMap) : Searches succ succ.keys {} (run succ) := by
  have hloop : ∀ (keys : List NodeId) (s : ComponentSearch), (∀ v ∈ keys, v ∈ succ.keys) →
      Searches succ keys s (keys.foldl (fun s v =>
        if s.numbers.contains v then s else (visit succ succ.occurring.length v s).2) s) := by
    intro keys
    induction keys with
    | nil => exact fun _ _ => .done
    | cons v keys ih =>
      intro s hkeys
      have hrest := fun x hx => hkeys x (List.mem_cons_of_mem _ hx)
      rw [List.foldl_cons]
      by_cases hv : s.numbers.contains v
      · simp only [hv, if_true]
        exact .met hv (ih s hrest)
      · have hocc : v ∈ succ.occurring := List.mem_append_left _ (hkeys v List.mem_cons_self)
        simp only [hv]
        exact .new hv (visits_visit _ hv hocc (List.length_filter_le _ _)) (ih _ hrest)
  exact hloop succ.keys {} fun _ hv => hv

end ComponentSearch

/-! ## The closed components in order -/

namespace SuccessorMap

variable {succ : SuccessorMap} {v : NodeId}

/-- The node is a key or can be reached from one. -/
def Occurs (succ : SuccessorMap) (v : NodeId) : Prop := ∃ k ∈ succ.keys, succ.Reaches k v

theorem occurs_iff : succ.Occurs v ↔ v ∈ succ.occurring := by
  constructor
  · rintro ⟨k, hk, hkv⟩
    rcases ReflTransGen.cases_tail hkv with rfl | ⟨u, -, huv⟩
    · exact List.mem_append_left _ hk
    · exact (mem_occurring_of_leads huv).2
  · intro hv
    rcases List.mem_append.mp hv with hv | hv
    · exact ⟨v, hv, .refl⟩
    · obtain ⟨k, hk, hkv⟩ := List.mem_flatMap.mp hv
      exact ⟨k, hk, .single (mem_targets_iff.mp hkv)⟩

/-- A component is disjoint from those that were closed before it, and none of them leads to it. -/
theorem Components.pairwise {cs : List (List NodeId)} (h : succ.Components cs) :
    cs.Pairwise fun c d => (∀ v ∈ c, v ∉ d) ∧ ∀ u ∈ d, ∀ v ∈ c, ¬ succ.Leads u v := by
  induction cs with
  | nil => exact .nil
  | cons c cs ih =>
    obtain ⟨-, -, -, hdisjoint, hcs⟩ := h
    refine List.pairwise_cons.mpr ⟨fun d hd => ⟨fun v hv => hdisjoint v hv d hd, ?_⟩, ih hcs⟩
    intro u hu v hv huv
    obtain ⟨e, he, hve⟩ := hcs.reaches (.single huv) ⟨d, hd, hu⟩
    exact hdisjoint v hv e he hve

/-- The lists are the strong components, each after those it leads to. -/
structure ListsComponents (succ : SuccessorMap) (lists : List (List NodeId)) : Prop where
  sorted : ∀ l ∈ lists, l.Pairwise (· < ·)
  ne_nil : ∀ l ∈ lists, l ≠ []
  occurs : ∀ v ∈ lists.flatten, succ.Occurs v
  once : ∀ v, succ.Occurs v → lists.flatten.count v = 1
  together_iff : ∀ u v, succ.Occurs u → succ.Occurs v →
    ((∃ l ∈ lists, u ∈ l ∧ v ∈ l) ↔ succ.Reaches u v ∧ succ.Reaches v u)
  earlier : ∀ (i j : Nat) (c d : List NodeId), lists[i]? = some c → lists[j]? = some d → c ≠ d →
    ∀ u ∈ c, ∀ v ∈ d, succ.Leads u v → j < i

end SuccessorMap

namespace ComponentSearch

mutual

theorem Visits.reaches {succ : SuccessorMap} {s s' : ComponentSearch} {v w : NodeId} {low : Nat}
    (h : Visits succ v s low s') (hw : w ∈ s'.numbers) : w ∈ s.numbers ∨ succ.Reaches v w := by
  have hstart : ∀ {w}, w ∈ (s.enter v).numbers ∨ succ.Reaches v w →
      w ∈ s.numbers ∨ succ.Reaches v w := by
    rintro w (hw | hw)
    · rcases mem_numbers_enter.mp hw with rfl | hw
      · exact .inr .refl
      · exact .inl hw
    · exact .inr hw
  match h with
  | .leave hscan => exact hstart (hscan.reaches (fun _ => SuccessorMap.mem_targets_iff.mp) hw)
  | .stay hscan _ => exact hstart (hscan.reaches (fun _ => SuccessorMap.mem_targets_iff.mp) hw)

theorem Scans.reaches {succ : SuccessorMap} {s s' : ComponentSearch} {v w : NodeId}
    {ws : List NodeId} {low low' : Nat} (h : Scans succ ws low s low' s')
    (hws : ∀ x ∈ ws, succ.Leads v x) (hw : w ∈ s'.numbers) :
    w ∈ s.numbers ∨ succ.Reaches v w := by
  match h with
  | .done => exact .inl hw
  | .new _ hvisit hscan =>
    rcases hscan.reaches (fun x hx => hws x (List.mem_cons_of_mem _ hx)) hw with hmet | hreach
    · exact (hvisit.reaches hmet).imp_right (.head (hws _ List.mem_cons_self))
    · exact .inr hreach
  | .met _ hscan => exact hscan.reaches (fun x hx => hws x (List.mem_cons_of_mem _ hx)) hw

end

theorem Searches.reaches {succ : SuccessorMap} {s s' : ComponentSearch} {vs : List NodeId}
    {w : NodeId} (h : Searches succ vs s s') (hw : w ∈ s'.numbers) :
    w ∈ s.numbers ∨ ∃ v ∈ vs, succ.Reaches v w := by
  induction h with
  | done => exact .inl hw
  | new _ hvisit _ ih =>
    rcases ih hw with hmet | ⟨v, hv, hreach⟩
    · exact (hvisit.reaches hmet).imp_right fun hreach => ⟨_, List.mem_cons_self, hreach⟩
    · exact .inr ⟨v, List.mem_cons_of_mem _ hv, hreach⟩
  | met _ _ ih =>
    exact (ih hw).imp_right fun ⟨v, hv, hreach⟩ => ⟨v, List.mem_cons_of_mem _ hv, hreach⟩

end ComponentSearch

section Lists

variable {succ : SuccessorMap} {v : NodeId}

theorem exists_strongComponent_iff : (∃ c ∈ strongComponents succ, v ∈ c) ↔ succ.Occurs v := by
  constructor
  · rintro ⟨c, hc, hv⟩
    have hmet : v ∈ (ComponentSearch.run succ).numbers :=
      ((ComponentSearch.run_spec succ).1.met_iff v).mpr (.inr ⟨c, List.mem_reverse.mp hc, hv⟩)
    exact ((ComponentSearch.searches_run succ).reaches hmet).resolve_left (by simp)
  · intro hv
    exact exists_strongComponent (SuccessorMap.occurs_iff.mp hv)

theorem pairwise_strongComponents (succ : SuccessorMap) : (strongComponents succ).Pairwise fun c d =>
    (∀ v ∈ c, v ∉ d) ∧ ∀ u ∈ c, ∀ v ∈ d, ¬ succ.Leads u v := by
  refine List.pairwise_reverse.mpr ((components_run succ).pairwise.imp ?_)
  rintro c d ⟨hdisjoint, hlead⟩
  exact ⟨fun v hv hvc => hdisjoint v hvc hv, hlead⟩

theorem nodup_flatten_strongComponents (succ : SuccessorMap) :
    (strongComponents succ).flatten.Nodup := by
  refine List.nodup_flatten.mpr ⟨fun c hc => nodup_of_ordered (ordered_strongComponent hc), ?_⟩
  exact (pairwise_strongComponents succ).imp fun h v hv hv' => h.1 v hv hv'

theorem together_iff_mutual {u : NodeId} (hu : succ.Occurs u) :
    (∃ c ∈ strongComponents succ, u ∈ c ∧ v ∈ c) ↔ succ.Reaches u v ∧ succ.Reaches v u := by
  constructor
  · rintro ⟨c, hc, huc, hvc⟩
    exact (mem_strongComponent_iff hc huc).mp hvc
  · intro hmutual
    obtain ⟨c, hc, huc⟩ := exists_strongComponent_iff.mpr hu
    exact ⟨c, hc, huc, (mem_strongComponent_iff hc huc).mpr hmutual⟩

theorem earlier_of_leads {i j : Nat} {c d : List NodeId} (hi : (strongComponents succ)[i]? = some c)
    (hj : (strongComponents succ)[j]? = some d) (hne : c ≠ d) {u : NodeId} (hu : u ∈ c) (hv : v ∈ d)
    (huv : succ.Leads u v) : j < i := by
  obtain ⟨hilt, hi⟩ := List.getElem?_eq_some_iff.mp hi
  obtain ⟨hjlt, hj⟩ := List.getElem?_eq_some_iff.mp hj
  by_contra hle
  have hij : i < j := by
    apply Nat.lt_of_le_of_ne (Nat.le_of_not_lt hle)
    rintro rfl
    exact hne (hi.symm.trans hj)
  have hnone := List.pairwise_iff_getElem.mp (pairwise_strongComponents succ) i j hilt hjlt hij
  rw [hi, hj] at hnone
  exact hnone.2 u hu v hv huv

/-- The component search ends for all successor maps, and what it has closed then are the strong
components. -/
theorem strongComponents_exact (succ : SuccessorMap) :
    ∃ s, ComponentSearch.Searches succ succ.keys {} s ∧ strongComponents succ = s.closed.reverse ∧
      succ.ListsComponents (strongComponents succ) := by
  refine ⟨ComponentSearch.run succ, ComponentSearch.searches_run succ, rfl, ?_⟩
  have hflatten : ∀ v, v ∈ (strongComponents succ).flatten ↔ succ.Occurs v := by
    intro v
    rw [← exists_strongComponent_iff, List.mem_flatten]
  refine ⟨fun c hc => ?_, fun c hc => ?_, fun v hv => (hflatten v).mp hv, fun v hv => ?_,
    fun u v hu _ => together_iff_mutual hu, ?_⟩
  · exact (ordered_strongComponent hc).imp compare_eq_lt_iff.mp
  · obtain ⟨v, hv⟩ := (components_run succ).nonempty (List.mem_reverse.mp hc)
    exact List.ne_nil_of_mem hv
  · exact List.count_eq_one_of_mem (nodup_flatten_strongComponents succ) ((hflatten v).mpr hv)
  · intro i j c d hi hj hne u hu v hv huv
    exact earlier_of_leads hi hj hne hu hv huv

example : strongComponents (.ofList ([("a", ["b"]), ("b", ["a", "c"]), ("c", ["d", "z"]),
      ("d", ["c"]), ("e", ["e"]), ("f", [])].map fun x => (x.1, Std.ExtTreeSet.ofList x.2))) =
    [["z"], ["c", "d"], ["a", "b"], ["e"], ["f"]] := by
  decide +kernel

end Lists

end PatchTyping
