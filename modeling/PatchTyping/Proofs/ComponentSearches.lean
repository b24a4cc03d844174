import Mathlib.Data.List.Sort
import Mathlib.Data.String.Basic
import Mathlib.Logic.Relation
import PatchTyping.Proofs.OrderedMaps
import PatchTyping.StrongComponents

/-!
# The component search

While the search goes on, the nodes on the stack that are still being scanned are pending. Every node on
the stack leads back to a pending one that was met no later, and every node on it leads to all that were
met after it. So a node whose low link is its own number leads to nothing open below it, and what lies
above it on the stack is its component.
-/

namespace PatchTyping

open Relation

/-! ## Names in order -/

theorem placeName_eq (v : NodeId) (l : List NodeId) : placeName v l = l.orderedInsert (· ≤ ·) v := by
  induction l with
  | nil => rfl
  | cons w ws ih =>
    by_cases hlt : compare w v = .lt
    · have hle : ¬ v ≤ w := not_le.mpr (compare_lt_iff_lt.mp hlt)
      rw [placeName, if_pos hlt, ih, List.orderedInsert_of_not_le _ ws hle]
    · have hle : v ≤ w := not_lt.mp fun h => hlt (compare_lt_iff_lt.mpr h)
      rw [placeName, if_neg hlt, List.orderedInsert_cons_of_le _ ws hle]

theorem sortNames_eq (l : List NodeId) : sortNames l = l.insertionSort (· ≤ ·) := by
  induction l with
  | nil => rfl
  | cons v l ih =>
    rw [List.insertionSort_cons, ← ih, ← placeName_eq]
    rfl

theorem perm_sortNames (l : List NodeId) : (sortNames l).Perm l := by
  rw [sortNames_eq]
  exact List.perm_insertionSort _ l

theorem ordered_sortNames {l : List NodeId} (hl : l.Nodup) :
    (sortNames l).Pairwise fun a b => compare a b = .lt := by
  have hsorted : (sortNames l).SortedLE := sortNames_eq l ▸ List.sortedLE_insertionSort
  have hnodup : (sortNames l).Nodup := (perm_sortNames l).nodup_iff.mpr hl
  exact (hsorted.sortedLT_of_nodup hnodup).pairwise.imp compare_lt_iff_lt.mpr

namespace SuccessorMap

/-- The node `v` is among the targets of `u`. -/
def Leads (succ : SuccessorMap) (u v : NodeId) : Prop :=
  ∃ out : Std.ExtTreeSet NodeId, succ[u]? = some out ∧ v ∈ out

theorem mem_targets_iff {succ : SuccessorMap} {u v : NodeId} : v ∈ succ.targets u ↔ succ.Leads u v := by
  unfold Leads targets
  cases succ[u]? <;> simp

/-- There is a path, possibly of no steps. -/
abbrev Reaches (succ : SuccessorMap) : NodeId → NodeId → Prop := ReflTransGen succ.Leads

theorem mem_occurring_of_leads {succ : SuccessorMap} {u v : NodeId} (h : succ.Leads u v) :
    u ∈ succ.occurring ∧ v ∈ succ.occurring := by
  have hu : u ∈ succ.keys := by
    obtain ⟨out, hout, -⟩ := h
    exact Std.ExtTreeMap.mem_keys.mpr (OrderedMaps.mem_iff_exists.mpr ⟨_, hout⟩)
  exact ⟨List.mem_append_left _ hu,
    List.mem_append_right _ (List.mem_flatMap.mpr ⟨u, hu, mem_targets_iff.mpr h⟩)⟩

/-- Each of the lists is a whole component in order, and leads only to itself and to those behind it. -/
def Components (succ : SuccessorMap) : List (List NodeId) → Prop
  | [] => True
  | c :: cs =>
    (c.Pairwise fun a b => compare a b = .lt) ∧
    (∃ v ∈ c, ∀ w, w ∈ c ↔ succ.Reaches v w ∧ succ.Reaches w v) ∧
    (∀ u ∈ c, ∀ v, succ.Leads u v → v ∈ c ∨ ∃ d ∈ cs, v ∈ d) ∧
    (∀ v ∈ c, ∀ d ∈ cs, v ∉ d) ∧ Components succ cs

/-- There is no way out of the components. -/
theorem Components.reaches {succ : SuccessorMap} {cs : List (List NodeId)}
    (h : succ.Components cs) {u v : NodeId} (huv : succ.Reaches u v) (hu : ∃ c ∈ cs, u ∈ c) :
    ∃ c ∈ cs, v ∈ c := by
  have hstep : ∀ cs, succ.Components cs → ∀ u v, succ.Leads u v → (∃ c ∈ cs, u ∈ c) →
      ∃ c ∈ cs, v ∈ c := by
    intro cs hcs u v hlead hu
    induction cs with
    | nil => simp at hu
    | cons c cs ih =>
      obtain ⟨-, -, hout, -, hrest⟩ := hcs
      obtain ⟨d, hd, hud⟩ := hu
      rcases List.mem_cons.mp hd with rfl | hd
      · rcases hout u hud v hlead with hv | ⟨e, he, hv⟩
        · exact ⟨_, List.mem_cons_self, hv⟩
        · exact ⟨e, List.mem_cons_of_mem _ he, hv⟩
      · obtain ⟨e, he, hv⟩ := ih hrest ⟨d, hd, hud⟩
        exact ⟨e, List.mem_cons_of_mem _ he, hv⟩
  induction huv with
  | refl => exact hu
  | tail _ hlead ih => exact hstep cs h _ _ hlead ih

end SuccessorMap

namespace ComponentSearch

variable {succ : SuccessorMap} {pending : List NodeId} {s s' s'' : ComponentSearch} {v w : NodeId}

/-- The number of a node that has been met. -/
def number (s : ComponentSearch) (v : NodeId) : Nat := (s.numbers[v]?).getD 0

/-- The component of the node is closed. -/
def Closed (s : ComponentSearch) (v : NodeId) : Prop := ∃ c ∈ s.closed, v ∈ c

/-- The state of the search while the targets of the pending nodes are being scanned. -/
structure Sound (succ : SuccessorMap) (pending : List NodeId) (s : ComponentSearch) : Prop where
  number_lt : ∀ v ∈ s.numbers, s.number v < s.numbers.size
  met_iff : ∀ v, v ∈ s.numbers ↔ v ∈ s.stack ∨ s.Closed v
  open_or_closed : ∀ v ∈ s.stack, ¬ s.Closed v
  stack_nodup : s.stack.Nodup
  pending_open : ∀ v ∈ pending, v ∈ s.stack
  /-- Only pending nodes have targets that are yet to be met. -/
  scanned : ∀ u ∈ s.numbers, u ∉ pending → ∀ v, succ.Leads u v → v ∈ s.numbers
  forward : ∀ u ∈ s.stack, ∀ v ∈ s.stack, s.number u ≤ s.number v → succ.Reaches u v
  back : ∀ v ∈ s.stack, ∃ u ∈ pending, s.number u ≤ s.number v ∧ succ.Reaches v u
  components : succ.Components s.closed

theorem Sound.mem_numbers (h : Sound succ pending s) (hv : v ∈ s.stack) : v ∈ s.numbers :=
  (h.met_iff v).mpr (.inl hv)

/-- The search went on: numbers stay, and the stack only grew at its top, by nodes that are new. -/
structure Extends (s s' : ComponentSearch) : Prop where
  number_eq : ∀ v ∈ s.numbers, s'.numbers[v]? = s.numbers[v]?
  size_le : s.numbers.size ≤ s'.numbers.size
  number_new : ∀ v ∈ s'.numbers, v ∉ s.numbers → s.numbers.size ≤ s'.number v
  stack_eq : ∃ above, s'.stack = above ++ s.stack ∧ ∀ v ∈ above, v ∉ s.numbers

namespace Extends

theorem refl (s : ComponentSearch) : s.Extends s :=
  ⟨fun _ _ => rfl, Nat.le_refl _, fun _ h h' => absurd h h', [], rfl, by simp⟩

theorem mem_numbers (h : s.Extends s') (hv : v ∈ s.numbers) : v ∈ s'.numbers := by
  rw [Std.ExtTreeMap.mem_iff_isSome_getElem?, h.number_eq v hv]
  exact Std.ExtTreeMap.mem_iff_isSome_getElem?.mp hv

theorem number (h : s.Extends s') (hv : v ∈ s.numbers) : s'.number v = s.number v := by
  rw [ComponentSearch.number, h.number_eq v hv, ComponentSearch.number]

theorem trans (h : s.Extends s') (h' : s'.Extends s'') : s.Extends s'' := by
  refine ⟨fun v hv => ?_, Nat.le_trans h.size_le h'.size_le, fun v hv hnew => ?_, ?_⟩
  · rw [h'.number_eq v (h.mem_numbers hv), h.number_eq v hv]
  · by_cases hmid : v ∈ s'.numbers
    · rw [h'.number hmid]
      exact h.number_new v hmid hnew
    · exact Nat.le_trans h.size_le (h'.number_new v hv hmid)
  · obtain ⟨above, habove, hfresh⟩ := h.stack_eq
    obtain ⟨above', habove', hfresh'⟩ := h'.stack_eq
    refine ⟨above' ++ above, by rw [habove', habove, List.append_assoc], fun v hv => ?_⟩
    rcases List.mem_append.mp hv with hv | hv
    · exact fun hmet => hfresh' v hv (h.mem_numbers hmet)
    · exact hfresh v hv

theorem mem_stack (h : s.Extends s') (hv : v ∈ s.stack) : v ∈ s'.stack := by
  obtain ⟨above, habove, -⟩ := h.stack_eq
  rw [habove]
  exact List.mem_append_right _ hv

end Extends

/-! ## Entering a node -/

theorem mem_numbers_enter : w ∈ (s.enter v).numbers ↔ w = v ∨ w ∈ s.numbers := by
  simp [enter, Std.ExtTreeMap.mem_insert, eq_comm (a := v)]

theorem number_enter_self (s : ComponentSearch) (v : NodeId) :
    (s.enter v).number v = s.numbers.size := by
  simp [enter, number]

theorem number_enter_of_ne (h : w ≠ v) : (s.enter v).number w = s.number w := by
  simp [enter, number, Std.ExtTreeMap.getElem?_insert, h.symm]

theorem size_enter (hv : v ∉ s.numbers) : (s.enter v).numbers.size = s.numbers.size + 1 :=
  OrderedMaps.size_insert_of_fresh (Std.ExtTreeMap.getElem?_eq_none hv) _

theorem extends_enter (hv : v ∉ s.numbers) : s.Extends (s.enter v) where
  number_eq w hw := by
    have hne : v ≠ w := fun h => hv (h ▸ hw)
    simp [enter, Std.ExtTreeMap.getElem?_insert, hne]
  size_le := by
    rw [size_enter hv]
    omega
  number_new w hw hnew := by
    rcases mem_numbers_enter.mp hw with rfl | hw
    · exact Nat.le_of_eq (number_enter_self s w).symm
    · exact absurd hw hnew
  stack_eq := ⟨[v], rfl, by simpa using hv⟩

theorem Sound.enter (h : Sound succ pending s) (hv : v ∉ s.numbers)
    (hreach : ∀ u ∈ pending, succ.Reaches u v) : Sound succ (v :: pending) (s.enter v) where
  number_lt w hw := by
    rw [size_enter hv]
    by_cases hne : w = v
    · rw [hne, number_enter_self]
      omega
    · have hw' : w ∈ s.numbers := (mem_numbers_enter.mp hw).resolve_left hne
      rw [number_enter_of_ne hne]
      exact Nat.lt_succ_of_lt (h.number_lt w hw')
  met_iff w := by
    rw [mem_numbers_enter, h.met_iff w]
    simp [ComponentSearch.enter, Closed, or_assoc]
  open_or_closed w hw := by
    rcases List.mem_cons.mp hw with rfl | hw
    · exact fun hclosed => hv ((h.met_iff _).mpr (.inr hclosed))
    · exact h.open_or_closed w hw
  stack_nodup := List.nodup_cons.mpr ⟨fun hmem => hv (h.mem_numbers hmem), h.stack_nodup⟩
  pending_open u hu := by
    rcases List.mem_cons.mp hu with rfl | hu
    · exact List.mem_cons_self
    · exact List.mem_cons_of_mem _ (h.pending_open u hu)
  scanned u hu hpending x hx := by
    simp only [List.mem_cons, not_or] at hpending
    have hu' : u ∈ s.numbers := (mem_numbers_enter.mp hu).resolve_left hpending.1
    exact mem_numbers_enter.mpr (.inr (h.scanned u hu' hpending.2 x hx))
  forward u hu x hx hle := by
    have hto : ∀ u ∈ s.stack, succ.Reaches u v := fun u hu => by
      obtain ⟨p, hp, -, hup⟩ := h.back u hu
      exact hup.trans (hreach p hp)
    have hold : ∀ {a}, a ∈ s.stack → a ≠ v := fun ha he => hv (he ▸ h.mem_numbers ha)
    rcases List.mem_cons.mp hu with hu | hu
    · rcases List.mem_cons.mp hx with hx | hx
      · rw [hu, hx]
      · rw [hu, number_enter_self, number_enter_of_ne (hold hx)] at hle
        have := h.number_lt x (h.mem_numbers hx)
        omega
    · rcases List.mem_cons.mp hx with hx | hx
      · exact hx ▸ hto u hu
      · rw [number_enter_of_ne (hold hu), number_enter_of_ne (hold hx)] at hle
        exact h.forward u hu x hx hle
  back x hx := by
    rcases List.mem_cons.mp hx with rfl | hx
    · exact ⟨x, List.mem_cons_self, Nat.le_refl _, .refl⟩
    · obtain ⟨p, hp, hle, hxp⟩ := h.back x hx
      have hold : ∀ {a}, a ∈ s.stack → a ≠ v := fun ha he => hv (he ▸ h.mem_numbers ha)
      refine ⟨p, List.mem_cons_of_mem _ hp, ?_, hxp⟩
      rwa [number_enter_of_ne (hold hx), number_enter_of_ne (hold (h.pending_open p hp))]
  components := h.components

/-! ## Closing a component -/

theorem close_eq {above below : List NodeId} (hstack : s.stack = above ++ v :: below)
    (hnodup : s.stack.Nodup) :
    (s.close v).stack = below ∧
      (s.close v).closed = sortNames (above ++ [v]) :: s.closed := by
  rw [hstack] at hnodup
  have habove : ∀ x ∈ above, x ≠ v := fun x hx he => by
    obtain ⟨-, -, hdisjoint⟩ := List.nodup_append.mp hnodup
    exact hdisjoint x hx v List.mem_cons_self he
  have htake : s.stack.takeWhile (· ≠ v) = above := by
    rw [hstack, List.takeWhile_append_of_pos (by simpa using habove)]
    simp
  simp only [close, htake]
  rw [hstack]
  simp

/-- What the scan of a pending node has found out: `low` is the number of an open node it leads to, and
no open node met before it that was looked at has a smaller one. -/
structure Scanning (succ : SuccessorMap) (pending : List NodeId) (v : NodeId) (s₀ : ComponentSearch)
    (done : List NodeId) (low : Nat) (s : ComponentSearch) : Prop where
  start : Sound succ pending s₀
  fresh : v ∉ s₀.numbers
  sound : Sound succ (v :: pending) s
  later : (s₀.enter v).Extends s
  done_met : ∀ w ∈ done, w ∈ s.numbers
  low_le : low ≤ s₀.numbers.size
  attained : ∃ u ∈ s.stack, s.number u = low ∧ succ.Reaches v u
  done_bound : ∀ y ∈ done, y ∈ s₀.stack → low ≤ s₀.number y
  above_bound : ∀ x ∈ s.stack, x ∉ s₀.stack → x ≠ v →
    ∀ y ∈ s₀.stack, succ.Leads x y → low ≤ s₀.number y

/-- What a search from `v` has found out. A low link below the number of `v` belongs to a node that was
open before. -/
structure Visited (succ : SuccessorMap) (pending : List NodeId) (v : NodeId) (s₀ : ComponentSearch)
    (low : Nat) (s : ComponentSearch) : Prop where
  sound : Sound succ pending s
  later : s₀.Extends s
  met : v ∈ s.numbers
  attained : s₀.numbers.size ≤ low ∨ ∃ u ∈ s₀.stack, s₀.number u = low ∧ succ.Reaches v u
  bound : ∀ x ∈ s.stack, x ∉ s₀.stack → ∀ y ∈ s₀.stack, succ.Leads x y → low ≤ s₀.number y

namespace Scanning

variable {s₀ : ComponentSearch} {done : List NodeId} {low : Nat}

theorem extends_start (h : Scanning succ pending v s₀ done low s) : s₀.Extends s :=
  (extends_enter h.fresh).trans h.later

theorem number_self (h : Scanning succ pending v s₀ done low s) : s.number v = s₀.numbers.size := by
  rw [h.later.number (mem_numbers_enter.mpr (.inl rfl)), number_enter_self]

theorem number_old (h : Scanning succ pending v s₀ done low s) {y : NodeId} (hy : y ∈ s₀.stack) :
    s.number y = s₀.number y := h.extends_start.number (h.start.mem_numbers hy)

theorem number_old_lt (h : Scanning succ pending v s₀ done low s) {y : NodeId} (hy : y ∈ s₀.stack) :
    s₀.number y < s₀.numbers.size := h.start.number_lt y (h.start.mem_numbers hy)

theorem stack_eq (h : Scanning succ pending v s₀ done low s) :
    ∃ above, s.stack = above ++ v :: s₀.stack ∧ ∀ x ∈ above, s₀.numbers.size < s.number x := by
  obtain ⟨above, habove, hnew⟩ := h.later.stack_eq
  refine ⟨above, habove, fun x hx => ?_⟩
  have hmet : x ∈ s.numbers := h.sound.mem_numbers (habove ▸ List.mem_append_left _ hx)
  have hle := h.later.number_new x hmet (hnew x hx)
  rw [size_enter h.fresh] at hle
  omega

theorem self_mem_stack (h : Scanning succ pending v s₀ done low s) : v ∈ s.stack :=
  h.sound.pending_open v List.mem_cons_self

theorem begin (h : Sound succ pending s) (hv : v ∉ s.numbers)
    (hreach : ∀ u ∈ pending, succ.Reaches u v) :
    Scanning succ pending v s [] s.numbers.size (s.enter v) where
  start := h
  fresh := hv
  sound := h.enter hv hreach
  later := .refl _
  done_met := by simp
  low_le := Nat.le_refl _
  attained := ⟨v, List.mem_cons_self, number_enter_self s v, .refl⟩
  done_bound := by simp
  above_bound x hx hold hne := by
    rcases List.mem_cons.mp hx with hx | hx
    · exact absurd hx hne
    · exact absurd hx hold

theorem meet_open (h : Scanning succ pending v s₀ done low s) (hlead : succ.Leads v w)
    (hw : w ∈ s.stack) : Scanning succ pending v s₀ (done ++ [w]) (min low (s.number w)) s where
  start := h.start
  fresh := h.fresh
  sound := h.sound
  later := h.later
  done_met x hx := by
    rcases List.mem_append.mp hx with hx | hx
    · exact h.done_met x hx
    · exact List.mem_singleton.mp hx ▸ h.sound.mem_numbers hw
  low_le := Nat.le_trans (Nat.min_le_left _ _) h.low_le
  attained := by
    rcases Nat.le_total low (s.number w) with hle | hle
    · rw [Nat.min_eq_left hle]
      exact h.attained
    · rw [Nat.min_eq_right hle]
      exact ⟨w, hw, rfl, .single hlead⟩
  done_bound y hy hold := by
    rcases List.mem_append.mp hy with hy | hy
    · exact Nat.le_trans (Nat.min_le_left _ _) (h.done_bound y hy hold)
    · obtain rfl := List.mem_singleton.mp hy
      rw [← h.number_old hold]
      exact Nat.min_le_right _ _
  above_bound x hx hold hne y hy hxy :=
    Nat.le_trans (Nat.min_le_left _ _) (h.above_bound x hx hold hne y hy hxy)

theorem meet_closed (h : Scanning succ pending v s₀ done low s) (hmet : w ∈ s.numbers)
    (hw : w ∉ s.stack) : Scanning succ pending v s₀ (done ++ [w]) low s where
  start := h.start
  fresh := h.fresh
  sound := h.sound
  later := h.later
  done_met x hx := by
    rcases List.mem_append.mp hx with hx | hx
    · exact h.done_met x hx
    · exact List.mem_singleton.mp hx ▸ hmet
  low_le := h.low_le
  attained := h.attained
  done_bound y hy hold := by
    rcases List.mem_append.mp hy with hy | hy
    · exact h.done_bound y hy hold
    · obtain rfl := List.mem_singleton.mp hy
      exact absurd (h.extends_start.mem_stack hold) hw
  above_bound := h.above_bound

theorem meet_new (h : Scanning succ pending v s₀ done low s) {below : Nat}
    (hlead : succ.Leads v w) (hw : w ∉ s.numbers)
    (hvisit : Visited succ (v :: pending) w s below s') :
    Scanning succ pending v s₀ (done ++ [w]) (min low below) s' where
  start := h.start
  fresh := h.fresh
  sound := hvisit.sound
  later := h.later.trans hvisit.later
  done_met x hx := by
    rcases List.mem_append.mp hx with hx | hx
    · exact hvisit.later.mem_numbers (h.done_met x hx)
    · exact List.mem_singleton.mp hx ▸ hvisit.met
  low_le := Nat.le_trans (Nat.min_le_left _ _) h.low_le
  attained := by
    have hkept : ∀ u ∈ s.stack, ∀ n, s.number u = n → succ.Reaches v u →
        ∃ u ∈ s'.stack, s'.number u = n ∧ succ.Reaches v u := fun u hu n hn hvu =>
      ⟨u, hvisit.later.mem_stack hu, (hvisit.later.number (h.sound.mem_numbers hu)).trans hn, hvu⟩
    obtain ⟨u, hu, hulow, hvu⟩ := h.attained
    rcases Nat.le_total low below with hle | hle
    · rw [Nat.min_eq_left hle]
      exact hkept u hu low hulow hvu
    · rw [Nat.min_eq_right hle]
      rcases hvisit.attained with hlarge | ⟨x, hx, hxbelow, hwx⟩
      · have := h.sound.number_lt u (h.sound.mem_numbers hu)
        omega
      · exact hkept x hx below hxbelow (.head hlead hwx)
  done_bound y hy hold := by
    rcases List.mem_append.mp hy with hy | hy
    · exact Nat.le_trans (Nat.min_le_left _ _) (h.done_bound y hy hold)
    · obtain rfl := List.mem_singleton.mp hy
      exact absurd (h.sound.mem_numbers (h.extends_start.mem_stack hold)) hw
  above_bound x hx hold hne y hy hxy := by
    by_cases hxs : x ∈ s.stack
    · exact Nat.le_trans (Nat.min_le_left _ _) (h.above_bound x hxs hold hne y hy hxy)
    · rw [← h.number_old hy]
      exact Nat.le_trans (Nat.min_le_right _ _)
        (hvisit.bound x hx hxs y (h.extends_start.mem_stack hy) hxy)

/-! ## The end of a scan -/

section Finished

variable (h : Scanning succ pending v s₀ (succ.targets v) low s)

include h

/-- No node opened since then leads to an open node of a number below the low link. -/
theorem bound {x : NodeId} (hx : x ∈ s.stack) (hnew : x ∉ s₀.stack) {y : NodeId}
    (hy : y ∈ s₀.stack) (hxy : succ.Leads x y) : low ≤ s₀.number y := by
  by_cases hxv : x = v
  · exact h.done_bound y (SuccessorMap.mem_targets_iff.mpr (hxv ▸ hxy)) hy
  · exact h.above_bound x hx hnew hxv y hy hxy

theorem scanned {u : NodeId} (hu : u ∈ s.numbers) (hpending : u ∉ pending) {x : NodeId}
    (hux : succ.Leads u x) : x ∈ s.numbers := by
  by_cases huv : u = v
  · exact h.done_met x (SuccessorMap.mem_targets_iff.mpr (huv ▸ hux))
  · exact h.sound.scanned u hu (by simp [huv, hpending]) x hux

/-- The low link belongs to an older node: the component of `v` stays open. -/
theorem stay (hlow : low ≠ s₀.numbers.size) : Visited succ pending v s₀ low s := by
  have hlt : low < s₀.numbers.size := Nat.lt_of_le_of_ne h.low_le hlow
  obtain ⟨above, habove, hlarge⟩ := h.stack_eq
  obtain ⟨y, hy, hylow, hvy⟩ := h.attained
  have hyold : y ∈ s₀.stack := by
    rw [habove] at hy
    rcases List.mem_append.mp hy with hy | hy
    · have := hlarge y hy
      omega
    · rcases List.mem_cons.mp hy with rfl | hy
      · rw [h.number_self] at hylow
        omega
      · exact hy
  refine ⟨⟨h.sound.number_lt, h.sound.met_iff, h.sound.open_or_closed, h.sound.stack_nodup, ?_, ?_,
    h.sound.forward, ?_, h.sound.components⟩, h.extends_start, h.sound.mem_numbers h.self_mem_stack,
    .inr ⟨y, hyold, (h.number_old hyold).symm.trans hylow, hvy⟩, fun x hx hnew z hz => h.bound hx hnew hz⟩
  · exact fun u hu => h.sound.pending_open u (List.mem_cons_of_mem _ hu)
  · exact fun u hu hpending x => h.scanned hu hpending
  · intro x hx
    have hv : ∃ u ∈ pending, s.number u ≤ low ∧ succ.Reaches v u := by
      obtain ⟨u, hu, hle, hyu⟩ := h.sound.back y hy
      rcases List.mem_cons.mp hu with rfl | hu
      · rw [h.number_self] at hle
        omega
      · exact ⟨u, hu, by omega, hvy.trans hyu⟩
    obtain ⟨p, hp, hle, hxp⟩ := h.sound.back x hx
    rcases List.mem_cons.mp hp with rfl | hp
    · obtain ⟨u, hu, hule, hpu⟩ := hv
      rw [h.number_self] at hle
      exact ⟨u, hu, by omega, hxp.trans hpu⟩
    · exact ⟨p, hp, hle, hxp⟩

/-- From what was opened since then, only that and closed components can be reached. -/
theorem no_escape (hlow : low = s₀.numbers.size) {x z : NodeId} (hx : x ∈ s.stack)
    (hnew : x ∉ s₀.stack) (hxz : succ.Reaches x z) : (z ∈ s.stack ∧ z ∉ s₀.stack) ∨ s.Closed z := by
  induction hxz with
  | refl => exact .inl ⟨hx, hnew⟩
  | @tail y z _ hyz ih =>
    rcases ih with ⟨hy, hynew⟩ | hy
    · have hpending : y ∉ pending := fun hmem => hynew (h.start.pending_open y hmem)
      rcases (h.sound.met_iff z).mp (h.scanned (h.sound.mem_numbers hy) hpending hyz) with hz | hz
      · refine .inl ⟨hz, fun hold => ?_⟩
        have hle := h.bound hy hynew hold hyz
        have hlt := h.number_old_lt hold
        omega
      · exact .inr hz
    · exact .inr (h.sound.components.reaches (.single hyz) hy)

/-- What was opened since then leads back to `v` and is led to from it, and nothing else is. -/
theorem mutual_iff (hlow : low = s₀.numbers.size) {x : NodeId} :
    x ∈ s.stack ∧ x ∉ s₀.stack ↔ succ.Reaches v x ∧ succ.Reaches x v := by
  have hv : v ∉ s₀.stack := fun hold => h.fresh (h.start.mem_numbers hold)
  constructor
  · rintro ⟨hx, hnew⟩
    refine ⟨?_, ?_⟩
    · obtain ⟨above, habove, hlarge⟩ := h.stack_eq
      refine h.sound.forward v h.self_mem_stack x hx ?_
      rw [h.number_self]
      rw [habove] at hx
      rcases List.mem_append.mp hx with hx | hx
      · exact Nat.le_of_lt (hlarge x hx)
      · rcases List.mem_cons.mp hx with rfl | hx
        · exact Nat.le_of_eq h.number_self.symm
        · exact absurd hx hnew
    · obtain ⟨u, hu, -, hxu⟩ := h.sound.back x hx
      rcases List.mem_cons.mp hu with rfl | hu
      · exact hxu
      · have hold := h.start.pending_open u hu
        rcases h.no_escape hlow hx hnew hxu with ⟨-, hunew⟩ | hclosed
        · exact absurd hold hunew
        · exact absurd hclosed (h.sound.open_or_closed u (h.extends_start.mem_stack hold))
  · rintro ⟨hvx, hxv⟩
    rcases h.no_escape hlow h.self_mem_stack hv hvx with hx | hclosed
    · exact hx
    · exact absurd (h.sound.components.reaches hxv hclosed)
        (h.sound.open_or_closed v h.self_mem_stack)

theorem close_spec : ∃ c, (s.close v).stack = s₀.stack ∧ (s.close v).closed = c :: s.closed ∧
    (c.Pairwise fun a b => compare a b = .lt) ∧ ∀ x, x ∈ c ↔ x ∈ s.stack ∧ x ∉ s₀.stack := by
  obtain ⟨above, habove, hlarge⟩ := h.stack_eq
  obtain ⟨hstack, hclosed⟩ := close_eq habove h.sound.stack_nodup
  have hnodup : (above ++ [v]).Nodup := by
    have hall := h.sound.stack_nodup
    rw [habove, List.append_cons] at hall
    exact (List.nodup_append.mp hall).1
  refine ⟨_, hstack, hclosed, ordered_sortNames hnodup, fun x => ?_⟩
  rw [(perm_sortNames _).mem_iff, List.mem_append, List.mem_singleton, habove]
  constructor
  · rintro (hx | rfl)
    · refine ⟨List.mem_append_left _ hx, fun hold => ?_⟩
      have hlt := hlarge x hx
      rw [h.number_old hold] at hlt
      have := h.number_old_lt hold
      omega
    · exact ⟨by simp, fun hold => h.fresh (h.start.mem_numbers hold)⟩
  · rintro ⟨hx, hnew⟩
    rcases List.mem_append.mp hx with hx | hx
    · exact .inl hx
    · rcases List.mem_cons.mp hx with hx | hx
      · exact .inr hx
      · exact absurd hx hnew

theorem sound_close (hlow : low = s₀.numbers.size) : Sound succ pending (s.close v) := by
  obtain ⟨c, hstack, hclosed, hordered, hmember⟩ := h.close_spec
  have hold : ∀ x ∈ s₀.stack, x ∈ s.stack := fun x => h.extends_start.mem_stack
  have hclosedIff : ∀ x, (s.close v).Closed x ↔ (x ∈ s.stack ∧ x ∉ s₀.stack) ∨ s.Closed x := by
    intro x
    simp only [Closed, hclosed, List.mem_cons, exists_eq_or_imp, hmember]
  refine ⟨h.sound.number_lt, ?_, ?_, ?_, ?_, fun u hu hpending x => h.scanned hu hpending, ?_, ?_, ?_⟩
  · intro x
    rw [hstack, hclosedIff]
    refine (h.sound.met_iff x).trans ⟨?_, ?_⟩
    · rintro (hx | hx)
      · by_cases hx₀ : x ∈ s₀.stack
        · exact .inl hx₀
        · exact .inr (.inl ⟨hx, hx₀⟩)
      · exact .inr (.inr hx)
    · rintro (hx | ⟨hx, -⟩ | hx)
      · exact .inl (hold x hx)
      · exact .inl hx
      · exact .inr hx
  · intro x hx
    rw [hstack] at hx
    rw [hclosedIff]
    rintro (⟨-, hnew⟩ | hx')
    · exact hnew hx
    · exact h.sound.open_or_closed x (hold x hx) hx'
  · rw [hstack]
    exact h.start.stack_nodup
  · rw [hstack]
    exact h.start.pending_open
  · rw [hstack]
    exact fun x hx y hy => h.sound.forward x (hold x hx) y (hold y hy)
  · rw [hstack]
    intro x hx
    obtain ⟨u, hu, hle, hxu⟩ := h.start.back x hx
    refine ⟨u, hu, ?_, hxu⟩
    change s.number u ≤ s.number x
    rwa [h.number_old hx, h.number_old (h.start.pending_open u hu)]
  · rw [hclosed]
    refine ⟨hordered, ⟨v, (hmember v).mpr ?_, fun w => (hmember w).trans (h.mutual_iff hlow)⟩,
      fun u hu x hux => ?_, fun x hx d hd hxd => ?_, h.sound.components⟩
    · exact (h.mutual_iff hlow).mpr ⟨.refl, .refl⟩
    · obtain ⟨hu, hnew⟩ := (hmember u).mp hu
      exact (h.no_escape hlow hu hnew (.single hux)).imp_left (hmember x).mpr
    · exact h.sound.open_or_closed x ((hmember x).mp hx).1 ⟨d, hd, hxd⟩

/-- The low link is the number of `v`: its component is complete. -/
theorem leave (hlow : low = s₀.numbers.size) : Visited succ pending v s₀ low (s.close v) := by
  obtain ⟨c, hstack, -⟩ := h.close_spec
  refine ⟨h.sound_close hlow, ?_, h.sound.mem_numbers h.self_mem_stack,
    .inl (Nat.le_of_eq hlow.symm), fun x hx hnew => absurd (hstack ▸ hx) hnew⟩
  exact ⟨h.extends_start.number_eq, h.extends_start.size_le, h.extends_start.number_new, [], hstack,
    by simp⟩

end Finished

end Scanning

/-! ## The whole search -/

/-- How many entries of the list of nodes are yet to be met. -/
def unmet (succ : SuccessorMap) (s : ComponentSearch) : Nat :=
  (succ.occurring.filter (· ∉ s.numbers)).length

theorem unmet_mono (h : ∀ v ∈ s.numbers, v ∈ s'.numbers) : s'.unmet succ ≤ s.unmet succ := by
  unfold unmet
  rw [← List.countP_eq_length_filter, ← List.countP_eq_length_filter]
  refine List.countP_mono_left fun v _ hv => ?_
  simp only [decide_eq_true_eq] at hv ⊢
  exact fun hmem => hv (h v hmem)

theorem Extends.unmet_le (h : s.Extends s') : s'.unmet succ ≤ s.unmet succ :=
  unmet_mono fun _ hv => h.mem_numbers hv

theorem unmet_enter (hv : v ∉ s.numbers) (hocc : v ∈ succ.occurring) :
    (s.enter v).unmet succ < s.unmet succ := by
  have hfilter : succ.occurring.filter (· ∉ (s.enter v).numbers) =
      (succ.occurring.filter (· ∉ s.numbers)).filter (· ≠ v) := by
    rw [List.filter_filter]
    refine List.filter_congr fun w _ => ?_
    simp [mem_numbers_enter, not_or]
  unfold unmet
  rw [hfilter]
  exact List.length_filter_lt_length_iff_exists.mpr ⟨v, by simp [hocc, hv], by simp⟩

/-- What the scan does with one target. -/
def look (succ : SuccessorMap) (depth : Nat) (found : Nat × ComponentSearch) (w : NodeId) :
    Nat × ComponentSearch :=
  match found.2.numbers[w]? with
  | none => (min found.1 (visit succ depth w found.2).1, (visit succ depth w found.2).2)
  | some m => (if w ∈ found.2.stack then min found.1 m else found.1, found.2)

theorem visit_succ (succ : SuccessorMap) (depth : Nat) (v : NodeId) (s : ComponentSearch) :
    visit succ (depth + 1) v s =
      let found := (succ.targets v).foldl (look succ depth) (s.numbers.size, s.enter v)
      (found.1, if found.1 = s.numbers.size then found.2.close v else found.2) := rfl

/-- The depth is enough to search from every node that is yet to be met. -/
def Deep (succ : SuccessorMap) (depth : Nat) : Prop :=
  ∀ {pending : List NodeId} {v : NodeId} {s : ComponentSearch}, Sound succ pending s →
    v ∉ s.numbers → v ∈ succ.occurring → (∀ u ∈ pending, succ.Reaches u v) →
    s.unmet succ ≤ depth →
    Visited succ pending v s (visit succ depth v s).1 (visit succ depth v s).2

theorem Scanning.look {depth low : Nat} {done : List NodeId} {s₀ : ComponentSearch}
    (hdeep : Deep succ depth) (h : Scanning succ pending v s₀ done low s)
    (hpending : ∀ u ∈ pending, succ.Reaches u v) (hunmet : s.unmet succ ≤ depth)
    (hlead : succ.Leads v w) :
    Scanning succ pending v s₀ (done ++ [w]) (look succ depth (low, s) w).1
        (look succ depth (low, s) w).2 ∧
      s.Extends (look succ depth (low, s) w).2 := by
  unfold ComponentSearch.look
  split
  · rename_i hnone
    have hnew : w ∉ s.numbers := fun hmem => by
      rw [Std.ExtTreeMap.mem_iff_isSome_getElem?, hnone] at hmem
      cases hmem
    have hreach : ∀ u ∈ v :: pending, succ.Reaches u w := by
      intro u hu
      rcases List.mem_cons.mp hu with rfl | hu
      · exact .single hlead
      · exact (hpending u hu).tail hlead
    have hvisit := hdeep h.sound hnew (SuccessorMap.mem_occurring_of_leads hlead).2 hreach hunmet
    exact ⟨h.meet_new hlead hnew hvisit, hvisit.later⟩
  · rename_i m hm
    have hmet : w ∈ s.numbers := by
      rw [Std.ExtTreeMap.mem_iff_isSome_getElem?, hm]
      rfl
    have hnumber : s.number w = m := by simp [number, hm]
    refine ⟨?_, .refl s⟩
    by_cases hw : w ∈ s.stack
    · simpa only [hw, if_true, hnumber] using h.meet_open hlead hw
    · simpa only [hw, if_false] using h.meet_closed hmet hw

theorem Scanning.foldl_look {depth low : Nat} {done : List NodeId} {s₀ : ComponentSearch}
    (hdeep : Deep succ depth) (h : Scanning succ pending v s₀ done low s)
    (hpending : ∀ u ∈ pending, succ.Reaches u v) (hunmet : s.unmet succ ≤ depth)
    (ws : List NodeId) (hlead : ∀ w ∈ ws, succ.Leads v w) :
    Scanning succ pending v s₀ (done ++ ws) (ws.foldl (ComponentSearch.look succ depth) (low, s)).1
      (ws.foldl (ComponentSearch.look succ depth) (low, s)).2 := by
  induction ws generalizing done low s with
  | nil => simpa using h
  | cons w ws ih =>
    obtain ⟨hlook, hext⟩ := h.look hdeep hpending hunmet (hlead w List.mem_cons_self)
    have hrest := ih hlook (Nat.le_trans hext.unmet_le hunmet)
      fun x hx => hlead x (List.mem_cons_of_mem _ hx)
    simpa using hrest

/-- The search meets fewer and fewer new nodes, so a depth of their number is never exceeded. -/
theorem visit_spec (succ : SuccessorMap) (depth : Nat) : Deep succ depth := by
  induction depth with
  | zero =>
    intro pending v s h hv hocc hpending hunmet
    have := unmet_enter hv hocc
    omega
  | succ depth ih =>
    intro pending v s h hv hocc hpending hunmet
    have hless := unmet_enter hv hocc
    have hscan := (Scanning.begin h hv hpending).foldl_look ih hpending (by omega)
      (succ.targets v) fun w => SuccessorMap.mem_targets_iff.mp
    rw [visit_succ]
    dsimp only
    split
    · rename_i hlow
      exact hscan.leave hlow
    · rename_i hlow
      exact hscan.stay hlow

/-- When nothing is pending, nothing is open. -/
theorem Sound.stack_eq_nil (h : Sound succ [] s) : s.stack = [] := by
  cases hs : s.stack with
  | nil => rfl
  | cons v rest =>
    obtain ⟨u, hu, -⟩ := h.back v (hs ▸ List.mem_cons_self)
    simp at hu

theorem sound_initial (succ : SuccessorMap) : Sound succ [] {} := by
  refine ⟨?_, ?_, ?_, List.nodup_nil, ?_, ?_, ?_, ?_, trivial⟩ <;> simp [Closed]

theorem run_spec (succ : SuccessorMap) :
    Sound succ [] (run succ) ∧ ∀ v ∈ succ.keys, v ∈ (run succ).numbers := by
  have hloop : ∀ (keys : List NodeId) (s : ComponentSearch), (∀ v ∈ keys, v ∈ succ.keys) →
      Sound succ [] s →
      let s' := keys.foldl (fun s v =>
        if s.numbers.contains v then s else (visit succ succ.occurring.length v s).2) s
      Sound succ [] s' ∧ s.Extends s' ∧ ∀ v ∈ keys, v ∈ s'.numbers := by
    intro keys
    induction keys with
    | nil => exact fun s _ h => ⟨h, .refl s, by simp⟩
    | cons v keys ih =>
      intro s hkeys h
      have hrest := fun x hx => hkeys x (List.mem_cons_of_mem _ hx)
      rw [List.foldl_cons]
      by_cases hv : s.numbers.contains v
      · obtain ⟨hs, hext, hmet⟩ := ih s hrest h
        simp only [hv, if_true]
        refine ⟨hs, hext, fun x hx => ?_⟩
        rcases List.mem_cons.mp hx with rfl | hx
        · exact hext.mem_numbers hv
        · exact hmet x hx
      · have hocc : v ∈ succ.occurring := List.mem_append_left _ (hkeys v List.mem_cons_self)
        have hvisit := visit_spec succ _ h hv hocc (by simp) (List.length_filter_le _ _)
        obtain ⟨hs, hext, hmet⟩ := ih _ hrest hvisit.sound
        simp only [hv]
        refine ⟨hs, hvisit.later.trans hext, fun x hx => ?_⟩
        rcases List.mem_cons.mp hx with rfl | hx
        · exact hext.mem_numbers hvisit.met
        · exact hmet x hx
  obtain ⟨hs, -, hmet⟩ := hloop succ.keys {} (fun _ hv => hv) (sound_initial succ)
  exact ⟨hs, hmet⟩

end ComponentSearch

end PatchTyping
