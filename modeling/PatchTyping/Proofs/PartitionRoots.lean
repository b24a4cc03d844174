import Mathlib.Data.Finset.Card
import Mathlib.Data.Finset.Range
import PatchTyping.ValuedPartition

/-!
# Roots of partitions

The slots of a partition form trees because ranks grow from a slot to its parent. So the number of
slots is enough fuel for a climb, and the root above a slot is the only function that is constant along
parents and fixes roots. Every operation on the trees is described through that function.
-/

namespace PatchTyping
namespace ValuedPartition

variable {K V : Type} [Ord K]

/-- Parents are slots again, and the rank grows on the way up. -/
structure Grown (p : ValuedPartition K V) : Prop where
  parent_lt {x : Nat} : x < p.cells.size → p.parent x < p.cells.size
  rank_lt {x : Nat} : p.parent x ≠ x → p.rank x < p.rank (p.parent x)

theorem parent_of_size_le {p : ValuedPartition K V} {x : Nat} (h : p.cells.size ≤ x) :
    p.parent x = x := by
  simp [parent, Array.getElem?_eq_none h]

/-- Slots of higher rank. A climb cannot take more steps than there are. -/
private def higher (p : ValuedPartition K V) (x : Nat) : Finset Nat :=
  (Finset.range p.cells.size).filter fun y => p.rank x < p.rank y

private theorem parent_mem_higher {p : ValuedPartition K V} (hp : p.Grown) {x : Nat}
    (hx : p.parent x ≠ x) : p.parent x ∈ p.higher x := by
  have hlt : x < p.cells.size := by
    by_contra h
    exact hx (parent_of_size_le (Nat.le_of_not_lt h))
  simp only [higher, Finset.mem_filter, Finset.mem_range]
  exact ⟨hp.parent_lt hlt, hp.rank_lt hx⟩

private theorem higher_parent_card {p : ValuedPartition K V} (hp : p.Grown) {x : Nat}
    (hx : p.parent x ≠ x) : (p.higher (p.parent x)).card < (p.higher x).card := by
  apply Finset.card_lt_card
  refine Finset.ssubset_iff_of_subset ?_ |>.mpr ⟨_, parent_mem_higher hp hx, by simp [higher]⟩
  intro y hy
  simp only [higher, Finset.mem_filter, Finset.mem_range] at hy ⊢
  exact ⟨hy.1, (hp.rank_lt hx).trans hy.2⟩

private theorem parent_climb {p : ValuedPartition K V} (hp : p.Grown) (n x : Nat)
    (hn : (p.higher x).card ≤ n) : p.parent (p.climb n x) = p.climb n x := by
  induction n generalizing x with
  | zero =>
    by_contra hx
    have hmem : p.parent x ∈ p.higher x := parent_mem_higher hp hx
    rw [Finset.card_eq_zero.mp (Nat.le_zero.mp hn)] at hmem
    simp at hmem
  | succ n ih =>
    by_cases hx : p.parent x = x
    · simp [climb, hx]
    · have hcard := higher_parent_card hp hx
      simpa [climb, hx] using ih (p.parent x) (by omega)

theorem Grown.parent_rootAbove {p : ValuedPartition K V} (hp : p.Grown) (x : Nat) :
    p.parent (p.rootAbove x) = p.rootAbove x := by
  apply parent_climb hp
  exact (Finset.card_filter_le _ _).trans (Finset.card_range _).le

private theorem const_climb {p : ValuedPartition K V} {β : Type} {f : Nat → β}
    (hf : ∀ y, f (p.parent y) = f y) (n x : Nat) : f (p.climb n x) = f x := by
  induction n generalizing x with
  | zero => rfl
  | succ n ih =>
    by_cases hx : p.parent x = x
    · simp [climb, hx]
    · simpa [climb, hx] using (ih (p.parent x)).trans (hf x)

/-- The root above a slot is the only function that is constant along parents and fixes roots. -/
theorem Grown.rootAbove_eq {p : ValuedPartition K V} (hp : p.Grown) {f : Nat → Nat}
    (hroot : ∀ y, p.parent y = y → f y = y) (hstep : ∀ y, f (p.parent y) = f y) (x : Nat) :
    p.rootAbove x = f x :=
  calc p.rootAbove x = f (p.rootAbove x) := (hroot _ (hp.parent_rootAbove x)).symm
    _ = f x := const_climb hstep _ x

theorem rootAbove_of_root {p : ValuedPartition K V} {x : Nat} (h : p.parent x = x) :
    p.rootAbove x = x := by
  unfold rootAbove
  cases p.cells.size <;> simp [climb, h]

theorem rootAbove_of_size_le {p : ValuedPartition K V} {x : Nat} (h : p.cells.size ≤ x) :
    p.rootAbove x = x :=
  rootAbove_of_root (parent_of_size_le h)

private theorem climb_succ {p : ValuedPartition K V} {n x : Nat}
    (h : p.parent (p.climb n x) = p.climb n x) : p.climb (n + 1) x = p.climb n x := by
  induction n generalizing x with
  | zero =>
    have hx : p.parent x = x := h
    simp [climb, hx]
  | succ n ih =>
    by_cases hx : p.parent x = x
    · simp [climb, hx]
    · have hc : ∀ m, p.climb (m + 1) x = p.climb m (p.parent x) := by simp [climb, hx]
      rw [hc] at h
      rw [hc, hc]
      exact ih h

theorem Grown.rootAbove_parent {p : ValuedPartition K V} (hp : p.Grown) (x : Nat) :
    p.rootAbove (p.parent x) = p.rootAbove x := by
  by_cases hx : p.parent x = x
  · rw [hx]
  · obtain ⟨n, hn⟩ : ∃ n, p.cells.size = n + 1 := by
      refine Nat.exists_eq_add_one.mpr (Nat.pos_of_ne_zero fun h => hx ?_)
      exact parent_of_size_le (by omega)
    have hroot : p.parent (p.climb n (p.parent x)) = p.climb n (p.parent x) := by
      apply parent_climb hp
      have hcard := higher_parent_card hp hx
      have hle : (p.higher x).card ≤ p.cells.size :=
        (Finset.card_filter_le _ _).trans (Finset.card_range _).le
      omega
    have hx' : p.rootAbove x = p.climb n (p.parent x) := by simp [rootAbove, hn, climb, hx]
    rw [hx', rootAbove, hn, climb_succ hroot]

@[simp] theorem Grown.rootAbove_rootAbove {p : ValuedPartition K V} (hp : p.Grown) (x : Nat) :
    p.rootAbove (p.rootAbove x) = p.rootAbove x :=
  rootAbove_of_root (hp.parent_rootAbove x)

theorem Grown.rootAbove_lt {p : ValuedPartition K V} (hp : p.Grown) {x : Nat}
    (hx : x < p.cells.size) : p.rootAbove x < p.cells.size := by
  have h : ∀ n y, y < p.cells.size → p.climb n y < p.cells.size := by
    intro n
    induction n with
    | zero => intro y hy; exact hy
    | succ n ih =>
      intro y hy
      unfold climb
      split
      · exact hy
      · exact ih _ (hp.parent_lt hy)
  exact h _ _ hx

theorem Grown.rank_lt_rootAbove {p : ValuedPartition K V} (hp : p.Grown) {x : Nat}
    (hx : p.rootAbove x ≠ x) : p.rank x < p.rank (p.rootAbove x) := by
  have hle : ∀ n y, p.rank y ≤ p.rank (p.climb n y) := by
    intro n
    induction n with
    | zero => intro y; exact le_rfl
    | succ n ih =>
      intro y
      unfold climb
      split
      · exact le_rfl
      · next hy => exact (hp.rank_lt hy).le.trans (ih _)
  have hpx : p.parent x ≠ x := fun h => hx (rootAbove_of_root h)
  calc p.rank x < p.rank (p.parent x) := hp.rank_lt hpx
    _ ≤ p.rank (p.rootAbove (p.parent x)) := hle _ _
    _ = p.rank (p.rootAbove x) := by rw [hp.rootAbove_parent]

/-! ### Changing a cell -/

@[simp] theorem size_mapCell (p : ValuedPartition K V) (x : Nat)
    (f : PartitionCell V → PartitionCell V) : (p.mapCell x f).cells.size = p.cells.size := by
  simp [mapCell]

theorem cell_mapCell (p : ValuedPartition K V) (x y : Nat)
    (f : PartitionCell V → PartitionCell V) :
    (p.mapCell x f).cells[y]? = if x = y then p.cells[y]?.map f else p.cells[y]? := by
  simp only [mapCell, Array.getElem?_modify]

theorem parent_mapCell_of_ne (p : ValuedPartition K V) {x y : Nat}
    (f : PartitionCell V → PartitionCell V) (h : x ≠ y) :
    (p.mapCell x f).parent y = p.parent y := by
  simp [parent, cell_mapCell, h]

theorem rank_mapCell_of_ne (p : ValuedPartition K V) {x y : Nat}
    (f : PartitionCell V → PartitionCell V) (h : x ≠ y) : (p.mapCell x f).rank y = p.rank y := by
  simp [rank, cell_mapCell, h]

theorem held_mapCell_of_ne (p : ValuedPartition K V) {x y : Nat}
    (f : PartitionCell V → PartitionCell V) (h : x ≠ y) : (p.mapCell x f).held y = p.held y := by
  simp [held, cell_mapCell, h]

/-- The second partition differs from the first only in that slots may have been moved closer to the
roots above them. -/
structure SameRoots (p q : ValuedPartition K V) : Prop where
  slots : q.slots = p.slots
  size : q.cells.size = p.cells.size
  rank (x : Nat) : q.rank x = p.rank x
  held (x : Nat) : q.held x = p.held x
  rootAbove (x : Nat) : q.rootAbove x = p.rootAbove x

theorem SameRoots.refl (p : ValuedPartition K V) : SameRoots p p :=
  ⟨rfl, rfl, fun _ => rfl, fun _ => rfl, fun _ => rfl⟩

theorem SameRoots.trans {p q r : ValuedPartition K V} (h : SameRoots p q) (h' : SameRoots q r) :
    SameRoots p r where
  slots := h'.slots.trans h.slots
  size := h'.size.trans h.size
  rank x := (h'.rank x).trans (h.rank x)
  held x := (h'.held x).trans (h.held x)
  rootAbove x := (h'.rootAbove x).trans (h.rootAbove x)

theorem parent_redirect (p : ValuedPartition K V) {x : Nat} (hx : x < p.cells.size)
    (r y : Nat) :
    (p.mapCell x fun c => { c with parent := r }).parent y = if x = y then r else p.parent y := by
  by_cases h : x = y
  · subst h
    simp [parent, cell_mapCell, Array.getElem?_eq_getElem hx]
  · rw [parent_mapCell_of_ne p _ h, if_neg h]

private theorem rank_redirect (p : ValuedPartition K V) (x r y : Nat) :
    (p.mapCell x fun c => { c with parent := r }).rank y = p.rank y := by
  by_cases h : x = y
  · subst h
    cases hc : p.cells[x]? <;> simp [rank, cell_mapCell, hc]
  · exact rank_mapCell_of_ne p _ h

private theorem held_redirect (p : ValuedPartition K V) (x r y : Nat) :
    (p.mapCell x fun c => { c with parent := r }).held y = p.held y := by
  by_cases h : x = y
  · subst h
    cases hc : p.cells[x]? <;> simp [held, cell_mapCell, hc]
  · exact held_mapCell_of_ne p _ h

theorem Grown.redirect {p : ValuedPartition K V} (hp : p.Grown) {x : Nat}
    (hx : x < p.cells.size) (hne : x ≠ p.rootAbove x) :
    (p.mapCell x fun c => { c with parent := p.rootAbove x }).Grown ∧
      SameRoots p (p.mapCell x fun c => { c with parent := p.rootAbove x }) := by
  have hpar := parent_redirect p hx (p.rootAbove x)
  have hgrown : (p.mapCell x fun c => { c with parent := p.rootAbove x }).Grown := by
    constructor
    · intro y hy
      rw [hpar, size_mapCell]
      rw [size_mapCell] at hy
      split
      · exact hp.rootAbove_lt hx
      · exact hp.parent_lt hy
    · intro y hy
      rw [hpar] at hy ⊢
      rw [rank_redirect, rank_redirect]
      split at hy
      · next h =>
        subst h
        simpa using hp.rank_lt_rootAbove hne.symm
      · next h => simpa [h] using hp.rank_lt hy
  refine ⟨hgrown, rfl, size_mapCell .., rank_redirect p _ _, held_redirect p _ _, ?_⟩
  apply hgrown.rootAbove_eq
  · intro y hy
    rw [hpar] at hy
    split at hy
    · next h => exact absurd (h.trans hy.symm) (h ▸ hne)
    · exact rootAbove_of_root hy
  · intro y
    rw [hpar]
    split
    · next h => rw [hp.rootAbove_rootAbove, h]
    · exact hp.rootAbove_parent y

/-- Compressing a path keeps the root above every slot. -/
theorem Grown.compress {p : ValuedPartition K V} (hp : p.Grown) {x : Nat} (hx : x < p.cells.size)
    (n : Nat) :
    (p.compress (p.rootAbove x) n x).Grown ∧ SameRoots p (p.compress (p.rootAbove x) n x) := by
  induction n generalizing p x with
  | zero => exact ⟨hp, SameRoots.refl p⟩
  | succ n ih =>
    unfold ValuedPartition.compress
    split
    · exact ⟨hp, SameRoots.refl p⟩
    · next hne =>
      obtain ⟨hq, hsame⟩ := hp.redirect hx hne
      have hroot := (hsame.rootAbove (p.parent x)).trans (hp.rootAbove_parent x)
      have hlt := hsame.size ▸ hp.parent_lt hx
      obtain ⟨hr, hsame'⟩ := ih hq hlt
      rw [hroot] at hr hsame'
      exact ⟨hr, hsame.trans hsame'⟩

theorem rank_setValue (p : ValuedPartition K V) (x : Nat) (v : Option V) (y : Nat) :
    (p.mapCell x fun c => { c with value := v }).rank y = p.rank y := by
  by_cases h : x = y
  · subst h
    cases hc : p.cells[x]? <;> simp [rank, cell_mapCell, hc]
  · exact rank_mapCell_of_ne p _ h

theorem Grown.setValue {p : ValuedPartition K V} (hp : p.Grown) (x : Nat) (v : Option V) :
    (p.mapCell x fun c => { c with value := v }).Grown ∧
      ∀ y, (p.mapCell x fun c => { c with value := v }).rootAbove y = p.rootAbove y := by
  have hpar : ∀ y, (p.mapCell x fun c => { c with value := v }).parent y = p.parent y := by
    intro y
    by_cases h : x = y
    · subst h
      cases hc : p.cells[x]? <;> simp [parent, cell_mapCell, hc]
    · exact parent_mapCell_of_ne p _ h
  have hgrown : (p.mapCell x fun c => { c with value := v }).Grown := by
    constructor
    · intro y hy
      rw [hpar, size_mapCell]
      exact hp.parent_lt (size_mapCell p x _ ▸ hy)
    · intro y hy
      rw [hpar] at hy
      rw [hpar, rank_setValue, rank_setValue]
      exact hp.rank_lt hy
  refine ⟨hgrown, hgrown.rootAbove_eq ?_ ?_⟩
  · intro y hy
    exact rootAbove_of_root (hpar y ▸ hy)
  · intro y
    rw [hpar, hp.rootAbove_parent]

theorem held_setValue {p : ValuedPartition K V} {x : Nat} (hx : x < p.cells.size) (v : Option V)
    (y : Nat) :
    (p.mapCell x fun c => { c with value := v }).held y = if x = y then v else p.held y := by
  by_cases h : x = y
  · subst h
    simp [held, cell_mapCell, Array.getElem?_eq_getElem hx]
  · rw [held_mapCell_of_ne p _ h, if_neg h]

/-! ### Linking roots -/

section Link

variable {p : ValuedPartition K V} {child top : Nat}

private theorem parent_link (hc : child < p.cells.size) (hne : child ≠ top) (value : Option V)
    (rank y : Nat) :
    (p.link child top value rank).parent y = if child = y then top else p.parent y := by
  unfold link
  by_cases h : top = y
  · subst h
    rw [if_neg hne]
    cases ht : p.cells[top]? <;> simp [parent, cell_mapCell, hne, ht]
  · rw [parent_mapCell_of_ne _ _ h]
    by_cases h' : child = y
    · subst h'
      simp [parent, cell_mapCell, Array.getElem?_eq_getElem hc]
    · rw [parent_mapCell_of_ne _ _ h', if_neg h']

private theorem rank_link (ht : top < p.cells.size) (hne : child ≠ top) (value : Option V)
    (rank y : Nat) :
    (p.link child top value rank).rank y = if top = y then rank else p.rank y := by
  unfold link
  by_cases h : top = y
  · subst h
    simp [ValuedPartition.rank, cell_mapCell, hne, Array.getElem?_eq_getElem ht]
  · rw [rank_mapCell_of_ne _ _ h, if_neg h]
    by_cases h' : child = y
    · subst h'
      cases hc : p.cells[child]? <;> simp [ValuedPartition.rank, cell_mapCell, hc]
    · rw [rank_mapCell_of_ne _ _ h']

private theorem held_link (ht : top < p.cells.size) (hne : child ≠ top) (value : Option V)
    (rank y : Nat) :
    (p.link child top value rank).held y =
      if top = y then value else if child = y then none else p.held y := by
  unfold link
  by_cases h : top = y
  · subst h
    simp [held, cell_mapCell, hne, Array.getElem?_eq_getElem ht]
  · rw [held_mapCell_of_ne _ _ h, if_neg h]
    by_cases h' : child = y
    · subst h'
      cases hc : p.cells[child]? <;> simp [held, cell_mapCell, hc]
    · rw [held_mapCell_of_ne _ _ h', if_neg h']

/-- A root is put below another whose new rank is higher than the lower root's and not lower than its
own old one. -/
private theorem Grown.link (hp : p.Grown) (hc : child < p.cells.size) (ht : top < p.cells.size)
    (hcr : p.parent child = child) (htr : p.parent top = top) (hne : child ≠ top)
    (value : Option V) {rank : Nat} (hlt : p.rank child < rank) (hle : p.rank top ≤ rank) :
    (p.link child top value rank).Grown ∧
      ∀ y, (p.link child top value rank).rootAbove y =
        if p.rootAbove y = child then top else p.rootAbove y := by
  have hpar := parent_link hc hne value rank
  have hrank := rank_link ht hne value rank
  have hgrown : (p.link child top value rank).Grown := by
    constructor
    · intro y hy
      have hsize : (p.link child top value rank).cells.size = p.cells.size := by
        simp [ValuedPartition.link]
      rw [hsize] at hy ⊢
      rw [hpar]
      split
      · exact ht
      · exact hp.parent_lt hy
    · intro y hy
      rw [hpar] at hy ⊢
      split at hy
      · next h =>
        subst h
        rw [hrank, hrank, if_pos rfl, if_neg hne.symm, if_pos rfl]
        exact hlt
      · next h =>
        have hyt : top ≠ y := fun e => hy (e ▸ htr)
        have hup := hp.rank_lt hy
        rw [hrank, hrank, if_neg h, if_neg hyt]
        split
        · next e => rw [← e] at hup; omega
        · exact hup
  refine ⟨hgrown, hgrown.rootAbove_eq ?_ ?_⟩
  · intro y hy
    rw [hpar] at hy
    split at hy
    · next h => exact absurd (h.trans hy.symm) hne
    · next h => rw [rootAbove_of_root hy, if_neg (Ne.symm h)]
  · intro y
    rw [hpar]
    split
    · next h =>
      subst h
      rw [rootAbove_of_root hcr, rootAbove_of_root htr, if_neg hne.symm, if_pos rfl]
    · rw [hp.rootAbove_parent]

/-- Merging two roots of one rank raises the first. No other rank changes. -/
theorem rank_linkRoots {a b : Nat} (ha : a < p.cells.size) (hb : b < p.cells.size) (hne : a ≠ b)
    (value : Option V) (y : Nat) :
    (p.linkRoots a b value).rank y =
      if a = y ∧ p.rank a = p.rank b then p.rank a + 1 else p.rank y := by
  unfold ValuedPartition.linkRoots
  split
  · next hlt =>
    rw [rank_link hb hne, if_neg fun h : a = y ∧ p.rank a = p.rank b => hlt.ne h.2]
    by_cases hy : b = y
    · rw [if_pos hy, hy]
    · rw [if_neg hy]
  · rw [rank_link ha hne.symm]
    by_cases hy : a = y
    · simp [hy]
    · simp [hy]

/-- Merging two roots: one of them comes to stand above the slots of both, and holds the value. -/
theorem Grown.linkRoots (hp : p.Grown) {a b : Nat} (ha : a < p.cells.size)
    (hb : b < p.cells.size) (har : p.parent a = a) (hbr : p.parent b = b) (hne : a ≠ b)
    (value : Option V) :
    (p.linkRoots a b value).Grown ∧ (p.linkRoots a b value).slots = p.slots ∧
      (p.linkRoots a b value).cells.size = p.cells.size ∧
      ∃ r, (r = a ∨ r = b) ∧ (p.linkRoots a b value).held r = value ∧
        (∀ y, (p.linkRoots a b value).rootAbove y =
          if p.rootAbove y = a ∨ p.rootAbove y = b then r else p.rootAbove y) ∧
        ∀ y, y ≠ a → y ≠ b → (p.linkRoots a b value).held y = p.held y := by
  unfold ValuedPartition.linkRoots
  split
  · next hlt =>
    obtain ⟨hg, hroot⟩ := hp.link ha hb har hbr hne value hlt le_rfl
    refine ⟨hg, rfl, by simp [ValuedPartition.link], b, .inr rfl, ?_, ?_, ?_⟩
    · rw [held_link hb hne, if_pos rfl]
    · intro y
      rw [hroot]
      split <;> simp_all
    · intro y hya hyb
      rw [held_link hb hne, if_neg (Ne.symm hyb), if_neg (Ne.symm hya)]
  · next hle =>
    have hrank : p.rank b < if p.rank a = p.rank b then p.rank a + 1 else p.rank a := by
      split <;> omega
    have hrank' : p.rank a ≤ if p.rank a = p.rank b then p.rank a + 1 else p.rank a := by
      split <;> omega
    obtain ⟨hg, hroot⟩ := hp.link hb ha hbr har hne.symm value hrank hrank'
    refine ⟨hg, rfl, by simp [ValuedPartition.link], a, .inl rfl, ?_, ?_, ?_⟩
    · rw [held_link ha hne.symm, if_pos rfl]
    · intro y
      rw [hroot]
      split <;> simp_all
    · intro y hya hyb
      rw [held_link ha hne.symm, if_neg (Ne.symm hya), if_neg (Ne.symm hyb)]

end Link

end ValuedPartition
end PatchTyping
