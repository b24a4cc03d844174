import Mathlib.Algebra.Group.Nat.Defs
import Mathlib.Data.Finset.Card
import PatchTyping.Proofs.LookUpLoops
import PatchTyping.Proofs.PartitionRefinement

/-!
# Ranks of partitions

The rank of a root is raised only when it takes over a class whose root has the same rank. So a class of rank
`n` has at least `2 ^ n` slots. Shortened paths change neither ranks nor classes, and a union in conflict only
looks up roots. A rank therefore stays below 256 as long as there are fewer than `2 ^ 256` keys, and one byte is
enough for it.
-/

namespace PatchTyping
namespace ValuedPartition

variable {K V : Type}

/-! ## Ranks in bytes -/

section Bytes

variable [Ord K] {p : ValuedPartition K V}

/-- Merge two roots by rank where a rank is a byte. Only `raise` computes with ranks; it may fail. -/
def linkRootsInBytes (raise : UInt8 → Option UInt8) (p : ValuedPartition K V) (a b : Nat)
    (value : Option V) : Option (ValuedPartition K V) :=
  if p.rank a = p.rank b then
    (raise (.ofNat (p.rank a))).map fun r => p.link b a value r.toNat
  else some (p.linkRoots a b value)

theorem linkRootsInBytes_eq {raise : UInt8 → Option UInt8}
    (hraise : ∀ r, r ≠ 255 → raise r = some (r + 1)) {a b : Nat} (ha : a < p.cells.size)
    (hb : b < p.cells.size) (hne : a ≠ b) (value : Option V)
    (hrank : (p.linkRoots a b value).rank a < 256) :
    p.linkRootsInBytes raise a b value = some (p.linkRoots a b value) := by
  unfold linkRootsInBytes
  split
  · next heq =>
    rw [rank_linkRoots ha hb hne, if_pos ⟨rfl, heq⟩] at hrank
    have hbyte : (UInt8.ofNat (p.rank a)).toNat = p.rank a := by
      rw [UInt8.toNat_ofNat', Nat.mod_eq_of_lt (by omega)]
    have hne255 : UInt8.ofNat (p.rank a) ≠ 255 := by
      intro h
      have h255 : p.rank a = 255 := hbyte.symm.trans (congrArg UInt8.toNat h)
      omega
    have hsucc : (UInt8.ofNat (p.rank a) + 1).toNat = p.rank a + 1 := by
      rw [UInt8.toNat_add, hbyte]
      exact Nat.mod_eq_of_lt hrank
    rw [hraise _ hne255, Option.map_some, hsucc, ValuedPartition.linkRoots, if_neg heq.not_lt,
      if_pos heq]
  · rfl

variable [Std.TransOrd K] [DecidableEq V]

/-- The union of two keys where a rank is a byte. -/
def unionInBytes (raise : UInt8 → Option UInt8) (p : ValuedPartition K V) (a b : K) :
    Option (Option (Conflict V) × ValuedPartition K V) :=
  let (ra, p) := p.root a
  let (rb, p) := p.root b
  if ra = rb then some (none, p)
  else
    match mergedValue (p.held ra) (p.held rb) with
    | .error conflict => some (some conflict, p)
    | .ok value => (p.linkRootsInBytes raise ra rb value).map (none, ·)

/-- What a union can do: look up two roots, and perhaps merge them. -/
theorem union_cases (p : ValuedPartition K V) (a b : K) :
    ((p.union a b).2 = ((p.root a).2.root b).2 ∧
        ∀ raise, p.unionInBytes raise a b = some (p.union a b)) ∨
      (p.root a).1 ≠ ((p.root a).2.root b).1 ∧ ∃ v,
        p.union a b = (none, ((p.root a).2.root b).2.linkRoots (p.root a).1
          ((p.root a).2.root b).1 v) ∧
        ∀ raise, p.unionInBytes raise a b = (((p.root a).2.root b).2.linkRootsInBytes raise
          (p.root a).1 ((p.root a).2.root b).1 v).map (none, ·) := by
  by_cases hroots : (p.root a).1 = ((p.root a).2.root b).1
  · exact .inl (by simp [union, unionInBytes, hroots])
  · cases hv : mergedValue (((p.root a).2.root b).2.held (p.root a).1)
        (((p.root a).2.root b).2.held ((p.root a).2.root b).1) with
    | error c => exact .inl (by simp [union, unionInBytes, hroots, hv])
    | ok v => exact .inr ⟨hroots, v, by simp [union, unionInBytes, hroots, hv]⟩

end Bytes

/-! ## Sizes of classes -/

section Slots

variable [Ord K] {p q : ValuedPartition K V}

/-- The slots below a root, and the root. -/
def classSlots (p : ValuedPartition K V) (r : Nat) : Finset Nat :=
  (Finset.range p.cells.size).filter fun x => p.rootAbove x = r

@[simp] theorem mem_classSlots {x r : Nat} :
    x ∈ p.classSlots r ↔ x < p.cells.size ∧ p.rootAbove x = r := by
  simp [classSlots]

theorem classSlots_subset {r s : Nat} (hsize : p.cells.size ≤ q.cells.size)
    (h : ∀ x, p.rootAbove x = r → q.rootAbove x = s) : p.classSlots r ⊆ q.classSlots s := by
  intro x hx
  rw [mem_classSlots] at hx ⊢
  exact ⟨hx.1.trans_le hsize, h x hx.2⟩

theorem card_classSlots_le (p : ValuedPartition K V) (r : Nat) :
    (p.classSlots r).card ≤ p.cells.size :=
  (Finset.card_filter_le _ _).trans (Finset.card_range _).le

theorem disjoint_classSlots {r s : Nat} (h : r ≠ s) : Disjoint (p.classSlots r) (p.classSlots s) := by
  rw [Finset.disjoint_left]
  intro x hr hs
  exact h ((mem_classSlots.mp hr).2.symm.trans (mem_classSlots.mp hs).2)

/-- Whichever of two roots comes to stand above the other, its rank asks for no more slots than the two ranks
did together. -/
private theorem pow_rank_linkRoots_le {a b r : Nat} (ha : a < p.cells.size) (hb : b < p.cells.size)
    (hne : a ≠ b) (hr : r = a ∨ r = b) (value : Option V) :
    2 ^ (p.linkRoots a b value).rank r ≤ 2 ^ p.rank a + 2 ^ p.rank b := by
  rw [rank_linkRoots ha hb hne]
  split
  · next h => rw [← h.2, Nat.pow_succ, Nat.mul_two]
  · rcases hr with rfl | rfl
    · exact Nat.le_add_right ..
    · exact Nat.le_add_left ..

end Slots

variable [Ord K] [Std.TransOrd K] {p q : ValuedPartition K V}

/-- There are as many slots as keys, and every class has enough of them for the rank of its root. -/
structure Ranked (p : ValuedPartition K V) : Prop extends WellFormed p where
  size_slots : p.slots.size = p.cells.size
  pow_rank_le {x : Nat} :
    x < p.cells.size → 2 ^ p.rank (p.rootAbove x) ≤ (p.classSlots (p.rootAbove x)).card

theorem Ranked.empty : (empty : ValuedPartition K V).Ranked where
  toWellFormed := .empty
  size_slots := by simp [ValuedPartition.empty]
  pow_rank_le h := by simp [ValuedPartition.empty] at h

theorem Ranked.pow_rank_le_of_root (hp : p.Ranked) {r : Nat} (hr : r < p.cells.size)
    (hroot : p.parent r = r) : 2 ^ p.rank r ≤ (p.classSlots r).card := by
  have h := hp.pow_rank_le hr
  rwa [rootAbove_of_root hroot] at h

theorem Ranked.pow_rank_le_size (hp : p.Ranked) {x : Nat} (hx : x < p.cells.size) :
    2 ^ p.rank x ≤ p.slots.size := by
  have hle : p.rank x ≤ p.rank (p.rootAbove x) := by
    by_cases h : p.rootAbove x = x
    · rw [h]
    · exact (hp.rank_lt_rootAbove h).le
  calc 2 ^ p.rank x ≤ 2 ^ p.rank (p.rootAbove x) := Nat.pow_le_pow_right (by omega) hle
    _ ≤ (p.classSlots (p.rootAbove x)).card := hp.pow_rank_le hx
    _ ≤ p.cells.size := p.card_classSlots_le _
    _ = p.slots.size := hp.size_slots.symm

theorem Ranked.rank_lt_256 (hp : p.Ranked) (hkeys : p.slots.size < 2 ^ 256) (x : Nat) :
    p.rank x < 256 := by
  by_cases hx : x < p.cells.size
  · exact (Nat.pow_lt_pow_iff_right (by omega)).mp ((hp.pow_rank_le_size hx).trans_lt hkeys)
  · have hrank : p.rank x = 0 := by simp [rank, Nat.le_of_not_lt hx]
    omega

/-! ## Single operations -/

/-- The condition on ranks is one on keys, ranks and roots. -/
theorem Ranked.of_rootAbove_eq (hp : p.Ranked) (hq : q.WellFormed) (hslots : q.slots = p.slots)
    (hsize : q.cells.size = p.cells.size) (hrank : ∀ x, q.rank x = p.rank x)
    (hroot : ∀ x, q.rootAbove x = p.rootAbove x) : q.Ranked where
  toWellFormed := hq
  size_slots := by rw [hslots, hsize, hp.size_slots]
  pow_rank_le {x} hx := by
    have hsub : p.classSlots (p.rootAbove x) ⊆ q.classSlots (p.rootAbove x) :=
      classSlots_subset hsize.ge fun y hy => (hroot y).trans hy
    rw [hroot, hrank]
    exact (hp.pow_rank_le (hsize ▸ hx)).trans (Finset.card_le_card hsub)

theorem Ranked.of_sameRoots (hp : p.Ranked) (hq : q.WellFormed) (h : SameRoots p q) : q.Ranked :=
  hp.of_rootAbove_eq hq h.slots h.size h.rank h.rootAbove

/-- The class that two are merged into has the slots of both. -/
theorem Ranked.linkRoots (hp : p.Ranked) {a b : Nat} (ha : a < p.cells.size) (hb : b < p.cells.size)
    (har : p.parent a = a) (hbr : p.parent b = b) (hne : a ≠ b) (value : Option V) :
    (p.linkRoots a b value).Ranked := by
  obtain ⟨hgrown, hslots, hsize, r, hr, -, hroot, -⟩ := hp.toGrown.linkRoots ha hb har hbr hne value
  have hpow := pow_rank_linkRoots_le ha hb hne hr value
  have hrank := rank_linkRoots (p := p) ha hb hne value
  generalize p.linkRoots a b value = q at *
  refine ⟨⟨hgrown, ?_⟩, by rw [hslots, hsize, hp.size_slots], ?_⟩
  · intro k x hx
    rw [slot?, hslots] at hx
    exact hsize ▸ hp.slot_lt hx
  · intro x hx
    rw [hroot x]
    split
    · have hsub : p.classSlots a ∪ p.classSlots b ⊆ q.classSlots r := by
        apply Finset.union_subset
        · exact classSlots_subset hsize.ge fun y hy => by rw [hroot, if_pos (.inl hy)]
        · exact classSlots_subset hsize.ge fun y hy => by rw [hroot, if_pos (.inr hy)]
      calc 2 ^ q.rank r ≤ 2 ^ p.rank a + 2 ^ p.rank b := hpow
        _ ≤ (p.classSlots a).card + (p.classSlots b).card :=
          Nat.add_le_add (hp.pow_rank_le_of_root ha har) (hp.pow_rank_le_of_root hb hbr)
        _ = (p.classSlots a ∪ p.classSlots b).card :=
          (Finset.card_union_of_disjoint (disjoint_classSlots hne)).symm
        _ ≤ (q.classSlots r).card := Finset.card_le_card hsub
    · next hx' =>
      have hsub : p.classSlots (p.rootAbove x) ⊆ q.classSlots (p.rootAbove x) :=
        classSlots_subset hsize.ge fun y hy => by rw [hroot, hy, if_neg hx']
      rw [hrank, if_neg fun h => hx' (.inl h.1.symm)]
      exact (hp.pow_rank_le (hsize ▸ hx)).trans (Finset.card_le_card hsub)

section Lawful

variable [Std.LawfulEqOrd K]

/-- A new key is a class of rank zero, with one slot. -/
theorem Ranked.register (hp : p.Ranked) (k : K) : (p.register k).Ranked := by
  by_cases hk : p.Registered k
  · rwa [register_of_registered hk]
  have hnone : p.slot? k = none := by simpa [Registered] using hk
  refine ⟨hp.toWellFormed.register k, ?_, ?_⟩
  · have hmem : k ∉ p.slots := by
      rwa [Std.ExtTreeMap.mem_iff_isSome_getElem?]
    simp [ValuedPartition.register, hnone, Std.ExtTreeMap.size_insert, hmem, hp.size_slots]
  · intro x hx
    have hroot := rootAbove_register hp.toGrown k
    rw [rank_register, hroot]
    by_cases hlt : x < p.cells.size
    · have hsub : p.classSlots (p.rootAbove x) ⊆ (p.register k).classSlots (p.rootAbove x) :=
        classSlots_subset (size_le_register p k) fun y hy => (hroot y).trans hy
      exact (hp.pow_rank_le hlt).trans (Finset.card_le_card hsub)
    · have hle : p.cells.size ≤ x := Nat.le_of_not_lt hlt
      have hrank : p.rank (p.rootAbove x) = 0 := by simp [rootAbove_of_size_le hle, rank, hle]
      rw [hrank, Nat.pow_zero]
      exact Finset.card_pos.mpr ⟨x, mem_classSlots.mpr ⟨hx, hroot x⟩⟩

theorem Ranked.root (hp : p.Ranked) (k : K) :
    (p.root k).2.Ranked ∧ p.cells.size ≤ (p.root k).2.cells.size := by
  obtain ⟨hwf, hsame, -⟩ := hp.toWellFormed.root k
  exact ⟨(hp.register k).of_sameRoots hwf hsame, hsame.size ▸ size_le_register p k⟩

theorem Ranked.root_root (hp : p.Ranked) (a b : K) {q : ValuedPartition K V}
    (hq : ((p.root a).2.root b).2 = q) :
    q.Ranked ∧ p.cells.size ≤ q.cells.size ∧
      ((p.root a).1 < q.cells.size ∧ q.parent (p.root a).1 = (p.root a).1) ∧
      ((p.root a).2.root b).1 < q.cells.size ∧
        q.parent ((p.root a).2.root b).1 = ((p.root a).2.root b).1 := by
  subst hq
  obtain ⟨hwf, hsame, hra, hrb⟩ := hp.toWellFormed.root_root a b
  obtain ⟨hq, hle⟩ := hp.root a
  obtain ⟨hq', hle'⟩ := hq.root b
  exact ⟨hq', hle.trans hle', hwf.root?_lt ((hsame.root? a).trans hra),
    hwf.root?_lt ((hsame.root? b).trans hrb)⟩

variable [DecidableEq V]

theorem Ranked.assign (hp : p.Ranked) (k : K) (v : V) :
    (p.assign k v).2.Ranked ∧ p.cells.size ≤ (p.assign k v).2.cells.size := by
  obtain ⟨hq, hle⟩ := hp.root k
  cases hv : (p.root k).2.held (p.root k).1 with
  | some w => simpa [ValuedPartition.assign, hv] using ⟨hq, hle⟩
  | none =>
    obtain ⟨hgrown, hroot⟩ := hq.toGrown.setValue (p.root k).1 (some v)
    have hassign : (p.assign k v).2 =
        (p.root k).2.mapCell (p.root k).1 fun c => { c with value := some v } := by
      simp [ValuedPartition.assign, hv]
    rw [hassign, size_mapCell]
    refine ⟨hq.of_rootAbove_eq ⟨hgrown, ?_⟩ rfl (size_mapCell ..) (rank_setValue _ _ _) hroot, hle⟩
    intro l x hx
    rw [size_mapCell]
    exact hq.slot_lt hx

theorem Ranked.union (hp : p.Ranked) (a b : K) :
    (p.union a b).2.Ranked ∧ p.cells.size ≤ (p.union a b).2.cells.size := by
  obtain ⟨hq, hle, hla, hlb⟩ := hp.root_root a b rfl
  obtain ⟨hunion, -⟩ | ⟨hne, v, hunion, -⟩ := union_cases p a b
  · rw [hunion]
    exact ⟨hq, hle⟩
  · obtain ⟨-, -, hsize, -⟩ := hq.toGrown.linkRoots hla.1 hlb.1 hla.2 hlb.2 hne v
    rw [hunion, hsize]
    exact ⟨hq.linkRoots hla.1 hlb.1 hla.2 hlb.2 hne v, hle⟩

/-- A union after which there are fewer than `2 ^ 256` keys does not raise a byte of 255. -/
theorem Ranked.unionInBytes_eq (hp : p.Ranked) {raise : UInt8 → Option UInt8}
    (hraise : ∀ r, r ≠ 255 → raise r = some (r + 1)) (a b : K)
    (hkeys : (p.union a b).2.slots.size < 2 ^ 256) :
    p.unionInBytes raise a b = some (p.union a b) := by
  obtain ⟨-, -, hla, hlb⟩ := hp.root_root a b rfl
  have hrank := (hp.union a b).1.rank_lt_256 hkeys (p.root a).1
  obtain ⟨-, hbytes⟩ | ⟨hne, v, hunion, hbytes⟩ := union_cases p a b
  · exact hbytes raise
  · rw [hunion] at hrank ⊢
    rw [hbytes, linkRootsInBytes_eq hraise hla.1 hlb.1 hne v hrank, Option.map_some]

/-! ## Requests -/

/-- What a request leaves. -/
def after (p : ValuedPartition K V) (r : PartitionRequest K V) : ValuedPartition K V := (p.answer r).2

/-- What a request leaves where a rank is a byte. -/
def afterInBytes (raise : UInt8 → Option UInt8) (p : ValuedPartition K V) :
    PartitionRequest K V → Option (ValuedPartition K V)
  | .union a b => (p.unionInBytes raise a b).map (·.2)
  | r => some (p.after r)

theorem Ranked.after (hp : p.Ranked) (r : PartitionRequest K V) :
    (p.after r).Ranked ∧ p.cells.size ≤ (p.after r).cells.size := by
  cases r with
  | insert k => exact ⟨hp.register k, size_le_register p k⟩
  | root k => exact hp.root k
  | union a b => exact hp.union a b
  | assign k v => exact hp.assign k v
  | value k =>
    obtain ⟨-, hwf, hsame⟩ := hp.toWellFormed.value k
    exact ⟨hp.of_sameRoots hwf hsame, hsame.size.ge⟩
  | classes =>
    obtain ⟨-, hwf, hsame⟩ := hp.toWellFormed.listClasses
    exact ⟨hp.of_sameRoots hwf hsame, hsame.size.ge⟩

theorem Ranked.foldl_after (hp : p.Ranked) (rs : List (PartitionRequest K V)) :
    (rs.foldl ValuedPartition.after p).Ranked ∧
      p.cells.size ≤ (rs.foldl ValuedPartition.after p).cells.size := by
  induction rs generalizing p with
  | nil => exact ⟨hp, le_rfl⟩
  | cons r rs ih =>
    obtain ⟨hq, hle⟩ := hp.after r
    obtain ⟨hq', hle'⟩ := ih hq
    exact ⟨hq', hle.trans hle'⟩

theorem Ranked.afterInBytes_eq (hp : p.Ranked) {raise : UInt8 → Option UInt8}
    (hraise : ∀ r, r ≠ 255 → raise r = some (r + 1)) (r : PartitionRequest K V)
    (hkeys : (p.after r).slots.size < 2 ^ 256) : p.afterInBytes raise r = some (p.after r) := by
  cases r with
  | union a b =>
    have hunion := hp.unionInBytes_eq hraise a b hkeys
    rw [afterInBytes, hunion, Option.map_some]
    rfl
  | _ => rfl

/-- Keys stay registered, so that a bound on their number at the end holds all the time. -/
theorem Ranked.foldlM_afterInBytes (hp : p.Ranked) {raise : UInt8 → Option UInt8}
    (hraise : ∀ r, r ≠ 255 → raise r = some (r + 1)) (rs : List (PartitionRequest K V))
    (hkeys : (rs.foldl ValuedPartition.after p).slots.size < 2 ^ 256) :
    rs.foldlM (afterInBytes raise) p = some (rs.foldl ValuedPartition.after p) := by
  induction rs generalizing p with
  | nil => rfl
  | cons r rs ih =>
    obtain ⟨hq, -⟩ := hp.after r
    obtain ⟨hq', hle⟩ := hq.foldl_after rs
    have hsize : (p.after r).slots.size < 2 ^ 256 := by
      rw [hq.size_slots]
      rw [List.foldl_cons, hq'.size_slots] at hkeys
      exact hle.trans_lt hkeys
    rw [List.foldlM_cons, hp.afterInBytes_eq hraise r hsize]
    exact ih hq hkeys

/-- Whatever a partition is asked, in every state that this leads to: a slot other than a root has a lower rank
than its parent, a root of rank `n` has at least `2 ^ n` slots in its class, and both loops of a look-up stop,
from any slot. As long as there are fewer than `2 ^ 256` keys, ranks are at most 255, and a partition that keeps
them in bytes goes through the same states, however its bytes behave where they overflow. -/
theorem ranks_never_overflow (rs : List (PartitionRequest K V)) :
    let p := rs.foldl after (empty : ValuedPartition K V)
    (∀ x < p.cells.size, p.parent x ≠ x → p.rank x < p.rank (p.parent x)) ∧
      (∀ x < p.cells.size, p.parent x = x → 2 ^ p.rank x ≤ (p.classSlots x).card) ∧
      (∀ x < p.cells.size, ∃ n ≤ p.rank (p.rootAbove x), p.ClimbStops n x (p.rootAbove x) ∧
        CompressStops (p.rootAbove x) n (p, x)
          (p.compress (p.rootAbove x) p.cells.size x, p.rootAbove x)) ∧
      (p.slots.size < 2 ^ 256 → (∀ x, p.rank x ≤ 255) ∧
        ∀ raise : UInt8 → Option UInt8, (∀ r, r ≠ 255 → raise r = some (r + 1)) →
          rs.foldlM (afterInBytes raise) empty = some p) := by
  intro p
  have hp : p.Ranked := (Ranked.empty.foldl_after rs).1
  refine ⟨fun x _ hx => hp.rank_lt hx, fun x => hp.pow_rank_le_of_root, fun x => hp.loops_stop, ?_⟩
  intro hkeys
  exact ⟨fun x => Nat.le_of_lt_succ (hp.rank_lt_256 hkeys x),
    fun raise hraise => Ranked.empty.foldlM_afterInBytes hraise rs hkeys⟩

/-- Two classes of rank two that cannot be merged. Bytes that wrap around and bytes that fail on overflow both
do for them. -/
theorem ranks_never_overflow_conflict :
    let requests : List (PartitionRequest String Nat) :=
      [.union "a" "b", .union "c" "d", .union "b" "d", .assign "c" 1, .union "e" "f", .union "h" "g",
        .union "f" "g", .assign "h" 2, .union "d" "g", .value "d", .union "i" "a"]
    let p := requests.foldl after empty
    (p.slots.size = 9 ∧ p.parent 7 ≠ 7 ∧ p.rank 7 < p.rank (p.parent 7)) ∧
      (p.parent 4 = 4 ∧ p.rank 4 = 2 ∧ 2 ^ 2 ≤ (p.classSlots 4).card) ∧
      (p.rootAbove 7 = 4 ∧ ∃ n ≤ 2, p.ClimbStops n 7 4) ∧
      requests.foldlM (afterInBytes fun r => some (r + 1)) empty = some p ∧
      requests.foldlM (afterInBytes fun r => if r = 255 then none else some (r + 1)) empty = some p := by
  intro requests p
  obtain ⟨hgrow, hsize, hloops, hbytes⟩ := ranks_never_overflow requests
  obtain ⟨hkeys, hcells, hchild, hroot, hrank, habove⟩ : p.slots.size = 9 ∧ p.cells.size = 9 ∧
      p.parent 7 ≠ 7 ∧ p.parent 4 = 4 ∧ p.rank 4 = 2 ∧ p.rootAbove 7 = 4 := by
    decide +kernel
  have hlt : ∀ x < 9, x < p.cells.size := fun x hx => hcells ▸ hx
  have hfew : p.slots.size < 2 ^ 256 := by
    rw [hkeys]
    decide
  refine ⟨⟨hkeys, hchild, hgrow 7 (hlt 7 (by decide)) hchild⟩, ⟨hroot, hrank, ?_⟩, ⟨habove, ?_⟩, ?_, ?_⟩
  · have hslots : 2 ^ p.rank 4 ≤ (p.classSlots 4).card := hsize 4 (hlt 4 (by decide)) hroot
    rwa [hrank] at hslots
  · obtain ⟨n, hn, hclimb, -⟩ : ∃ n ≤ p.rank (p.rootAbove 7), p.ClimbStops n 7 (p.rootAbove 7) ∧ _ :=
      hloops 7 (hlt 7 (by decide))
    rw [habove] at hn hclimb
    rw [hrank] at hn
    exact ⟨n, hn, hclimb⟩
  · exact (hbytes hfew).2 _ fun r _ => rfl
  · exact (hbytes hfew).2 _ fun r hr => if_neg hr

end Lawful

end ValuedPartition
end PatchTyping
