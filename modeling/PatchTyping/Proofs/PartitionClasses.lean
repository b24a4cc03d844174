import PatchTyping.Proofs.PartitionRoots

/-!
# Classes of partitions

What an operation does to a partition shows in two places: which keys share a class, and which value a
class holds. The lemmas here say so for each operation, also when a conflict keeps it from changing
anything, and do not mention slots.
-/

namespace PatchTyping
namespace ValuedPartition

variable {K V : Type} [Ord K] [Std.TransOrd K]

/-- The trees are grown and every key has one of the slots. -/
structure WellFormed (p : ValuedPartition K V) : Prop extends Grown p where
  slot_lt {k : K} {x : Nat} : p.slot? k = some x → x < p.cells.size

def Registered (p : ValuedPartition K V) (k : K) : Prop := (p.slot? k).isSome

/-- Both keys are registered, and in one class. -/
def Same (p : ValuedPartition K V) (k l : K) : Prop := ∃ r, p.root? k = some r ∧ p.root? l = some r

theorem Same.symm {p : ValuedPartition K V} {k l : K} (h : p.Same k l) : p.Same l k := by
  obtain ⟨r, hk, hl⟩ := h
  exact ⟨r, hl, hk⟩

theorem Same.trans {p : ValuedPartition K V} {k l m : K} (h : p.Same k l) (h' : p.Same l m) :
    p.Same k m := by
  obtain ⟨r, hk, hl⟩ := h
  obtain ⟨s, hl', hm⟩ := h'
  cases hl.symm.trans hl'
  exact ⟨r, hk, hm⟩

theorem same_self_iff {p : ValuedPartition K V} {k : K} : p.Same k k ↔ p.Registered k := by
  unfold Same Registered root?
  cases p.slot? k <;> simp

theorem Same.registered {p : ValuedPartition K V} {k l : K} (h : p.Same k l) :
    p.Registered k ∧ p.Registered l :=
  ⟨same_self_iff.mp (h.trans h.symm), same_self_iff.mp (h.symm.trans h)⟩

theorem same_iff_root?_eq {p : ValuedPartition K V} {k l : K} (hl : p.Registered l) :
    p.Same k l ↔ p.root? k = p.root? l := by
  obtain ⟨r, hr, -⟩ := same_self_iff.mpr hl
  simp [Same, hr]

theorem Same.value?_eq {p : ValuedPartition K V} {k l : K} (h : p.Same k l) :
    p.value? k = p.value? l := by
  obtain ⟨r, hk, hl⟩ := h
  rw [value?, value?, hk, hl]

theorem value?_of_not_registered {p : ValuedPartition K V} {k : K} (h : ¬ p.Registered k) :
    p.value? k = none := by
  have hk : p.slot? k = none := by simpa [Registered] using h
  simp [value?, root?, hk]

theorem registered_of_value? {p : ValuedPartition K V} {k : K} {v : V} (h : p.value? k = some v) :
    p.Registered k := by
  by_contra hk
  rw [value?_of_not_registered hk] at h
  cases h

theorem WellFormed.empty : (empty : ValuedPartition K V).WellFormed where
  parent_lt h := by simp [ValuedPartition.empty] at h
  rank_lt h := by simp [ValuedPartition.empty, parent] at h
  slot_lt h := by simp [ValuedPartition.empty, slot?] at h

theorem WellFormed.root?_lt {p : ValuedPartition K V} (hp : p.WellFormed) {k : K} {r : Nat}
    (h : p.root? k = some r) : r < p.cells.size ∧ p.parent r = r := by
  obtain ⟨x, hx, rfl⟩ := Option.map_eq_some_iff.mp h
  exact ⟨hp.rootAbove_lt (hp.slot_lt hx), hp.parent_rootAbove x⟩

theorem held_of_root? {p : ValuedPartition K V} {k : K} {r : Nat} (h : p.root? k = some r) :
    p.held r = p.value? k := by
  rw [value?, h]
  rfl

/-! ### Partitions with the same roots -/

namespace SameRoots

variable {p q : ValuedPartition K V}

theorem slot? (h : SameRoots p q) (k : K) : q.slot? k = p.slot? k := by
  rw [ValuedPartition.slot?, ValuedPartition.slot?, h.slots]

theorem root? (h : SameRoots p q) (k : K) : q.root? k = p.root? k := by
  rw [ValuedPartition.root?, ValuedPartition.root?, h.slot?, funext h.rootAbove]

theorem value? (h : SameRoots p q) (k : K) : q.value? k = p.value? k := by
  rw [ValuedPartition.value?, ValuedPartition.value?, h.root?, funext h.held]

theorem same_iff (h : SameRoots p q) (k l : K) : q.Same k l ↔ p.Same k l := by
  rw [Same, Same, h.root?, h.root?]

theorem wellFormed (h : SameRoots p q) (hp : p.WellFormed) (hq : q.Grown) : q.WellFormed where
  toGrown := hq
  slot_lt hk := by
    rw [h.slot?] at hk
    rw [h.size]
    exact hp.slot_lt hk

end SameRoots

/-! ### Registration -/

theorem register_of_registered {p : ValuedPartition K V} {k : K} (h : p.Registered k) :
    p.register k = p := by
  obtain ⟨x, hx⟩ := Option.isSome_iff_exists.mp h
  simp [register, hx]

omit [Std.TransOrd K] in
private theorem cell_push (p : ValuedPartition K V) (y : Nat) (hy : y ≠ p.cells.size)
    (c : PartitionCell V) : (p.cells.push c)[y]? = p.cells[y]? := by
  rw [Array.getElem?_push, if_neg hy]

theorem parent_register (p : ValuedPartition K V) (k : K) (y : Nat) :
    (p.register k).parent y = p.parent y := by
  unfold register
  split
  · rfl
  · by_cases hy : y = p.cells.size
    · subst hy
      simp [parent]
    · simp [parent, cell_push p y hy]

theorem rank_register (p : ValuedPartition K V) (k : K) (y : Nat) :
    (p.register k).rank y = p.rank y := by
  unfold register
  split
  · rfl
  · by_cases hy : y = p.cells.size
    · subst hy
      simp [rank]
    · simp [rank, cell_push p y hy]

theorem held_register (p : ValuedPartition K V) (k : K) (y : Nat) :
    (p.register k).held y = p.held y := by
  unfold register
  split
  · rfl
  · by_cases hy : y = p.cells.size
    · subst hy
      simp [held]
    · simp [held, cell_push p y hy]

theorem size_le_register (p : ValuedPartition K V) (k : K) :
    p.cells.size ≤ (p.register k).cells.size := by
  unfold register
  split <;> simp

theorem Grown.register {p : ValuedPartition K V} (hp : p.Grown) (k : K) : (p.register k).Grown where
  parent_lt {y} hy := by
    rw [parent_register]
    by_cases hlt : y < p.cells.size
    · exact (hp.parent_lt hlt).trans_le (size_le_register p k)
    · rwa [parent_of_size_le (Nat.le_of_not_lt hlt)]
  rank_lt hy := by
    simp only [parent_register, rank_register] at hy ⊢
    exact hp.rank_lt hy

theorem rootAbove_register {p : ValuedPartition K V} (hp : p.Grown) (k : K) (y : Nat) :
    (p.register k).rootAbove y = p.rootAbove y := by
  apply (hp.register k).rootAbove_eq
  · intro z hz
    rw [parent_register] at hz
    exact rootAbove_of_root hz
  · intro z
    rw [parent_register, hp.rootAbove_parent]

theorem slot?_register_self {p : ValuedPartition K V} {k : K} (h : ¬ p.Registered k) :
    (p.register k).slot? k = some p.cells.size := by
  have hnone : p.slot? k = none := by simpa [Registered] using h
  rw [register, hnone]
  exact Std.ExtTreeMap.getElem?_insert_self

section Lawful

variable [Std.LawfulEqOrd K]

theorem slot?_register_of_ne (p : ValuedPartition K V) {k l : K} (h : k ≠ l) :
    (p.register k).slot? l = p.slot? l := by
  unfold register
  split
  · rfl
  · simp [slot?, Std.ExtTreeMap.getElem?_insert, h]

theorem WellFormed.register {p : ValuedPartition K V} (hp : p.WellFormed) (k : K) :
    (p.register k).WellFormed where
  toGrown := hp.toGrown.register k
  slot_lt {l x} hx := by
    by_cases hk : p.Registered k
    · rw [register_of_registered hk] at hx ⊢
      exact hp.slot_lt hx
    · have hnone : p.slot? k = none := by simpa [Registered] using hk
      have hsize : (p.register k).cells.size = p.cells.size + 1 := by
        simp [ValuedPartition.register, hnone]
      rw [hsize]
      by_cases hl : k = l
      · subst hl
        rw [slot?_register_self hk] at hx
        cases hx
        exact Nat.lt_succ_self _
      · rw [slot?_register_of_ne p hl] at hx
        exact (hp.slot_lt hx).trans (Nat.lt_succ_self _)

@[simp] theorem registered_register {p : ValuedPartition K V} {k l : K} :
    (p.register k).Registered l ↔ k = l ∨ p.Registered l := by
  by_cases hk : p.Registered k
  · rw [register_of_registered hk]
    refine ⟨.inr, ?_⟩
    rintro (rfl | h)
    · exact hk
    · exact h
  · by_cases hl : k = l
    · subst hl
      simp [Registered, slot?_register_self hk]
    · simp [Registered, slot?_register_of_ne p hl, hl]

theorem root?_register {p : ValuedPartition K V} (hp : p.WellFormed) {k l : K}
    (hl : p.Registered l) : (p.register k).root? l = p.root? l := by
  by_cases hk : p.Registered k
  · rw [register_of_registered hk]
  · have hne : k ≠ l := fun h => hk (h ▸ hl)
    rw [root?, root?, slot?_register_of_ne p hne, funext (rootAbove_register hp.toGrown k)]

theorem same_register_iff {p : ValuedPartition K V} (hp : p.WellFormed) (k l m : K) :
    (p.register k).Same l m ↔ p.Same l m ∨ (l = k ∧ m = k) := by
  by_cases hk : p.Registered k
  · rw [register_of_registered hk]
    refine ⟨.inl, ?_⟩
    rintro (h | ⟨rfl, rfl⟩)
    · exact h
    · exact same_self_iff.mpr hk
  · have hroot : (p.register k).root? k = some p.cells.size := by
      simp [root?, slot?_register_self hk, rootAbove_register hp.toGrown,
        rootAbove_of_size_le (le_refl p.cells.size)]
    have hold : ∀ n, n ≠ k → (p.register k).root? n = p.root? n := by
      intro n hn
      rw [root?, root?, slot?_register_of_ne p hn.symm, funext (rootAbove_register hp.toGrown k)]
    have hlt : ∀ n r, p.root? n = some r → r < p.cells.size := by
      intro n r hr
      obtain ⟨x, hx, rfl⟩ := Option.map_eq_some_iff.mp hr
      exact hp.rootAbove_lt (hp.slot_lt hx)
    have hnk : ∀ n, ¬ p.Same k n := fun n h => hk h.registered.1
    unfold Same at hnk ⊢
    by_cases hl : l = k <;> by_cases hm : m = k
    · simp [hl, hm, hroot]
    · subst hl
      simp only [hroot, hold m hm, hm, and_false, or_false]
      refine ⟨?_, fun h => absurd h (hnk m)⟩
      rintro ⟨r, hr, hr'⟩
      cases hr
      exact absurd (hlt m _ hr') (lt_irrefl _)
    · subst hm
      simp only [hroot, hold l hl, hl, false_and, or_false]
      constructor
      · rintro ⟨r, hr, hr'⟩
        cases hr'
        exact absurd (hlt l _ hr) (lt_irrefl _)
      · rintro ⟨r, hr, hr'⟩
        exact absurd ⟨r, hr', hr⟩ (hnk l)
    · simp [hl, hold l hl, hold m hm]

@[simp] theorem value?_register {p : ValuedPartition K V} (hp : p.WellFormed) (k l : K) :
    (p.register k).value? l = p.value? l := by
  by_cases hl : p.Registered l
  · rw [value?, value?, root?_register hp hl, funext (held_register p k)]
  · rw [value?_of_not_registered hl]
    by_cases hk : k = l
    · subst hk
      have hheld : p.held p.cells.size = none := by simp [held]
      simp [value?, root?, slot?_register_self hl, rootAbove_register hp.toGrown,
        rootAbove_of_size_le (le_refl p.cells.size), held_register, hheld]
    · exact value?_of_not_registered (by simp [hk, hl])

/-! ### Looking up a root -/

omit [Std.LawfulEqOrd K] in
theorem WellFormed.lookUp {p : ValuedPartition K V} (hp : p.WellFormed) {x : Nat}
    (hx : x < p.cells.size) : (p.lookUp x).2.WellFormed ∧ SameRoots p (p.lookUp x).2 := by
  obtain ⟨hgrown, hsame⟩ := hp.toGrown.compress hx p.cells.size
  exact ⟨hsame.wellFormed hp hgrown, hsame⟩

/-- Looking up a root registers the key and otherwise only shortens paths. -/
theorem WellFormed.root {p : ValuedPartition K V} (hp : p.WellFormed) (k : K) :
    (p.root k).2.WellFormed ∧ SameRoots (p.register k) (p.root k).2 ∧
      (p.register k).root? k = some (p.root k).1 := by
  have hq := hp.register k
  have hreg : (p.register k).Registered k := by simp
  obtain ⟨x, hx⟩ := Option.isSome_iff_exists.mp hreg
  obtain ⟨hwf, hsame⟩ := hq.lookUp (hq.slot_lt hx)
  have hroot : p.root k = (p.register k).lookUp x := by
    simp [ValuedPartition.root, hx]
  rw [hroot]
  exact ⟨hwf, hsame, by simp [root?, hx, ValuedPartition.lookUp]⟩

omit [Std.LawfulEqOrd K] in
theorem WellFormed.value {p : ValuedPartition K V} (hp : p.WellFormed) (k : K) :
    (p.value k).1 = p.value? k ∧ (p.value k).2.WellFormed ∧ SameRoots p (p.value k).2 := by
  cases hk : p.slot? k with
  | none =>
    have hvalue : p.value k = (none, p) := by simp [ValuedPartition.value, hk]
    rw [hvalue]
    exact ⟨by simp [value?, root?, hk], hp, .refl p⟩
  | some x =>
    obtain ⟨hwf, hsame⟩ := hp.lookUp (hp.slot_lt hk)
    have hvalue : p.value k = ((p.lookUp x).2.held (p.rootAbove x), (p.lookUp x).2) := by
      simp [ValuedPartition.value, hk, ValuedPartition.lookUp]
    rw [hvalue]
    refine ⟨?_, hwf, hsame⟩
    rw [hsame.held]
    simp [value?, root?, hk]

/-! ### Assignment -/

variable [DecidableEq V]

/-- A class that holds a value keeps it. -/
theorem WellFormed.assign_of_some {p : ValuedPartition K V} (hp : p.WellFormed) {k : K} {w : V}
    (h : p.value? k = some w) (v : V) :
    (p.assign k v).1 = (if w = v then none else some ⟨w, v⟩) ∧ (p.assign k v).2.WellFormed ∧
      SameRoots (p.register k) (p.assign k v).2 := by
  obtain ⟨hwf, hsame, hroot⟩ := hp.root k
  have hheld : (p.root k).2.held (p.root k).1 = some w := by
    rw [hsame.held, held_of_root? hroot, value?_register hp, h]
  have heq : p.assign k v = (if w = v then none else some ⟨w, v⟩, (p.root k).2) := by
    simp [assign, hheld]
  rw [heq]
  exact ⟨rfl, hwf, hsame⟩

/-- A class without a value takes the one that is assigned to one of its members. -/
theorem WellFormed.assign_of_none {p : ValuedPartition K V} (hp : p.WellFormed) {k : K}
    (h : p.value? k = none) (v : V) :
    (p.assign k v).1 = none ∧ (p.assign k v).2.WellFormed ∧
      (∀ l m, (p.assign k v).2.Same l m ↔ (p.register k).Same l m) ∧
      (∀ l, (p.register k).Same l k → (p.assign k v).2.value? l = some v) ∧
      ∀ l, ¬ (p.register k).Same l k → (p.assign k v).2.value? l = p.value? l := by
  obtain ⟨hwf, hsame, hroot⟩ := hp.root k
  have hroot' : (p.root k).2.root? k = some (p.root k).1 := (hsame.root? k).trans hroot
  have hheld : (p.root k).2.held (p.root k).1 = none := by
    rw [hsame.held, held_of_root? hroot, value?_register hp, h]
  have heq : p.assign k v =
      (none, (p.root k).2.mapCell (p.root k).1 fun c => { c with value := some v }) := by
    simp [assign, hheld]
  obtain ⟨hgrown, habove⟩ := hwf.toGrown.setValue (p.root k).1 (some v)
  have hval := held_setValue (hwf.root?_lt hroot').1 (some v)
  rw [heq]
  generalize hq : ((p.root k).2.mapCell (p.root k).1 fun c => { c with value := some v }) = q at *
  have hslots : q.slots = (p.root k).2.slots := by rw [← hq]; rfl
  have hroot? : ∀ l, q.root? l = (p.register k).root? l := by
    intro l
    rw [← hsame.root?, root?, root?, slot?, slot?, hslots, funext habove]
  refine ⟨rfl, ⟨hgrown, ?_⟩, ?_, ?_, ?_⟩
  · intro l x hx
    rw [slot?, hslots] at hx
    have hlt := hwf.slot_lt hx
    rwa [← hq, size_mapCell]
  · intro l m
    rw [Same, Same, hroot?, hroot?]
  · rintro l ⟨r, hl, hk⟩
    cases hk.symm.trans hroot
    rw [value?, hroot?, hl, Option.bind_some, hval, if_pos rfl]
  · intro l hl
    rw [value?, hroot?, ← value?_register hp k l, value?]
    cases hr : (p.register k).root? l with
    | none => rfl
    | some r =>
      have hne : (p.root k).1 ≠ r := fun e => hl ⟨r, hr, e ▸ hroot⟩
      rw [Option.bind_some, Option.bind_some, hval, if_neg hne, hsame.held]

/-! ### Union -/

omit [Std.LawfulEqOrd K] [DecidableEq V] in
private theorem SameRoots.register {p q : ValuedPartition K V} (h : SameRoots p q) (hp : p.Grown)
    (hq : q.Grown) (k : K) : SameRoots (p.register k) (q.register k) := by
  have hslot := h.slot? k
  refine ⟨?_, ?_, ?_, ?_, ?_⟩
  · cases hk : p.slot? k <;> simp [ValuedPartition.register, hslot, hk, h.slots, h.size]
  · cases hk : p.slot? k <;> simp [ValuedPartition.register, hslot, hk, h.size]
  · intro x
    rw [rank_register, rank_register, h.rank]
  · intro x
    rw [held_register, held_register, h.held]
  · intro x
    rw [rootAbove_register hp, rootAbove_register hq, h.rootAbove]

omit [DecidableEq V] in
/-- The two look-ups that a union starts with. -/
theorem WellFormed.root_root {p : ValuedPartition K V} (hp : p.WellFormed) (a b : K) :
    ((p.root a).2.root b).2.WellFormed ∧
      SameRoots ((p.register a).register b) ((p.root a).2.root b).2 ∧
      ((p.register a).register b).root? a = some (p.root a).1 ∧
      ((p.register a).register b).root? b = some ((p.root a).2.root b).1 := by
  obtain ⟨hwf, hsame, hroot⟩ := hp.root a
  obtain ⟨hwf', hsame', hroot'⟩ := hwf.root b
  have hreg := hsame.register (hp.register a).toGrown hwf.toGrown b
  refine ⟨hwf', hreg.trans hsame', ?_, ?_⟩
  · rw [root?_register (hp.register a) (by simp), hroot]
  · rw [← hreg.root?, hroot']

omit [DecidableEq V] in
/-- Of two keys, the second is looked up in what the first look-up leaves. -/
theorem WellFormed.root_eq_root_iff {p : ValuedPartition K V} (hp : p.WellFormed) (a b : K) :
    (p.root a).1 = ((p.root a).2.root b).1 ↔ a = b ∨ p.Same a b := by
  obtain ⟨-, -, hra, hrb⟩ := hp.root_root a b
  have hsame : (p.root a).1 = ((p.root a).2.root b).1 ↔ ((p.register a).register b).Same a b := by
    simp only [Same, hra, hrb, Option.some.injEq, exists_eq_left']
    exact eq_comm
  rw [hsame, same_register_iff (hp.register a), same_register_iff hp]
  grind

theorem mergedValue_self (v : Option V) : mergedValue v v = .ok v := by
  cases v <;> simp [mergedValue]

theorem mergedValue_eq_some_iff {x y : Option V} {u : Option V} (h : mergedValue x y = .ok u)
    {v : V} : u = some v ↔ x = some v ∨ y = some v := by
  rcases x with _ | a <;> rcases y with _ | b <;> simp only [mergedValue] at h
  · cases h; simp
  · cases h; simp
  · cases h; simp
  · split at h
    · next hab =>
      cases h
      simp [hab]
    · cases h

theorem mergedValue_cases (x y : Option V) :
    (∃ u, mergedValue x y = .ok u) ∨ ∃ v w, x = some v ∧ y = some w ∧ v ≠ w := by
  cases x with
  | none => exact .inl ⟨y, rfl⟩
  | some v =>
    cases y with
    | none => exact .inl ⟨some v, rfl⟩
    | some w =>
      by_cases hvw : v = w
      · exact .inl ⟨some v, by simp [mergedValue, hvw]⟩
      · exact .inr ⟨v, w, rfl, rfl, hvw⟩

/-- Classes with different values stay apart. -/
theorem WellFormed.union_of_ne {p : ValuedPartition K V} (hp : p.WellFormed) {a b : K} {v w : V}
    (ha : p.value? a = some v) (hb : p.value? b = some w) (hne : v ≠ w) :
    (p.union a b).1 = some ⟨v, w⟩ ∧ (p.union a b).2.WellFormed ∧
      SameRoots ((p.register a).register b) (p.union a b).2 := by
  obtain ⟨hwf, hsame, hra, hrb⟩ := hp.root_root a b
  have hva : ((p.root a).2.root b).2.held (p.root a).1 = some v := by
    rw [hsame.held, held_of_root? hra, value?_register (hp.register a), value?_register hp, ha]
  have hvb : ((p.root a).2.root b).2.held ((p.root a).2.root b).1 = some w := by
    rw [hsame.held, held_of_root? hrb, value?_register (hp.register a), value?_register hp, hb]
  have hroots : (p.root a).1 ≠ ((p.root a).2.root b).1 := by
    intro e
    rw [← e, hva] at hvb
    exact hne (Option.some.inj hvb)
  have heq : p.union a b = (some ⟨v, w⟩, ((p.root a).2.root b).2) := by
    simp [union, hroots, hva, hvb, mergedValue, hne]
  rw [heq]
  exact ⟨rfl, hwf, hsame⟩

/-- `q` is `p` with the classes of `a` and `b` made one that holds `v`. -/
structure Merged (p q : ValuedPartition K V) (a b : K) (v : Option V) : Prop where
  same_iff (k l : K) :
    q.Same k l ↔ p.Same k l ∨ (p.Same k a ∧ p.Same b l) ∨ (p.Same k b ∧ p.Same a l)
  value?_of_same (k : K) : p.Same k a ∨ p.Same k b → q.value? k = v
  value?_of_not_same (k : K) : ¬ p.Same k a → ¬ p.Same k b → q.value? k = p.value? k

omit [Std.LawfulEqOrd K] [DecidableEq V] in
private theorem Merged.of_same {p q : ValuedPartition K V} (hsame : SameRoots p q) {a b : K}
    (hab : p.Same a b) : Merged p q a b (p.value? a) where
  same_iff := by
    intro k l
    rw [hsame.same_iff]
    refine ⟨.inl, ?_⟩
    rintro (hkl | ⟨hk, hl⟩ | ⟨hk, hl⟩)
    · exact hkl
    · exact (hk.trans hab).trans hl
    · exact (hk.trans hab.symm).trans hl
  value?_of_same := by
    intro k hk
    have hka : p.Same k a := hk.elim id fun h => h.trans hab.symm
    rw [hsame.value?, hka.value?_eq]
  value?_of_not_same := by
    intro k _ _
    exact hsame.value? k

omit [Std.LawfulEqOrd K] [DecidableEq V] in
/-- Two classes are merged once their roots are sent to one of the two. -/
private theorem Merged.of_roots {p q : ValuedPartition K V} {a b : K} {ra rb r : Nat} {v : Option V}
    (hra : p.root? a = some ra) (hrb : p.root? b = some rb) (hr : r = ra ∨ r = rb)
    (hroot : ∀ k, q.root? k = (p.root? k).map fun x => if x = ra ∨ x = rb then r else x)
    (hv : q.held r = v) (hheld : ∀ y, y ≠ ra → y ≠ rb → q.held y = p.held y) :
    Merged p q a b v := by
  have hsa : ∀ k, p.Same k a ↔ p.root? k = some ra := by simp [Same, hra]
  have hsb : ∀ k, p.Same k b ↔ p.root? k = some rb := by simp [Same, hrb]
  have hsa' : ∀ k, p.Same a k ↔ p.root? k = some ra := by simp [Same, hra]
  have hsb' : ∀ k, p.Same b k ↔ p.root? k = some rb := by simp [Same, hrb]
  refine ⟨?_, ?_, ?_⟩
  · intro k l
    simp only [hsa, hsb, hsa', hsb']
    unfold Same
    rw [hroot, hroot]
    cases hk : p.root? k with
    | none => simp
    | some x =>
      cases hl : p.root? l with
      | none => simp
      | some y =>
        simp only [Option.map_some, Option.some.injEq, exists_eq_left']
        by_cases hx : x = ra ∨ x = rb <;> by_cases hy : y = ra ∨ y = rb
        · simp only [hx, hy, if_true, true_iff]
          rcases hx with rfl | rfl <;> rcases hy with rfl | rfl <;> simp
        · rw [if_pos hx, if_neg hy]
          grind
        · rw [if_neg hx, if_pos hy]
          grind
        · rw [if_neg hx, if_neg hy]
          grind
  · intro k hk
    rw [hsa, hsb] at hk
    rcases hk with hk | hk <;> simp [value?, hroot, hk, hv]
  · intro k hka hkb
    rw [hsa] at hka
    rw [hsb] at hkb
    cases hk : p.root? k with
    | none => simp [value?, hroot, hk]
    | some x =>
      have hxa : x ≠ ra := fun e => hka (by rw [hk, e])
      have hxb : x ≠ rb := fun e => hkb (by rw [hk, e])
      simp [value?, hroot, hk, hxa, hxb, hheld x hxa hxb]

/-- Classes whose values agree become one class, and every other class stays as it is. -/
theorem WellFormed.union_of_merged {p : ValuedPartition K V} (hp : p.WellFormed) {a b : K}
    {v : Option V} (h : mergedValue (p.value? a) (p.value? b) = .ok v) :
    (p.union a b).1 = none ∧ (p.union a b).2.WellFormed ∧
      Merged ((p.register a).register b) (p.union a b).2 a b v := by
  obtain ⟨hwf, hsame, hra, hrb⟩ := hp.root_root a b
  have hvals : ∀ k, ((p.register a).register b).value? k = p.value? k := by
    intro k
    rw [value?_register (hp.register a), value?_register hp]
  by_cases hroots : (p.root a).1 = ((p.root a).2.root b).1
  · have heq : p.union a b = (none, ((p.root a).2.root b).2) := by simp [union, hroots]
    have hab : ((p.register a).register b).Same a b := ⟨_, hra, hroots ▸ hrb⟩
    have hv : ((p.register a).register b).value? a = v := by
      rw [← hvals, ← hvals, ← hab.value?_eq, mergedValue_self] at h
      exact Except.ok.inj h
    rw [heq, ← hv]
    exact ⟨rfl, hwf, .of_same hsame hab⟩
  · have hmerged : mergedValue (((p.root a).2.root b).2.held (p.root a).1)
        (((p.root a).2.root b).2.held ((p.root a).2.root b).1) = .ok v := by
      rw [hsame.held, hsame.held, held_of_root? hra, held_of_root? hrb, hvals, hvals, h]
    have heq : p.union a b = (none, ((p.root a).2.root b).2.linkRoots (p.root a).1
        ((p.root a).2.root b).1 v) := by
      simp [union, hroots, hmerged]
    have hla := hwf.root?_lt ((hsame.root? a).trans hra)
    have hlb := hwf.root?_lt ((hsame.root? b).trans hrb)
    obtain ⟨hgrown, hslots, hsize, r, hr, hv, habove, hheld⟩ :=
      hwf.toGrown.linkRoots hla.1 hlb.1 hla.2 hlb.2 hroots v
    rw [heq]
    generalize ((p.root a).2.root b).2.linkRoots (p.root a).1 ((p.root a).2.root b).1 v = q at *
    have hroot : ∀ k, q.root? k = (((p.register a).register b).root? k).map fun x =>
        if x = (p.root a).1 ∨ x = ((p.root a).2.root b).1 then r else x := by
      intro k
      rw [← hsame.root?, root?, root?, slot?, slot?, hslots, Option.map_map]
      simp only [funext habove, Function.comp_def]
    refine ⟨rfl, ⟨hgrown, ?_⟩, .of_roots hra hrb hr hroot hv ?_⟩
    · intro k x hx
      rw [slot?, hslots] at hx
      rw [hsize]
      exact hwf.slot_lt hx
    · intro y hya hyb
      rw [hheld y hya hyb, hsame.held]

end Lawful

end ValuedPartition
end PatchTyping
