import PatchTyping.Proofs.KeyClasses
import PatchTyping.Proofs.PartitionClasses

/-!
# Listed classes

A partition stands for classes of keys, and lists just these. Its own way of listing them goes by roots; that
it takes the same keys out at each step is all that has to be shown.
-/

namespace PatchTyping
namespace ValuedPartition

variable {K V : Type}

/-! ## Keys by their roots -/

private theorem filterMap_root (rooted : List (K × Nat)) (r : Nat) :
    (rooted.filterMap fun (k, s) => if s = r then some k else none) =
      (rooted.filter (·.2 = r)).map (·.1) := by
  induction rooted with
  | nil => rfl
  | cons x rooted ih =>
    by_cases hx : x.2 = r <;> simp [hx, ih]

private theorem byRoot_cons (k : K) (r : Nat) (rooted : List (K × Nat)) :
    byRoot ((k, r) :: rooted) =
      (k, k :: (rooted.filter (·.2 = r)).map (·.1)) :: byRoot (rooted.filter (·.2 ≠ r)) := by
  have hroots : (rooted.map (·.2)).filter (fun s => !s == r) = (rooted.filter (·.2 ≠ r)).map (·.2) := by
    rw [List.filter_map]
    congr 2
    funext x
    simp [Bool.beq_eq_decide_eq]
  simp only [byRoot, filterMap_root, List.map_cons, List.eraseDups_cons, hroots]
  rw [List.filterMap_cons_some (b := (k, k :: (rooted.filter (·.2 = r)).map (·.1))) (by simp)]
  refine congrArg _ (List.filterMap_congr fun s hs => ?_)
  have hne : s ≠ r := by
    obtain ⟨x, hx, rfl⟩ := List.mem_map.mp (List.mem_eraseDups.mp hs)
    simpa using (List.mem_filter.mp hx).2
  have hclass : ((k, r) :: rooted).filter (·.2 = s) = (rooted.filter (·.2 ≠ r)).filter (·.2 = s) := by
    rw [List.filter_filter, List.filter_cons_of_neg (by simpa using hne.symm)]
    refine List.filter_congr fun x _ => ?_
    by_cases hx : x.2 = s <;> simp [hx, hne]
  rw [hclass]

variable [Ord K] [Std.TransOrd K]

private theorem byRoot_eq_group (m : KeyClasses K V) : ∀ rooted : List (K × Nat),
    (∀ x ∈ rooted, ∀ y ∈ rooted, m.joined x.1 y.1 = decide (x.2 = y.2)) →
      byRoot rooted = m.group (rooted.map (·.1))
  | [], _ => by simp [byRoot, KeyClasses.group]
  | (k, r) :: rooted, h => by
    have hk : ∀ x ∈ rooted, m.joined k x.1 = decide (x.2 = r) := fun x hx => by
      rw [h _ List.mem_cons_self _ (List.mem_cons_of_mem _ hx)]
      simp [eq_comm]
    have hclass : (rooted.map (·.1)).filter (m.joined k) = (rooted.filter (·.2 = r)).map (·.1) := by
      rw [List.filter_map]
      exact congrArg _ (List.filter_congr hk)
    have hothers : m.others k (rooted.map (·.1)) = (rooted.filter (·.2 ≠ r)).map (·.1) := by
      rw [KeyClasses.others, List.filter_map]
      refine congrArg _ (List.filter_congr fun x hx => ?_)
      simp [hk x hx]
    rw [byRoot_cons, List.map_cons, KeyClasses.group, hclass, hothers, byRoot_eq_group m]
    intro x hx y hy
    exact h x (List.mem_cons_of_mem _ (List.mem_of_mem_filter hx)) y
      (List.mem_cons_of_mem _ (List.mem_of_mem_filter hy))
termination_by rooted => rooted.length
decreasing_by exact Nat.lt_succ_of_le (List.length_filter_le ..)

/-! ## The classes of a partition -/

variable [Std.LawfulEqOrd K]

/-- The classes of keys that a partition stands for. -/
def keyClasses (p : ValuedPartition K V) : KeyClasses K V where
  keys := Std.ExtTreeSet.ofList p.slots.keys
  joined k l := (p.root? k).isSome && p.root? k == p.root? l
  value := p.value?
  joined_self {k} := by
    classical
    simp [root?, slot?]
  joined_symm {k l} := by
    simp only [Bool.and_eq_true, beq_iff_eq]
    rintro ⟨hk, hkl⟩
    exact ⟨hkl ▸ hk, hkl.symm⟩
  joined_trans {k l n} := by
    simp only [Bool.and_eq_true, beq_iff_eq]
    rintro ⟨hk, hkl⟩ ⟨-, hln⟩
    exact ⟨hk, hkl.trans hln⟩
  value_joined {k l} := by
    simp only [Bool.and_eq_true, beq_iff_eq]
    rintro ⟨-, hkl⟩
    rw [value?, value?, hkl]
  value_eq_none {k} hk := by
    apply value?_of_not_registered
    classical
    simpa [Registered, slot?] using hk

variable {p : ValuedPartition K V}

@[simp] theorem value_keyClasses (p : ValuedPartition K V) (k : K) : p.keyClasses.value k = p.value? k :=
  rfl

@[simp] theorem joined_keyClasses {k l : K} : p.keyClasses.joined k l = true ↔ p.Same k l := by
  simp only [keyClasses, Same, Bool.and_eq_true, beq_iff_eq, Option.isSome_iff_exists]
  constructor
  · rintro ⟨⟨r, hr⟩, hkl⟩
    exact ⟨r, hr, hkl ▸ hr⟩
  · rintro ⟨r, hk, hl⟩
    exact ⟨⟨r, hk⟩, hk.trans hl.symm⟩

/-! ## Listing the classes -/

theorem toList_keys_keyClasses (p : ValuedPartition K V) : p.keyClasses.keys.toList = p.slots.keys := by
  have hnodup : p.slots.keys.Nodup :=
    Std.ExtTreeMap.distinct_keys.imp fun hne heq => hne (Std.compare_eq_iff_eq.mpr heq)
  have hperm : p.keyClasses.keys.toList.Perm p.slots.keys := by
    rw [List.perm_ext_iff_of_nodup p.keyClasses.nodup_keys hnodup]
    intro k
    classical
    simp [keyClasses]
  refine hperm.eq_of_pairwise ?_ Std.ExtTreeSet.ordered_toList Std.ExtTreeMap.ordered_keys
  intro k l _ _ hkl hlk
  exact absurd hlk (Std.OrientedCmp.not_lt_of_lt hkl)

private theorem mem_rooted_iff {k : K} {r : Nat} :
    (k, r) ∈ p.slots.toList.map (fun s => (s.1, p.rootAbove s.2)) ↔ p.root? k = some r := by
  simp [root?, slot?, Std.ExtTreeMap.mem_toList_iff_getElem?_eq_some]

theorem WellFormed.roots (hp : p.WellFormed) {ks : List K} (hks : ∀ k ∈ ks, p.Registered k) :
    ((roots ks p).1.map fun x => (x.1, some x.2)) = ks.map (fun k => (k, p.root? k)) ∧
      (roots ks p).2.WellFormed ∧ SameRoots p (roots ks p).2 := by
  induction ks generalizing p with
  | nil => exact ⟨rfl, hp, .refl p⟩
  | cons k ks ih =>
    obtain ⟨hwf, hsame, hroot⟩ := hp.root k
    rw [register_of_registered (hks k List.mem_cons_self)] at hsame hroot
    have hks' : ∀ l ∈ ks, (p.root k).2.Registered l := by
      intro l hl
      rw [Registered, hsame.slot?]
      exact hks l (List.mem_cons_of_mem _ hl)
    obtain ⟨hrest, hwf', hsame'⟩ := ih hwf hks'
    refine ⟨?_, hwf', hsame.trans hsame'⟩
    simp only [ValuedPartition.roots, List.map_cons, hrest, hroot, funext hsame.root?]

theorem WellFormed.listClasses (hp : p.WellFormed) :
    p.listClasses.1 = p.classes ∧ p.listClasses.2.WellFormed ∧ SameRoots p p.listClasses.2 := by
  have hkeys : ∀ k ∈ p.slots.keys, p.Registered k := by
    classical
    intro k hk
    simpa [Registered, slot?] using hk
  obtain ⟨hrooted, hwf, hsame⟩ := hp.roots hkeys
  refine ⟨congrArg byRoot ?_, hwf, hsame⟩
  have hinj : Function.Injective fun x : K × Nat => (x.1, some x.2) := by
    rintro ⟨k, r⟩ ⟨l, s⟩ h
    simpa using h
  apply List.map_injective_iff.mpr hinj
  rw [hrooted, List.map_map, ← Std.ExtTreeMap.map_fst_toList_eq_keys, List.map_map]
  refine List.map_congr_left fun x hx => ?_
  have hslot : p.slot? x.1 = some x.2 := Std.ExtTreeMap.mem_toList_iff_getElem?_eq_some.mp hx
  simp [root?, hslot]

/-- The partition lists the classes of keys that it stands for. -/
theorem classes_eq (p : ValuedPartition K V) : p.classes = p.keyClasses.classes := by
  have hkeys : (p.slots.toList.map fun s => (s.1, p.rootAbove s.2)).map (·.1) = p.slots.keys := by
    rw [List.map_map, ← Std.ExtTreeMap.map_fst_toList_eq_keys]
    rfl
  rw [KeyClasses.classes, toList_keys_keyClasses, ← hkeys]
  refine byRoot_eq_group p.keyClasses _ ?_
  intro x hx y hy
  simp [keyClasses, mem_rooted_iff.mp hx, mem_rooted_iff.mp hy, Bool.beq_eq_decide_eq]

theorem mem_class_iff {c : K × List K} (hc : c ∈ p.classes) {k : K} : k ∈ c.2 ↔ p.Same c.1 k := by
  rw [classes_eq] at hc
  rw [p.keyClasses.mem_class_iff hc, joined_keyClasses]

theorem first_mem_class {c : K × List K} (hc : c ∈ p.classes) : c.1 ∈ c.2 := by
  rw [classes_eq] at hc
  exact List.mem_of_mem_head? (KeyClasses.sublist_of_mem_group hc).2

theorem exists_class {k : K} (hk : p.Registered k) : ∃ c ∈ p.classes, k ∈ c.2 := by
  have hkeys : k ∈ p.keyClasses.keys :=
    p.keyClasses.joined_self.mp (joined_keyClasses.mpr (same_self_iff.mpr hk))
  rw [classes_eq]
  exact List.mem_flatMap.mp
    ((p.keyClasses.perm_group _).mem_iff.mpr (Std.ExtTreeSet.mem_toList.mpr hkeys))

theorem classes_disjoint (p : ValuedPartition K V) :
    p.classes.Pairwise fun c d => ∀ k ∈ c.2, k ∉ d.2 := by
  rw [classes_eq]
  have hnodup : (p.keyClasses.classes.flatMap (·.2)).Nodup :=
    (p.keyClasses.perm_group _).nodup_iff.mpr p.keyClasses.nodup_keys
  exact (List.nodup_flatMap.mp hnodup).2.imp fun h k hc hd => h hc hd

end ValuedPartition
end PatchTyping
