import Mathlib.Data.List.Induction
import PatchTyping.PortKeys

/-!
# Maps made from lists

A map made from a list may drop entries when keys repeat, and then keeps the last. It never makes one up.
-/

namespace PatchTyping
namespace OrderedMaps

open Std

variable {K V : Type} [Ord K] [TransOrd K] [LawfulEqOrd K]

omit [LawfulEqOrd K] in
theorem mem_iff_exists {m : ExtTreeMap K V} {k : K} : k ∈ m ↔ ∃ v, m[k]? = some v := by
  rw [ExtTreeMap.mem_iff_isSome_getElem?, Option.isSome_iff_exists]

omit [LawfulEqOrd K] in
private theorem ofList_concat (l : List (K × V)) (x : K × V) :
    ExtTreeMap.ofList (l ++ [x]) = (ExtTreeMap.ofList l).insert x.1 x.2 := by
  simp [ExtTreeMap.ofList_eq_foldl, List.foldl_append]

theorem mem_of_getElem?_ofList {l : List (K × V)} {k : K} {v : V}
    (h : (ExtTreeMap.ofList l)[k]? = some v) : (k, v) ∈ l := by
  induction l using List.reverseRecOn with
  | nil => simp at h
  | append_singleton l x ih =>
    rw [ofList_concat, ExtTreeMap.getElem?_insert] at h
    by_cases hx : x.1 = k
    · simp [hx] at h
      simp [← hx, ← h]
    · simp [hx] at h
      simp [ih h]

theorem exists_getElem?_ofList {l : List (K × V)} {k : K} {v : V} (h : (k, v) ∈ l) :
    ∃ w, (ExtTreeMap.ofList l)[k]? = some w := by
  induction l using List.reverseRecOn with
  | nil => simp at h
  | append_singleton l x ih =>
    rw [ofList_concat, ExtTreeMap.getElem?_insert]
    by_cases hx : x.1 = k
    · exact ⟨x.2, by simp [hx]⟩
    · have hl : (k, v) ∈ l := by
        rcases List.mem_append.mp h with hl | hl
        · exact hl
        · exact absurd (congrArg Prod.fst (List.mem_singleton.mp hl)).symm hx
      simpa [hx] using ih hl

/-- Entries that do not contradict each other are all found again. -/
theorem getElem?_ofList_iff {l : List (K × V)} {k : K}
    (hl : ∀ v w, (k, v) ∈ l → (k, w) ∈ l → v = w) {v : V} :
    (ExtTreeMap.ofList l)[k]? = some v ↔ (k, v) ∈ l := by
  refine ⟨mem_of_getElem?_ofList, fun h => ?_⟩
  obtain ⟨w, hw⟩ := exists_getElem?_ofList h
  rw [hw, hl v w h (mem_of_getElem?_ofList hw)]

theorem ofList_toList (m : ExtTreeMap K V) : ExtTreeMap.ofList m.toList = m := by
  apply ExtTreeMap.ext_getElem?
  intro k
  ext v
  have hone : ∀ v w, (k, v) ∈ m.toList → (k, w) ∈ m.toList → v = w := by
    simp only [ExtTreeMap.mem_toList_iff_getElem?_eq_some]
    exact fun v w hv hw => Option.some.inj (hv.symm.trans hw)
  rw [getElem?_ofList_iff hone, ExtTreeMap.mem_toList_iff_getElem?_eq_some]

theorem ofList_filter (l : List (K × V)) (q : K → Bool) :
    ExtTreeMap.ofList (l.filter fun x => q x.1) = (ExtTreeMap.ofList l).filter fun k _ => q k := by
  apply ExtTreeMap.ext_getElem?
  intro k
  induction l using List.reverseRecOn with
  | nil => simp
  | append_singleton l x ih =>
    rw [ExtTreeMap.getElem?_filter'] at ih ⊢
    rw [List.filter_append, ofList_concat, ExtTreeMap.getElem?_insert]
    cases hx : q x.1 with
    | true =>
      have hone : [x].filter (fun x => q x.1) = [x] := by simp [hx]
      rw [hone, ofList_concat, ExtTreeMap.getElem?_insert, ih]
      by_cases hk : x.1 = k
      · have hq : q k = true := hk ▸ hx
        simp [hk, hq, Option.filter]
      · simp [hk]
    | false =>
      have hnone : [x].filter (fun x => q x.1) = [] := by simp [hx]
      rw [hnone, List.append_nil, ih]
      by_cases hk : x.1 = k
      · have hq : q k = false := hk ▸ hx
        cases (ExtTreeMap.ofList l)[k]? <;> simp [hk, hq, Option.filter]
      · simp [hk]

theorem filter_union_filter_not (m : ExtTreeMap K V) (q : K → V → Bool) :
    m.filter q ∪ m.filter (fun k v => !q k v) = m := by
  apply ExtTreeMap.ext_getElem?
  intro k
  rw [ExtTreeMap.getElem?_union, ExtTreeMap.getElem?_filter', ExtTreeMap.getElem?_filter']
  cases m[k]? with
  | none => rfl
  | some v => cases hq : q k v <;> simp [Option.filter, hq]

theorem nodup_keys (m : ExtTreeMap K V) : (m.toList.map (·.1)).Nodup := by
  rw [List.Nodup, List.pairwise_map]
  refine m.distinct_keys_toList.imp fun {a b} hne heq => hne ?_
  rw [heq]
  exact ReflOrd.compare_self

theorem getElem?_insertIfNew_eq_or [DecidableEq K] (m : ExtTreeMap K V) (k a : K) (v : V) :
    (m.insertIfNew k v)[a]? = m[a]?.or (if k = a then some v else none) := by
  rw [ExtTreeMap.getElem?_insertIfNew]
  by_cases hk : k = a
  · subst hk
    by_cases hm : k ∈ m
    · obtain ⟨w, hw⟩ := mem_iff_exists.mp hm
      simp only [hm, hw, not_true_eq_false, and_false, if_false, Option.some_or]
    · simp only [hm, ReflOrd.compare_self, not_false_eq_true, and_self, if_true,
        ExtTreeMap.getElem?_eq_none hm, Option.none_or]
  · simp [hk]

theorem ascending_toList (m : ExtTreeMap String V) : m.toList.Pairwise fun x y => x.1 < y.1 :=
  m.ordered_keys_toList.imp Batteries.compareOfLessAndEq_eq_lt.mp

/-- The first entry of a kind is the one with the smallest name. -/
theorem find?_toList_eq_some_iff {m : ExtTreeMap String V} {p : String × V → Bool} {k : String} {v : V} :
    m.toList.find? p = some (k, v) ↔ m[k]? = some v ∧ p (k, v) = true ∧
      ∀ k' v', m[k']? = some v' → k' < k → p (k', v') = false := by
  simp only [← ExtTreeMap.mem_toList_iff_getElem?_eq_some]
  have hsorted := ascending_toList m
  rw [List.find?_eq_some_iff_append]
  constructor
  · rintro ⟨hp, front, back, hlist, hfront⟩
    rw [hlist] at hsorted ⊢
    refine ⟨by simp, hp, fun k' v' hmem hlt => ?_⟩
    obtain ⟨-, hback, -⟩ := List.pairwise_append.mp hsorted
    rcases List.mem_append.mp hmem with hmem | hmem
    · simpa using hfront _ hmem
    · rcases List.mem_cons.mp hmem with heq | hmem
      · cases heq
        exact absurd hlt (String.lt_irrefl _)
      · have hgt := (List.pairwise_cons.mp hback).1 _ hmem
        exact absurd (String.lt_trans hlt hgt) (String.lt_irrefl _)
  · rintro ⟨hmem, hp, hfirst⟩
    obtain ⟨front, back, hlist⟩ := List.append_of_mem hmem
    refine ⟨hp, front, back, hlist, fun x hx => ?_⟩
    rw [hlist] at hsorted hfirst
    obtain ⟨-, -, hbefore⟩ := List.pairwise_append.mp hsorted
    have hnot := hfirst x.1 x.2 (List.mem_append_left _ hx) (hbefore x hx _ List.mem_cons_self)
    simpa using hnot

omit [LawfulEqOrd K] in
theorem values_eq_map_toList (m : ExtTreeMap K V) : m.values = m.toList.map (·.2) := by
  obtain ⟨⟨q⟩⟩ := m
  induction q using Quotient.ind with
  | _ t =>
    change t.inner.values = (DTreeMap.Internal.Impl.Const.toList t.inner).map (·.2)
    rw [DTreeMap.Internal.Impl.values_eq_map_snd,
      DTreeMap.Internal.Impl.Const.toList_eq_toListModel_map, List.map_map]
    rfl

theorem mem_values_iff {m : ExtTreeMap K V} {v : V} : v ∈ m.values ↔ ∃ k : K, m[k]? = some v := by
  simp [values_eq_map_toList, ExtTreeMap.mem_toList_iff_getElem?_eq_some]

theorem erase_insert_of_fresh {m : ExtTreeMap K V} {k : K} (h : m[k]? = none) (v : V) :
    (m.insert k v).erase k = m := by
  apply ExtTreeMap.ext_getElem?
  intro a
  rw [ExtTreeMap.getElem?_erase, ExtTreeMap.getElem?_insert]
  by_cases ha : k = a
  · simp [← ha, h]
  · simp [ha]

theorem insert_erase_of_getElem? {m : ExtTreeMap K V} {k : K} {v : V} (h : m[k]? = some v) :
    (m.erase k).insert k v = m := by
  apply ExtTreeMap.ext_getElem?
  intro a
  rw [ExtTreeMap.getElem?_insert, ExtTreeMap.getElem?_erase]
  by_cases ha : k = a
  · simp [← ha, h]
  · simp [ha]

omit [LawfulEqOrd K] in
theorem size_insert_of_fresh {m : ExtTreeMap K V} {k : K} (h : m[k]? = none) (v : V) :
    (m.insert k v).size = m.size + 1 := by
  rw [ExtTreeMap.size_insert, ExtTreeMap.contains_eq_isSome_getElem?, h]
  rfl

/-- Entries that contribute nothing may be added anywhere in the order. -/
theorem flatMap_toList_of_extends {B : Type} {m m' : ExtTreeMap K V} {f : K × V → List B}
    (hold : ∀ k ∈ m, m'[k]? = m[k]?) (hnil : ∀ k v, m'[k]? = some v → k ∉ m → f (k, v) = []) :
    m'.toList.flatMap f = m.toList.flatMap f := by
  have hfilter : m'.filter (fun k _ => m.contains k) = m := by
    apply ExtTreeMap.ext_getElem?
    intro k
    rw [ExtTreeMap.getElem?_filter']
    by_cases hk : k ∈ m
    · rw [hold k hk]
      cases m[k]? <;> simp [Option.filter, hk]
    · rw [ExtTreeMap.getElem?_eq_none hk]
      cases m'[k]? <;> simp [Option.filter, hk]
  have hlist : ∀ l : List (K × V), (∀ x ∈ l, m.contains x.1 = false → f x = []) →
      l.flatMap f = (l.filter fun x => m.contains x.1).flatMap f := by
    intro l hl
    induction l with
    | nil => rfl
    | cons x l ih =>
      have hrest := ih fun y hy => hl y (List.mem_cons_of_mem _ hy)
      cases hx : m.contains x.1 with
      | true => simp [hx, hrest]
      | false => simp [hx, hrest, hl x List.mem_cons_self hx]
  calc m'.toList.flatMap f
      = (m'.toList.filter fun x => m.contains x.1).flatMap f := by
        apply hlist
        intro x hx hout
        apply hnil x.1 x.2 (ExtTreeMap.mem_toList_iff_getElem?_eq_some.mp hx)
        rw [ExtTreeMap.mem_iff_contains, hout]
        exact Bool.false_ne_true
    _ = (m'.filter fun k _ => m.contains k).toList.flatMap f := by rw [ExtTreeMap.toList_filter]
    _ = m.toList.flatMap f := by rw [hfilter]

end OrderedMaps
end PatchTyping
