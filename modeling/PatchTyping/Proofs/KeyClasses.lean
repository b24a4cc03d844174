import Mathlib.Data.List.Nodup
import Std.Data.ExtTreeSet
import PatchTyping.ValuedPartition

/-!
# Keys in classes

A partition with values said without any representation: the keys, which of them are in one class, and the
value of each class. Operations are described by what they do to these three. To list the classes, take the
smallest key with all keys of its class and go on with the keys that are left.
-/

namespace PatchTyping

variable {K V : Type} [Ord K] [Std.TransOrd K]

/-- Keys sorted into classes, each of which holds at most one value. -/
structure KeyClasses (K V : Type) [Ord K] [Std.TransOrd K] where
  keys : Std.ExtTreeSet K
  joined : K → K → Bool
  value : K → Option V
  joined_self {k : K} : joined k k = true ↔ k ∈ keys
  joined_symm {k l : K} : joined k l = true → joined l k = true
  joined_trans {k l n : K} : joined k l = true → joined l n = true → joined k n = true
  value_joined {k l : K} : joined k l = true → value k = value l
  value_eq_none {k : K} : k ∉ keys → value k = none

/-- The conflict between two values of one class, if there is one. -/
def Conflict.between? [DecidableEq V] : Option V → Option V → Option (Conflict V)
  | some v, some w => if v = w then none else some ⟨v, w⟩
  | _, _ => none

theorem Conflict.between?_eq_some_iff [DecidableEq V] {x y : Option V} {c : Conflict V} :
    between? x y = some c ↔ x = some c.existing ∧ y = some c.incoming ∧ c.existing ≠ c.incoming := by
  obtain ⟨v, w⟩ := c
  rcases x with _ | v' <;> rcases y with _ | w' <;> simp [between?]
  grind

namespace KeyClasses

def empty : KeyClasses K V where
  keys := ∅
  joined _ _ := false
  value _ := none
  joined_self := by simp
  joined_symm := by simp
  joined_trans := by simp
  value_joined := by simp
  value_eq_none := by simp

theorem joined_comm (m : KeyClasses K V) (k l : K) : m.joined k l = m.joined l k :=
  Bool.eq_iff_iff.mpr ⟨m.joined_symm, m.joined_symm⟩

theorem mem_keys_of_joined (m : KeyClasses K V) {k l : K} (h : m.joined k l = true) : k ∈ m.keys :=
  m.joined_self.mp (m.joined_trans h (m.joined_symm h))

theorem joined_congr (m : KeyClasses K V) {k l : K} (h : m.joined k l = true) (n : K) :
    m.joined k n = m.joined l n :=
  Bool.eq_iff_iff.mpr ⟨m.joined_trans (m.joined_symm h), m.joined_trans h⟩

theorem ext_of_joined [Std.LawfulEqOrd K] {m n : KeyClasses K V}
    (hjoined : ∀ k l, m.joined k l = true ↔ n.joined k l = true)
    (hvalue : ∀ k, m.value k = n.value k) : m = n := by
  have hkeys : m.keys = n.keys := by
    apply Std.ExtTreeSet.ext_mem
    intro k
    rw [← m.joined_self, ← n.joined_self, hjoined]
  have hjoined : m.joined = n.joined := funext₂ fun k l => Bool.eq_iff_iff.mpr (hjoined k l)
  cases m
  cases n
  simp_all [funext_iff]

/-- The key is in the class of `a` or in that of `b`. -/
def near (m : KeyClasses K V) (a b k : K) : Bool := m.joined k a || m.joined k b

theorem near_congr (m : KeyClasses K V) {k l : K} (h : m.joined k l = true) (a b : K) :
    m.near a b k = m.near a b l := by
  rw [near, near, m.joined_congr h, m.joined_congr h]

theorem mem_keys_of_near (m : KeyClasses K V) {a b k : K} (h : m.near a b k = true) : k ∈ m.keys := by
  rcases Bool.or_eq_true_iff.mp h with h | h <;> exact m.mem_keys_of_joined h

/-- Make one class of two, with the given value. -/
def merge (m : KeyClasses K V) (a b : K) (v : Option V) : KeyClasses K V where
  keys := m.keys
  joined k l := m.joined k l || (m.near a b k && m.near a b l)
  value k := if m.near a b k then v else m.value k
  joined_self {k} := by
    have hnear : m.near a b k = true → k ∈ m.keys := m.mem_keys_of_near
    simpa [m.joined_self] using hnear
  joined_symm {k l} := by
    rw [m.joined_comm k l, Bool.and_comm]
    exact id
  joined_trans {k l n} := by
    simp only [Bool.or_eq_true, Bool.and_eq_true]
    rintro (hkl | ⟨hk, hl⟩) (hln | ⟨hl', hn⟩)
    · exact .inl (m.joined_trans hkl hln)
    · exact .inr ⟨(m.near_congr hkl a b).trans hl', hn⟩
    · exact .inr ⟨hk, (m.near_congr hln a b).symm.trans hl⟩
    · exact .inr ⟨hk, hn⟩
  value_joined {k l} := by
    simp only [Bool.or_eq_true, Bool.and_eq_true]
    rintro (hkl | ⟨hk, hl⟩)
    · rw [m.near_congr hkl, m.value_joined hkl]
    · rw [if_pos hk, if_pos hl]
  value_eq_none {k} hk := by
    rw [if_neg fun h => hk (m.mem_keys_of_near h), m.value_eq_none hk]

/-- Give the class of a key a value. -/
def give (m : KeyClasses K V) (k : K) (v : V) : KeyClasses K V where
  keys := m.keys
  joined := m.joined
  value l := if m.joined l k then some v else m.value l
  joined_self := m.joined_self
  joined_symm := m.joined_symm
  joined_trans := m.joined_trans
  value_joined {l n} h := by rw [m.joined_congr h, m.value_joined h]
  value_eq_none {l} hl := by
    rw [if_neg fun h => hl (m.mem_keys_of_joined h), m.value_eq_none hl]

theorem give_of_value [Std.LawfulEqOrd K] {m : KeyClasses K V} {k : K} {v : V}
    (h : m.value k = some v) : m.give k v = m := by
  apply ext_of_joined
  · intro l n
    rfl
  · intro l
    by_cases hl : m.joined l k = true
    · simp [give, hl, m.value_joined hl, h]
    · simp [give, hl]

section Lawful

variable [Std.LawfulEqOrd K] [DecidableEq K]

/-- A new key is alone in its class. -/
def insert (m : KeyClasses K V) (k : K) : KeyClasses K V where
  keys := m.keys.insert k
  joined l n := m.joined l n || (decide (l = k) && decide (n = k))
  value := m.value
  joined_self {l} := by
    rw [Std.ExtTreeSet.mem_insert, Std.compare_eq_iff_eq, ← m.joined_self, or_comm, eq_comm (a := k)]
    simp
  joined_symm {l n} := by
    rw [m.joined_comm l n, Bool.and_comm]
    exact id
  joined_trans {l n o} := by
    simp only [Bool.or_eq_true, Bool.and_eq_true, decide_eq_true_eq]
    rintro (hln | ⟨rfl, rfl⟩) (hno | ⟨hn, rfl⟩)
    · exact .inl (m.joined_trans hln hno)
    · exact .inl (hn ▸ hln)
    · exact .inl hno
    · exact .inr ⟨rfl, rfl⟩
  value_joined {l n} := by
    simp only [Bool.or_eq_true, Bool.and_eq_true, decide_eq_true_eq]
    rintro (hln | ⟨rfl, rfl⟩)
    · exact m.value_joined hln
    · rfl
  value_eq_none {l} hl := by
    refine m.value_eq_none fun h => hl ?_
    simp [Std.ExtTreeSet.mem_insert, h]

variable [DecidableEq V]

/-- Merge the classes of two keys. If they hold different values, nothing changes. -/
def union (m : KeyClasses K V) (a b : K) : Option (Conflict V) × KeyClasses K V :=
  match Conflict.between? (m.value a) (m.value b) with
  | some c => (some c, m)
  | none => (none, ((m.insert a).insert b).merge a b ((m.value a).or (m.value b)))

/-- Give the class of a key a value. If it holds a different one, nothing changes. -/
def assign (m : KeyClasses K V) (k : K) (v : V) : Option (Conflict V) × KeyClasses K V :=
  match Conflict.between? (m.value k) (some v) with
  | some c => (some c, m)
  | none => (none, (m.insert k).give k v)

end Lawful

/-! ## Listing the classes -/

/-- The keys outside the class of a key. -/
def others (m : KeyClasses K V) (k : K) (ks : List K) : List K := ks.filter fun l => !m.joined k l

/-- The keys of a list by classes, each under its first key. -/
def group (m : KeyClasses K V) : List K → List (K × List K)
  | [] => []
  | k :: ks => (k, k :: ks.filter (m.joined k)) :: m.group (m.others k ks)
termination_by ks => ks.length
decreasing_by exact Nat.lt_succ_of_le (List.length_filter_le ..)

def classes (m : KeyClasses K V) : List (K × List K) := m.group m.keys.toList

variable {m : KeyClasses K V} {ks : List K} {c : K × List K}

theorem perm_group (m : KeyClasses K V) (ks : List K) : ((m.group ks).flatMap (·.2)).Perm ks := by
  fun_induction group m ks with
  | case1 => exact .nil
  | case2 k ks ih =>
    rw [List.flatMap_cons, List.cons_append]
    exact ((ih.append_left _).trans (List.filter_append_perm _ _)).cons k

theorem sublist_of_mem_group (hc : c ∈ m.group ks) : c.2.Sublist ks ∧ c.2.head? = some c.1 := by
  fun_induction group m ks with
  | case1 => cases hc
  | case2 k ks ih =>
    rcases List.mem_cons.mp hc with rfl | hc
    · exact ⟨List.filter_sublist.cons_cons k, rfl⟩
    · exact ⟨((ih hc).1.trans List.filter_sublist).cons k, (ih hc).2⟩

theorem first_mem_of_mem_group (hc : c ∈ m.group ks) : c.1 ∈ ks :=
  (sublist_of_mem_group hc).1.subset (List.mem_of_mem_head? (sublist_of_mem_group hc).2)

theorem pairwise_group {R : K → K → Prop} (h : ks.Pairwise R) :
    (m.group ks).Pairwise fun c d => R c.1 d.1 := by
  fun_induction group m ks with
  | case1 => exact .nil
  | case2 k ks ih =>
    rw [List.pairwise_cons] at h
    refine List.pairwise_cons.mpr ⟨fun c hc => h.1 _ ?_, ih (h.2.sublist List.filter_sublist)⟩
    exact List.mem_of_mem_filter (first_mem_of_mem_group hc)

theorem mem_iff_of_mem_group (hks : ∀ k ∈ ks, k ∈ m.keys) (hc : c ∈ m.group ks) {k : K} :
    k ∈ c.2 ↔ k ∈ ks ∧ m.joined c.1 k = true := by
  fun_induction group m ks with
  | case1 => cases hc
  | case2 l ks ih =>
    have hl : m.joined l l = true := m.joined_self.mpr (hks l List.mem_cons_self)
    rcases List.mem_cons.mp hc with rfl | hc
    · simp only [List.mem_cons, List.mem_filter]
      grind
    · have hrest : ∀ n ∈ m.others l ks, n ∈ m.keys := fun n hn =>
        hks n (List.mem_cons_of_mem _ (List.mem_of_mem_filter hn))
      have hfirst : m.joined l c.1 = false := by
        simpa using (List.mem_filter.mp (first_mem_of_mem_group hc)).2
      rw [ih hrest hc]
      constructor
      · rintro ⟨hk, hck⟩
        exact ⟨List.mem_cons_of_mem _ (List.mem_of_mem_filter hk), hck⟩
      · rintro ⟨hk, hck⟩
        have hlk : m.joined l k = false := by
          rw [m.joined_comm, ← m.joined_congr hck, m.joined_comm, hfirst]
        have hne : k ≠ l := by
          rintro rfl
          simp [hl] at hlk
        exact ⟨List.mem_filter.mpr ⟨(List.mem_cons.mp hk).resolve_left hne, by simp [hlk]⟩, hck⟩

theorem mem_class_iff [Std.LawfulEqOrd K] (m : KeyClasses K V) (hc : c ∈ m.classes) {k : K} :
    k ∈ c.2 ↔ m.joined c.1 k = true := by
  rw [mem_iff_of_mem_group (fun k => Std.ExtTreeSet.mem_toList.mp) hc, Std.ExtTreeSet.mem_toList]
  exact and_iff_right_of_imp fun h => m.mem_keys_of_joined (m.joined_symm h)

/-- Every key is listed once, in the list of its class, and both the classes and their keys are in order.
A class goes by the first of its keys, which is the smallest. -/
structure Lists [DecidableEq K] (m : KeyClasses K V) (cs : List (K × List K)) : Prop where
  once (k : K) : (cs.flatMap (·.2)).count k = if k ∈ m.keys then 1 else 0
  mem_iff {c : K × List K} {k : K} : c ∈ cs → (k ∈ c.2 ↔ m.joined c.1 k = true)
  first {c : K × List K} : c ∈ cs → c.2.head? = some c.1
  sorted {c : K × List K} : c ∈ cs → c.2.Pairwise fun k l => compare k l = .lt
  ascending : cs.Pairwise fun c d => compare c.1 d.1 = .lt

theorem nodup_keys [Std.LawfulEqOrd K] (m : KeyClasses K V) : m.keys.toList.Nodup :=
  Std.ExtTreeSet.distinct_toList.imp fun hne heq => hne (Std.compare_eq_iff_eq.mpr heq)

theorem lists_classes [Std.LawfulEqOrd K] [DecidableEq K] (m : KeyClasses K V) : m.Lists m.classes where
  once k := by
    rw [classes, (m.perm_group _).count_eq]
    split
    · rename_i hk
      exact List.count_eq_one_of_mem m.nodup_keys (Std.ExtTreeSet.mem_toList.mpr hk)
    · rename_i hk
      exact List.count_eq_zero.mpr fun h => hk (Std.ExtTreeSet.mem_toList.mp h)
  mem_iff hc := m.mem_class_iff hc
  first hc := (sublist_of_mem_group hc).2
  sorted hc := Std.ExtTreeSet.ordered_toList.sublist (sublist_of_mem_group hc).1
  ascending := pairwise_group Std.ExtTreeSet.ordered_toList

end KeyClasses

end PatchTyping
