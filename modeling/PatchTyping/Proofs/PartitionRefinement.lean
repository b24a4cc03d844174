import PatchTyping.Proofs.PartitionListings

/-!
# Partitions refine classes of keys

Slots, ranks and shortened paths do not show. Read as classes of keys, a partition does what the plain
account says, and gives the same answers to any sequence of requests. The invariant that carries this is
that the trees are grown; no request breaks it.
-/

namespace PatchTyping
namespace ValuedPartition

variable {K V : Type}

variable [Ord K] [Std.TransOrd K] [Std.LawfulEqOrd K] {p q : ValuedPartition K V}

/-! ## Single operations -/

theorem SameRoots.keyClasses_eq (h : SameRoots p q) : q.keyClasses = p.keyClasses := by
  apply KeyClasses.ext_of_joined
  · intro k l
    rw [joined_keyClasses, joined_keyClasses, h.same_iff]
  · exact h.value?

theorem keyClasses_empty : (empty : ValuedPartition K V).keyClasses = KeyClasses.empty := by
  apply KeyClasses.ext_of_joined
  · intro k l
    simp [Same, root?, slot?, empty, KeyClasses.empty]
  · intro k
    simp [value?, root?, slot?, empty, KeyClasses.empty]

theorem Merged.keyClasses_eq {a b : K} {v : Option V} (h : Merged p q a b v) :
    q.keyClasses = p.keyClasses.merge a b v := by
  apply KeyClasses.ext_of_joined
  · intro k l
    rw [joined_keyClasses, h.same_iff]
    simp only [KeyClasses.merge, KeyClasses.near, Bool.or_eq_true, Bool.and_eq_true, joined_keyClasses]
    constructor
    · rintro (hkl | ⟨hk, hl⟩ | ⟨hk, hl⟩)
      · exact .inl hkl
      · exact .inr ⟨.inl hk, .inr hl.symm⟩
      · exact .inr ⟨.inr hk, .inl hl.symm⟩
    · rintro (hkl | ⟨hk | hk, hl | hl⟩)
      · exact .inl hkl
      · exact .inl (hk.trans hl.symm)
      · exact .inr (.inl ⟨hk, hl.symm⟩)
      · exact .inr (.inr ⟨hk, hl.symm⟩)
      · exact .inl (hk.trans hl.symm)
  · intro k
    by_cases hk : p.Same k a ∨ p.Same k b
    · simp [KeyClasses.merge, KeyClasses.near, hk, h.value?_of_same k hk]
    · rw [not_or] at hk
      simp [KeyClasses.merge, KeyClasses.near, hk, h.value?_of_not_same k hk.1 hk.2]

variable [DecidableEq K]

theorem keyClasses_register (hp : p.WellFormed) (k : K) :
    (p.register k).keyClasses = p.keyClasses.insert k := by
  apply KeyClasses.ext_of_joined
  · intro l n
    simp [KeyClasses.insert, same_register_iff hp]
  · intro l
    simp [KeyClasses.insert, hp]

theorem keyClasses_root (hp : p.WellFormed) (k : K) :
    (p.root k).2.keyClasses = p.keyClasses.insert k := by
  rw [(hp.root k).2.1.keyClasses_eq, keyClasses_register hp]

variable [DecidableEq V]

theorem mergedValue_of_between? {x y : Option V} (h : Conflict.between? x y = none) :
    mergedValue x y = .ok (x.or y) := by
  rcases x with _ | v <;> rcases y with _ | w <;> simp_all [Conflict.between?, mergedValue]

/-- A union does to the classes what it should. Keys in conflict have values, so both are registered
already and nothing changes. -/
theorem keyClasses_union (hp : p.WellFormed) (a b : K) :
    (p.union a b).2.WellFormed ∧
      p.keyClasses.union a b = ((p.union a b).1, (p.union a b).2.keyClasses) := by
  cases hc : Conflict.between? (p.value? a) (p.value? b) with
  | some c =>
    obtain ⟨ha, hb, hne⟩ := Conflict.between?_eq_some_iff.mp hc
    obtain ⟨hanswer, hwf, hsame⟩ := hp.union_of_ne ha hb hne
    rw [register_of_registered (registered_of_value? ha),
      register_of_registered (registered_of_value? hb)] at hsame
    refine ⟨hwf, ?_⟩
    simp only [KeyClasses.union, value_keyClasses, hc, hanswer, hsame.keyClasses_eq]
  | none =>
    obtain ⟨hanswer, hwf, hmerged⟩ := hp.union_of_merged (mergedValue_of_between? hc)
    refine ⟨hwf, ?_⟩
    simp only [KeyClasses.union, value_keyClasses, hc, hanswer, hmerged.keyClasses_eq,
      keyClasses_register (hp.register a), keyClasses_register hp]

theorem keyClasses_assign (hp : p.WellFormed) (k : K) (v : V) :
    (p.assign k v).2.WellFormed ∧
      p.keyClasses.assign k v = ((p.assign k v).1, (p.assign k v).2.keyClasses) := by
  cases hk : p.value? k with
  | some w =>
    obtain ⟨hanswer, hwf, hsame⟩ := hp.assign_of_some hk v
    rw [register_of_registered (registered_of_value? hk)] at hsame
    refine ⟨hwf, ?_⟩
    rw [hanswer, hsame.keyClasses_eq]
    by_cases hwv : w = v
    · subst hwv
      simp only [KeyClasses.assign, value_keyClasses, hk, Conflict.between?, if_true]
      rw [← keyClasses_register hp, register_of_registered (registered_of_value? hk),
        KeyClasses.give_of_value hk]
    · simp [KeyClasses.assign, Conflict.between?, hk, hwv]
  | none =>
    obtain ⟨hanswer, hwf, hsame, hgiven, hkept⟩ := hp.assign_of_none hk v
    have hclasses : (p.assign k v).2.keyClasses = (p.register k).keyClasses.give k v := by
      apply KeyClasses.ext_of_joined
      · intro l n
        simp [KeyClasses.give, hsame]
      · intro l
        by_cases hl : (p.register k).Same l k
        · simp [KeyClasses.give, hl, hgiven]
        · simp [KeyClasses.give, hl, hkept, hp]
    refine ⟨hwf, ?_⟩
    simp only [KeyClasses.assign, value_keyClasses, hk, Conflict.between?, hanswer, hclasses,
      keyClasses_register hp]

end ValuedPartition

/-! ## Requests and answers -/

/-- What a partition can be asked to do. -/
inductive PartitionRequest (K V : Type) where
  | insert (k : K)
  | root (k : K)
  | union (a b : K)
  | assign (k : K) (v : V)
  | value (k : K)
  | classes

/-- The answer to a request. A root has no meaning of its own; it is compared with other roots. -/
inductive PartitionAnswer (K V : Type) where
  | done
  | verdict (conflict : Option (Conflict V))
  | value (v : Option V)
  | classes (cs : List (K × List K))
deriving DecidableEq

/-- Make a list of requests, one after the other. -/
def answerAll {K V S : Type} (answer : S → PartitionRequest K V → PartitionAnswer K V × S) :
    S → List (PartitionRequest K V) → List (PartitionAnswer K V) × S
  | s, [] => ([], s)
  | s, r :: rs =>
    let first := answer s r
    let rest := answerAll answer first.2 rs
    (first.1 :: rest.1, rest.2)

section

variable {K V : Type} [Ord K] [Std.TransOrd K] [DecidableEq V]

def ValuedPartition.answer (p : ValuedPartition K V) :
    PartitionRequest K V → PartitionAnswer K V × ValuedPartition K V
  | .insert k => (.done, p.register k)
  | .root k => (.done, (p.root k).2)
  | .union a b => (.verdict (p.union a b).1, (p.union a b).2)
  | .assign k v => (.verdict (p.assign k v).1, (p.assign k v).2)
  | .value k => (.value (p.value k).1, (p.value k).2)
  | .classes => (.classes p.listClasses.1, p.listClasses.2)

variable [Std.LawfulEqOrd K] [DecidableEq K]

def KeyClasses.answer (m : KeyClasses K V) :
    PartitionRequest K V → PartitionAnswer K V × KeyClasses K V
  | .insert k => (.done, m.insert k)
  | .root k => (.done, m.insert k)
  | .union a b => (.verdict (m.union a b).1, (m.union a b).2)
  | .assign k v => (.verdict (m.assign k v).1, (m.assign k v).2)
  | .value k => (.value (m.value k), m)
  | .classes => (.classes m.classes, m)

namespace ValuedPartition

/-- Any one request: the answer and what it leaves are those of the classes of keys. -/
theorem keyClasses_answer {p : ValuedPartition K V} (hp : p.WellFormed) (r : PartitionRequest K V) :
    (p.answer r).2.WellFormed ∧ p.keyClasses.answer r = ((p.answer r).1, (p.answer r).2.keyClasses) := by
  cases r with
  | insert k => exact ⟨hp.register k, Prod.ext rfl (keyClasses_register hp k).symm⟩
  | root k => exact ⟨(hp.root k).1, Prod.ext rfl (keyClasses_root hp k).symm⟩
  | union a b =>
    obtain ⟨hwf, hunion⟩ := keyClasses_union hp a b
    exact ⟨hwf, by simp only [KeyClasses.answer, hunion, ValuedPartition.answer]⟩
  | assign k v =>
    obtain ⟨hwf, hassign⟩ := keyClasses_assign hp k v
    exact ⟨hwf, by simp only [KeyClasses.answer, hassign, ValuedPartition.answer]⟩
  | value k =>
    obtain ⟨hvalue, hwf, hsame⟩ := hp.value k
    refine ⟨hwf, ?_⟩
    simp only [KeyClasses.answer, ValuedPartition.answer, hvalue, hsame.keyClasses_eq, value_keyClasses]
  | classes =>
    obtain ⟨hlisted, hwf, hsame⟩ := hp.listClasses
    refine ⟨hwf, ?_⟩
    simp only [KeyClasses.answer, ValuedPartition.answer, hlisted, hsame.keyClasses_eq, classes_eq]

theorem keyClasses_answerAll {p : ValuedPartition K V} (hp : p.WellFormed)
    (rs : List (PartitionRequest K V)) :
    (answerAll answer p rs).2.WellFormed ∧ answerAll KeyClasses.answer p.keyClasses rs =
      ((answerAll answer p rs).1, (answerAll answer p rs).2.keyClasses) := by
  induction rs generalizing p with
  | nil => exact ⟨hp, rfl⟩
  | cons r rs ih =>
    obtain ⟨hwf, hfirst⟩ := keyClasses_answer hp r
    obtain ⟨hwf', hrest⟩ := ih hwf
    refine ⟨hwf', ?_⟩
    simp only [answerAll, hfirst, hrest]

/-- From nothing registered, a partition answers any requests as classes of keys do. At any moment its trees
are grown, so every climb ends at a root; two keys have one root exactly when they are in one class; a key has
the value of its class; and the classes are listed in order, with every registered key in one of them. -/
theorem answerAll_refines (rs : List (PartitionRequest K V)) :
    let run := answerAll answer (empty : ValuedPartition K V) rs
    let plain := answerAll KeyClasses.answer (KeyClasses.empty : KeyClasses K V) rs
    run.1 = plain.1 ∧ run.2.WellFormed ∧
      (∀ a b, (run.2.root a).1 = ((run.2.root a).2.root b).1 ↔ a = b ∨ plain.2.joined a b = true) ∧
      (∀ k, (run.2.value k).1 = plain.2.value k) ∧
      run.2.listClasses.1 = plain.2.classes ∧ plain.2.Lists run.2.listClasses.1 := by
  intro run plain
  obtain ⟨hwf, hplain⟩ := keyClasses_answerAll (p := .empty) .empty rs
  rw [keyClasses_empty] at hplain
  have hanswers : plain.1 = run.1 := congrArg Prod.fst hplain
  have hclasses : plain.2 = run.2.keyClasses := congrArg Prod.snd hplain
  have hlisted : run.2.listClasses.1 = run.2.keyClasses.classes := hwf.listClasses.1.trans (classes_eq _)
  rw [hanswers, hclasses, hlisted]
  refine ⟨rfl, hwf, fun a b => ?_, fun k => (hwf.value k).1, rfl, run.2.keyClasses.lists_classes⟩
  rw [hwf.root_eq_root_iff, joined_keyClasses]

theorem answerAll_refines_conflict :
    let requests : List (PartitionRequest String Nat) :=
      [.assign "b" 2, .root "c", .union "c" "b", .assign "a" 1, .union "a" "c", .value "c", .classes]
    let answers : List (PartitionAnswer String Nat) :=
      [.verdict none, .done, .verdict none, .verdict none, .verdict (some ⟨1, 2⟩), .value (some 2),
        .classes [("a", ["a"]), ("b", ["b", "c"])]]
    (answerAll answer empty requests).1 = answers ∧
      (answerAll KeyClasses.answer KeyClasses.empty requests).1 = answers := by
  intro requests answers
  have h : (answerAll answer empty requests).1 = answers := by decide +kernel
  exact ⟨h, (answerAll_refines requests).1.symm.trans h⟩

end ValuedPartition

end

end PatchTyping
