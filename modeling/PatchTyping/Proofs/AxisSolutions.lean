import Mathlib.Logic.Nontrivial.Defs
import PatchTyping.AxisInference
import PatchTyping.Proofs.OrderedMaps
import PatchTyping.Proofs.PartitionListings
import PatchTyping.Proofs.PartitionPresentations

/-!
# Solutions of an axis

Inference on an axis gives a variable a value exactly when the constraints force it. If some assignment
satisfies all constraints, none is refused; and then a class without a value can still be given any, so
an axis of at least two values never forces one on it.
-/

namespace PatchTyping

open ValuedPartition

instance : Nontrivial Payload := ⟨.float, .int, by decide⟩

instance : Nontrivial UnitTag := ⟨.scalar, .none, by decide⟩

variable {α : Type}

namespace AxisConstraint

/-- The variables of a constraint. -/
def vars : AxisConstraint α → List VarKey
  | equal _ _ lhs rhs _ => [lhs, rhs]
  | fixed _ var _ _ _ => [var]

/-- An assignment of values to variables satisfies the constraint. -/
def Holds (σ : VarKey → α) : AxisConstraint α → Prop
  | equal _ _ lhs rhs _ => σ lhs = σ rhs
  | fixed _ var value _ _ => σ var = value

/-- What a constraint demands of the partition of the variables. -/
def demand : AxisConstraint α → Demand VarKey α
  | equal _ _ lhs rhs _ => .equal lhs rhs
  | fixed _ var value _ _ => .holds var value

theorem keys_demand (c : AxisConstraint α) : c.demand.keys = c.vars := by
  cases c <;> rfl

variable [DecidableEq α]

theorem impose_eq_demand (c : AxisConstraint α) (p : ValuedPartition VarKey α) :
    c.impose p = c.demand.impose p := by
  cases c <;> rfl

theorem imposeAll_partition (w : AxisWording α) (cs : List (AxisConstraint α))
    (p : ValuedPartition VarKey α) : (imposeAll w cs p).2 = Demand.run p (cs.map demand) := by
  induction cs generalizing p with
  | nil => rfl
  | cons c cs ih => simp [imposeAll, ih, impose_eq_demand]

theorem imposeAll_eq_nil_iff (w : AxisWording α) (cs : List (AxisConstraint α))
    (p : ValuedPartition VarKey α) :
    (imposeAll w cs p).1 = [] ↔ Demand.Accepted (cs.map demand) p := by
  induction cs generalizing p with
  | nil => simp [imposeAll, Demand.Accepted]
  | cons c cs ih => simp [imposeAll, Demand.Accepted, ih, impose_eq_demand]

theorem mem_imposeAll {w : AxisWording α} {cs : List (AxisConstraint α)}
    {p : ValuedPartition VarKey α} {d : Diagnostic} (hd : d ∈ (imposeAll w cs p).1) :
    d.kind = w.conflict := by
  induction cs generalizing p with
  | nil => simp [imposeAll] at hd
  | cons c cs ih =>
    rcases List.mem_append.mp hd with hd | hd
    · obtain ⟨x, -, rfl⟩ := Option.map_eq_some_iff.mp (Option.mem_toList.mp hd)
      cases c <;> rfl
    · exact ih hd

end AxisConstraint

namespace AxisInference

/-- Some port has the variable. -/
def Bound (bindings : Bindings) (x : VarKey) : Prop := ∃ k : PortKey, bindings[k]? = some x

/-- Every variable of the constraints is the variable of some port. -/
def Covers (bindings : Bindings) (cs : List (AxisConstraint α)) : Prop :=
  ∀ c ∈ cs, ∀ x ∈ c.vars, Bound bindings x

/-- An assignment satisfies all constraints. -/
def Models (cs : List (AxisConstraint α)) (σ : VarKey → α) : Prop := ∀ c ∈ cs, c.Holds σ

theorem start_presents (bindings : Bindings) :
    (start bindings : ValuedPartition VarKey α).Presents (fun _ _ => False) (fun _ _ => False) ∧
      ∀ x, (start bindings : ValuedPartition VarKey α).Registered x ↔ Bound bindings x := by
  obtain ⟨h, hreg⟩ := Presents.registerAll (V := α) (bindings.toList.map (·.2))
  refine ⟨h, fun x => ?_⟩
  rw [start, hreg]
  simp [Bound, Std.ExtTreeMap.mem_toList_iff_getElem?_eq_some]

theorem models_iff_satisfies {cs : List (AxisConstraint α)} {σ : VarKey → α} :
    Models cs σ ↔ Satisfies σ (fun a b => False ∨ .equal a b ∈ cs.map AxisConstraint.demand)
      fun k v => False ∨ .holds k v ∈ cs.map AxisConstraint.demand := by
  constructor
  · intro h
    constructor
    · rintro a b (hab | hab)
      · cases hab
      · obtain ⟨c, hc, hcd⟩ := List.mem_map.mp hab
        have hholds := h c hc
        cases c <;> cases hcd
        exact hholds
    · rintro k v (hk | hk)
      · cases hk
      · obtain ⟨c, hc, hcd⟩ := List.mem_map.mp hk
        have hholds := h c hc
        cases c <;> cases hcd
        exact hholds
  · intro h c hc
    have hmem : c.demand ∈ cs.map AxisConstraint.demand := List.mem_map_of_mem hc
    cases c with
    | equal a b lhs rhs origin => exact h.equation (.inr hmem)
    | fixed port var value source origin => exact h.value (.inr hmem)

variable [DecidableEq α]

/-- The partition that a solution is read off. -/
def solved (bindings : Bindings) (cs : List (AxisConstraint α)) : ValuedPartition VarKey α :=
  Demand.run (start bindings) (cs.map AxisConstraint.demand)

theorem wellFormed_solved (bindings : Bindings) (cs : List (AxisConstraint α)) :
    (solved bindings cs).WellFormed :=
  ((start_presents bindings).1.wellFormed.run _).1

section Answers

omit [DecidableEq α]

/-- The classes of a partition with their values. -/
def answersOf (p : ValuedPartition VarKey α) : List (ClassAnswer α) :=
  p.classes.map fun c => (c.2, p.value? c.1)

theorem readClasses_eq {p q : ValuedPartition VarKey α} (hq : q.WellFormed) (h : SameRoots p q)
    (cs : List (VarKey × List VarKey)) :
    readClasses cs q = cs.map fun c => (c.2, p.value? c.1) := by
  induction cs generalizing q with
  | nil => rfl
  | cons c cs ih =>
    obtain ⟨hvalue, hwf, hsame⟩ := hq.value c.1
    simp only [readClasses, List.map_cons, ih hwf (h.trans hsame), hvalue, h.value?]

theorem classAnswers_eq {p : ValuedPartition VarKey α} (hp : p.WellFormed) :
    classAnswers p = answersOf p := by
  obtain ⟨hclasses, hwf, hsame⟩ := hp.listClasses
  simp only [classAnswers, readClasses_eq hwf hsame, hclasses, answersOf]

theorem mem_classValues_iff {p : ValuedPartition VarKey α} {x : VarKey} {a : α} :
    (x, a) ∈ classValues (answersOf p) ↔ p.value? x = some a := by
  simp only [classValues, answersOf, List.flatMap_map, List.mem_flatMap]
  constructor
  · rintro ⟨c, hc, hx⟩
    split at hx
    · next b hb =>
      obtain ⟨y, hy, heq⟩ := List.mem_map.mp hx
      cases heq
      rw [← ((mem_class_iff hc).mp hy).value?_eq, hb]
    · cases hx
  · intro hx
    obtain ⟨c, hc, hxc⟩ := exists_class (registered_of_value? hx)
    refine ⟨c, hc, ?_⟩
    rw [((mem_class_iff hc).mp hxc).value?_eq, hx]
    exact List.mem_map.mpr ⟨x, hxc, rfl⟩

theorem unresolvedDiagnostics_eq_nil_iff (w : AxisWording α) (bindings : Bindings)
    (p : ValuedPartition VarKey α) :
    unresolvedDiagnostics w bindings (answersOf p) = [] ↔
      ∀ x, p.Registered x → (p.value? x).isSome := by
  simp only [unresolvedDiagnostics, answersOf, List.map_eq_nil_iff, List.filter_eq_nil_iff,
    List.forall_mem_map, Option.isNone_iff_eq_none, ← ne_eq, Option.ne_none_iff_isSome]
  constructor
  · intro h x hx
    obtain ⟨c, hc, hxc⟩ := exists_class hx
    rw [← ((mem_class_iff hc).mp hxc).value?_eq]
    exact h c hc
  · intro h c hc
    exact h c.1 ((mem_class_iff hc).mp (first_mem_class hc)).registered.1

end Answers

theorem solve_eq (w : AxisWording α) (bindings : Bindings) (cs : List (AxisConstraint α)) :
    solve w bindings cs =
      { values := Std.ExtTreeMap.ofList (classValues (answersOf (solved bindings cs)))
        diagnostics := (AxisConstraint.imposeAll w cs (start bindings)).1 ++
          unresolvedDiagnostics w bindings (answersOf (solved bindings cs)) } := by
  have hanswers : classAnswers (AxisConstraint.imposeAll w cs (start bindings)).2 =
      answersOf (solved bindings cs) := by
    rw [AxisConstraint.imposeAll_partition]
    exact classAnswers_eq (wellFormed_solved bindings cs)
  simp only [solve, hanswers]

theorem values_solve (w : AxisWording α) (bindings : Bindings) (cs : List (AxisConstraint α))
    (x : VarKey) : (solve w bindings cs).values[x]? = (solved bindings cs).value? x := by
  apply Option.ext
  intro a
  rw [solve_eq, OrderedMaps.getElem?_ofList_iff]
  · exact mem_classValues_iff
  · intro a b ha hb
    rw [mem_classValues_iff] at ha hb
    exact Option.some.inj (ha.symm.trans hb)

theorem diagnostics_solve_eq_nil_iff (w : AxisWording α) (bindings : Bindings)
    (cs : List (AxisConstraint α)) :
    (solve w bindings cs).diagnostics = [] ↔
      Demand.Accepted (cs.map AxisConstraint.demand) (start bindings) ∧
        ∀ x, (solved bindings cs).Registered x → ((solved bindings cs).value? x).isSome := by
  rw [solve_eq, List.append_eq_nil_iff, AxisConstraint.imposeAll_eq_nil_iff,
    unresolvedDiagnostics_eq_nil_iff]

theorem mem_diagnostics_solve {w : AxisWording α} {bindings : Bindings}
    {cs : List (AxisConstraint α)} {d : Diagnostic} (hd : d ∈ (solve w bindings cs).diagnostics) :
    d.kind = w.conflict ∨ d.kind = w.unresolved := by
  rcases List.mem_append.mp hd with hd | hd
  · exact .inl (AxisConstraint.mem_imposeAll hd)
  · obtain ⟨c, -, rfl⟩ := List.mem_map.mp hd
    exact .inr rfl

omit [DecidableEq α] in
theorem covered_keys {bindings : Bindings} {cs : List (AxisConstraint α)}
    (hcov : Covers bindings cs) : ∀ d ∈ cs.map AxisConstraint.demand, ∀ x ∈ d.keys,
      (start bindings : ValuedPartition VarKey α).Registered x := by
  intro d hd x hx
  obtain ⟨c, hc, rfl⟩ := List.mem_map.mp hd
  rw [AxisConstraint.keys_demand] at hx
  exact ((start_presents bindings).2 x).mpr (hcov c hc x hx)

/-- Constraints that are all accepted present the partition that is read off. -/
theorem solved_presents {bindings : Bindings} {cs : List (AxisConstraint α)}
    (hcov : Covers bindings cs)
    (ha : Demand.Accepted (cs.map AxisConstraint.demand)
      (start bindings : ValuedPartition VarKey α)) :
    (solved bindings cs).Presents (fun a b => False ∨ .equal a b ∈ cs.map AxisConstraint.demand)
        (fun k v => False ∨ .holds k v ∈ cs.map AxisConstraint.demand) ∧
      ∀ x, (solved bindings cs).Registered x ↔ Bound bindings x := by
  obtain ⟨h, hreg⟩ := start_presents (α := α) bindings
  obtain ⟨h', hreg'⟩ := h.run (covered_keys hcov) ha
  exact ⟨h', fun x => (hreg' x).trans (hreg x)⟩

theorem accepted_of_models {bindings : Bindings} {cs : List (AxisConstraint α)}
    (hcov : Covers bindings cs) {σ : VarKey → α} (hσ : Models cs σ) :
    Demand.Accepted (cs.map AxisConstraint.demand) (start bindings : ValuedPartition VarKey α) :=
  (start_presents bindings).1.accepted (covered_keys hcov) (models_iff_satisfies.mp hσ)

/-- A variable without a value is forced to none. -/
theorem exists_models_apply {bindings : Bindings} {cs : List (AxisConstraint α)}
    (hcov : Covers bindings cs) {σ : VarKey → α} (hσ : Models cs σ) {x : VarKey}
    (hx : (solved bindings cs).value? x = none) (a : α) : ∃ τ, Models cs τ ∧ τ x = a := by
  obtain ⟨h, -⟩ := solved_presents hcov (accepted_of_models hcov hσ)
  obtain ⟨τ, hτ, hfill⟩ := h.exists_satisfies a
  exact ⟨τ, models_iff_satisfies.mpr hτ, hfill x hx⟩

/-- Without complaint every bound variable has a value, and it is the one that every assignment
satisfying the constraints gives it. -/
theorem values_of_clean {w : AxisWording α} {bindings : Bindings} {cs : List (AxisConstraint α)}
    (hcov : Covers bindings cs) (hclean : (solve w bindings cs).diagnostics = []) {x : VarKey}
    (hx : Bound bindings x) :
    ∃ a, (solve w bindings cs).values[x]? = some a ∧ ∀ σ, Models cs σ → σ x = a := by
  obtain ⟨ha, hall⟩ := (diagnostics_solve_eq_nil_iff w bindings cs).mp hclean
  obtain ⟨h, hreg⟩ := solved_presents hcov ha
  obtain ⟨a, hv⟩ := Option.isSome_iff_exists.mp (hall x ((hreg x).mpr hx))
  refine ⟨a, (values_solve w bindings cs x).trans hv, fun σ hσ => ?_⟩
  exact h.value_eq (models_iff_satisfies.mp hσ) hv

/-- Without complaint the values found satisfy the constraints. -/
theorem models_of_clean {w : AxisWording α} {bindings : Bindings} {cs : List (AxisConstraint α)}
    (hcov : Covers bindings cs) (hclean : (solve w bindings cs).diagnostics = []) (d : α) :
    Models cs fun x => ((solve w bindings cs).values[x]?).getD d := by
  obtain ⟨ha, -⟩ := (diagnostics_solve_eq_nil_iff w bindings cs).mp hclean
  obtain ⟨h, -⟩ := solved_presents hcov ha
  simp only [values_solve]
  exact models_iff_satisfies.mpr (h.satisfies_fill (fun _ _ _ _ => rfl))

/-- Constraints with a satisfying assignment that is unique on the bound variables are solved by it. -/
theorem solve_of_determined [Nontrivial α] (w : AxisWording α) {bindings : Bindings}
    {cs : List (AxisConstraint α)} (hcov : Covers bindings cs) {σ : VarKey → α} (hσ : Models cs σ)
    (huniq : ∀ τ, Models cs τ → ∀ x, Bound bindings x → τ x = σ x) :
    (solve w bindings cs).diagnostics = [] ∧
      ∀ x, Bound bindings x → (solve w bindings cs).values[x]? = some (σ x) := by
  have ha := accepted_of_models hcov hσ
  obtain ⟨h, hreg⟩ := solved_presents hcov ha
  have hval : ∀ x, Bound bindings x → (solved bindings cs).value? x = some (σ x) := by
    intro x hx
    cases hv : (solved bindings cs).value? x with
    | none =>
      obtain ⟨b, hb⟩ := exists_ne (σ x)
      obtain ⟨τ, hτ, hτx⟩ := exists_models_apply hcov hσ hv b
      exact absurd (hτx.symm.trans (huniq τ hτ x hx)) hb
    | some a => rw [h.value_eq (models_iff_satisfies.mp hσ) hv]
  refine ⟨(diagnostics_solve_eq_nil_iff w bindings cs).mpr ⟨ha, fun x hx => ?_⟩, fun x hx => ?_⟩
  · rw [hval x ((hreg x).mp hx)]
    rfl
  · rw [values_solve, hval x hx]

end AxisInference

end PatchTyping
