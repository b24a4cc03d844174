import PatchTyping.Proofs.RoundTypes
import PatchTyping.StandardBlocks

/-!
# Principal solutions of an axis

Inference on an axis refuses a constraint exactly when no assignment satisfies all of them. Otherwise it
knows of each variable all that the constraints say: the variable has a value exactly when every
satisfying assignment gives it that value, and the variables that are left open are reported class by
class, each class once.
-/

namespace PatchTyping
namespace AxisInference

open ValuedPartition
open Relation (EqvGen)

variable {α : Type}

/-- The equations among the constraints connect the two variables. -/
def Connected (cs : List (AxisConstraint α)) : VarKey → VarKey → Prop :=
  EqvGen fun x y => ∃ a b origin, .equal a b x y origin ∈ cs

/-- Some port of the variable is a target of the diagnostic. -/
def concerns (bindings : Bindings) (x : VarKey) (d : Diagnostic) : Bool :=
  d.targets.any fun
    | .port k => decide (bindings[k]? = some x)
    | _ => false

theorem mem_portsOf_iff {bindings : Bindings} {members : List VarKey} {k : PortKey} :
    k ∈ portsOf bindings members ↔ ∃ x ∈ members, bindings[k]? = some x := by
  simp [portsOf, Std.ExtTreeMap.mem_toList_iff_getElem?_eq_some, and_comm]

theorem nodup_portsOf (bindings : Bindings) (members : List VarKey) :
    (portsOf bindings members).Nodup :=
  (OrderedMaps.nodup_keys bindings).sublist (List.filter_sublist.map _)

theorem concerns_unresolvedDiagnostic_iff (w : AxisWording α) {bindings : Bindings}
    {members : List VarKey} {x : VarKey} (hx : Bound bindings x) :
    concerns bindings x (unresolvedDiagnostic w (portsOf bindings members)) = true ↔
      x ∈ members := by
  simp only [concerns, unresolvedDiagnostic, List.any_map, List.any_eq_true, Function.comp_apply,
    decide_eq_true_eq, mem_portsOf_iff]
  constructor
  · rintro ⟨k, ⟨y, hy, hky⟩, hkx⟩
    rw [Option.some.inj (hkx.symm.trans hky)]
    exact hy
  · intro hmem
    obtain ⟨k, hk⟩ := hx
    exact ⟨k, ⟨x, hmem, hk⟩, hk⟩

theorem connected_iff {cs : List (AxisConstraint α)} {x y : VarKey} :
    Connected cs x y ↔
      EqvGen (fun a b => False ∨ .equal a b ∈ cs.map AxisConstraint.demand) x y := by
  have hequation : (fun a b => False ∨ .equal a b ∈ cs.map AxisConstraint.demand) =
      fun x y => ∃ a b origin, AxisConstraint.equal a b x y origin ∈ cs := by
    funext x y
    simp only [false_or, List.mem_map, eq_iff_iff]
    constructor
    · rintro ⟨c, hc, hcd⟩
      cases c <;> cases hcd
      exact ⟨_, _, _, hc⟩
    · rintro ⟨a, b, origin, hc⟩
      exact ⟨_, hc, rfl⟩
  rw [hequation]
  rfl

theorem filter_open_answers {p : ValuedPartition VarKey α} {x : VarKey} (hx : p.Registered x)
    (hopen : p.value? x = none) :
    ∃ c ∈ p.classes, x ∈ c.2 ∧
      ((answersOf p).filter (·.2.isNone)).filter (fun c => c.1.contains x) =
        [(c.2, p.value? c.1)] := by
  obtain ⟨c, hc, hxc⟩ := exists_class hx
  refine ⟨c, hc, hxc, ?_⟩
  have hvalue : (p.value? c.1).isNone := by
    rw [((mem_class_iff hc).mp hxc).value?_eq, hopen]
    rfl
  obtain ⟨before, after, hsplit⟩ := List.append_of_mem hc
  have hdisjoint := p.classes_disjoint
  rw [answersOf, hsplit, List.map_append, List.map_cons]
  rw [hsplit, List.pairwise_append, List.pairwise_cons] at hdisjoint
  obtain ⟨-, ⟨hafter, -⟩, hbefore⟩ := hdisjoint
  have hnone : ∀ cs : List (VarKey × List VarKey), (∀ d ∈ cs, x ∉ d.2) →
      ((cs.map fun c => (c.2, p.value? c.1)).filter (·.2.isNone)).filter
        (fun c => c.1.contains x) = [] := by
    intro cs hcs
    rw [List.filter_eq_nil_iff]
    intro d hd
    obtain ⟨c, hc, rfl⟩ := List.mem_map.mp (List.mem_of_mem_filter hd)
    simpa using hcs c hc
  rw [List.filter_append, List.filter_append, hnone before, List.filter_cons, if_pos hvalue,
    List.filter_cons, if_pos (List.contains_iff_mem.mpr hxc), hnone after]
  · rfl
  · intro d hd
    exact hafter d hd x hxc
  · intro d hd hxd
    exact hbefore d hd c List.mem_cons_self x hxd hxc

variable [DecidableEq α]

/-- The wording tells conflicts from open classes, so a conflict is a refused constraint. -/
theorem exists_conflict_iff {w : AxisWording α} (hw : w.conflict ≠ w.unresolved)
    (bindings : Bindings) (cs : List (AxisConstraint α)) :
    (∃ d ∈ (solve w bindings cs).diagnostics, d.kind = w.conflict) ↔
      ¬ Demand.Accepted (cs.map AxisConstraint.demand)
        (start bindings : ValuedPartition VarKey α) := by
  rw [← AxisConstraint.imposeAll_eq_nil_iff w, solve_eq]
  constructor
  · rintro ⟨d, hd, hkind⟩ hnil
    rw [hnil, List.nil_append] at hd
    obtain ⟨c, -, rfl⟩ := List.mem_map.mp hd
    exact hw hkind.symm
  · intro hne
    obtain ⟨d, hd⟩ := List.exists_mem_of_ne_nil _ hne
    exact ⟨d, List.mem_append_left _ hd, AxisConstraint.mem_imposeAll hd⟩

/-- Constraints are accepted exactly when they can be satisfied. -/
theorem accepted_iff_exists_models [Nonempty α] {bindings : Bindings}
    {cs : List (AxisConstraint α)} (hcov : Covers bindings cs) :
    Demand.Accepted (cs.map AxisConstraint.demand) (start bindings : ValuedPartition VarKey α) ↔
      ∃ σ, Models cs σ := by
  constructor
  · intro ha
    obtain ⟨a⟩ := ‹Nonempty α›
    obtain ⟨σ, hσ, -⟩ := (solved_presents hcov ha).1.exists_satisfies a
    exact ⟨σ, models_iff_satisfies.mpr hσ⟩
  · rintro ⟨σ, hσ⟩
    exact accepted_of_models hcov hσ

/-- A value is found exactly when the constraints force it. -/
theorem values_iff_forced [Nontrivial α] (w : AxisWording α) {bindings : Bindings}
    {cs : List (AxisConstraint α)} (hcov : Covers bindings cs) (hsat : ∃ σ, Models cs σ)
    (x : VarKey) (a : α) :
    (solve w bindings cs).values[x]? = some a ↔ ∀ σ, Models cs σ → σ x = a := by
  obtain ⟨σ, hσ⟩ := hsat
  obtain ⟨h, -⟩ := solved_presents hcov (accepted_of_models hcov hσ)
  rw [values_solve]
  constructor
  · intro hx τ hτ
    exact h.value_eq (models_iff_satisfies.mp hτ) hx
  · intro hforced
    cases hx : (solved bindings cs).value? x with
    | none =>
      obtain ⟨b, hb⟩ := exists_ne a
      obtain ⟨τ, hτ, hτx⟩ := exists_models_apply hcov hσ hx b
      exact absurd (hτx.symm.trans (hforced τ hτ)) hb
    | some b => rw [← h.value_eq (models_iff_satisfies.mp hσ) hx, hforced σ hσ]

/-- A variable left open is reported once, with the ports of all variables it is connected with. -/
theorem reported_once (w : AxisWording α) {bindings : Bindings} {cs : List (AxisConstraint α)}
    (hcov : Covers bindings cs)
    (ha : Demand.Accepted (cs.map AxisConstraint.demand)
      (start bindings : ValuedPartition VarKey α))
    {x : VarKey} (hx : Bound bindings x) (hopen : (solve w bindings cs).values[x]? = none) :
    ∃ d, (solve w bindings cs).diagnostics.filter (concerns bindings x) = [d] ∧
      d.kind = w.unresolved ∧ d.targets.Nodup ∧
      ∀ t, t ∈ d.targets ↔ ∃ k y, t = .port k ∧ bindings[k]? = some y ∧ Connected cs x y := by
  obtain ⟨h, hreg⟩ := solved_presents hcov ha
  have hxreg := (hreg x).mpr hx
  rw [values_solve] at hopen
  obtain ⟨c, hc, hxc, hfilter⟩ := filter_open_answers hxreg hopen
  have hmember : ∀ y, y ∈ c.2 ↔ Connected cs x y := by
    intro y
    rw [connected_iff, ← h.same_iff_eqvGen hxreg, mem_class_iff hc]
    have hcx := (mem_class_iff hc).mp hxc
    exact ⟨hcx.symm.trans, hcx.trans⟩
  refine ⟨unresolvedDiagnostic w (portsOf bindings c.2), ?_, rfl, ?_, ?_⟩
  · have hno := (AxisConstraint.imposeAll_eq_nil_iff w cs (start bindings)).mpr ha
    have hconcerns : (fun c : ClassAnswer α =>
        concerns bindings x (unresolvedDiagnostic w (portsOf bindings c.1))) =
          fun c => c.1.contains x := by
      funext c
      rw [Bool.eq_iff_iff, concerns_unresolvedDiagnostic_iff w hx, List.contains_iff_mem]
    rw [solve_eq, hno, List.nil_append, unresolvedDiagnostics, List.filter_map]
    simp only [Function.comp_def, hconcerns, hfilter, List.map_cons, List.map_nil]
  · exact (nodup_portsOf bindings c.2).map (fun _ _ => Target.port.inj)
  · intro t
    simp only [unresolvedDiagnostic, List.mem_map, mem_portsOf_iff]
    constructor
    · rintro ⟨k, ⟨y, hy, hk⟩, rfl⟩
      exact ⟨k, y, rfl, hk, (hmember y).mp hy⟩
    · rintro ⟨k, y, rfl, hk, hy⟩
      exact ⟨k, ⟨y, (hmember y).mpr hy, hk⟩, rfl⟩

/-- Inference on an axis of at least two values is sound, complete and principal. -/
theorem solve_principal [Nontrivial α] {w : AxisWording α} (hw : w.conflict ≠ w.unresolved)
    {bindings : Bindings} {cs : List (AxisConstraint α)} (hcov : Covers bindings cs) :
    ((∃ d ∈ (solve w bindings cs).diagnostics, d.kind = w.conflict) ↔ ¬ ∃ σ, Models cs σ) ∧
      ((¬ ∃ d ∈ (solve w bindings cs).diagnostics, d.kind = w.conflict) →
        (∀ x a, (solve w bindings cs).values[x]? = some a ↔ ∀ σ, Models cs σ → σ x = a) ∧
        ∀ x, Bound bindings x → (solve w bindings cs).values[x]? = none →
          ∃ d, (solve w bindings cs).diagnostics.filter (concerns bindings x) = [d] ∧
            d.kind = w.unresolved ∧ d.targets.Nodup ∧
            ∀ t, t ∈ d.targets ↔
              ∃ k y, t = .port k ∧ bindings[k]? = some y ∧ Connected cs x y) := by
  have hconflict := exists_conflict_iff hw bindings cs
  have hsat := accepted_iff_exists_models (α := α) hcov
  refine ⟨hconflict.trans (not_congr hsat), fun hnone => ?_⟩
  have ha := not_not.mp (mt hconflict.mpr hnone)
  exact ⟨values_iff_forced w hcov (hsat.mp ha), fun x => reported_once w hcov ha⟩

/-- Two filters follow the clock, and two more follow nothing but each other. -/
def looseFilters : Patch where
  nodes := (∅ : Std.ExtTreeMap NodeId Node).insert "clock" { block := "Time" }
    |>.insert "first" { block := "Smooth" } |>.insert "second" { block := "Smooth" }
    |>.insert "third" { block := "Smooth" } |>.insert "fourth" { block := "Smooth" }
  edges := (∅ : Std.ExtTreeMap EdgeId Edge).insert "e1" ⟨⟨"first", "y"⟩, ⟨"second", "x"⟩⟩
    |>.insert "e2" ⟨⟨"clock", "t"⟩, ⟨"first", "x"⟩⟩
    |>.insert "e3" ⟨⟨"third", "y"⟩, ⟨"fourth", "x"⟩⟩

/-- The payload of the clock is forced on the second filter, and the other two are reported together. -/
theorem looseFilters_principal :
    Covers ((looseFilters.constraints .standard).ports.bindings PortType.payload)
        (looseFilters.constraints .standard).payload ∧
      (∃ σ, Models (looseFilters.constraints .standard).payload σ) ∧
      (∀ σ, Models (looseFilters.constraints .standard).payload σ → σ ⟨"second", "T"⟩ = .float) ∧
      ∃ d, (looseFilters.constraints .standard).solvePayload.diagnostics.filter
          (concerns ((looseFilters.constraints .standard).ports.bindings PortType.payload)
            ⟨"third", "T"⟩) = [d] ∧
        d.kind = .unresolvedPayload ∧ .port ⟨"fourth", "y"⟩ ∈ d.targets ∧
        Connected (looseFilters.constraints .standard).payload ⟨"third", "T"⟩ ⟨"fourth", "T"⟩ := by
  have hcov : Covers ((looseFilters.constraints .standard).ports.bindings PortType.payload)
      (looseFilters.constraints .standard).payload := Patch.axisConstraints_covers _ _
  have hno : ¬ ∃ d ∈ (looseFilters.constraints .standard).solvePayload.diagnostics,
      d.kind = .payloadConflict := by decide +kernel
  have hprincipal := solve_principal (w := payloadWording) (by decide) hcov
  obtain ⟨hvalues, hreported⟩ := hprincipal.2 hno
  obtain ⟨d, hd, hkind, -, htargets⟩ := hreported ⟨"third", "T"⟩
    ⟨⟨"third", "x"⟩, by decide +kernel⟩ (by decide +kernel)
  have hfourth : .port ⟨"fourth", "y"⟩ ∈ d.targets := by
    have hall : ∀ d ∈ (looseFilters.constraints .standard).solvePayload.diagnostics,
        .port ⟨"fourth", "y"⟩ ∈ d.targets := by decide +kernel
    exact hall d (List.mem_of_mem_filter (hd ▸ List.mem_singleton_self d))
  refine ⟨hcov, not_not.mp (mt hprincipal.1.mpr hno),
    (hvalues ⟨"second", "T"⟩ .float).mp (by decide +kernel), d, hd, hkind, hfourth, ?_⟩
  obtain ⟨k, y, hk, hy, hconnected⟩ := (htargets _).mp hfourth
  cases hk
  have hy' : ((looseFilters.constraints .standard).ports.bindings PortType.payload)[
      PortKey.mk "fourth" "y"]? = some ⟨"fourth", "T"⟩ := by decide +kernel
  rw [Option.some.inj (hy'.symm.trans hy)]
  exact hconnected

end AxisInference
end PatchTyping
