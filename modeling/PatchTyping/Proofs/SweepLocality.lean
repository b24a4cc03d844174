import PatchTyping.Proofs.PartitionLocality
import PatchTyping.Proofs.SweepAgreement

/-!
# Sweeps over the groups of some nodes

The members of a broadcast group are ports of one node. Groups of other nodes may fill classes and may be
reported, but no class reaches from one kind of node to another, so what sweeps make of the ports of some
nodes is what sweeps over the groups of those nodes make of them. The two need not come to rest after the
same number of sweeps; since a sweep that changes nothing can be repeated, both may be counted to one
common bound.
-/

namespace PatchTyping

namespace CardinalityInference

open ValuedPartition

namespace Resolution

section Binding

variable {P : PortKey → Prop} {p q : PortPartition}

theorem bindOpen_inside (h : p.Restricts P q) (v : Cardinality) {members : List ZipMember}
    (hreg : ∀ m ∈ members, p.Registered m.port) (hm : ∀ m ∈ members, P m.port) :
    (bindOpen p v members).Restricts P (bindOpen q v members) := by
  induction members generalizing p q with
  | nil => exact h
  | cons m ms ih =>
    have hms : ∀ m' ∈ ms, P m'.port := fun m' hm' => hm m' (List.mem_cons_of_mem _ hm')
    have hregs : ∀ m' ∈ ms, p.Registered m'.port := fun m' hm' => hreg m' (List.mem_cons_of_mem _ hm')
    simp only [bindOpen, List.foldl_cons, h.value_eq (hm m List.mem_cons_self)]
    cases p.value? m.port with
    | some c => exact ih h hregs hms
    | none =>
      have hkeys : ∀ k ∈ (Demand.holds m.port v).keys, k = m.port := by simp [Demand.keys]
      have hreg' : ∀ k ∈ (Demand.holds m.port v).keys, p.Registered k :=
        fun k hk => hkeys k hk ▸ hreg m List.mem_cons_self
      refine ih (h.impose hreg' fun k hk => hkeys k hk ▸ hm m List.mem_cons_self).2 ?_ hms
      exact fun m' hm' => (h.left.registered_impose hreg' _).mpr (hregs m' hm')

theorem bindOpen_outside (h : p.Restricts P q) (v : Cardinality) {members : List ZipMember}
    (hreg : ∀ m ∈ members, p.Registered m.port) (hm : ∀ m ∈ members, ¬ P m.port) :
    (bindOpen p v members).Restricts P q := by
  induction members generalizing p with
  | nil => exact h
  | cons m ms ih =>
    have hms : ∀ m' ∈ ms, ¬ P m'.port := fun m' hm' => hm m' (List.mem_cons_of_mem _ hm')
    have hregs : ∀ m' ∈ ms, p.Registered m'.port := fun m' hm' => hreg m' (List.mem_cons_of_mem _ hm')
    simp only [bindOpen, List.foldl_cons]
    cases p.value? m.port with
    | some c => exact ih h hregs hms
    | none =>
      have hkeys : ∀ k ∈ (Demand.holds m.port v).keys, k = m.port := by simp [Demand.keys]
      have hreg' : ∀ k ∈ (Demand.holds m.port v).keys, p.Registered k :=
        fun k hk => hkeys k hk ▸ hreg m List.mem_cons_self
      refine ih (h.impose_outside hreg' fun k hk => hkeys k hk ▸ hm m List.mem_cons_self) ?_ hms
      exact fun m' hm' => (h.left.registered_impose hreg' _).mpr (hregs m' hm')

end Binding

private theorem anyValue (rule : GroupRule) (p : PortPartition) (g : BroadcastGroup) (v : Cardinality)
    (_ : rule p g = some (.ok v)) : True := trivial

/-- For some nodes the two stand alike: in the classes and values of their ports, and in which of them
have been reported. -/
structure Restricts (mine : NodeId → Bool) (r r' : Resolution) : Prop where
  partition : r.partition.Restricts (fun k => mine k.node = true) r'.partition
  conflicted_iff : ∀ {n}, mine n = true → (n ∈ r'.conflicted ↔ n ∈ r.conflicted)

/-- On groups of some nodes two rules say the same, provided that the members have the same values. -/
def AgreeOn (mine : NodeId → Bool) (rule rule' : GroupRule) : Prop :=
  ∀ (p q : PortPartition) (g : BroadcastGroup), (∀ m ∈ g.members, mine m.port.node = true) →
    (∀ m ∈ g.members, q.value? m.port = p.value? m.port) → rule' q g = rule p g

theorem spreadMany_agreeOn (mine : NodeId → Bool) : AgreeOn mine spreadMany spreadMany :=
  fun p q g _ => spreadMany_looksAtMembers p q g

theorem commitOne_agreeOn {mine : NodeId → Bool} {pending pending' : Std.ExtTreeSet PortKey compare}
    (h : ∀ k : PortKey, mine k.node = true → (k ∈ pending' ↔ k ∈ pending)) :
    AgreeOn mine (commitOne pending) (commitOne pending') := by
  intro p q g hg hval
  have hsame : commitOne pending' q g = commitOne pending q g := by
    have hany : (g.members.any fun m =>
          pending'.contains m.port || decide (q.value? m.port = some .one)) =
        g.members.any fun m =>
          pending.contains m.port || decide (q.value? m.port = some .one) := by
      rw [Bool.eq_iff_iff, List.any_eq_true, List.any_eq_true]
      refine exists_congr fun m => and_congr_right fun hm => ?_
      simp [h m.port (hg m hm)]
    rw [commitOne, commitOne, hany]
  rw [hsame]
  exact commitOne_looksAtMembers pending p q g hval

namespace Restricts

variable {mine : NodeId → Bool} {r r' : Resolution} {g : BroadcastGroup}

theorem report (h : Restricts mine r r') (g : BroadcastGroup) (message : String) :
    Restricts mine (r.report g message) (r'.report g message) := by
  refine ⟨h.partition, fun {n} hn => ?_⟩
  simp [Resolution.report, h.conflicted_iff hn]

theorem report_outside (h : Restricts mine r r') (hg : mine g.node = false) (message : String) :
    Restricts mine (r.report g message) r' := by
  refine ⟨h.partition, fun {n} hn => ?_⟩
  have hne : g.node ≠ n := fun heq => by simp [← heq, hg] at hn
  simp [Resolution.report, h.conflicted_iff hn, hne]

theorem settleGroup (h : Restricts mine r r')
    (hreg : ∀ m ∈ g.members, r.partition.Registered m.port)
    (hg : ∀ m ∈ g.members, mine m.port.node = true) (v : Cardinality) :
    Restricts mine (r.settleGroup g v).2 (r'.settleGroup g v).2 := by
  have hopp : (g.members.findSome? fun m => (opposes r'.partition v m).map fun c => (m, c)) =
      g.members.findSome? fun m => (opposes r.partition v m).map fun c => (m, c) := by
    rw [← List.head?_filterMap, ← List.head?_filterMap]
    apply congrArg List.head?
    apply List.filterMap_congr
    intro m hm
    rw [opposes, opposes, h.partition.value_eq (hg m hm)]
  unfold Resolution.settleGroup
  rw [hopp]
  split
  · exact h.report g _
  · exact ⟨bindOpen_inside h.partition v hreg hg, h.conflicted_iff⟩

theorem settleGroup_outside (h : Restricts mine r r')
    (hreg : ∀ m ∈ g.members, r.partition.Registered m.port) (hg : mine g.node = false)
    (hm : ∀ m ∈ g.members, ¬ mine m.port.node = true) (v : Cardinality) :
    Restricts mine (r.settleGroup g v).2 r' := by
  unfold Resolution.settleGroup
  split
  · exact h.report_outside hg _
  · exact ⟨bindOpen_outside h.partition v hreg hm, h.conflicted_iff⟩

section Rules

variable {rule rule' : GroupRule}

theorem applyRule (hrule : AgreeOn mine rule rule') (h : Restricts mine r r')
    (hreg : ∀ m ∈ g.members, r.partition.Registered m.port)
    (hown : ∀ m ∈ g.members, m.port.node = g.node) (hg : mine g.node = true) :
    Restricts mine (applyRule rule r g).2 (applyRule rule' r' g).2 := by
  have hm : ∀ m ∈ g.members, mine m.port.node = true := fun m hm => (hown m hm).symm ▸ hg
  have hsame : rule' r'.partition g = rule r.partition g := by
    apply hrule _ _ _ hm
    exact fun m hm' => h.partition.value_eq (hm m hm')
  have hconf : r'.conflicted.contains g.node = r.conflicted.contains g.node := by
    rw [Bool.eq_iff_iff, ← Std.ExtTreeSet.mem_iff_contains, ← Std.ExtTreeSet.mem_iff_contains]
    exact h.conflicted_iff hg
  unfold Resolution.applyRule
  rw [hconf, hsame]
  split
  · exact h
  · split
    · exact h
    · exact h.report g _
    · exact h.settleGroup hreg hm _

theorem applyRule_outside (rule : GroupRule) (h : Restricts mine r r')
    (hreg : ∀ m ∈ g.members, r.partition.Registered m.port)
    (hown : ∀ m ∈ g.members, m.port.node = g.node) (hg : mine g.node = false) :
    Restricts mine (Resolution.applyRule rule r g).2 r' := by
  have hm : ∀ m ∈ g.members, ¬ mine m.port.node = true := fun m hm => by simp [hown m hm, hg]
  unfold Resolution.applyRule
  split
  · exact h
  · split
    · exact h
    · exact h.report_outside hg _
    · exact h.settleGroup_outside hreg hg hm _

variable {groups : List BroadcastGroup}

theorem sweep (hrule : AgreeOn mine rule rule') (h : Restricts mine r r') (hr : r.Accounted)
    (hreg : ∀ g ∈ groups, ∀ m ∈ g.members, r.partition.Registered m.port)
    (hown : ∀ g ∈ groups, ∀ m ∈ g.members, m.port.node = g.node) :
    Restricts mine (sweep rule groups r).2 (sweep rule' (groups.filter fun g => mine g.node) r').2 := by
  induction groups generalizing r r' with
  | nil => exact h
  | cons g groups ih =>
    have hg := hreg g List.mem_cons_self
    have hgown := hown g List.mem_cons_self
    obtain ⟨hacc, hafter, -, -⟩ := applyRule_spec (anyValue rule) hr hg
    have hreg' : ∀ g' ∈ groups, ∀ m ∈ g'.members,
        (Resolution.applyRule rule r g).2.partition.Registered m.port := fun g' hg' m hm =>
      (hafter.fills.registered_iff _).mpr (hreg g' (List.mem_cons_of_mem _ hg') m hm)
    have hown' := fun g' hg' => hown g' (List.mem_cons_of_mem _ hg')
    rw [sweep_cons]
    cases hmine : mine g.node with
    | true =>
      rw [List.filter_cons_of_pos (p := fun g : BroadcastGroup => mine g.node) hmine, sweep_cons]
      exact ih (h.applyRule hrule hg hgown hmine) hacc hreg' hown'
    | false =>
      rw [List.filter_cons_of_neg (p := fun g : BroadcastGroup => mine g.node) (by simp [hmine])]
      exact ih (h.applyRule_outside rule hg hgown hmine) hacc hreg' hown'

end Rules

end Restricts

section Resting

variable {rule : GroupRule} {groups : List BroadcastGroup} {r : Resolution}

theorem applyRule_of_settled {g : BroadcastGroup} (h : Settled rule r g) :
    applyRule rule r g = (false, r) := by
  unfold applyRule
  rcases h with hconf | hnone | ⟨v, hok, hmem⟩
  · rw [if_pos (Std.ExtTreeSet.mem_iff_contains.mp hconf)]
  · rw [hnone]
    exact ite_self _
  · have hopp : (g.members.findSome? fun m => (opposes r.partition v m).map fun c => (m, c)) = none :=
      List.findSome?_eq_none_iff.mpr fun m hm => by rw [(hmem m hm).2]; rfl
    have hbound : ∀ m ∈ g.members, (r.partition.value? m.port).isNone = false :=
      fun m hm => by simpa using (hmem m hm).1
    have hany : (g.members.any fun m => (r.partition.value? m.port).isNone) = false :=
      List.any_eq_false.mpr fun m hm => by simp [hbound m hm]
    rw [hok]
    simp only [settleGroup, hopp, hany, bindOpen_of_bound hbound]
    exact ite_self _

theorem sweep_of_settled (h : ∀ g ∈ groups, Settled rule r g) : sweep rule groups r = (false, r) := by
  induction groups with
  | nil => rfl
  | cons g groups ih =>
    rw [sweep_cons, applyRule_of_settled (h g List.mem_cons_self),
      ih fun g' hg' => h g' (List.mem_cons_of_mem _ hg')]
    rfl

theorem saturate_after (hr : r.Accounted)
    (hreg : ∀ g ∈ groups, ∀ m ∈ g.members, r.partition.Registered m.port) (fuel : Nat) :
    (saturate rule groups fuel r).Accounted ∧
      After (fun _ => True) r (saturate rule groups fuel r) := by
  induction fuel generalizing r with
  | zero => exact ⟨hr, .refl hr⟩
  | succ fuel ih =>
    obtain ⟨hacc, hafter, -, -⟩ := sweep_spec (anyValue rule) hr hreg
    simp only [saturate]
    split
    · obtain ⟨hacc', hafter'⟩ := ih hacc fun g hg m hm =>
        (hafter.fills.registered_iff _).mpr (hreg g hg m hm)
      exact ⟨hacc', hafter.trans hafter'⟩
    · exact ⟨hacc, hafter⟩

/-- Stopping at a sweep that changes nothing is no different from going on. -/
theorem saturate_eq_iterate (hr : r.Accounted)
    (hreg : ∀ g ∈ groups, ∀ m ∈ g.members, r.partition.Registered m.port) (fuel : Nat) :
    saturate rule groups fuel r = (fun r => (sweep rule groups r).2)^[fuel] r := by
  induction fuel generalizing r with
  | zero => rfl
  | succ fuel ih =>
    obtain ⟨hacc, hafter, -, hrest⟩ := sweep_spec (anyValue rule) hr hreg
    simp only [saturate, Function.iterate_succ_apply]
    split
    · exact ih hacc fun g hg m hm => (hafter.fills.registered_iff _).mpr (hreg g hg m hm)
    · next hquiet =>
      symm
      apply Function.iterate_fixed
      rw [sweep_of_settled (hrest (by simpa using hquiet)).2]

end Resting

theorem Restricts.saturate {mine : NodeId → Bool} {r r' : Resolution} {rule rule' : GroupRule}
    {groups : List BroadcastGroup} (hrule : AgreeOn mine rule rule') (h : Restricts mine r r')
    (hr : r.Accounted) (hr' : r'.Accounted)
    (hreg : ∀ g ∈ groups, ∀ m ∈ g.members, r.partition.Registered m.port)
    (hown : ∀ g ∈ groups, ∀ m ∈ g.members, m.port.node = g.node) (fuel : Nat) :
    Restricts mine (saturate rule groups fuel r)
      (saturate rule' (groups.filter fun g => mine g.node) fuel r') := by
  have hreg' : ∀ g ∈ groups.filter fun g => mine g.node, ∀ m ∈ g.members,
      r'.partition.Registered m.port := by
    intro g hg m hm
    obtain ⟨hg, hmine⟩ := List.mem_filter.mp hg
    exact (h.partition.registered_iff ((hown g hg m hm).symm ▸ hmine)).mpr (hreg g hg m hm)
  rw [saturate_eq_iterate hr hreg, saturate_eq_iterate hr' hreg']
  clear hreg' hr'
  induction fuel generalizing r r' with
  | zero => exact h
  | succ fuel ih =>
    obtain ⟨hacc, hafter, -, -⟩ := sweep_spec (anyValue rule) hr hreg
    rw [Function.iterate_succ_apply, Function.iterate_succ_apply]
    exact ih (h.sweep hrule hr hreg hown) hacc
      fun g hg m hm => (hafter.fills.registered_iff _).mpr (hreg g hg m hm)

section Reports

variable {rule : GroupRule} {groups : List BroadcastGroup} {r₀ r : Resolution}

/-- Nothing has been reported since, or the node of some group has. -/
private def ReportsGroups (groups : List BroadcastGroup) (r₀ r : Resolution) : Prop :=
  r.diagnostics = r₀.diagnostics ∨ ∃ g ∈ groups, g.node ∈ r.conflicted

private theorem ReportsGroups.applyRule (h : ReportsGroups groups r₀ r) {g : BroadcastGroup}
    (hg : g ∈ groups) : ReportsGroups groups r₀ (applyRule rule r g).2 := by
  unfold Resolution.applyRule
  split
  · exact h
  · split
    · exact h
    · exact .inr ⟨g, hg, mem_conflicted_report r g _⟩
    · unfold Resolution.settleGroup
      split
      · exact .inr ⟨g, hg, mem_conflicted_report r g _⟩
      · exact h

private theorem ReportsGroups.sweep (h : ReportsGroups groups r₀ r) {some : List BroadcastGroup}
    (hsome : ∀ g ∈ some, g ∈ groups) : ReportsGroups groups r₀ (sweep rule some r).2 := by
  induction some generalizing r with
  | nil => exact h
  | cons g some ih =>
    rw [sweep_cons]
    exact ih (h.applyRule (hsome g List.mem_cons_self)) fun g' hg' => hsome g' (List.mem_cons_of_mem _ hg')

private theorem ReportsGroups.saturate (h : ReportsGroups groups r₀ r) (fuel : Nat) :
    ReportsGroups groups r₀ (saturate rule groups fuel r) := by
  induction fuel generalizing r with
  | zero => exact h
  | succ fuel ih =>
    simp only [Resolution.saturate]
    split
    · exact ih (h.sweep fun _ => id)
    · exact h.sweep fun _ => id

end Reports

end Resolution

theorem resolved_diagnostics_eq_nil_iff {s : ConstraintSet} (h : s.Closed) :
    (resolved s).diagnostics = [] ↔
      (imposed s).diagnostics = [] ∧ ∀ g ∈ s.broadcastGroups, g.node ∉ (resolved s).conflicted := by
  have hreports : Resolution.ReportsGroups s.broadcastGroups (imposed s) (resolved s) :=
    .saturate (.saturate (.inl rfl) _) _
  constructor
  · intro hnil
    refine ⟨List.prefix_nil.mp (hnil ▸ imposed_diagnostics_prefix h), fun g _ hg => ?_⟩
    obtain ⟨d, hd, -⟩ := (resolved_spec h).1.reported g.node hg
    simp [hnil] at hd
  · rintro ⟨hnil, hnone⟩
    rcases hreports with heq | ⟨g, hg, hconf⟩
    · rw [heq, hnil]
    · exact absurd hconf (hnone g hg)

end CardinalityInference

end PatchTyping
