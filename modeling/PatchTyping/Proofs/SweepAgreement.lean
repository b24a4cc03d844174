import PatchTyping.Proofs.BroadcastLaw

/-!
# Sweeps over partitions that are alike

What a sweep does depends on the values of the members of its groups and on nothing else. Two partitions
that are alike on those ports, by classes and by values, are swept in the same way and stay alike,
whatever other ports they have.
-/

namespace PatchTyping

namespace CardinalityInference

open ValuedPartition

/-- On a set of ports two partitions have the same classes and the same values. -/
structure Alike (P : PortKey → Prop) (p q : PortPartition) : Prop where
  left : p.WellFormed
  right : q.WellFormed
  registered : ∀ k, P k → p.Registered k ∧ q.Registered k
  same_iff : ∀ a b, P a → P b → (q.Same a b ↔ p.Same a b)
  value_eq : ∀ k, P k → q.value? k = p.value? k

namespace Alike

variable {P : PortKey → Prop} {p q : PortPartition}

theorem symm (h : Alike P p q) : Alike P q p where
  left := h.right
  right := h.left
  registered k hk := (h.registered k hk).symm
  same_iff a b ha hb := (h.same_iff a b ha hb).symm
  value_eq k hk := (h.value_eq k hk).symm

theorem assign (h : Alike P p q) {k : PortKey} (hk : P k) (hv : p.value? k = none)
    (v : Cardinality) : Alike P (p.assign k v).2 (q.assign k v).2 := by
  obtain ⟨hp, hq⟩ := h.registered k hk
  obtain ⟨hfill, hin, hout⟩ := assign_open h.left hp hv v
  obtain ⟨hfill', hin', hout'⟩ := assign_open h.right hq ((h.value_eq k hk).trans hv) v
  refine ⟨hfill.wellFormed, hfill'.wellFormed, fun l hl => ?_, fun a b ha hb => ?_, fun l hl => ?_⟩
  · rw [hfill.registered_iff, hfill'.registered_iff]
    exact h.registered l hl
  · rw [hfill.same_iff, hfill'.same_iff]
    exact h.same_iff a b ha hb
  · by_cases hlk : p.Same l k
    · rw [hin l hlk, hin' l ((h.same_iff l k hl hk).mpr hlk)]
    · rw [hout l hlk, hout' l (mt (h.same_iff l k hl hk).mp hlk), h.value_eq l hl]

theorem bindOpen (h : Alike P p q) (v : Cardinality) {members : List ZipMember}
    (hm : ∀ m ∈ members, P m.port) :
    Alike P (Resolution.bindOpen p v members) (Resolution.bindOpen q v members) := by
  induction members generalizing p q with
  | nil => exact h
  | cons m ms ih =>
    have hport := hm m List.mem_cons_self
    have hms : ∀ m' ∈ ms, P m'.port := fun m' hm' => hm m' (List.mem_cons_of_mem _ hm')
    simp only [Resolution.bindOpen, List.foldl_cons, h.value_eq m.port hport]
    cases hv : p.value? m.port with
    | none => exact ih (h.assign hport hv v) hms
    | some c => exact ih h hms

end Alike

/-- A rule that looks only at the values of the members of its group. -/
def LooksAtMembers (rule : GroupRule) : Prop :=
  ∀ (p q : PortPartition) (g : BroadcastGroup),
    (∀ m ∈ g.members, q.value? m.port = p.value? m.port) → rule q g = rule p g

theorem domains_congr {p q : PortPartition} {g : BroadcastGroup}
    (h : ∀ m ∈ g.members, q.value? m.port = p.value? m.port) : domains q g = domains p g := by
  have hlist : (g.members.filterMap fun m => (q.value? m.port).bind (·.domain?)) =
      g.members.filterMap fun m => (p.value? m.port).bind (·.domain?) := by
    apply List.filterMap_congr
    intro m hm
    rw [h m hm]
  rw [domains, domains, hlist]

theorem spreadMany_looksAtMembers : LooksAtMembers spreadMany := by
  intro p q g h
  rw [spreadMany, spreadMany, domains_congr h]

theorem commitOne_looksAtMembers (pending : Std.ExtTreeSet PortKey) :
    LooksAtMembers (commitOne pending) := by
  intro p q g h
  have hany : (g.members.any fun m =>
        pending.contains m.port || decide (q.value? m.port = some .one)) =
      g.members.any fun m =>
        pending.contains m.port || decide (p.value? m.port = some .one) := by
    rw [Bool.eq_iff_iff, List.any_eq_true, List.any_eq_true]
    refine exists_congr fun m => and_congr_right fun hm => ?_
    rw [h m hm]
  rw [commitOne, commitOne, domains_congr h, hany]

namespace Resolution

/-- The same has been reported, and the partitions are alike. -/
structure Alike (P : PortKey → Prop) (r r' : Resolution) : Prop where
  partition : CardinalityInference.Alike P r.partition r'.partition
  conflicted : r'.conflicted = r.conflicted
  diagnostics : r'.diagnostics = r.diagnostics

namespace Alike

variable {P : PortKey → Prop} {r r' : Resolution}

theorem report (h : Alike P r r') (g : BroadcastGroup) (message : String) :
    Alike P (r.report g message) (r'.report g message) :=
  ⟨h.partition, by simp [Resolution.report, h.conflicted], by simp [Resolution.report, h.diagnostics]⟩

theorem settleGroup (h : Alike P r r') {g : BroadcastGroup} (hg : ∀ m ∈ g.members, P m.port)
    (v : Cardinality) :
    (r'.settleGroup g v).1 = (r.settleGroup g v).1 ∧
      Alike P (r.settleGroup g v).2 (r'.settleGroup g v).2 := by
  have hval : ∀ m ∈ g.members, r'.partition.value? m.port = r.partition.value? m.port :=
    fun m hm => h.partition.value_eq m.port (hg m hm)
  have hopp : (g.members.findSome? fun m => (opposes r'.partition v m).map fun c => (m, c)) =
      g.members.findSome? fun m => (opposes r.partition v m).map fun c => (m, c) := by
    rw [← List.head?_filterMap, ← List.head?_filterMap]
    apply congrArg List.head?
    apply List.filterMap_congr
    intro m hm
    rw [opposes, opposes, hval m hm]
  have hany : (g.members.any fun m => (r'.partition.value? m.port).isNone) =
      g.members.any fun m => (r.partition.value? m.port).isNone := by
    rw [Bool.eq_iff_iff, List.any_eq_true, List.any_eq_true]
    refine exists_congr fun m => and_congr_right fun hm => ?_
    rw [hval m hm]
  unfold Resolution.settleGroup
  rw [hopp]
  split
  · exact ⟨rfl, h.report g _⟩
  · exact ⟨hany, h.partition.bindOpen v hg, h.conflicted, h.diagnostics⟩

variable {rule : GroupRule} (hrule : LooksAtMembers rule)
include hrule

theorem applyRule (h : Alike P r r') {g : BroadcastGroup} (hg : ∀ m ∈ g.members, P m.port) :
    (applyRule rule r' g).1 = (applyRule rule r g).1 ∧
      Alike P (applyRule rule r g).2 (applyRule rule r' g).2 := by
  have hsame : rule r'.partition g = rule r.partition g := by
    apply hrule
    exact fun m hm => h.partition.value_eq m.port (hg m hm)
  unfold Resolution.applyRule
  rw [h.conflicted, hsame]
  split
  · exact ⟨rfl, h⟩
  · split
    · exact ⟨rfl, h⟩
    · exact ⟨rfl, h.report g _⟩
    · exact h.settleGroup hg _

theorem sweep {groups : List BroadcastGroup} (h : Alike P r r')
    (hg : ∀ g ∈ groups, ∀ m ∈ g.members, P m.port) :
    (sweep rule groups r').1 = (sweep rule groups r).1 ∧
      Alike P (sweep rule groups r).2 (sweep rule groups r').2 := by
  induction groups generalizing r r' with
  | nil => exact ⟨rfl, h⟩
  | cons g groups ih =>
    obtain ⟨hflag, hone⟩ := h.applyRule hrule (hg g List.mem_cons_self)
    obtain ⟨hflag', hrest⟩ := ih hone fun g' hg' => hg g' (List.mem_cons_of_mem _ hg')
    rw [sweep_cons, sweep_cons, hflag, hflag']
    exact ⟨rfl, hrest⟩

theorem saturate {groups : List BroadcastGroup} (h : Alike P r r')
    (hg : ∀ g ∈ groups, ∀ m ∈ g.members, P m.port) (fuel : Nat) :
    Alike P (saturate rule groups fuel r) (saturate rule groups fuel r') := by
  induction fuel generalizing r r' with
  | zero => exact h
  | succ fuel ih =>
    obtain ⟨hflag, hnext⟩ := h.sweep hrule hg
    simp only [Resolution.saturate, hflag]
    split
    · exact ih hnext
    · exact hnext

end Alike

end Resolution

section Demands

variable {s s' : ConstraintSet} (h : s.Closed) (hports : s'.ports = s.ports)
  (hdemands : ∀ d, d ∈ s'.demands ↔ d ∈ s.demands)
  (ha : Demand.Accepted s.demands (start s.ports))
include h hports hdemands ha

/-- Demands that can be met in one order can be met in every other. -/
theorem demands_accepted_of_mem_iff : Demand.Accepted s'.demands (start s'.ports) := by
  obtain ⟨hpres, -⟩ := imposed_presents h ha
  obtain ⟨σ, hσ, -⟩ := hpres.exists_satisfies .zero
  obtain ⟨hstart, hreg⟩ := start_presents s'.ports
  refine hstart.accepted (σ := σ) (fun d hd k hk => ?_) ⟨fun hab => ?_, fun hk => ?_⟩
  · exact (hreg k).mpr (hports ▸ h.demand_keys d ((hdemands d).mp hd) k hk)
  · exact hσ.equation (hab.imp_right (hdemands _).mp)
  · exact hσ.value (hk.imp_right (hdemands _).mp)

/-- The order of demands that can be met makes no difference to classes and values. -/
theorem imposed_alike_of_mem_iff (h' : s'.Closed) :
    Alike (· ∈ s.ports) (imposed s).partition (imposed s').partition := by
  obtain ⟨hpres, hreg⟩ := imposed_presents h ha
  obtain ⟨hpres', hreg'⟩ :=
    imposed_presents h' (demands_accepted_of_mem_iff h hports hdemands ha)
  simp only [hdemands] at hpres'
  have hregs : ∀ k ∈ s.ports,
      (imposed s).partition.Registered k ∧ (imposed s').partition.Registered k :=
    fun k hk => ⟨(hreg k).mpr hk, (hreg' k).mpr (hports ▸ hk)⟩
  refine ⟨hpres.wellFormed, hpres'.wellFormed, hregs, fun a b hka hkb => ?_, fun k hk => ?_⟩
  · rw [hpres.same_iff_eqvGen (hregs a hka).1, hpres'.same_iff_eqvGen (hregs a hka).2]
  · apply Option.ext
    intro c
    rw [hpres.value_iff, hpres'.value_iff]

end Demands

section Values

variable {ports : PortTable} {p p' : PortPartition}
  (h : ∀ k ∈ ports, p'.value? k = p.value? k)
include h

theorem variableValues_congr : variableValues ports p' = variableValues ports p := by
  rw [variableValues, variableValues]
  refine congrArg (Std.ExtTreeMap.ofList · compare) (List.filterMap_congr ?_)
  rintro ⟨k, info⟩ hk
  have hk := Std.ExtTreeMap.mem_toList_iff_getElem?_eq_some.mp hk
  simp only [h k (OrderedMaps.mem_iff_exists.mpr ⟨_, hk⟩)]

theorem changedValues_congr : changedValues ports p' = changedValues ports p := by
  apply Std.ExtTreeMap.ext_getElem?
  intro k
  rw [changedValues, changedValues, Std.ExtTreeMap.getElem?_filterMap',
    Std.ExtTreeMap.getElem?_filterMap']
  cases hk : ports[k]? with
  | none => rfl
  | some info => simp only [h k (OrderedMaps.mem_iff_exists.mpr ⟨_, hk⟩)]

end Values

/-- Constraints with the same groups and the same ports held back are resolved alike, if they are alike
before the groups are looked at. -/
theorem resolved_alike {s s' : ConstraintSet} (h : s.Closed) (h' : s'.Closed)
    (hgroups : s'.broadcastGroups = s.broadcastGroups) (hpending : s'.pendingPorts = s.pendingPorts)
    (himposed : Resolution.Alike (· ∈ s.ports) (imposed s) (imposed s')) :
    Resolution.Alike (· ∈ s.ports) (resolved s) (resolved s') := by
  have hmembers : ∀ b ∈ s.broadcastGroups, ∀ m ∈ b.members, m.port ∈ s.ports :=
    fun b hb m hm => h.member_mem _ _ (ConstraintSet.broadcastGroups_iff.mp hb) m hm
  have hleft : s.ports.size < s.ports.size + s'.ports.size + 1 := by omega
  have hright : s'.ports.size < s.ports.size + s'.ports.size + 1 := by omega
  rw [resolved_eq_saturate h hleft, resolved_eq_saturate h' hright, hgroups, hpending]
  have hmany := himposed.saturate spreadMany_looksAtMembers hmembers (s.ports.size + s'.ports.size + 1)
  exact hmany.saturate (commitOne_looksAtMembers _) hmembers _

end CardinalityInference

end PatchTyping
