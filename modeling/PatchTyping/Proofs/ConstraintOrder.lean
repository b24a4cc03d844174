import PatchTyping.Proofs.SweepAgreement

/-!
# The order of constraints

Groups are swept in the order in which they are listed, and a group sees what the ones before it have
given. Still the outcome is the same in every order, as long as there is no conflict: whatever a group is
given on the way, it has in the settled state that another order ends with. So each of two orders stays
below the other. The order shows only in the numbers of slots, hence in the order in which open classes
are reported.
-/

namespace PatchTyping

open ValuedPartition CardinalityInference

namespace CardinalityInference

/-- On a set of ports the first partition has the classes of the second and some of its values. The values
it lacks satisfy a predicate. -/
structure Below (Q : Cardinality → Prop) (P : PortKey → Prop) (p q : PortPartition) : Prop where
  wellFormed : p.WellFormed
  registered : ∀ k, P k → p.Registered k
  same_iff : ∀ a b, P a → P b → (q.Same a b ↔ p.Same a b)
  value : ∀ {k c}, P k → p.value? k = some c → q.value? k = some c
  rest : ∀ {k c}, P k → q.value? k = some c → p.value? k = some c ∨ Q c

namespace Below

variable {Q : Cardinality → Prop} {P : PortKey → Prop} {p q : PortPartition}

theorem of_fills {p' : PortPartition} (h : Alike P p p') (hfill : Fills p q)
    (hnew : ∀ k c, q.value? k = some c → p.value? k = some c ∨ Q c) : Below Q P p' q where
  wellFormed := h.right
  registered k hk := (h.registered k hk).2
  same_iff a b ha hb := (hfill.same_iff a b).trans (h.same_iff a b ha hb).symm
  value {k _} hk hv := hfill.value ((h.value_eq k hk).symm.trans hv)
  rest {k c} hk hv := (hnew k c hv).imp_left (h.value_eq k hk).trans

theorem assign (h : Below Q P p q) {k : PortKey} (hk : P k) (hopen : p.value? k = none)
    {v : Cardinality} (hv : q.value? k = some v) : Below Q P (p.assign k v).2 q := by
  obtain ⟨hfill, hin, hout⟩ := assign_open h.wellFormed (h.registered k hk) hopen v
  refine ⟨hfill.wellFormed, fun l hl => (hfill.registered_iff l).mpr (h.registered l hl),
    fun a b ha hb => (h.same_iff a b ha hb).trans (hfill.same_iff a b).symm, fun {l c} hl hc => ?_,
    fun hl hc => (h.rest hl hc).imp_left hfill.value⟩
  by_cases hlk : p.Same l k
  · rw [hin l hlk] at hc
    rw [((h.same_iff l k hl hk).mpr hlk).value?_eq, hv, hc]
  · rw [hout l hlk] at hc
    exact h.value hl hc

theorem bindOpen (h : Below Q P p q) {v : Cardinality} {members : List ZipMember}
    (hports : ∀ m ∈ members, P m.port)
    (hopen : ∀ m ∈ members, p.value? m.port = none → q.value? m.port = some v) :
    Below Q P (Resolution.bindOpen p v members) q := by
  induction members generalizing p with
  | nil => exact h
  | cons m ms ih =>
    obtain ⟨hport, hports⟩ := List.forall_mem_cons.mp hports
    obtain ⟨hm, hms⟩ := List.forall_mem_cons.mp hopen
    simp only [Resolution.bindOpen, List.foldl_cons]
    cases hv : p.value? m.port with
    | some c => exact ih h hports hms
    | none =>
      refine ih (h.assign hport hv (hm hv)) hports fun m' hm' hnone => hms m' hm' ?_
      obtain ⟨hfill, -⟩ := assign_open h.wellFormed (h.registered _ hport) hv v
      cases hv' : p.value? m'.port with
      | none => rfl
      | some c => cases hnone.symm.trans (hfill.value hv')

/-- A member that does not oppose a value in the end does not oppose it on the way. -/
theorem opposes_eq_none (h : Below Q P p q) {m : ZipMember} (hm : P m.port) {v : Cardinality}
    (hopp : opposes q v m = none) : opposes p v m = none := by
  cases hv : p.value? m.port with
  | none => simp [opposes, hv]
  | some c => exact (opposes_eq_none_iff hv).mpr ((opposes_eq_none_iff (h.value hm hv)).mp hopp)

end Below

/-- On the way to a partition that a rule does not refuse, the rule does not apply yet or gives what it
gives there. What a member gets by the rule is the value of the group. -/
structure Steady (Q : Cardinality → Prop) (rule : GroupRule) : Prop where
  follows : ∀ {P p q g}, Below Q P p q → (∀ m ∈ g.members, P m.port) →
    (∀ e, rule q g ≠ some (.error e)) → rule p g = none ∨ rule p g = rule q g
  value : ∀ {q g v}, rule q g = some (.ok v) → ∀ m ∈ g.members, ∀ c,
    q.value? m.port = some c → Q c → c = v

theorem domains_nodup (p : PortPartition) (g : BroadcastGroup) : (domains p g).Nodup := by
  have hdistinct := Std.ExtTreeSet.distinct_toList (t := Std.ExtTreeSet.ofList (g.members.filterMap
    fun m => (p.value? m.port).bind (·.domain?)))
  refine List.Pairwise.imp (fun hne heq => hne ?_) hdistinct
  rw [heq, Std.ReflOrd.compare_self]

theorem spreadMany_steady : Steady (fun c => ∃ d, c = .many d) spreadMany where
  follows {P p q g} h hports hclean := by
    have hsub : ∀ d ∈ domains p g, d ∈ domains q g := by
      intro d hd
      obtain ⟨m, hm, hv⟩ := mem_domains_iff.mp hd
      exact mem_domains_iff.mpr ⟨m, hm, h.value (hports m hm) hv⟩
    have hnodup := domains_nodup p g
    unfold spreadMany at hclean ⊢
    cases hq : domains q g with
    | nil =>
      rw [hq] at hsub
      rw [List.eq_nil_iff_forall_not_mem.mpr fun d hd => List.not_mem_nil (hsub d hd)]
      exact .inl rfl
    | cons d ds =>
      cases ds with
      | cons e ds =>
        rw [hq] at hclean
        exact absurd rfl (hclean _)
      | nil =>
        rw [hq] at hsub
        cases hp : domains p g with
        | nil => exact .inl rfl
        | cons d' ds =>
          rw [hp] at hsub hnodup
          have hd' : d' = d := by simpa using hsub d' List.mem_cons_self
          cases ds with
          | nil => exact .inr (by rw [hd'])
          | cons e ds =>
            have he : e = d := by simpa using hsub e (by simp)
            simp [hd', he] at hnodup
  value {q g v} hrule m hm c hc := by
    rintro ⟨d', rfl⟩
    obtain ⟨d, rfl, hd⟩ := spreadMany_value hrule
    have hmem := mem_domains_iff.mpr ⟨m, hm, hc⟩
    rw [hd, List.mem_singleton] at hmem
    rw [hmem]

theorem commitOne_steady (pending : Std.ExtTreeSet PortKey) :
    Steady (· = .one) (commitOne pending) where
  follows {P p q g} h hports _ := by
    by_cases hnone : commitOne pending p g = none
    · exact .inl hnone
    · right
      have hdomains : domains p g = [] := by
        unfold commitOne at hnone
        by_contra hne
        simp [hne] at hnone
      have hdomains' : domains q g = [] := by
        refine List.eq_nil_iff_forall_not_mem.mpr fun d hd => ?_
        obtain ⟨m, hm, hv⟩ := mem_domains_iff.mp hd
        rcases h.rest (hports m hm) hv with hv | hv
        · have hd := mem_domains_iff.mpr ⟨m, hm, hv⟩
          rw [hdomains] at hd
          cases hd
        · cases hv
      have hnone' : commitOne pending q g ≠ none := by
        obtain ⟨m, hm, hone⟩ := (commitOne_ne_none_iff pending hdomains).mp hnone
        rw [commitOne_ne_none_iff pending hdomains']
        exact ⟨m, hm, hone.imp_right (h.value (hports m hm))⟩
      have hone : ∀ p, commitOne pending p g ≠ none → commitOne pending p g = some (.ok .one) := by
        intro p hp
        unfold commitOne at hp ⊢
        split
        · rfl
        · next hif => exact absurd (if_neg hif) hp
      rw [hone p hnone, hone q hnone']
  value hrule m hm c _ hc := by rw [hc, commitOne_value hrule]

namespace Resolution

/-- Nothing has been reported, and the partition is below that of another resolution. -/
structure HeadsFor (Q : Cardinality → Prop) (P : PortKey → Prop) (r goal : Resolution) : Prop where
  below : Below Q P r.partition goal.partition
  diagnostics : r.diagnostics = []
  conflicted : r.conflicted = ∅

section Sweeps

variable {Q : Cardinality → Prop} {P : PortKey → Prop} {rule : GroupRule} {r goal : Resolution}
  (hrule : Steady Q rule) (hgoal : goal.conflicted = ∅)
include hrule hgoal

theorem HeadsFor.applyRule (h : HeadsFor Q P r goal) {g : BroadcastGroup}
    (hports : ∀ m ∈ g.members, P m.port) (hsettled : Settled rule goal g) :
    HeadsFor Q P (applyRule rule r g).2 goal := by
  have hfree : r.conflicted.contains g.node = false := by simp [h.conflicted]
  unfold Resolution.applyRule
  rw [hfree, if_neg Bool.false_ne_true]
  rcases hsettled with hc | hnone | ⟨v, hv, hall⟩
  · simp [hgoal] at hc
  · have hidle := hrule.follows h.below hports (by simp [hnone])
    rw [hnone, or_self] at hidle
    rw [hidle]
    exact h
  · rcases hrule.follows h.below hports (by simp [hv]) with hidle | hsame
    · rw [hidle]
      exact h
    · rw [hsame, hv]
      have hopp : (g.members.findSome? fun m =>
          (opposes r.partition v m).map fun c => (m, c)) = none := by
        refine List.findSome?_eq_none_iff.mpr fun m hm => ?_
        rw [h.below.opposes_eq_none (hports m hm) (hall m hm).2, Option.map_none]
      simp only [settleGroup, hopp]
      refine ⟨h.below.bindOpen hports fun m hm hopen => ?_, h.diagnostics, h.conflicted⟩
      obtain ⟨c, hc⟩ := Option.isSome_iff_exists.mp (hall m hm).1
      rcases h.below.rest (hports m hm) hc with hclosed | hnew
      · rw [hopen] at hclosed
        cases hclosed
      · rw [hc, hrule.value hv m hm c hc hnew]

variable {groups : List BroadcastGroup} (hports : ∀ g ∈ groups, ∀ m ∈ g.members, P m.port)
  (hsettled : ∀ g ∈ groups, Settled rule goal g)
include hports hsettled

theorem HeadsFor.sweep (h : HeadsFor Q P r goal) : HeadsFor Q P (sweep rule groups r).2 goal := by
  induction groups generalizing r with
  | nil => exact h
  | cons g groups ih =>
    obtain ⟨hport, hports⟩ := List.forall_mem_cons.mp hports
    obtain ⟨hset, hsettled⟩ := List.forall_mem_cons.mp hsettled
    rw [sweep_cons]
    exact ih hports hsettled (h.applyRule hrule hgoal hport hset)

theorem HeadsFor.saturate (h : HeadsFor Q P r goal) (fuel : Nat) :
    HeadsFor Q P (saturate rule groups fuel r) goal := by
  induction fuel generalizing r with
  | zero => exact h
  | succ fuel ih =>
    have hnext := h.sweep hrule hgoal hports hsettled
    simp only [Resolution.saturate]
    split
    · exact ih hnext
    · exact hnext

end Sweeps

theorem Accounted.conflicted_eq_empty {r : Resolution} (h : r.Accounted) (hr : r.diagnostics = []) :
    r.conflicted = ∅ := by
  apply Std.ExtTreeSet.ext_mem
  intro n
  refine ⟨fun hn => ?_, fun hn => absurd hn (by simp)⟩
  obtain ⟨d, hd, -⟩ := h.reported n hn
  rw [hr] at hd
  cases hd

/-- What sweeping to the end achieves. -/
structure Saturates (Q : Cardinality → Prop) (rule : GroupRule) (groups : List BroadcastGroup)
    (r goal : Resolution) : Prop where
  accounted : goal.Accounted
  after : After Q r goal
  settled : ∀ g ∈ groups, Settled rule goal g

/-- A resolution that is like one where sweeping starts heads for the end of that sweeping. -/
theorem Saturates.headsFor {Q : Cardinality → Prop} {P : PortKey → Prop} {rule : GroupRule}
    {groups : List BroadcastGroup} {r r' goal : Resolution} (h : Saturates Q rule groups r goal)
    (hpartition : CardinalityInference.Alike P r.partition r'.partition)
    (hdiagnostics : r'.diagnostics = []) (hconflicted : r'.conflicted = ∅) : HeadsFor Q P r' goal where
  below := .of_fills hpartition h.after.fills h.after.new
  diagnostics := hdiagnostics
  conflicted := hconflicted

/-- Sweeping the same groups in two orders ends alike, if one of them ends without a report. -/
theorem Alike.saturate_of_same_groups {Q : Cardinality → Prop} {P : PortKey → Prop} {rule : GroupRule}
    (hrule : Steady Q rule) {groups groups' : List BroadcastGroup}
    (hgroups : ∀ g, g ∈ groups' ↔ g ∈ groups) (hports : ∀ g ∈ groups, ∀ m ∈ g.members, P m.port)
    {r r' : Resolution} (h : Alike P r r') {fuel : Nat}
    (hleft : Saturates Q rule groups r (r.saturate rule groups fuel))
    (hright : Saturates Q rule groups' r' (r'.saturate rule groups' fuel))
    (hclean : (r.saturate rule groups fuel).diagnostics = []) :
    Alike P (r.saturate rule groups fuel) (r'.saturate rule groups' fuel) := by
  have hdiagnostics : r.diagnostics = [] :=
    List.prefix_nil.mp (hclean ▸ hleft.after.diagnostics)
  have hempty := hleft.accounted.conflicted_eq_empty hclean
  have hconflicted : r.conflicted = ∅ := by
    apply Std.ExtTreeSet.ext_mem
    intro n
    refine ⟨fun hn => ?_, fun hn => absurd hn (by simp)⟩
    exact hempty ▸ hleft.after.conflicted n hn
  have hto : HeadsFor Q P (r'.saturate rule groups' fuel) (r.saturate rule groups fuel) := by
    refine HeadsFor.saturate hrule hempty (fun g hg => hports g ((hgroups g).mp hg))
      (fun g hg => hleft.settled g ((hgroups g).mp hg)) (hleft.headsFor h.partition ?_ ?_) fuel
    · exact h.diagnostics.trans hdiagnostics
    · exact h.conflicted.trans hconflicted
  have hfro : HeadsFor Q P (r.saturate rule groups fuel) (r'.saturate rule groups' fuel) := by
    refine HeadsFor.saturate hrule hto.conflicted hports
      (fun g hg => hright.settled g ((hgroups g).mpr hg))
      (hright.headsFor h.partition.symm hdiagnostics hconflicted) fuel
  refine ⟨⟨hfro.below.wellFormed, hto.below.wellFormed, fun k hk => ?_, hfro.below.same_iff,
    fun k hk => ?_⟩, hto.conflicted.trans hempty.symm, hto.diagnostics.trans hclean.symm⟩
  · exact ⟨hfro.below.registered k hk, hto.below.registered k hk⟩
  · apply Option.ext
    intro c
    exact ⟨hto.below.value hk, hfro.below.value hk⟩

end Resolution

section Reordered

variable {s s' : ConstraintSet} (h : s.Closed) (hports : s'.ports = s.ports)
  (hmem : ∀ c, c ∈ s'.cardinality ↔ c ∈ s.cardinality)
include hports hmem

theorem pendingPorts_eq_of_mem_iff : s'.pendingPorts = s.pendingPorts := by
  apply Std.ExtTreeSet.ext_contains
  intro k
  rw [Bool.eq_iff_iff, ConstraintSet.mem_pendingPorts_iff, ConstraintSet.mem_pendingPorts_iff]
  simp only [hmem, ConstraintSet.heldBack, hports]

theorem demands_mem_iff (d : Demand PortKey Cardinality) : d ∈ s'.demands ↔ d ∈ s.demands := by
  cases d with
  | equal a b => simp only [ConstraintSet.equal_mem_demands_iff, hmem]
  | holds k c =>
    simp only [ConstraintSet.holds_mem_demands_iff, hmem, ConstraintSet.heldBack, hports]

include h

theorem closed_of_mem_iff : s'.Closed where
  equal_mem a b origin hab := by
    rw [hports]
    exact h.equal_mem a b origin ((hmem _).mp hab)
  fixed_mem k c hk := by
    rw [hports]
    exact h.fixed_mem k c ((hmem _).mp hk)
  member_mem n ms hg := by
    rw [hports]
    exact h.member_mem n ms ((hmem _).mp hg)
  zipMember k info hinfo hzip := by
    rw [hports] at hinfo
    simpa only [hmem] using h.zipMember k info hinfo hzip

/-- Constraints in another order are resolved alike, if they can be resolved without a conflict. -/
theorem resolved_alike_of_mem_iff (hclean : (resolved s).diagnostics = []) :
    Resolution.Alike (· ∈ s.ports) (resolved s) (resolved s') := by
  have h' := closed_of_mem_iff h hports hmem
  obtain ⟨hacc, hafter, hsettled⟩ := spreadOut_spec h
  obtain ⟨hacc', hafter', hsettled'⟩ := spreadOut_spec h'
  obtain ⟨hres, hresAfter, hresSettled⟩ := resolved_spec h
  obtain ⟨hres', hresAfter', hresSettled'⟩ := resolved_spec h'
  have hpending := pendingPorts_eq_of_mem_iff hports hmem
  have hgroups : ∀ g, g ∈ s'.broadcastGroups ↔ g ∈ s.broadcastGroups := fun g => by
    rw [ConstraintSet.broadcastGroups_iff, ConstraintSet.broadcastGroups_iff, hmem]
  have hmembers : ∀ g ∈ s.broadcastGroups, ∀ m ∈ g.members, m.port ∈ s.ports :=
    fun g hg => h.member_mem _ _ (ConstraintSet.broadcastGroups_iff.mp hg)
  have himposedClean : (imposed s).diagnostics = [] :=
    List.prefix_nil.mp (hclean ▸ imposed_diagnostics_prefix h)
  have haccepted := imposed_diagnostics_eq_nil_iff.mp himposedClean
  have himposed : Resolution.Alike (· ∈ s.ports) (imposed s) (imposed s') := by
    refine ⟨imposed_alike_of_mem_iff h hports (demands_mem_iff hports hmem) haccepted h', rfl, ?_⟩
    rw [himposedClean, imposed_diagnostics_eq_nil_iff]
    exact demands_accepted_of_mem_iff h hports (demands_mem_iff hports hmem) haccepted
  have hspread : Resolution.Alike (· ∈ s.ports) (spreadOut s) (spreadOut s') := by
    unfold spreadOut at hacc' hafter' hsettled' ⊢
    rw [hports] at hacc' hafter' hsettled' ⊢
    exact himposed.saturate_of_same_groups spreadMany_steady hgroups hmembers
      ⟨hacc, hafter, hsettled⟩ ⟨hacc', hafter', hsettled'⟩
      (List.prefix_nil.mp (hclean ▸ hresAfter.diagnostics))
  have hone (s : ConstraintSet) : resolved s =
      (spreadOut s).saturate (commitOne s.pendingPorts) s.broadcastGroups (s.ports.size + 1) := rfl
  rw [hone] at hclean hres hres' hresAfter hresAfter' hresSettled hresSettled' ⊢
  rw [hone s']
  rw [hports, hpending] at hres' hresAfter' hresSettled' ⊢
  exact hspread.saturate_of_same_groups (commitOne_steady _) hgroups hmembers
    ⟨hres, hresAfter, hresSettled⟩ ⟨hres', hresAfter', hresSettled'⟩ hclean

end Reordered

/-! ### Open classes -/

section OpenClasses

variable {p q : PortPartition} {ports : List PortKey}

private theorem mem_roots_iff {x : Nat} :
    x ∈ (Std.ExtTreeSet.ofList (ports.filterMap p.root?)).toList ↔ ∃ k ∈ ports, p.root? k = some x := by
  simp only [Std.ExtTreeSet.mem_toList, ← Std.ExtTreeSet.contains_iff_mem,
    Std.ExtTreeSet.contains_ofList, List.contains_eq_mem, decide_eq_true_eq, List.mem_filterMap]

theorem openClasses_nodup (p : PortPartition) (ports : List PortKey) : (openClasses p ports).Nodup := by
  have hroots := Std.ExtTreeSet.distinct_toList (t := Std.ExtTreeSet.ofList (ports.filterMap p.root?))
  refine List.Nodup.map_on (fun x hx y _ heq => ?_) (hroots.imp fun hne heq => hne ?_)
  · obtain ⟨k, hk, hkx⟩ := mem_roots_iff.mp hx
    have hmem : k ∈ ports.filter fun l => decide (p.root? l = some x) :=
      List.mem_filter.mpr ⟨hk, decide_eq_true hkx⟩
    rw [heq] at hmem
    have hky := of_decide_eq_true (List.mem_filter.mp hmem).2
    exact Option.some.inj (hkx.symm.trans hky)
  · rw [heq, Std.ReflOrd.compare_self]

theorem mem_openClasses_iff {c : List PortKey} (hreg : ∀ k ∈ ports, p.Registered k) :
    c ∈ openClasses p ports ↔
      ∃ k ∈ ports, c = ports.filter fun l => decide (p.root? l = p.root? k) := by
  simp only [openClasses, List.mem_map, mem_roots_iff]
  constructor
  · rintro ⟨x, ⟨k, hk, hkx⟩, rfl⟩
    exact ⟨k, hk, by rw [hkx]⟩
  · rintro ⟨k, hk, rfl⟩
    obtain ⟨x, hkx, -⟩ := same_self_iff.mpr (hreg k hk)
    exact ⟨x, ⟨k, hk, hkx⟩, by rw [hkx]⟩

theorem Alike.openClasses_perm {P : PortKey → Prop} (h : Alike P p q) (hports : ∀ k ∈ ports, P k) :
    (openClasses q ports).Perm (openClasses p ports) := by
  refine (List.perm_ext_iff_of_nodup (openClasses_nodup q ports) (openClasses_nodup p ports)).mpr ?_
  intro c
  rw [mem_openClasses_iff fun k hk => (h.registered k (hports k hk)).2,
    mem_openClasses_iff fun k hk => (h.registered k (hports k hk)).1]
  refine exists_congr fun k => and_congr_right fun hk => ?_
  have hclass : (ports.filter fun l => decide (q.root? l = q.root? k)) =
      ports.filter fun l => decide (p.root? l = p.root? k) := by
    refine List.filter_congr fun l hl => decide_eq_decide.mpr ?_
    have hkreg := h.registered k (hports k hk)
    rw [← same_iff_root?_eq hkreg.1, ← same_iff_root?_eq hkreg.2]
    exact h.same_iff l k (hports l hl) (hports k hk)
  rw [hclass]

end OpenClasses

end CardinalityInference

namespace ConstraintSet

variable {s s' : ConstraintSet} (h : s.Closed) (hports : s'.ports = s.ports)
  (hmem : ∀ c, c ∈ s'.cardinality ↔ c ∈ s.cardinality) (hclean : (resolved s).diagnostics = [])
include h hports hmem hclean

theorem states_of_mem_iff : s'.solveCardinality.states = s.solveCardinality.states := by
  have halike := resolved_alike_of_mem_iff h hports hmem hclean
  apply Std.ExtTreeMap.ext_getElem?
  intro k
  apply Option.ext
  intro st
  rw [getElem?_states, getElem?_states, hports, pendingPorts_eq_of_mem_iff hports hmem]
  refine and_congr_right fun hk => ?_
  rw [stateOf, stateOf, halike.partition.value_eq k hk]

theorem diagnostics_of_mem_iff :
    s'.solveCardinality.diagnostics.Perm s.solveCardinality.diagnostics := by
  have halike := resolved_alike_of_mem_iff h hports hmem hclean
  have hempty := (resolved_spec h).1.conflicted_eq_empty hclean
  have hexcused : ∀ (t : ConstraintSet) (r : Resolution), r.conflicted = ∅ → excused t r = ∅ := by
    intro t r hr
    simp [excused, hr]
  have hdiagnostics : ∀ t : ConstraintSet, (resolved t).diagnostics = [] →
      (resolved t).conflicted = ∅ → t.solveCardinality.diagnostics =
        (openClasses (resolved t).partition (t.ports.keys.filter fun k =>
          decide (t.solveCardinality.states[k]? = some .unresolved))).map unresolvedDiagnostic := by
    intro t hnil hnone
    simp only [solveCardinality, hnil, hexcused t _ hnone, List.nil_append]
    simp
  rw [hdiagnostics s hclean hempty, hdiagnostics s' (halike.diagnostics.trans hclean)
    (halike.conflicted.trans hempty), states_of_mem_iff h hports hmem hclean, hports]
  refine (halike.partition.openClasses_perm fun k hk => ?_).map _
  exact Std.ExtTreeMap.mem_keys.mp (List.mem_filter.mp hk).1

end ConstraintSet

namespace Patch

/-- The cardinalities of every patch can be inferred from its constraints in any order. If there is no
conflict in the order in which they were extracted, there is none in another, every variable and every
port gets the same, and the same open classes are reported. -/
theorem solveCardinality_reordered (g : Patch) {catalog : Catalog} (hc : catalog.Built)
    {cs : List CardinalityConstraint} (hperm : cs.Perm (g.constraints catalog).cardinality) :
    let s := g.constraints catalog
    let r := s.solveCardinality
    let r' := ({ s with cardinality := cs } : ConstraintSet).solveCardinality
    (∀ d ∈ r.diagnostics, d.kind ≠ .cardinalityConflict) →
      (∀ d ∈ r'.diagnostics, d.kind ≠ .cardinalityConflict) ∧
      r'.vars = r.vars ∧ r'.overrides = r.overrides ∧ r'.states = r.states ∧
      r'.diagnostics.Perm r.diagnostics := by
  intro s r r' hno
  have hclosed : s.Closed := constraints_closed hc
  have hclean : (resolved s).diagnostics = [] := ConstraintSet.resolved_diagnostics_eq_nil hclosed hno
  have hmem : ∀ c, c ∈ cs ↔ c ∈ s.cardinality := fun c => hperm.mem_iff
  have halike : Resolution.Alike (· ∈ s.ports) (resolved s) (resolved { s with cardinality := cs }) :=
    resolved_alike_of_mem_iff hclosed rfl hmem hclean
  have hdiagnostics : r'.diagnostics.Perm r.diagnostics :=
    ConstraintSet.diagnostics_of_mem_iff hclosed rfl hmem hclean
  refine ⟨fun d hd => hno d (hdiagnostics.mem_iff.mp hd), ?_, ?_, ?_, hdiagnostics⟩
  · exact variableValues_congr halike.partition.value_eq
  · exact changedValues_congr halike.partition.value_eq
  · exact ConstraintSet.states_of_mem_iff hclosed rfl hmem hclean

/-- The cells of a grid go through two sums, and a filter is left without a source. -/
def chainedSums : Patch where
  nodes := (∅ : Std.ExtTreeMap NodeId Node).insert "grid" { block := "Grid" }
    |>.insert "inner" { block := "Add" } |>.insert "outer" { block := "Add" }
    |>.insert "loose" { block := "Smooth" }
  edges := (∅ : Std.ExtTreeMap EdgeId Edge).insert "e" ⟨⟨"grid", "index"⟩, ⟨"inner", "a"⟩⟩
    |>.insert "f" ⟨⟨"inner", "out"⟩, ⟨"outer", "a"⟩⟩

/-- The constraints of the sums, the last one first. -/
def chainedSumsBackwards : ConstraintSet :=
  { chainedSums.constraints .standard with
    cardinality := (chainedSums.constraints .standard).cardinality.reverse }

/-- Backwards the outer sum comes first and has to wait for the inner one. -/
theorem chainedSums_reversed :
    Catalog.standard.Built ∧
      chainedSumsBackwards.cardinality.Perm (chainedSums.constraints .standard).cardinality ∧
      (∀ d ∈ (chainedSums.constraints .standard).solveCardinality.diagnostics,
        d.kind ≠ .cardinalityConflict) ∧
      chainedSumsBackwards.solveCardinality.states[PortKey.mk "outer" "out"]? =
        some (.concrete (.many "grid")) ∧
      chainedSumsBackwards.solveCardinality.diagnostics.length = 1 := by
  have hgiven : (∀ d ∈ (chainedSums.constraints .standard).solveCardinality.diagnostics,
        d.kind ≠ .cardinalityConflict) ∧
      (chainedSums.constraints .standard).solveCardinality.diagnostics.length = 1 ∧
      (chainedSums.constraints .standard).solveCardinality.states[PortKey.mk "outer" "out"]? =
        some (.concrete (.many "grid")) := by decide +kernel
  obtain ⟨hno, hlength, hmany⟩ := hgiven
  obtain ⟨-, -, -, hstates, hdiagnostics⟩ :=
    solveCardinality_reordered chainedSums Catalog.standard_built (List.reverse_perm _) hno
  refine ⟨Catalog.standard_built, ?_, hno, ?_, ?_⟩
  · rw [chainedSumsBackwards]
    exact List.reverse_perm _
  · rw [chainedSumsBackwards, hstates]
    exact hmany
  · rw [chainedSumsBackwards, hdiagnostics.length_eq]
    exact hlength

end Patch

end PatchTyping
