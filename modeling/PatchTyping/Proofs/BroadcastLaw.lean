import PatchTyping.Proofs.CardinalityEquations

/-!
# The law of broadcasting

Once cardinalities are inferred without conflict, every broadcast group is in one of three situations: a
domain has reached all its outputs, it carries single values, or nothing is known of it beyond
constants. Conflicts or not, a port is left without a value only if it is reported itself or belongs to
a node that is.
-/

namespace PatchTyping

open ValuedPartition CardinalityInference

/-- A member of a group that is declared single and not pinned to it. -/
def ConstraintSet.DeclaredSingle (s : ConstraintSet) (k : PortKey) : Prop :=
  .fixed k .one ∈ s.cardinality ∧
    ∃ info, s.ports[k]? = some info ∧ info.zipMember = true ∧ info.pinned = false

theorem ConstraintSet.pendingPorts_iff {s : ConstraintSet} {k : PortKey} :
    s.pendingPorts.contains k = true ↔ s.DeclaredSingle k := by
  simp only [mem_pendingPorts_iff, heldBack_iff, DeclaredSingle]
  constructor
  · rintro ⟨_, hfixed, rfl, hinfo⟩
    exact ⟨hfixed, hinfo⟩
  · rintro ⟨hfixed, hinfo⟩
    exact ⟨.one, hfixed, rfl, hinfo⟩

/-- How the members of a broadcast group may end up. -/
inductive BroadcastLaw (single : PortKey → Prop) (state : PortKey → Option CardinalityState)
    (members : List ZipMember) : Prop
  /-- A domain has reached every output. An input may be single or constant instead. -/
  | domain (d : String) :
      (∃ m ∈ members, state m.port = some (.concrete (.many d))) →
      (∀ m ∈ members, m.role = .output → state m.port = some (.concrete (.many d))) →
      (∀ m ∈ members, m.role = .input → ∃ c ∈ [.many d, .one, .zero],
        state m.port = some (.concrete c)) →
      BroadcastLaw single state members
  /-- There is no domain, and a single value has reached every output. An input may be constant. -/
  | single :
      (∀ m ∈ members, ∀ d, state m.port ≠ some (.concrete (.many d))) →
      (∃ m ∈ members, state m.port = some (.concrete .one) ∨ single m.port) →
      (∀ m ∈ members, m.role = .output → state m.port = some (.concrete .one)) →
      (∀ m ∈ members, m.role = .input → ∃ c ∈ [.one, .zero], state m.port = some (.concrete c)) →
      BroadcastLaw single state members
  /-- There is neither, so that every member is constant or unknown. -/
  | neither :
      (∀ m ∈ members, ¬ single m.port ∧
        (state m.port = some (.concrete .zero) ∨ state m.port = some .unresolved)) →
      BroadcastLaw single state members

namespace CardinalityInference

theorem mem_domains_iff {p : PortPartition} {g : BroadcastGroup} {d : String} :
    d ∈ domains p g ↔ ∃ m ∈ g.members, p.value? m.port = some (.many d) := by
  simp only [domains, Std.ExtTreeSet.mem_toList, ← Std.ExtTreeSet.contains_iff_mem,
    Std.ExtTreeSet.contains_ofList, List.contains_eq_mem, decide_eq_true_eq, List.mem_filterMap]
  refine exists_congr fun m => and_congr_right fun _ => ?_
  cases p.value? m.port with
  | none => simp
  | some c => cases c <;> simp [Cardinality.domain?]

theorem opposes_eq_none_iff {p : PortPartition} {v c : Cardinality} {m : ZipMember}
    (hc : p.value? m.port = some c) :
    opposes p v m = none ↔ c = v ∨ m.role = .input ∧ (c = .one ∨ c = .zero) := by
  cases c <;> simp [opposes, hc, Option.filter, Cardinality.domain?, or_iff_not_imp_left]

theorem spreadMany_value {p : PortPartition} {g : BroadcastGroup} {v : Cardinality}
    (h : spreadMany p g = some (.ok v)) : ∃ d, v = .many d ∧ domains p g = [d] := by
  unfold spreadMany at h
  split at h
  · cases h
  · next d hd =>
    cases h
    exact ⟨d, rfl, hd⟩
  · cases h

theorem spreadMany_eq_none {p : PortPartition} {g : BroadcastGroup} (h : spreadMany p g = none) :
    domains p g = [] := by
  unfold spreadMany at h
  split at h
  · assumption
  · cases h
  · cases h

theorem commitOne_value {pending : Std.ExtTreeSet PortKey} {p : PortPartition} {g : BroadcastGroup}
    {v : Cardinality} (h : commitOne pending p g = some (.ok v)) : v = .one := by
  unfold commitOne at h
  split at h
  · cases h
    rfl
  · cases h

theorem commitOne_ne_none_iff (pending : Std.ExtTreeSet PortKey) {p : PortPartition}
    {g : BroadcastGroup} (hd : domains p g = []) :
    commitOne pending p g ≠ none ↔
      ∃ m ∈ g.members, pending.contains m.port = true ∨ p.value? m.port = some .one := by
  simp [commitOne, hd, or_iff_not_imp_left]

/-- The resolution after domains have spread and before single values do. -/
def spreadOut (s : ConstraintSet) : Resolution :=
  (imposed s).saturate spreadMany s.broadcastGroups (s.ports.size + 1)

section Phases

variable {s : ConstraintSet} (h : s.Closed)
include h

private theorem member_ports : ∀ g ∈ s.broadcastGroups, ∀ m ∈ g.members, m.port ∈ s.ports.keys :=
  fun _ hg m hm => Std.ExtTreeMap.mem_keys.mpr
    (h.member_mem _ _ (ConstraintSet.broadcastGroups_iff.mp hg) m hm)

omit h in
private theorem openPorts_lt_sweeps (p : PortPartition) :
    Resolution.openPorts s.ports.keys p < s.ports.size + 1 := by
  have hle := List.countP_le_length (p := fun k => (p.value? k).isNone) (l := s.ports.keys)
  rw [Std.ExtTreeMap.length_keys] at hle
  exact Nat.lt_succ_of_le hle

theorem spreadOut_spec :
    (spreadOut s).Accounted ∧
      Resolution.After (fun c => ∃ d, c = .many d) (imposed s) (spreadOut s) ∧
      ∀ g ∈ s.broadcastGroups, Resolution.Settled spreadMany (spreadOut s) g :=
  Resolution.saturate_spec (fun _ _ _ hv => (spreadMany_value hv).imp fun _ => And.left)
    (member_ports h) (imposed_accounted s)
    (fun g hg m hm => imposed_registered (Std.ExtTreeMap.mem_keys.mp (member_ports h g hg m hm)))
    (openPorts_lt_sweeps _)

theorem resolved_spec :
    (resolved s).Accounted ∧ Resolution.After (· = .one) (spreadOut s) (resolved s) ∧
      ∀ g ∈ s.broadcastGroups, Resolution.Settled (commitOne s.pendingPorts) (resolved s) g := by
  obtain ⟨hacc, hafter, -⟩ := spreadOut_spec h
  refine Resolution.saturate_spec (fun _ _ _ => commitOne_value) (member_ports h) hacc
    (fun g hg m hm => (hafter.fills.registered_iff _).mpr ?_) (openPorts_lt_sweeps _)
  exact imposed_registered (Std.ExtTreeMap.mem_keys.mp (member_ports h g hg m hm))

/-- With any number of sweeps beyond that of the ports the result is the same. -/
theorem resolved_eq_saturate {n : Nat} (hn : s.ports.size < n) :
    resolved s = ((imposed s).saturate spreadMany s.broadcastGroups n).saturate
      (commitOne s.pendingPorts) s.broadcastGroups n := by
  have hfuel : ∀ p : PortPartition, Resolution.openPorts s.ports.keys p < n :=
    fun p => Nat.lt_of_le_of_lt (Nat.le_of_lt_succ (openPorts_lt_sweeps p)) hn
  have hreg : ∀ g ∈ s.broadcastGroups, ∀ m ∈ g.members, (imposed s).partition.Registered m.port :=
    fun g hg m hm => imposed_registered (Std.ExtTreeMap.mem_keys.mp (member_ports h g hg m hm))
  have hmany : spreadOut s = (imposed s).saturate spreadMany s.broadcastGroups n := by
    rw [spreadOut]
    exact Resolution.saturate_fuel (Q := fun c => ∃ d, c = .many d)
      (fun _ _ _ hv => (spreadMany_value hv).imp fun _ => And.left) (member_ports h)
      (imposed_accounted s) hreg (openPorts_lt_sweeps _) (hfuel _)
  obtain ⟨hacc, hafter, -⟩ := spreadOut_spec h
  have hone : resolved s = (spreadOut s).saturate (commitOne s.pendingPorts) s.broadcastGroups
      (s.ports.size + 1) := by
    rw [resolved, spreadOut]
  rw [hone, ← hmany]
  apply Resolution.saturate_fuel (Q := (· = .one)) (fun _ _ _ => commitOne_value) (member_ports h)
    hacc _ (openPorts_lt_sweeps _) (hfuel _)
  exact fun g hg m hm => (hafter.fills.registered_iff _).mpr (hreg g hg m hm)

theorem resolved_fills : Fills (imposed s).partition (resolved s).partition :=
  (spreadOut_spec h).2.1.fills.trans (resolved_spec h).2.1.fills

theorem imposed_diagnostics_prefix : (imposed s).diagnostics <+: (resolved s).diagnostics :=
  (spreadOut_spec h).2.1.diagnostics.trans (resolved_spec h).2.1.diagnostics

/-- Single values that are committed at last bring no domain into a group. -/
private theorem domains_resolved {g : BroadcastGroup} (hd : domains (spreadOut s).partition g = []) :
    domains (resolved s).partition g = [] := by
  refine List.eq_nil_iff_forall_not_mem.mpr fun d hmem => ?_
  obtain ⟨m, hm, hv⟩ := mem_domains_iff.mp hmem
  rcases (resolved_spec h).2.1.new _ _ hv with hold | hone
  · have hin := mem_domains_iff.mpr ⟨m, hm, hold⟩
    rw [hd] at hin
    cases hin
  · cases hone

/-- A group of a node without conflict has a domain that all members go with, or else a single value
that all members go with, or else neither. -/
theorem resolved_group {g : BroadcastGroup} (hg : g ∈ s.broadcastGroups)
    (hconf : g.node ∉ (resolved s).conflicted) :
    (∃ d, (∃ m ∈ g.members, (resolved s).partition.value? m.port = some (.many d)) ∧
      ∀ m ∈ g.members, ∃ c, (resolved s).partition.value? m.port = some c ∧
        (c = .many d ∨ m.role = .input ∧ (c = .one ∨ c = .zero))) ∨
    domains (resolved s).partition g = [] ∧
      ((∃ m ∈ g.members, s.DeclaredSingle m.port ∨
          (resolved s).partition.value? m.port = some .one) ∧
        (∀ m ∈ g.members, ∃ c, (resolved s).partition.value? m.port = some c ∧
          (c = .one ∨ m.role = .input ∧ c = .zero)) ∨
      ∀ m ∈ g.members, ¬ s.DeclaredSingle m.port ∧
        (resolved s).partition.value? m.port ≠ some .one) := by
  obtain ⟨-, -, hspread⟩ := spreadOut_spec h
  obtain ⟨-, hafter, hcommit⟩ := resolved_spec h
  rcases hspread g hg with hc | hnone | ⟨v, hrule, hall⟩
  · exact absurd (hafter.conflicted _ hc) hconf
  · refine .inr ⟨domains_resolved h (spreadMany_eq_none hnone), ?_⟩
    have hiff := commitOne_ne_none_iff s.pendingPorts
      (domains_resolved h (spreadMany_eq_none hnone))
    simp only [ConstraintSet.pendingPorts_iff] at hiff
    rcases hcommit g hg with hc | hnone' | ⟨v, hrule, hall⟩
    · exact absurd hc hconf
    · refine .inr fun m hm => not_or.mp fun hor => ?_
      exact hiff.mpr ⟨m, hm, hor⟩ hnone'
    · cases commitOne_value hrule
      refine .inl ⟨hiff.mp (by simp [hrule]), fun m hm => ?_⟩
      obtain ⟨hsome, hopp⟩ := hall m hm
      obtain ⟨c, hc⟩ := Option.isSome_iff_exists.mp hsome
      refine ⟨c, hc, ?_⟩
      rcases (opposes_eq_none_iff hc).mp hopp with rfl | ⟨hrole, rfl | rfl⟩
      · exact .inl rfl
      · exact .inl rfl
      · exact .inr ⟨hrole, rfl⟩
  · obtain ⟨d, rfl, hd⟩ := spreadMany_value hrule
    refine .inl ⟨d, ?_, fun m hm => ?_⟩
    · obtain ⟨m, hm, hv⟩ := mem_domains_iff.mp (show d ∈ domains (spreadOut s).partition g by simp [hd])
      exact ⟨m, hm, hafter.fills.value hv⟩
    · obtain ⟨hsome, hopp⟩ := hall m hm
      obtain ⟨c, hc⟩ := Option.isSome_iff_exists.mp hsome
      exact ⟨c, hafter.fills.value hc, (opposes_eq_none_iff hc).mp hopp⟩

end Phases

theorem stateOf_eq_concrete_iff {pending : Std.ExtTreeSet PortKey} {p : PortPartition} {k : PortKey}
    {c : Cardinality} : stateOf pending p k = .concrete c ↔ p.value? k = some c := by
  unfold stateOf
  cases p.value? k with
  | none =>
    simp only [reduceCtorEq, iff_false]
    split <;> simp
  | some c' => simp

theorem stateOf_of_open {pending : Std.ExtTreeSet PortKey} {p : PortPartition} {k : PortKey}
    (hk : p.value? k = none) :
    stateOf pending p k = if pending.contains k then .pending else .unresolved := by
  simp [stateOf, hk]

theorem value?_of_stateOf_ne (pending : Std.ExtTreeSet PortKey) {p : PortPartition} {k : PortKey}
    (hk : ∀ c, stateOf pending p k ≠ .concrete c) : p.value? k = none := by
  cases hv : p.value? k with
  | none => rfl
  | some c => exact absurd (stateOf_eq_concrete_iff.mpr hv) (hk c)

end CardinalityInference

namespace ConstraintSet

variable {s : ConstraintSet}

theorem getElem?_states {k : PortKey} {st : CardinalityState} :
    s.solveCardinality.states[k]? = some st ↔
      k ∈ s.ports ∧ stateOf s.pendingPorts (resolved s).partition k = st := by
  simp only [solveCardinality, Std.ExtTreeMap.getElem?_map, Option.map_eq_some_iff]
  rw [Std.ExtTreeMap.mem_iff_isSome_getElem?, Option.isSome_iff_exists]
  simp

theorem concrete_iff {k : PortKey} (hk : k ∈ s.ports) {c : Cardinality} :
    s.solveCardinality.states[k]? = some (.concrete c) ↔
      (resolved s).partition.value? k = some c := by
  rw [getElem?_states, stateOf_eq_concrete_iff]
  exact and_iff_right hk

theorem mem_diagnostics_of_resolved {d : Diagnostic} (hd : d ∈ (resolved s).diagnostics) :
    d ∈ s.solveCardinality.diagnostics := List.mem_append_left _ hd

/-- A port of a group of a node that is reported. -/
def InReportedGroup (s : ConstraintSet) (k : PortKey) : Prop :=
  ∃ node members, .zipBroadcast node members ∈ s.cardinality ∧ (∃ m ∈ members, m.port = k) ∧
    ∃ d ∈ s.solveCardinality.diagnostics, d.kind = .cardinalityConflict ∧ .node node ∈ d.targets

private theorem inReportedGroup_of_conflicted (h : s.Closed) {g : BroadcastGroup}
    (hg : g ∈ s.broadcastGroups) (hc : g.node ∈ (resolved s).conflicted) {m : ZipMember}
    (hm : m ∈ g.members) : s.InReportedGroup m.port := by
  obtain ⟨hacc, -, -⟩ := resolved_spec h
  obtain ⟨d, hd, ht⟩ := hacc.reported _ hc
  exact ⟨g.node, g.members, broadcastGroups_iff.mp hg, ⟨m, hm, rfl⟩, d,
    mem_diagnostics_of_resolved hd, hacc.kind d hd, ht⟩

/-- A port that is held back is released unless its node is reported. -/
theorem inReportedGroup_of_pending (h : s.Closed) {k : PortKey}
    (hk : s.solveCardinality.states[k]? = some .pending) : s.InReportedGroup k := by
  obtain ⟨-, hstate⟩ := getElem?_states.mp hk
  have hopen : (resolved s).partition.value? k = none :=
    value?_of_stateOf_ne s.pendingPorts (by simp [hstate])
  have hsingle : s.DeclaredSingle k := by
    rw [stateOf_of_open hopen] at hstate
    split at hstate
    · next hp => exact pendingPorts_iff.mp hp
    · cases hstate
  have ⟨_, info, hinfo, hzip, _⟩ := hsingle
  obtain ⟨node, members, hmem, m, hm, rfl⟩ := h.zipMember k info hinfo hzip
  have hg : (⟨node, members⟩ : BroadcastGroup) ∈ s.broadcastGroups := broadcastGroups_iff.mpr hmem
  by_cases hc : node ∈ (resolved s).conflicted
  · exact inReportedGroup_of_conflicted h hg hc hm
  · rcases resolved_group h hg hc with ⟨d, -, hall⟩ | ⟨-, ⟨-, hall⟩ | hnone⟩
    · obtain ⟨c, hv, -⟩ := hall m hm
      rw [hopen] at hv
      cases hv
    · obtain ⟨c, hv, -⟩ := hall m hm
      rw [hopen] at hv
      cases hv
    · exact absurd hsingle (hnone m hm).1

private theorem mem_openClasses {p : PortPartition} {ports : List PortKey} {k : PortKey}
    (hk : k ∈ ports) (hreg : p.Registered k) : ∃ c ∈ openClasses p ports, k ∈ c := by
  obtain ⟨r, -, hr⟩ := same_self_iff.mpr hreg
  refine ⟨_, List.mem_map.mpr ⟨r, ?_, rfl⟩, by simp [hk, hr]⟩
  simp only [Std.ExtTreeSet.mem_toList, ← Std.ExtTreeSet.contains_iff_mem,
    Std.ExtTreeSet.contains_ofList, List.contains_eq_mem, decide_eq_true_eq, List.mem_filterMap]
  exact ⟨k, hk, hr⟩

/-- An unresolved port is reported, or its node is. -/
theorem reported_of_unresolved (h : s.Closed) {k : PortKey}
    (hk : s.solveCardinality.states[k]? = some .unresolved) :
    (∃ d ∈ s.solveCardinality.diagnostics, d.kind = .unresolvedCardinality ∧ .port k ∈ d.targets) ∨
      s.InReportedGroup k := by
  obtain ⟨hport, -⟩ := getElem?_states.mp hk
  by_cases hexc : (excused s (resolved s)).contains k = true
  · right
    simp only [excused, Std.ExtTreeSet.contains_ofList, List.contains_eq_mem, decide_eq_true_eq,
      List.mem_flatMap, List.mem_filter, List.mem_map] at hexc
    obtain ⟨g, ⟨hg, hc⟩, m, hm, rfl⟩ := hexc
    exact inReportedGroup_of_conflicted h hg (by simpa using hc) hm
  · left
    have hreg : (resolved s).partition.Registered k :=
      ((resolved_fills h).registered_iff k).mpr (imposed_registered hport)
    have hlisted : k ∈ s.ports.keys.filter fun k =>
        decide (s.solveCardinality.states[k]? = some .unresolved) &&
          !(excused s (resolved s)).contains k := by
      simp only [List.mem_filter, Std.ExtTreeMap.mem_keys]
      exact ⟨hport, by simp only [hk, hexc]; rfl⟩
    obtain ⟨c, hc, hkc⟩ := mem_openClasses hlisted hreg
    refine ⟨unresolvedDiagnostic c, List.mem_append_right _ (List.mem_map.mpr ⟨c, hc, rfl⟩), rfl, ?_⟩
    exact List.mem_map.mpr ⟨k, hkc, rfl⟩

theorem resolved_value?_eq (h : s.Closed) (ha : Demand.Accepted s.demands (start s.ports))
    {a b : PortKey} (hmem : a ∈ s.ports)
    (hab : Relation.EqvGen (fun a b => .equal a b ∈ s.demands) a b) :
    (resolved s).partition.value? a = (resolved s).partition.value? b := by
  obtain ⟨hpres, hreg⟩ := imposed_presents h ha
  have hsame : (imposed s).partition.Same a b := (hpres.same_iff_eqvGen ((hreg a).mpr hmem)).mpr
    (Relation.EqvGen.mono (fun _ _ => .inr) _ _ hab)
  exact (((resolved_fills h).same_iff a b).mpr hsame).value?_eq

theorem solveCardinality_eq_nil (hr : (resolved s).diagnostics = [])
    (hval : ∀ k ∈ s.ports, ∃ c, (resolved s).partition.value? k = some c) :
    s.solveCardinality.diagnostics = [] := by
  have hnone : (s.ports.keys.filter fun k =>
      decide (s.solveCardinality.states[k]? = some .unresolved) &&
        !(excused s (resolved s)).contains k) = [] := by
    apply List.filter_eq_nil_iff.mpr
    intro k hk
    obtain ⟨c, hc⟩ := hval k (Std.ExtTreeMap.mem_keys.mp hk)
    simp [(concrete_iff (Std.ExtTreeMap.mem_keys.mp hk)).mpr hc]
  have hdiag : s.solveCardinality.diagnostics = (resolved s).diagnostics ++
      (openClasses (resolved s).partition (s.ports.keys.filter fun k =>
        decide (s.solveCardinality.states[k]? = some .unresolved) &&
          !(excused s (resolved s)).contains k)).map unresolvedDiagnostic := rfl
  rw [hdiag, hr, hnone]
  rfl

section NoConflict

variable (h : s.Closed) (hno : ∀ d ∈ s.solveCardinality.diagnostics, d.kind ≠ .cardinalityConflict)
include h hno

theorem resolved_diagnostics_eq_nil : (resolved s).diagnostics = [] := by
  refine List.eq_nil_iff_forall_not_mem.mpr fun d hd => ?_
  exact hno d (mem_diagnostics_of_resolved hd) ((resolved_spec h).1.kind d hd)

theorem demands_accepted : Demand.Accepted s.demands (start s.ports) := by
  rw [← imposed_diagnostics_eq_nil_iff]
  have hprefix := imposed_diagnostics_prefix h
  rw [resolved_diagnostics_eq_nil h hno] at hprefix
  exact List.prefix_nil.mp hprefix

theorem not_mem_conflicted (node : NodeId) : node ∉ (resolved s).conflicted := by
  intro hn
  obtain ⟨d, hd, -⟩ := (resolved_spec h).1.reported node hn
  rw [resolved_diagnostics_eq_nil h hno] at hd
  cases hd

theorem not_pending (k : PortKey) : s.solveCardinality.states[k]? ≠ some .pending := by
  intro hk
  obtain ⟨node, members, -, -, d, hd, hkind, -⟩ := inReportedGroup_of_pending h hk
  exact hno d hd hkind

theorem state_eq_of_equal {a b : PortKey} {origin : Origin} (hab : .equal a b origin ∈ s.cardinality) :
    ∃ st, s.solveCardinality.states[a]? = some st ∧ s.solveCardinality.states[b]? = some st := by
  obtain ⟨ha, hb⟩ := h.equal_mem a b origin hab
  have heq := resolved_value?_eq h (demands_accepted h hno) ha
    (.rel _ _ (equal_mem_demands_iff.mpr ⟨origin, hab⟩))
  refine ⟨_, getElem?_states.mpr ⟨ha, rfl⟩, getElem?_states.mpr ⟨hb, ?_⟩⟩
  cases hv : (resolved s).partition.value? a with
  | some c =>
    rw [stateOf_eq_concrete_iff.mpr hv, stateOf_eq_concrete_iff.mpr (heq ▸ hv)]
  | none =>
    have hopen : ∀ {k}, k ∈ s.ports → (resolved s).partition.value? k = none →
        stateOf s.pendingPorts (resolved s).partition k = .unresolved := by
      intro k hk hkv
      have hnot := not_pending h hno k
      rw [ne_eq, getElem?_states, not_and] at hnot
      have hne := hnot hk
      rw [stateOf_of_open hkv] at hne ⊢
      split
      · next hp => simp [hp] at hne
      · rfl
    rw [hopen ha hv, hopen hb (heq ▸ hv)]

theorem state_of_fixed {k : PortKey} {c : Cardinality} (hk : .fixed k c ∈ s.cardinality)
    (hheld : ¬ (c = .one ∧ s.DeclaredSingle k)) :
    s.solveCardinality.states[k]? = some (.concrete c) := by
  have hnot : s.heldBack k c = false := by
    rw [Bool.eq_false_iff, ne_eq, heldBack_iff]
    rintro ⟨rfl, hinfo⟩
    exact hheld ⟨rfl, hk, hinfo⟩
  obtain ⟨hpres, -⟩ := imposed_presents h (demands_accepted h hno)
  refine (concrete_iff (h.fixed_mem k c hk)).mpr ((resolved_fills h).value ?_)
  exact hpres.value_iff.mpr ⟨k, .inr (holds_mem_demands_iff.mpr ⟨hk, hnot⟩), .refl _⟩

theorem broadcastLaw {node : NodeId} {members : List ZipMember}
    (hg : .zipBroadcast node members ∈ s.cardinality) :
    BroadcastLaw s.DeclaredSingle (s.solveCardinality.states[·]?) members := by
  have hports := h.member_mem node members hg
  have hval : ∀ {m : ZipMember} {c : Cardinality}, m ∈ members →
      (resolved s).partition.value? m.port = some c →
      s.solveCardinality.states[m.port]? = some (.concrete c) :=
    fun hm hv => (concrete_iff (hports _ hm)).mpr hv
  rcases resolved_group h (g := ⟨node, members⟩) (broadcastGroups_iff.mpr hg)
    (not_mem_conflicted h hno node) with ⟨d, ⟨m, hm, hv⟩, hall⟩ | ⟨hdom, hrest⟩
  · refine .domain d ⟨m, hm, hval hm hv⟩ (fun m hm hrole => ?_) (fun m hm _ => ?_)
    · obtain ⟨c, hc, rfl | ⟨hrole', -⟩⟩ := hall m hm
      · exact hval hm hc
      · rw [hrole] at hrole'
        cases hrole'
    · obtain ⟨c, hc, hcases⟩ := hall m hm
      refine ⟨c, ?_, hval hm hc⟩
      rcases hcases with rfl | ⟨-, rfl | rfl⟩ <;> simp
  · have hmany : ∀ m ∈ members, ∀ d, (resolved s).partition.value? m.port ≠ some (.many d) := by
      intro m hm d hv
      have hin := mem_domains_iff (g := ⟨node, members⟩).mpr ⟨m, hm, hv⟩
      rw [hdom] at hin
      cases hin
    rcases hrest with ⟨⟨m, hm, hone⟩, hall⟩ | hnone
    · refine .single (fun m hm d hst => ?_) ⟨m, hm, ?_⟩ (fun m hm hrole => ?_) (fun m hm _ => ?_)
      · exact hmany m hm d ((concrete_iff (hports m hm)).mp hst)
      · exact hone.symm.imp_left (hval hm)
      · obtain ⟨c, hc, rfl | ⟨hrole', -⟩⟩ := hall m hm
        · exact hval hm hc
        · rw [hrole] at hrole'
          cases hrole'
      · obtain ⟨c, hc, hcases⟩ := hall m hm
        refine ⟨c, ?_, hval hm hc⟩
        rcases hcases with rfl | ⟨-, rfl⟩ <;> simp
    · refine .neither fun m hm => ⟨(hnone m hm).1, ?_⟩
      cases hv : (resolved s).partition.value? m.port with
      | none =>
        refine .inr (getElem?_states.mpr ⟨hports m hm, ?_⟩)
        rw [stateOf_of_open hv, if_neg (mt pendingPorts_iff.mp (hnone m hm).1)]
      | some c =>
        cases c with
        | zero => exact .inl (hval hm hv)
        | one => exact absurd hv (hnone m hm).2
        | many d => exact absurd hv (hmany m hm d)

end NoConflict

end ConstraintSet

namespace Patch

/-- The cardinalities of every patch obey the law of broadcasting. -/
theorem solveCardinality_broadcast (g : Patch) {catalog : Catalog} (hc : catalog.Built) :
    let s := g.constraints catalog
    let r := s.solveCardinality
    ((∀ d ∈ r.diagnostics, d.kind ≠ .cardinalityConflict) →
      (∀ k : PortKey, r.states[k]? ≠ some .pending) ∧
      (∀ (a b : PortKey) (origin : Origin), .equal a b origin ∈ s.cardinality →
        ∃ st, r.states[a]? = some st ∧ r.states[b]? = some st) ∧
      (∀ (k : PortKey) (c : Cardinality), .fixed k c ∈ s.cardinality →
        ¬ (c = .one ∧ s.DeclaredSingle k) → r.states[k]? = some (.concrete c)) ∧
      ∀ (node : NodeId) (members : List ZipMember), .zipBroadcast node members ∈ s.cardinality →
        BroadcastLaw s.DeclaredSingle (r.states[·]?) members) ∧
    (∀ k : PortKey, r.states[k]? = some .pending → s.InReportedGroup k) ∧
    ∀ k : PortKey, r.states[k]? = some .unresolved →
      (∃ d ∈ r.diagnostics, d.kind = .unresolvedCardinality ∧ .port k ∈ d.targets) ∨
        s.InReportedGroup k := by
  have hclosed : (g.constraints catalog).Closed := constraints_closed hc
  refine ⟨fun hno => ⟨?_, ?_, ?_, ?_⟩, ?_, ?_⟩
  · exact ConstraintSet.not_pending hclosed hno
  · exact fun a b origin hab => ConstraintSet.state_eq_of_equal hclosed hno hab
  · exact fun k c hk hheld => ConstraintSet.state_of_fixed hclosed hno hk hheld
  · exact fun node members hg => ConstraintSet.broadcastLaw hclosed hno hg
  · exact fun k hk => ConstraintSet.inReportedGroup_of_pending hclosed hk
  · exact fun k hk => ConstraintSet.reported_of_unresolved hclosed hk

/-- One value for each cell of a grid, added to a single value. -/
def gridSum : Patch where
  nodes := (∅ : Std.ExtTreeMap NodeId Node).insert "grid" { block := "Grid" }
    |>.insert "sum" { block := "Add" }
  edges := (∅ : Std.ExtTreeMap EdgeId Edge).insert "e" ⟨⟨"grid", "index"⟩, ⟨"sum", "a"⟩⟩

/-- The sum is a group without conflict, and the domain of the grid reaches its output. -/
theorem gridSum_broadcast :
    Catalog.standard.Built ∧
      (∀ d ∈ (gridSum.constraints .standard).solveCardinality.diagnostics,
        d.kind ≠ .cardinalityConflict) ∧
      (gridSum.constraints .standard).solveCardinality.states[PortKey.mk "sum" "out"]? =
        some (.concrete (.many "grid")) ∧
      BroadcastLaw (gridSum.constraints .standard).DeclaredSingle
        ((gridSum.constraints .standard).solveCardinality.states[·]?)
        [⟨⟨"sum", "a"⟩, .input⟩, ⟨⟨"sum", "b"⟩, .input⟩, ⟨⟨"sum", "out"⟩, .output⟩] := by
  have hno : ∀ d ∈ (gridSum.constraints .standard).solveCardinality.diagnostics,
      d.kind ≠ .cardinalityConflict := by decide +kernel
  refine ⟨Catalog.standard_built, hno, by decide +kernel, ?_⟩
  exact ((solveCardinality_broadcast gridSum Catalog.standard_built).1 hno).2.2.2 "sum" _
    (by decide +kernel)

end Patch

end PatchTyping
