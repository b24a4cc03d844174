import PatchTyping.CardinalityInference
import PatchTyping.Proofs.PartitionPresentations

/-!
# Sweeps over broadcast groups

Groups only ever give values to ports that have none, so a sweep that changes something leaves fewer
ports open. With as many sweeps as ports the last one changes nothing, and then every group is settled:
it has been reported, its rule does not apply, or all its members go with the value the rule gives.
-/

namespace PatchTyping

namespace CardinalityInference

open ValuedPartition

/-- Values have been added, and nothing else has happened. -/
structure Fills (p q : PortPartition) : Prop where
  wellFormed : q.WellFormed
  same_iff (a b : PortKey) : q.Same a b ↔ p.Same a b
  value {k : PortKey} {c : Cardinality} : p.value? k = some c → q.value? k = some c

namespace Fills

theorem refl {p : PortPartition} (hp : p.WellFormed) : Fills p p := ⟨hp, fun _ _ => Iff.rfl, id⟩

theorem trans {p q r : PortPartition} (h : Fills p q) (h' : Fills q r) : Fills p r :=
  ⟨h'.wellFormed, fun a b => (h'.same_iff a b).trans (h.same_iff a b), fun hv => h'.value (h.value hv)⟩

theorem registered_iff {p q : PortPartition} (h : Fills p q) (k : PortKey) :
    q.Registered k ↔ p.Registered k := by
  rw [← same_self_iff, ← same_self_iff, h.same_iff]

end Fills

/-- An open class takes the value that one of its members is given. -/
theorem assign_open {p : PortPartition} (hp : p.WellFormed) {k : PortKey} (hk : p.Registered k)
    (hv : p.value? k = none) (v : Cardinality) :
    Fills p (p.assign k v).2 ∧ (∀ l, p.Same l k → (p.assign k v).2.value? l = some v) ∧
      ∀ l, ¬ p.Same l k → (p.assign k v).2.value? l = p.value? l := by
  obtain ⟨-, hwf, hsame, hin, hout⟩ := hp.assign_of_none hv v
  rw [register_of_registered hk] at hsame hin hout
  refine ⟨⟨hwf, hsame, fun {l c} hl => ?_⟩, hin, hout⟩
  rw [hout l, hl]
  intro hlk
  rw [hlk.value?_eq, hv] at hl
  cases hl

namespace Resolution

theorem bindOpen_of_bound {p : PortPartition} {v : Cardinality} {members : List ZipMember}
    (h : ∀ m ∈ members, (p.value? m.port).isNone = false) : bindOpen p v members = p := by
  induction members with
  | nil => rfl
  | cons m ms ih =>
    change bindOpen (if (p.value? m.port).isNone then _ else p) v ms = p
    rw [h m List.mem_cons_self, if_neg Bool.false_ne_true]
    exact ih fun m' hm' => h m' (List.mem_cons_of_mem _ hm')

/-- Binding leaves no member open and brings in no value but the given one. -/
theorem bindOpen_spec {p : PortPartition} (hp : p.WellFormed) {v : Cardinality}
    {members : List ZipMember} (hreg : ∀ m ∈ members, p.Registered m.port) :
    Fills p (bindOpen p v members) ∧
      (∀ m ∈ members, ∃ c, (bindOpen p v members).value? m.port = some c) ∧
      ∀ l c, (bindOpen p v members).value? l = some c → p.value? l = some c ∨ c = v := by
  induction members generalizing p with
  | nil => exact ⟨.refl hp, by simp, fun l c h => .inl h⟩
  | cons m ms ih =>
    have htail : ∀ m' ∈ ms, p.Registered m'.port := fun m' hm' => hreg m' (List.mem_cons_of_mem _ hm')
    change Fills p (bindOpen (if (p.value? m.port).isNone then _ else p) v ms) ∧ _
    by_cases hv : (p.value? m.port).isNone
    · obtain ⟨hfill, hin, hout⟩ :=
        assign_open hp (hreg m List.mem_cons_self) (Option.isNone_iff_eq_none.mp hv) v
      obtain ⟨hfill', hbound, hnew⟩ := ih hfill.wellFormed (p := (p.assign m.port v).2)
        fun m' hm' => (hfill.registered_iff _).mpr (htail m' hm')
      simp only [bindOpen, List.foldl_cons, hv, if_true] at hfill' hbound hnew ⊢
      refine ⟨hfill.trans hfill', fun m' hm' => ?_, fun l c hl => ?_⟩
      · rcases List.mem_cons.mp hm' with rfl | hm'
        · exact ⟨v, hfill'.value (hin _ (same_self_iff.mpr (hreg m' List.mem_cons_self)))⟩
        · exact hbound m' hm'
      · rcases hnew l c hl with hl | rfl
        · by_cases hlm : p.Same l m.port
          · rw [hin l hlm] at hl
            exact .inr (Option.some.inj hl).symm
          · rw [hout l hlm] at hl
            exact .inl hl
        · exact .inr rfl
    · obtain ⟨hfill', hbound, hnew⟩ := ih hp htail
      simp only [bindOpen, List.foldl_cons, hv] at hfill' hbound hnew ⊢
      refine ⟨hfill', fun m' hm' => ?_, hnew⟩
      rcases List.mem_cons.mp hm' with rfl | hm'
      · obtain ⟨c, hc⟩ := Option.ne_none_iff_exists'.mp (mt Option.isNone_iff_eq_none.mpr hv)
        exact ⟨c, hfill'.value hc⟩
      · exact hbound m' hm'

/-- Every diagnostic is a conflict, and every node that is left alone has one. -/
structure Accounted (r : Resolution) : Prop where
  wellFormed : r.partition.WellFormed
  kind : ∀ d ∈ r.diagnostics, d.kind = .cardinalityConflict
  reported : ∀ n ∈ r.conflicted, ∃ d ∈ r.diagnostics, Target.node n ∈ d.targets

/-- What may happen on the way from one resolution to a later one, if all values that are given satisfy
a predicate. -/
structure After (Q : Cardinality → Prop) (r r' : Resolution) : Prop where
  fills : Fills r.partition r'.partition
  new : ∀ k c, r'.partition.value? k = some c → r.partition.value? k = some c ∨ Q c
  conflicted : ∀ n ∈ r.conflicted, n ∈ r'.conflicted
  diagnostics : r.diagnostics <+: r'.diagnostics

namespace After

variable {Q : Cardinality → Prop}

theorem refl {r : Resolution} (hr : r.Accounted) : After Q r r :=
  ⟨.refl hr.wellFormed, fun _ _ => .inl, fun _ => id, List.prefix_rfl⟩

theorem trans {r r' r'' : Resolution} (h : After Q r r') (h' : After Q r' r'') : After Q r r'' where
  fills := h.fills.trans h'.fills
  new k c hk := (h'.new k c hk).elim (h.new k c) .inr
  conflicted n hn := h'.conflicted n (h.conflicted n hn)
  diagnostics := h.diagnostics.trans h'.diagnostics

end After

theorem Accounted.report {r : Resolution} (hr : r.Accounted) (g : BroadcastGroup) (message : String) :
    (r.report g message).Accounted where
  wellFormed := hr.wellFormed
  kind d hd := by
    rcases List.mem_append.mp hd with hd | hd
    · exact hr.kind d hd
    · rw [List.mem_singleton.mp hd]
      rfl
  reported n hn := by
    rcases Std.ExtTreeSet.mem_insert.mp hn with hn | hn
    · cases (Std.LawfulEqOrd.eq_of_compare hn : g.node = n)
      exact ⟨groupDiagnostic g message, by simp [Resolution.report], by simp [groupDiagnostic]⟩
    · obtain ⟨d, hd, ht⟩ := hr.reported n hn
      exact ⟨d, List.mem_append_left _ hd, ht⟩

theorem After.report {Q : Cardinality → Prop} {r : Resolution} (hr : r.Accounted)
    (g : BroadcastGroup) (message : String) : After Q r (r.report g message) where
  fills := .refl hr.wellFormed
  new _ _ := .inl
  conflicted _ hn := Std.ExtTreeSet.mem_insert.mpr (.inr hn)
  diagnostics := List.prefix_append _ _

theorem mem_conflicted_report (r : Resolution) (g : BroadcastGroup) (message : String) :
    g.node ∈ (r.report g message).conflicted := by
  simp [Resolution.report]

/-- Nothing is left to do for a group under a rule. -/
def Settled (rule : GroupRule) (r : Resolution) (g : BroadcastGroup) : Prop :=
  g.node ∈ r.conflicted ∨ rule r.partition g = none ∨
    ∃ v, rule r.partition g = some (.ok v) ∧ ∀ m ∈ g.members,
      (r.partition.value? m.port).isSome ∧ opposes r.partition v m = none

theorem Settled.mono {rule : GroupRule} {r r' : Resolution} {g : BroadcastGroup}
    (h : Settled rule r g) (hp : r'.partition = r.partition)
    (hc : ∀ n ∈ r.conflicted, n ∈ r'.conflicted) : Settled rule r' g := by
  rw [Settled, hp]
  exact h.imp_left (hc _)

section Rule

variable {rule : GroupRule} {Q : Cardinality → Prop}

/-- What a rule does to one group: it opens nothing, it changes something only by giving a value to an
open member, and otherwise the group is settled. -/
theorem applyRule_spec (hQ : ∀ p g v, rule p g = some (.ok v) → Q v) {r : Resolution}
    (hr : r.Accounted) {g : BroadcastGroup} (hreg : ∀ m ∈ g.members, r.partition.Registered m.port) :
    (applyRule rule r g).2.Accounted ∧ After Q r (applyRule rule r g).2 ∧
      ((applyRule rule r g).1 = true → ∃ m ∈ g.members, r.partition.value? m.port = none ∧
        ((applyRule rule r g).2.partition.value? m.port).isSome) ∧
      ((applyRule rule r g).1 = false →
        (applyRule rule r g).2.partition = r.partition ∧ Settled rule (applyRule rule r g).2 g) := by
  unfold applyRule
  split
  · next hc => exact ⟨hr, .refl hr, by simp, fun _ => ⟨rfl, .inl (by simpa using hc)⟩⟩
  · split
    · next hrule => exact ⟨hr, .refl hr, by simp, fun _ => ⟨rfl, .inr (.inl hrule)⟩⟩
    · next message hrule =>
      exact ⟨hr.report g message, .report hr g message, by simp,
        fun _ => ⟨rfl, .inl (mem_conflicted_report r g message)⟩⟩
    · next v hrule =>
      unfold settleGroup
      split
      · next m c hopp =>
        exact ⟨hr.report g _, .report hr g _, by simp,
          fun _ => ⟨rfl, .inl (mem_conflicted_report r g _)⟩⟩
      · next hopp =>
        obtain ⟨hfill, hbound, hnew⟩ := bindOpen_spec hr.wellFormed (v := v) hreg
        refine ⟨⟨hfill.wellFormed, hr.kind, hr.reported⟩,
          ⟨hfill, fun k c hk => ?_, fun _ => id, List.prefix_rfl⟩, fun hany => ?_, fun hany => ?_⟩
        · rcases hnew k c hk with hk | rfl
          · exact .inl hk
          · exact .inr (hQ _ _ _ hrule)
        · obtain ⟨m, hm, hnone⟩ := List.any_eq_true.mp hany
          obtain ⟨c, hc⟩ := hbound m hm
          exact ⟨m, hm, Option.isNone_iff_eq_none.mp hnone, by simp [hc]⟩
        · have hall : ∀ m ∈ g.members, (r.partition.value? m.port).isNone = false := by
            intro m hm
            exact Bool.eq_false_iff.mpr (List.any_eq_false.mp hany m hm)
          have hsame : bindOpen r.partition v g.members = r.partition := bindOpen_of_bound hall
          refine ⟨hsame, .inr (.inr ⟨v, by rw [hsame]; exact hrule, fun m hm => ?_⟩)⟩
          rw [hsame]
          refine ⟨by simpa using hall m hm, ?_⟩
          simpa using List.findSome?_eq_none_iff.mp hopp m hm

private def visit (rule : GroupRule) (x : Bool × Resolution) (g : BroadcastGroup) :
    Bool × Resolution :=
  (x.1 || (applyRule rule x.2 g).1, (applyRule rule x.2 g).2)

private theorem sweep_eq_foldl (rule : GroupRule) (groups : List BroadcastGroup) (r : Resolution) :
    sweep rule groups r = groups.foldl (visit rule) (false, r) := rfl

private theorem foldl_visit (rule : GroupRule) (groups : List BroadcastGroup) (changed : Bool)
    (r : Resolution) :
    groups.foldl (visit rule) (changed, r) =
      (changed || (sweep rule groups r).1, (sweep rule groups r).2) := by
  induction groups generalizing changed r with
  | nil => simp [sweep_eq_foldl]
  | cons g groups ih =>
    have hvisit : ∀ b, visit rule (b, r) g = (b || (applyRule rule r g).1, (applyRule rule r g).2) :=
      fun _ => rfl
    rw [sweep_eq_foldl, List.foldl_cons, List.foldl_cons, hvisit, hvisit, ih, ih]
    simp [Bool.or_assoc]

theorem sweep_cons (rule : GroupRule) (g : BroadcastGroup) (groups : List BroadcastGroup)
    (r : Resolution) :
    sweep rule (g :: groups) r =
      ((applyRule rule r g).1 || (sweep rule groups (applyRule rule r g).2).1,
        (sweep rule groups (applyRule rule r g).2).2) := by
  rw [sweep_eq_foldl, List.foldl_cons, visit, foldl_visit, Bool.false_or]

/-- What a sweep does, from what a rule does to one group. -/
theorem sweep_spec (hQ : ∀ p g v, rule p g = some (.ok v) → Q v) {groups : List BroadcastGroup}
    {r : Resolution} (hr : r.Accounted)
    (hreg : ∀ g ∈ groups, ∀ m ∈ g.members, r.partition.Registered m.port) :
    (sweep rule groups r).2.Accounted ∧ After Q r (sweep rule groups r).2 ∧
      ((sweep rule groups r).1 = true → ∃ g ∈ groups, ∃ m ∈ g.members,
        r.partition.value? m.port = none ∧
          ((sweep rule groups r).2.partition.value? m.port).isSome) ∧
      ((sweep rule groups r).1 = false → (sweep rule groups r).2.partition = r.partition ∧
        ∀ g ∈ groups, Settled rule (sweep rule groups r).2 g) := by
  induction groups generalizing r with
  | nil => exact ⟨hr, .refl hr, by simp [sweep], fun _ => ⟨rfl, by simp⟩⟩
  | cons g groups ih =>
    obtain ⟨hacc, hafter, hopen, hsettled⟩ := applyRule_spec hQ hr (hreg g List.mem_cons_self)
    obtain ⟨hacc', hafter', hopen', hsettled'⟩ := ih hacc fun g' hg' m hm =>
      (hafter.fills.registered_iff _).mpr (hreg g' (List.mem_cons_of_mem _ hg') m hm)
    simp only [sweep_cons]
    refine ⟨hacc', hafter.trans hafter', fun hchanged => ?_, fun hchanged => ?_⟩
    · rcases Bool.or_eq_true_iff.mp hchanged with hnow | hlater
      · obtain ⟨m, hm, hnone, hsome⟩ := hopen hnow
        obtain ⟨c, hc⟩ := Option.isSome_iff_exists.mp hsome
        exact ⟨g, List.mem_cons_self, m, hm, hnone, by simp [hafter'.fills.value hc]⟩
      · obtain ⟨g', hg', m, hm, hnone, hsome⟩ := hopen' hlater
        refine ⟨g', List.mem_cons_of_mem _ hg', m, hm, ?_, hsome⟩
        cases hv : r.partition.value? m.port with
        | none => rfl
        | some c => simp [hafter.fills.value hv] at hnone
    · obtain ⟨hnow, hlater⟩ := Bool.or_eq_false_iff.mp hchanged
      obtain ⟨hpart, hset⟩ := hsettled hnow
      obtain ⟨hpart', hset'⟩ := hsettled' hlater
      refine ⟨hpart'.trans hpart, fun g' hg' => ?_⟩
      rcases List.mem_cons.mp hg' with rfl | hg'
      · exact hset.mono hpart' hafter'.conflicted
      · exact hset' g' hg'

/-- The ports that have no value yet. -/
def openPorts (ports : List PortKey) (p : PortPartition) : Nat :=
  ports.countP fun k => (p.value? k).isNone

private theorem openPorts_le (ports : List PortKey) {p q : PortPartition} (h : Fills p q) :
    openPorts ports q ≤ openPorts ports p := by
  refine List.countP_mono_left fun k _ hk => ?_
  cases hv : p.value? k with
  | none => rfl
  | some c => simp [h.value hv] at hk

private theorem openPorts_lt {ports : List PortKey} {p q : PortPartition} (h : Fills p q)
    {k : PortKey} (hk : k ∈ ports) (hp : p.value? k = none) (hq : (q.value? k).isSome) :
    openPorts ports q < openPorts ports p := by
  obtain ⟨front, back, rfl⟩ := List.append_of_mem hk
  have hfront := openPorts_le front h
  have hback := openPorts_le back h
  have hq' : (q.value? k).isNone = false := by simpa using hq
  simp only [openPorts, List.countP_append, List.countP_cons, hp, hq', Option.isNone_none, if_true,
    Bool.false_eq_true, if_false] at hfront hback ⊢
  omega

section Saturation

variable {groups : List BroadcastGroup} {ports : List PortKey}

private theorem sweep_closes (hQ : ∀ p g v, rule p g = some (.ok v) → Q v) {r : Resolution}
    (hr : r.Accounted) (hreg : ∀ g ∈ groups, ∀ m ∈ g.members, r.partition.Registered m.port)
    (hports : ∀ g ∈ groups, ∀ m ∈ g.members, m.port ∈ ports)
    (hchanged : (sweep rule groups r).1 = true) :
    openPorts ports (sweep rule groups r).2.partition < openPorts ports r.partition := by
  obtain ⟨-, hafter, hopen, -⟩ := sweep_spec hQ hr hreg
  obtain ⟨g, hg, m, hm, hnone, hsome⟩ := hopen hchanged
  exact openPorts_lt hafter.fills (hports g hg m hm) hnone hsome

/-- With more sweeps than open ports every group ends up settled. -/
theorem saturate_spec (hQ : ∀ p g v, rule p g = some (.ok v) → Q v)
    (hports : ∀ g ∈ groups, ∀ m ∈ g.members, m.port ∈ ports) {r : Resolution} (hr : r.Accounted)
    (hreg : ∀ g ∈ groups, ∀ m ∈ g.members, r.partition.Registered m.port) {fuel : Nat}
    (hfuel : openPorts ports r.partition < fuel) :
    (saturate rule groups fuel r).Accounted ∧ After Q r (saturate rule groups fuel r) ∧
      ∀ g ∈ groups, Settled rule (saturate rule groups fuel r) g := by
  induction fuel generalizing r with
  | zero => omega
  | succ fuel ih =>
    obtain ⟨hacc, hafter, -, hsettled⟩ := sweep_spec hQ hr hreg
    simp only [saturate]
    split
    · next hchanged =>
      have hlt := sweep_closes hQ hr hreg hports hchanged
      obtain ⟨hacc', hafter', hsettled'⟩ := ih hacc (fun g hg m hm =>
        (hafter.fills.registered_iff _).mpr (hreg g hg m hm)) (by omega)
      exact ⟨hacc', hafter.trans hafter', hsettled'⟩
    · next hchanged => exact ⟨hacc, hafter, (hsettled (by simpa using hchanged)).2⟩

/-- More sweeps than open ports make no difference. -/
theorem saturate_fuel (hQ : ∀ p g v, rule p g = some (.ok v) → Q v)
    (hports : ∀ g ∈ groups, ∀ m ∈ g.members, m.port ∈ ports) {r : Resolution} (hr : r.Accounted)
    (hreg : ∀ g ∈ groups, ∀ m ∈ g.members, r.partition.Registered m.port) {fuel fuel' : Nat}
    (hfuel : openPorts ports r.partition < fuel) (hfuel' : openPorts ports r.partition < fuel') :
    saturate rule groups fuel r = saturate rule groups fuel' r := by
  induction fuel generalizing r fuel' with
  | zero => omega
  | succ fuel ih =>
    obtain ⟨fuel', rfl⟩ : ∃ n, fuel' = n + 1 := ⟨fuel' - 1, by omega⟩
    obtain ⟨hacc, hafter, -, -⟩ := sweep_spec hQ hr hreg
    simp only [saturate]
    split
    · next hchanged =>
      have hlt := sweep_closes hQ hr hreg hports hchanged
      exact ih hacc (fun g hg m hm => (hafter.fills.registered_iff _).mpr (hreg g hg m hm))
        (by omega) (by omega)
    · rfl

end Saturation

end Rule

end Resolution

end CardinalityInference

end PatchTyping
