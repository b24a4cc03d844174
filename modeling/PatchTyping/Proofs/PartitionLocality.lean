import PatchTyping.Proofs.PartitionPresentations

/-!
# Demands on separate keys

A demand looks at the values of its own keys and merges or fills their classes. Demands on keys of one
kind therefore do not touch the classes of another kind, and what a run of demands makes of one kind of
keys is what the demands on those keys alone make of them, in the same order and with the same refusals.
-/

namespace PatchTyping
namespace ValuedPartition

variable {K V : Type} [Ord K] [Std.TransOrd K]

namespace Demand

variable [DecidableEq V]

/-- What a demand comes to when its keys have the given values: the conflict if there is one, the two
keys whose classes become one, and the value of that class. -/
def effect (val : K → Option V) : Demand K V → Option (Conflict V) × K × K × Option V
  | equal a b =>
    match mergedValue (val a) (val b) with
    | .ok v => (none, a, b, v)
    | .error c => (some c, a, a, val a)
  | holds k v =>
    match val k with
    | some w => (if w = v then none else some ⟨w, v⟩, k, k, some w)
    | none => (none, k, k, some v)

omit [Ord K] [Std.TransOrd K] in
theorem effect_congr {val val' : K → Option V} (d : Demand K V) (h : ∀ k ∈ d.keys, val k = val' k) :
    d.effect val = d.effect val' := by
  cases d with
  | equal a b => simp only [effect, h a (by simp [keys]), h b (by simp [keys])]
  | holds k v => simp only [effect, h k (by simp [keys])]

omit [Ord K] [Std.TransOrd K] in
theorem effect_keys (val : K → Option V) (d : Demand K V) :
    (d.effect val).2.1 ∈ d.keys ∧ (d.effect val).2.2.1 ∈ d.keys := by
  cases d with
  | equal a b =>
    simp only [effect]
    split <;> simp [keys]
  | holds k v =>
    simp only [effect]
    split <;> simp [keys]

/-- All its keys are inside. -/
def within (inside : K → Bool) (d : Demand K V) : Bool := d.keys.all inside

omit [Ord K] [Std.TransOrd K] [DecidableEq V] in
/-- A demand that is not within a set of keys is within the others, if it does not cross over. -/
theorem within_not {inside : K → Bool} (d : Demand K V)
    (h : ∀ k ∈ d.keys, inside k = d.within inside) : d.within (!inside ·) = !d.within inside := by
  cases d with
  | equal a b =>
    have hab : inside a = inside b := (h a (by simp [keys])).trans (h b (by simp [keys])).symm
    simp [within, keys, hab]
  | holds k v => simp [within, keys]

end Demand

private theorem Merged.of_sameRoots {p q : ValuedPartition K V} (h : SameRoots p q) (a : K) :
    Merged p q a a (p.value? a) where
  same_iff k l := by
    rw [h.same_iff]
    refine ⟨.inl, ?_⟩
    rintro (hkl | ⟨hka, hal⟩ | ⟨hka, hal⟩)
    · exact hkl
    · exact hka.trans hal
    · exact hka.trans hal
  value?_of_same k hk := by
    rw [h.value?]
    exact hk.elim Same.value?_eq Same.value?_eq
  value?_of_not_same k _ _ := h.value? k

variable [Std.LawfulEqOrd K] [DecidableEq V]

theorem WellFormed.impose_effect {p : ValuedPartition K V} (hp : p.WellFormed) {d : Demand K V}
    (hreg : ∀ k ∈ d.keys, p.Registered k) :
    (d.impose p).1 = (d.effect p.value?).1 ∧ (d.impose p).2.WellFormed ∧
      Merged p (d.impose p).2 (d.effect p.value?).2.1 (d.effect p.value?).2.2.1
        (d.effect p.value?).2.2.2 := by
  cases d with
  | equal a b =>
    have ha : p.register a = p := register_of_registered (hreg a (by simp [Demand.keys]))
    have hb : p.register b = p := register_of_registered (hreg b (by simp [Demand.keys]))
    rcases mergedValue_cases (p.value? a) (p.value? b) with ⟨u, hm⟩ | ⟨v, w, hva, hvb, hvw⟩
    · obtain ⟨hnone, hwf, hmerged⟩ := hp.union_of_merged hm
      rw [ha, hb] at hmerged
      simp only [Demand.effect, hm]
      exact ⟨hnone, hwf, hmerged⟩
    · obtain ⟨hsome, hwf, hsame⟩ := hp.union_of_ne hva hvb hvw
      rw [ha, hb] at hsame
      simp only [Demand.effect, hva, hvb, mergedValue, hvw, if_false]
      exact ⟨hsome, hwf, hva ▸ Merged.of_sameRoots hsame a⟩
  | holds k v =>
    have hk : p.register k = p := register_of_registered (hreg k (by simp [Demand.keys]))
    cases hv : p.value? k with
    | none =>
      obtain ⟨hnone, hwf, hsame, hin, hout⟩ := hp.assign_of_none hv v
      rw [hk] at hsame hin hout
      simp only [Demand.effect, hv]
      refine ⟨hnone, hwf, fun l m => ?_, fun l hl => hin l (hl.elim id id), fun l hl _ => hout l hl⟩
      rw [Demand.impose, hsame]
      refine ⟨.inl, ?_⟩
      rintro (hlm | ⟨hlk, hkm⟩ | ⟨hlk, hkm⟩)
      · exact hlm
      · exact hlk.trans hkm
      · exact hlk.trans hkm
    | some w =>
      obtain ⟨hsome, hwf, hsame⟩ := hp.assign_of_some hv v
      rw [hk] at hsame
      simp only [Demand.effect, hv]
      exact ⟨hsome, hwf, hv ▸ Merged.of_sameRoots hsame k⟩

theorem WellFormed.registered_impose {p : ValuedPartition K V} (hp : p.WellFormed) {d : Demand K V}
    (hreg : ∀ k ∈ d.keys, p.Registered k) (k : K) : (d.impose p).2.Registered k ↔ p.Registered k := by
  obtain ⟨-, -, hmerged⟩ := hp.impose_effect hreg
  rw [← same_self_iff, ← same_self_iff, hmerged.same_iff]
  refine ⟨?_, .inl⟩
  rintro (h | ⟨h, -⟩ | ⟨h, -⟩)
  · exact h
  · exact h.trans h.symm
  · exact h.trans h.symm

theorem WellFormed.registered_run {p : ValuedPartition K V} (hp : p.WellFormed)
    {ds : List (Demand K V)} (hreg : ∀ d ∈ ds, ∀ k ∈ d.keys, p.Registered k) (k : K) :
    (Demand.run p ds).Registered k ↔ p.Registered k := by
  induction ds generalizing p with
  | nil => rfl
  | cons d ds ih =>
    have hd := hreg d List.mem_cons_self
    have hone := hp.registered_impose hd
    refine (ih (hp.impose_effect hd).2.1 fun e he l hl => ?_).trans (hone k)
    exact (hone l).mpr (hreg e (List.mem_cons_of_mem _ he) l hl)

/-- On a set of keys, which no class of the first partition reaches out of, the two have the same classes
and values. -/
structure Restricts (P : K → Prop) (p q : ValuedPartition K V) : Prop where
  left : p.WellFormed
  right : q.WellFormed
  apart : ∀ {a b}, p.Same a b → (P a ↔ P b)
  same_iff : ∀ {a b}, P a → P b → (q.Same a b ↔ p.Same a b)
  value_eq : ∀ {k}, P k → q.value? k = p.value? k

namespace Restricts

variable {P : K → Prop} {p q : ValuedPartition K V} {d : Demand K V}

omit [Std.LawfulEqOrd K] [DecidableEq V] in
theorem registered_iff (h : Restricts P p q) {k : K} (hk : P k) : q.Registered k ↔ p.Registered k := by
  rw [← same_self_iff, ← same_self_iff, h.same_iff hk hk]

/-- A demand on keys of the set is met or refused in both alike. -/
theorem impose (h : Restricts P p q) (hreg : ∀ k ∈ d.keys, p.Registered k) (hd : ∀ k ∈ d.keys, P k) :
    (d.impose q).1 = (d.impose p).1 ∧ Restricts P (d.impose p).2 (d.impose q).2 := by
  obtain ⟨hconf, hwf, hmerged⟩ := h.left.impose_effect hreg
  obtain ⟨hconf', hwf', hmerged'⟩ :=
    h.right.impose_effect (d := d) fun k hk => (h.registered_iff (hd k hk)).mpr (hreg k hk)
  have heffect : d.effect q.value? = d.effect p.value? :=
    d.effect_congr fun k hk => h.value_eq (hd k hk)
  rw [heffect] at hconf' hmerged'
  obtain ⟨hx, hy⟩ := d.effect_keys p.value?
  generalize d.effect p.value? = e at *
  obtain ⟨c, x, y, v⟩ := e
  have hPx := hd x hx
  have hPy := hd y hy
  refine ⟨hconf'.trans hconf.symm, hwf, hwf', fun {a b} hab => ?_, fun {a b} ha hb => ?_,
    fun {k} hk => ?_⟩
  · rcases (hmerged.same_iff a b).mp hab with hab | ⟨hax, hyb⟩ | ⟨hay, hxb⟩
    · exact h.apart hab
    · exact iff_of_true ((h.apart hax).mpr hPx) ((h.apart hyb).mp hPy)
    · exact iff_of_true ((h.apart hay).mpr hPy) ((h.apart hxb).mp hPx)
  · rw [hmerged.same_iff, hmerged'.same_iff, h.same_iff ha hb, h.same_iff ha hPx, h.same_iff hPy hb,
      h.same_iff ha hPy, h.same_iff hPx hb]
  · by_cases hsame : p.Same k x ∨ p.Same k y
    · rw [hmerged.value?_of_same k hsame, hmerged'.value?_of_same k]
      rwa [h.same_iff hk hPx, h.same_iff hk hPy]
    · rw [not_or] at hsame
      rw [hmerged.value?_of_not_same k hsame.1 hsame.2, hmerged'.value?_of_not_same k, h.value_eq hk]
      · rw [h.same_iff hk hPx]
        exact hsame.1
      · rw [h.same_iff hk hPy]
        exact hsame.2

/-- A demand on other keys does not matter. -/
theorem impose_outside (h : Restricts P p q) (hreg : ∀ k ∈ d.keys, p.Registered k)
    (hd : ∀ k ∈ d.keys, ¬ P k) : Restricts P (d.impose p).2 q := by
  obtain ⟨-, hwf, hmerged⟩ := h.left.impose_effect hreg
  obtain ⟨hx, hy⟩ := d.effect_keys p.value?
  generalize d.effect p.value? = e at *
  obtain ⟨c, x, y, v⟩ := e
  have hPx := hd x hx
  have hPy := hd y hy
  have hfar : ∀ {k}, P k → ¬ p.Same k x ∧ ¬ p.Same k y := fun hk =>
    ⟨fun hs => hPx ((h.apart hs).mp hk), fun hs => hPy ((h.apart hs).mp hk)⟩
  refine ⟨hwf, h.right, fun {a b} hab => ?_, fun {a b} ha hb => ?_, fun {k} hk => ?_⟩
  · rcases (hmerged.same_iff a b).mp hab with hab | ⟨hax, hyb⟩ | ⟨hay, hxb⟩
    · exact h.apart hab
    · exact iff_of_false (mt (h.apart hax).mp hPx) (mt (h.apart hyb).mpr hPy)
    · exact iff_of_false (mt (h.apart hay).mp hPy) (mt (h.apart hxb).mpr hPx)
  · rw [hmerged.same_iff, h.same_iff ha hb]
    refine ⟨.inl, ?_⟩
    rintro (hab | ⟨hax, -⟩ | ⟨hay, -⟩)
    · exact hab
    · exact absurd hax (hfar ha).1
    · exact absurd hay (hfar ha).2
  · rw [hmerged.value?_of_not_same k (hfar hk).1 (hfar hk).2, h.value_eq hk]

omit [Std.LawfulEqOrd K] [DecidableEq V] in
theorem of_initial (hp : p.Presents (fun _ _ => False) fun _ _ => False)
    (hq : q.Presents (fun _ _ => False) fun _ _ => False)
    (hreg : ∀ k, P k → (q.Registered k ↔ p.Registered k)) : Restricts P p q := by
  have heq : ∀ {a b : K}, Relation.EqvGen (fun _ _ => False) a b → a = b := by
    intro a b hab
    induction hab with
    | rel _ _ h => exact h.elim
    | refl => rfl
    | symm _ _ _ ih => exact ih.symm
    | trans _ _ _ _ _ ih ih' => exact ih.trans ih'
  have hnone : ∀ {r : ValuedPartition K V}, r.Presents (fun _ _ => False) (fun _ _ => False) →
      ∀ k, r.value? k = none := by
    intro r hr k
    cases hv : r.value? k with
    | none => rfl
    | some v =>
      obtain ⟨_, hfalse, -⟩ := hr.value_iff.mp hv
      exact hfalse.elim
  refine ⟨hp.wellFormed, hq.wellFormed, fun {a b} hab => ?_, fun {a b} ha hb => ?_, fun {k} _ => ?_⟩
  · rw [heq (hp.same_iff.mp hab).2.2]
  · rw [hp.same_iff, hq.same_iff, hreg a ha, hreg b hb]
  · rw [hnone hp, hnone hq]

section Runs

variable {ds : List (Demand K V)} {inside : K → Bool}
  (hreg : ∀ d ∈ ds, ∀ k ∈ d.keys, p.Registered k)
  (hsplit : ∀ d ∈ ds, ∀ k ∈ d.keys, inside k = d.within inside)
include hreg hsplit

/-- Of demands that are each on keys of the set or on other keys, only the former matter to the set. -/
theorem run (h : Restricts (inside · = true) p q) :
    Restricts (inside · = true) (Demand.run p ds) (Demand.run q (ds.filter (·.within inside))) := by
  induction ds generalizing p q with
  | nil => exact h
  | cons d ds ih =>
    have hkeys := hreg d List.mem_cons_self
    have hd := hsplit d List.mem_cons_self
    have hrest : ∀ e ∈ ds, ∀ k ∈ e.keys, (d.impose p).2.Registered k := fun e he k hk =>
      (h.left.registered_impose hkeys k).mpr (hreg e (List.mem_cons_of_mem _ he) k hk)
    have hsplit' := fun e he => hsplit e (List.mem_cons_of_mem _ he)
    cases hin : d.within inside with
    | true =>
      rw [List.filter_cons_of_pos hin]
      exact ih hrest hsplit' (h.impose hkeys fun k hk => (hd k hk).trans hin).2
    | false =>
      rw [List.filter_cons_of_neg (by simp [hin])]
      exact ih hrest hsplit' (h.impose_outside hkeys fun k hk => by simp [hd k hk, hin])

/-- All demands are met exactly if those on the set are, and the others. -/
theorem accepted_iff {q' : ValuedPartition K V} (h : Restricts (inside · = true) p q)
    (h' : Restricts (fun k => (!inside k) = true) p q') :
    Demand.Accepted ds p ↔ Demand.Accepted (ds.filter (·.within inside)) q ∧
      Demand.Accepted (ds.filter (·.within (!inside ·))) q' := by
  induction ds generalizing p q q' with
  | nil => simp [Demand.Accepted]
  | cons d ds ih =>
    have hkeys := hreg d List.mem_cons_self
    have hd := hsplit d List.mem_cons_self
    have hrest : ∀ e ∈ ds, ∀ k ∈ e.keys, (d.impose p).2.Registered k := fun e he k hk =>
      (h.left.registered_impose hkeys k).mpr (hreg e (List.mem_cons_of_mem _ he) k hk)
    have hsplit' := fun e he => hsplit e (List.mem_cons_of_mem _ he)
    have hother := d.within_not hd
    cases hin : d.within inside with
    | true =>
      rw [hin] at hother
      have hall : ∀ k ∈ d.keys, inside k = true := fun k hk => (hd k hk).trans hin
      obtain ⟨hconf, hnext⟩ := h.impose hkeys hall
      have hnext' := h'.impose_outside hkeys fun k hk => by simp [hall k hk]
      rw [List.filter_cons_of_pos hin, List.filter_cons_of_neg (by simp [hother]), Demand.Accepted,
        Demand.Accepted, hconf, ih hrest hsplit' hnext hnext', and_assoc]
    | false =>
      rw [hin] at hother
      have hall : ∀ k ∈ d.keys, (!inside k) = true := fun k hk => by simp [hd k hk, hin]
      obtain ⟨hconf, hnext'⟩ := h'.impose hkeys hall
      have hnext := h.impose_outside hkeys fun k hk => by simp [hd k hk, hin]
      rw [List.filter_cons_of_neg (by simp [hin]), List.filter_cons_of_pos hother, Demand.Accepted,
        Demand.Accepted, hconf, ih hrest hsplit' hnext hnext', and_left_comm]

end Runs

end Restricts

/-- The order of demands on the keys of a set does not matter if they can all be met together. Those on
other keys may be refused, and must stay in order. -/
theorem Demand.run_of_rearranged {p : ValuedPartition K V} {ds es : List (Demand K V)}
    {inside : K → Bool} (hp : p.Presents (fun _ _ => False) fun _ _ => False)
    (hreg : ∀ d ∈ ds, ∀ k ∈ d.keys, p.Registered k)
    (hsplit : ∀ d ∈ ds, ∀ k ∈ d.keys, inside k = d.within inside) (hmem : ∀ d, d ∈ es ↔ d ∈ ds)
    (hrest : es.filter (·.within (!inside ·)) = ds.filter (·.within (!inside ·))) {σ : K → V}
    (hσ : Satisfies σ (fun a b => False ∨ .equal a b ∈ ds.filter (·.within inside))
      fun k v => False ∨ .holds k v ∈ ds.filter (·.within inside)) :
    (∀ k, (Demand.run p es).value? k = (Demand.run p ds).value? k) ∧
      (Demand.Accepted es p ↔ Demand.Accepted ds p) := by
  have hreg' : ∀ d ∈ es, ∀ k ∈ d.keys, p.Registered k := fun d hd => hreg d ((hmem d).mp hd)
  have hsplit' : ∀ d ∈ es, ∀ k ∈ d.keys, inside k = d.within inside :=
    fun d hd => hsplit d ((hmem d).mp hd)
  have hmem' : ∀ d, d ∈ es.filter (·.within inside) ↔ d ∈ ds.filter (·.within inside) := fun d => by
    rw [List.mem_filter, List.mem_filter, hmem]
  have hin : Restricts (inside · = true) p p := .of_initial hp hp fun _ _ => Iff.rfl
  have hout : Restricts (fun k => (!inside k) = true) p p := .of_initial hp hp fun _ _ => Iff.rfl
  have hkeys : ∀ d ∈ ds.filter (·.within inside), ∀ k ∈ d.keys, p.Registered k :=
    fun d hd => hreg d (List.mem_of_mem_filter hd)
  have hkeys' : ∀ d ∈ es.filter (·.within inside), ∀ k ∈ d.keys, p.Registered k :=
    fun d hd => hkeys d ((hmem' d).mp hd)
  have ha := hp.accepted hkeys hσ
  have ha' := hp.accepted hkeys' (by simpa only [hmem'] using hσ)
  refine ⟨fun k => ?_, ?_⟩
  · cases hk : inside k with
    | true =>
      rw [← (hin.run hreg hsplit).value_eq hk, ← (hin.run hreg' hsplit').value_eq hk]
      apply Option.ext
      intro v
      rw [(hp.run hkeys ha).1.value_iff, (hp.run hkeys' ha').1.value_iff]
      simp only [hmem']
    | false =>
      have hk' : (!inside k) = true := by simp [hk]
      have hother : ∀ d ∈ ds, ∀ k ∈ d.keys, (!inside k) = d.within (!inside ·) := fun d hd l hl => by
        rw [d.within_not (hsplit d hd), hsplit d hd l hl]
      have hother' : ∀ d ∈ es, ∀ k ∈ d.keys, (!inside k) = d.within (!inside ·) :=
        fun d hd => hother d ((hmem d).mp hd)
      rw [← (hout.run hreg hother).value_eq hk', ← (hout.run hreg' hother').value_eq hk', hrest]
  · rw [hin.accepted_iff hreg hsplit hout, hin.accepted_iff hreg' hsplit' hout, hrest]
    exact and_congr_left fun _ => iff_of_true ha' ha

end ValuedPartition
end PatchTyping
