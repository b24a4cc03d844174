import Mathlib.Logic.Relation
import PatchTyping.Proofs.PartitionClasses

/-!
# Partitions presented by demands

Demands are imposed on a partition in some order. As long as none is refused, the partition is presented
by the demands alone: two keys share a class exactly when the equations connect them, and a class holds
a value exactly when one of its keys is demanded to have it. So the order does not matter. A demand is
refused only if no assignment satisfies it together with those accepted before.
-/

namespace PatchTyping
namespace ValuedPartition

open Relation (EqvGen)

variable {K V : Type}

/-- An assignment meets equations between keys and values of keys. -/
structure Satisfies (σ : K → V) (E : K → K → Prop) (S : K → V → Prop) : Prop where
  equation {a b : K} : E a b → σ a = σ b
  value {k : K} {v : V} : S k v → σ k = v

theorem Satisfies.eqvGen {σ : K → V} {E : K → K → Prop} {S : K → V → Prop} (h : Satisfies σ E S)
    {a b : K} (hab : EqvGen E a b) : σ a = σ b := by
  induction hab with
  | rel _ _ h' => exact h.equation h'
  | refl _ => rfl
  | symm _ _ _ ih => exact ih.symm
  | trans _ _ _ _ _ ih ih' => exact ih.trans ih'

private theorem eqvGen_or_eq_iff {E : K → K → Prop} {a b k l : K} :
    EqvGen (fun x y => E x y ∨ (x = a ∧ y = b)) k l ↔
      EqvGen E k l ∨ (EqvGen E k a ∧ EqvGen E b l) ∨ (EqvGen E k b ∧ EqvGen E a l) := by
  have hsub : ∀ {x y}, EqvGen E x y → EqvGen (fun x y => E x y ∨ (x = a ∧ y = b)) x y :=
    fun h => EqvGen.mono (fun _ _ => .inl) _ _ h
  have hab : EqvGen (fun x y => E x y ∨ (x = a ∧ y = b)) a b := .rel _ _ (.inr ⟨rfl, rfl⟩)
  constructor
  · intro h
    induction h with
    | rel x y h' =>
      rcases h' with h' | ⟨rfl, rfl⟩
      · exact .inl (.rel _ _ h')
      · exact .inr (.inl ⟨.refl _, .refl _⟩)
    | refl x => exact .inl (.refl x)
    | symm x y _ ih =>
      rcases ih with ih | ⟨hx, hy⟩ | ⟨hx, hy⟩
      · exact .inl ih.symm
      · exact .inr (.inr ⟨hy.symm, hx.symm⟩)
      · exact .inr (.inl ⟨hy.symm, hx.symm⟩)
    | trans x y z _ _ ih ih' =>
      rcases ih with ih | ⟨hx, hy⟩ | ⟨hx, hy⟩ <;> rcases ih' with ih' | ⟨hy', hz⟩ | ⟨hy', hz⟩
      · exact .inl (ih.trans _ _ _ ih')
      · exact .inr (.inl ⟨ih.trans _ _ _ hy', hz⟩)
      · exact .inr (.inr ⟨ih.trans _ _ _ hy', hz⟩)
      · exact .inr (.inl ⟨hx, hy.trans _ _ _ ih'⟩)
      · exact .inr (.inl ⟨hx, hz⟩)
      · exact .inl (hx.trans _ _ _ hz)
      · exact .inr (.inr ⟨hx, hy.trans _ _ _ ih'⟩)
      · exact .inl (hx.trans _ _ _ hz)
      · exact .inr (.inr ⟨hx, hz⟩)
  · rintro (h | ⟨hk, hl⟩ | ⟨hk, hl⟩)
    · exact hsub h
    · exact ((hsub hk).trans _ _ _ hab).trans _ _ _ (hsub hl)
    · exact ((hsub hk).trans _ _ _ hab.symm).trans _ _ _ (hsub hl)

private theorem eqvGen_joined_iff {E : K → K → Prop} {a b k l : K}
    (hl : EqvGen E a l ∨ EqvGen E b l) :
    EqvGen (fun x y => E x y ∨ (x = a ∧ y = b)) k l ↔ EqvGen E k a ∨ EqvGen E k b := by
  rw [eqvGen_or_eq_iff]
  rcases hl with hal | hbl
  · constructor
    · rintro (hkl | ⟨hka, -⟩ | ⟨hkb, -⟩)
      · exact .inl (hkl.trans _ _ _ hal.symm)
      · exact .inl hka
      · exact .inr hkb
    · rintro (hka | hkb)
      · exact .inl (hka.trans _ _ _ hal)
      · exact .inr (.inr ⟨hkb, hal⟩)
  · constructor
    · rintro (hkl | ⟨hka, -⟩ | ⟨hkb, -⟩)
      · exact .inr (hkl.trans _ _ _ hbl.symm)
      · exact .inl hka
      · exact .inr hkb
    · rintro (hka | hkb)
      · exact .inr (.inl ⟨hka, hbl⟩)
      · exact .inl (hkb.trans _ _ _ hbl)

variable [Ord K] [Std.TransOrd K]

/-- The partition is exactly what the equations and values demand. -/
structure Presents (p : ValuedPartition K V) (E : K → K → Prop) (S : K → V → Prop) : Prop where
  wellFormed : p.WellFormed
  equation {a b : K} : E a b → p.Registered a ∧ p.Registered b
  source {k : K} {v : V} : S k v → p.Registered k
  same_iff {a b : K} : p.Same a b ↔ p.Registered a ∧ p.Registered b ∧ EqvGen E a b
  value_iff {a : K} {v : V} : p.value? a = some v ↔ ∃ k, S k v ∧ EqvGen E k a

namespace Presents

variable {p : ValuedPartition K V} {E : K → K → Prop} {S : K → V → Prop}

theorem value_eq (h : p.Presents E S) {σ : K → V} (hσ : Satisfies σ E S) {a : K} {v : V}
    (ha : p.value? a = some v) : σ a = v := by
  obtain ⟨k, hk, hka⟩ := h.value_iff.mp ha
  rw [← hσ.eqvGen hka, hσ.value hk]

/-- Classes without a value may be filled in at will. -/
theorem satisfies_fill (h : p.Presents E S) {f : K → V}
    (hf : ∀ a b, p.Same a b → p.value? a = none → f a = f b) :
    Satisfies (fun k => (p.value? k).getD (f k)) E S where
  equation {a b} hab := by
    have hreg := h.equation hab
    have hsame : p.Same a b := h.same_iff.mpr ⟨hreg.1, hreg.2, .rel _ _ hab⟩
    rw [← hsame.value?_eq]
    cases ha : p.value? a with
    | none => exact hf a b hsame ha
    | some v => rfl
  value {k v} hk := by
    have hv : p.value? k = some v := h.value_iff.mpr ⟨k, hk, .refl k⟩
    simp [hv]

theorem exists_satisfies (h : p.Presents E S) (d : V) :
    ∃ σ, Satisfies σ E S ∧ ∀ k, p.value? k = none → σ k = d :=
  ⟨_, h.satisfies_fill (fun _ _ _ _ => rfl : ∀ a b, _ → _ → (fun _ => d) a = (fun _ => d) b),
    fun k hk => by simp [hk]⟩

theorem empty : (empty : ValuedPartition K V).Presents (fun _ _ => False) fun _ _ => False where
  wellFormed := WellFormed.empty
  equation := False.elim
  source := False.elim
  same_iff {a b} := by simp [Same, root?, slot?, Registered, ValuedPartition.empty]
  value_iff {a v} := by simp [value?, root?, slot?, ValuedPartition.empty]

private theorem eqvGen_eq_or_registered (h : p.Presents E S) {a b : K} (hab : EqvGen E a b) :
    a = b ∨ p.Registered a ∧ p.Registered b := by
  induction hab with
  | rel _ _ h' => exact .inr (h.equation h')
  | refl _ => exact .inl rfl
  | symm _ _ _ ih => exact ih.imp Eq.symm And.symm
  | trans _ _ _ _ _ ih ih' =>
    rcases ih with rfl | ih
    · exact ih'
    · rcases ih' with rfl | ih'
      · exact .inr ih
      · exact .inr ⟨ih.1, ih'.2⟩

theorem same_iff_eqvGen (h : p.Presents E S) {a b : K} (ha : p.Registered a) :
    p.Same a b ↔ EqvGen E a b := by
  rw [h.same_iff]
  refine ⟨fun hab => hab.2.2, fun hab => ⟨ha, ?_, hab⟩⟩
  rcases h.eqvGen_eq_or_registered hab with rfl | hreg
  · exact ha
  · exact hreg.2

variable [Std.LawfulEqOrd K]

theorem register (h : p.Presents E S) (k : K) : (p.register k).Presents E S where
  wellFormed := h.wellFormed.register k
  equation hab := by
    have hreg := h.equation hab
    simp [hreg]
  source hk := by simp [h.source hk]
  value_iff := by
    intro a v
    rw [value?_register h.wellFormed]
    exact h.value_iff
  same_iff := by
    intro a b
    rw [same_register_iff h.wellFormed, h.same_iff, registered_register, registered_register]
    constructor
    · rintro (⟨ha, hb, hab⟩ | ⟨rfl, rfl⟩)
      · exact ⟨.inr ha, .inr hb, hab⟩
      · exact ⟨.inl rfl, .inl rfl, .refl _⟩
    · rintro ⟨ha, hb, hab⟩
      rcases h.eqvGen_eq_or_registered hab with rfl | hreg
      · rcases ha with rfl | ha
        · exact .inr ⟨rfl, rfl⟩
        · exact .inl ⟨ha, ha, hab⟩
      · exact .inl ⟨hreg.1, hreg.2, hab⟩

variable [DecidableEq V]

theorem union_accepted (h : p.Presents E S) {a b : K} (ha : p.Registered a) (hb : p.Registered b)
    (hu : (p.union a b).1 = none) :
    (p.union a b).2.Presents (fun x y => E x y ∨ (x = a ∧ y = b)) S ∧
      ∀ k, (p.union a b).2.Registered k ↔ p.Registered k := by
  rcases mergedValue_cases (p.value? a) (p.value? b) with ⟨u, hm⟩ | ⟨v, w, hva, hvb, hvw⟩
  case inr =>
    rw [(h.wellFormed.union_of_ne hva hvb hvw).1] at hu
    cases hu
  obtain ⟨-, hwf, hmerged⟩ := h.wellFormed.union_of_merged hm
  rw [register_of_registered ha, register_of_registered hb] at hmerged
  have hreg : ∀ k, (p.union a b).2.Registered k ↔ p.Registered k := by
    intro k
    rw [← same_self_iff, hmerged.same_iff, ← same_self_iff]
    refine ⟨?_, .inl⟩
    rintro (hk | ⟨hk, -⟩ | ⟨hk, -⟩)
    · exact hk
    · exact hk.trans hk.symm
    · exact hk.trans hk.symm
  refine ⟨⟨hwf, ?_, ?_, ?_, ?_⟩, hreg⟩
  · rintro x y (hxy | ⟨rfl, rfl⟩)
    · simpa only [hreg] using h.equation hxy
    · simp only [hreg, ha, hb, and_self]
  · intro k v hk
    exact (hreg k).mpr (h.source hk)
  · intro k l
    rw [hmerged.same_iff, hreg, hreg, eqvGen_or_eq_iff, h.same_iff, h.same_iff, h.same_iff, h.same_iff,
      h.same_iff]
    grind
  · intro k v
    have hjoined : p.Same k a ∨ p.Same k b ↔ EqvGen E a k ∨ EqvGen E b k := by
      rw [← h.same_iff_eqvGen ha, ← h.same_iff_eqvGen hb]
      exact or_congr ⟨Same.symm, Same.symm⟩ ⟨Same.symm, Same.symm⟩
    by_cases hk : p.Same k a ∨ p.Same k b
    · rw [hmerged.value?_of_same k hk, mergedValue_eq_some_iff hm, h.value_iff, h.value_iff]
      simp only [eqvGen_joined_iff (hjoined.mp hk), and_or_left, exists_or]
    · have hne := not_or.mp (mt hjoined.mpr hk)
      rw [not_or] at hk
      rw [hmerged.value?_of_not_same k hk.1 hk.2, h.value_iff]
      simp only [eqvGen_or_eq_iff, hne.1, hne.2, and_false, or_false]

/-- A refused equation holds under no assignment that satisfies the rest. -/
theorem union_refused (h : p.Presents E S) {a b : K} {c : Conflict V}
    (hu : (p.union a b).1 = some c) {σ : K → V} (hσ : Satisfies σ E S) : σ a ≠ σ b := by
  rcases mergedValue_cases (p.value? a) (p.value? b) with ⟨u, hm⟩ | ⟨v, w, hva, hvb, hvw⟩
  · rw [(h.wellFormed.union_of_merged hm).1] at hu
    cases hu
  · rw [h.value_eq hσ hva, h.value_eq hσ hvb]
    exact hvw

omit [Std.LawfulEqOrd K] [DecidableEq V] in
private theorem of_same (h : p.Presents E S) {q : ValuedPartition K V} {T : K → V → Prop}
    (hq : q.WellFormed) (hsame : ∀ a b, q.Same a b ↔ p.Same a b)
    (hT : ∀ k v, T k v → p.Registered k)
    (hvalue : ∀ a v, q.value? a = some v ↔ ∃ k, T k v ∧ EqvGen E k a) :
    q.Presents E T ∧ ∀ k, q.Registered k ↔ p.Registered k := by
  have hreg : ∀ k, q.Registered k ↔ p.Registered k := by
    intro k
    rw [← same_self_iff, hsame, same_self_iff]
  refine ⟨⟨hq, ?_, ?_, ?_, ?_⟩, hreg⟩
  · intro a b hab
    simpa only [hreg] using h.equation hab
  · intro k v hk
    exact (hreg k).mpr (hT k v hk)
  · intro a b
    rw [hsame, hreg, hreg, h.same_iff]
  · intro a v
    exact hvalue a v

theorem assign_accepted (h : p.Presents E S) {k : K} (hk : p.Registered k) {v : V}
    (ha : (p.assign k v).1 = none) :
    (p.assign k v).2.Presents E (fun x w => S x w ∨ (x = k ∧ w = v)) ∧
      ∀ l, (p.assign k v).2.Registered l ↔ p.Registered l := by
  have hsource : ∀ x w, S x w ∨ (x = k ∧ w = v) → p.Registered x := by
    rintro x w (hx | ⟨rfl, -⟩)
    · exact h.source hx
    · exact hk
  cases hv : p.value? k with
  | some w =>
    obtain ⟨hres, hwf, hsame⟩ := h.wellFormed.assign_of_some hv v
    rw [register_of_registered hk] at hsame
    have hwv : w = v := by
      by_contra hne
      rw [hres, if_neg hne] at ha
      cases ha
    refine h.of_same hwf hsame.same_iff hsource fun a u => ?_
    rw [hsame.value?, h.value_iff]
    constructor
    · rintro ⟨x, hx, hxa⟩
      exact ⟨x, .inl hx, hxa⟩
    · rintro ⟨x, hx | ⟨rfl, rfl⟩, hxa⟩
      · exact ⟨x, hx, hxa⟩
      · obtain ⟨y, hy, hyx⟩ := h.value_iff.mp (hwv ▸ hv)
        exact ⟨y, hy, hyx.trans _ _ _ hxa⟩
  | none =>
    obtain ⟨-, hwf, hsame, hin, hout⟩ := h.wellFormed.assign_of_none hv v
    rw [register_of_registered hk] at hsame hin hout
    refine h.of_same hwf hsame hsource fun a u => ?_
    by_cases hak : p.Same a k
    · have hka := (h.same_iff_eqvGen hk).mp hak.symm
      rw [hin a hak]
      constructor
      · intro hu
        exact ⟨k, .inr ⟨rfl, (Option.some.inj hu).symm⟩, hka⟩
      · rintro ⟨x, hx | ⟨-, rfl⟩, hxa⟩
        · have hxk : p.value? k = some u := h.value_iff.mpr ⟨x, hx, hxa.trans _ _ _ hka.symm⟩
          rw [hv] at hxk
          cases hxk
        · rfl
    · rw [hout a hak, h.value_iff]
      constructor
      · rintro ⟨x, hx, hxa⟩
        exact ⟨x, .inl hx, hxa⟩
      · rintro ⟨x, hx | ⟨rfl, rfl⟩, hxa⟩
        · exact ⟨x, hx, hxa⟩
        · exact absurd ((h.same_iff_eqvGen hk).mpr hxa).symm hak

/-- A refused value is taken under no assignment that satisfies the rest. -/
theorem assign_refused (h : p.Presents E S) {k : K} {v : V} {c : Conflict V}
    (ha : (p.assign k v).1 = some c) {σ : K → V} (hσ : Satisfies σ E S) : σ k ≠ v := by
  cases hv : p.value? k with
  | none =>
    rw [(h.wellFormed.assign_of_none hv v).1] at ha
    cases ha
  | some w =>
    rw [h.value_eq hσ hv]
    intro hwv
    rw [(h.wellFormed.assign_of_some hv v).1, if_pos hwv] at ha
    cases ha

end Presents

/-! ### Runs of demands -/

/-- Something that is demanded of a partition. -/
inductive Demand (K V : Type) where
  | equal (a b : K)
  | holds (k : K) (v : V)

namespace Demand

def keys : Demand K V → List K
  | equal a b => [a, b]
  | holds k _ => [k]

variable [DecidableEq V]

def impose (p : ValuedPartition K V) : Demand K V → Option (Conflict V) × ValuedPartition K V
  | equal a b => p.union a b
  | holds k v => p.assign k v

/-- What becomes of a partition when demands are imposed in order, refused ones included. -/
def run (p : ValuedPartition K V) (ds : List (Demand K V)) : ValuedPartition K V :=
  ds.foldl (fun p d => (d.impose p).2) p

/-- No demand is refused on the way. -/
def Accepted : List (Demand K V) → ValuedPartition K V → Prop
  | [], _ => True
  | d :: ds, p => (d.impose p).1 = none ∧ Accepted ds (d.impose p).2

@[simp] theorem run_nil (p : ValuedPartition K V) : run p [] = p := rfl

@[simp] theorem run_cons (p : ValuedPartition K V) (d : Demand K V) (ds : List (Demand K V)) :
    run p (d :: ds) = run (d.impose p).2 ds := rfl

theorem run_append (p : ValuedPartition K V) (ds es : List (Demand K V)) :
    run p (ds ++ es) = run (run p ds) es := by
  simp [run, List.foldl_append]

theorem accepted_append (p : ValuedPartition K V) (ds es : List (Demand K V)) :
    Accepted (ds ++ es) p ↔ Accepted ds p ∧ Accepted es (run p ds) := by
  induction ds generalizing p with
  | nil => simp [Accepted]
  | cons d ds ih => simp [Accepted, ih, and_assoc]

end Demand

section Runs

variable [Std.LawfulEqOrd K] [DecidableEq V]

theorem WellFormed.impose {p : ValuedPartition K V} (hp : p.WellFormed) (d : Demand K V) :
    (d.impose p).2.WellFormed ∧ ∀ k, p.Registered k → (d.impose p).2.Registered k := by
  cases d with
  | equal a b =>
    have hreg : ∀ k, p.Registered k → ((p.register a).register b).Registered k := by
      intro k hk
      simp [hk]
    rcases mergedValue_cases (p.value? a) (p.value? b) with ⟨u, hm⟩ | ⟨v, w, hva, hvb, hvw⟩
    · obtain ⟨-, hwf, hmerged⟩ := hp.union_of_merged hm
      refine ⟨hwf, fun k hk => ?_⟩
      rw [← same_self_iff]
      exact (hmerged.same_iff k k).mpr (.inl (same_self_iff.mpr (hreg k hk)))
    · obtain ⟨-, hwf, hsame⟩ := hp.union_of_ne hva hvb hvw
      refine ⟨hwf, fun k hk => ?_⟩
      rw [← same_self_iff]
      exact (hsame.same_iff k k).mpr (same_self_iff.mpr (hreg k hk))
  | holds k v =>
    have hreg : ∀ l, p.Registered l → (p.register k).Registered l := by
      intro l hl
      simp [hl]
    cases hv : p.value? k with
    | none =>
      obtain ⟨-, hwf, hsame, -, -⟩ := hp.assign_of_none hv v
      refine ⟨hwf, fun l hl => ?_⟩
      rw [← same_self_iff]
      exact (hsame l l).mpr (same_self_iff.mpr (hreg l hl))
    | some w =>
      obtain ⟨-, hwf, hsame⟩ := hp.assign_of_some hv v
      refine ⟨hwf, fun l hl => ?_⟩
      rw [← same_self_iff]
      exact (hsame.same_iff l l).mpr (same_self_iff.mpr (hreg l hl))

theorem WellFormed.run {p : ValuedPartition K V} (hp : p.WellFormed) (ds : List (Demand K V)) :
    (Demand.run p ds).WellFormed ∧ ∀ k, p.Registered k → (Demand.run p ds).Registered k := by
  induction ds generalizing p with
  | nil => exact ⟨hp, fun _ => id⟩
  | cons d ds ih =>
    obtain ⟨hwf, hreg⟩ := hp.impose d
    obtain ⟨hwf', hreg'⟩ := ih hwf
    exact ⟨hwf', fun k hk => hreg' k (hreg k hk)⟩

namespace Presents

variable {p : ValuedPartition K V} {E : K → K → Prop} {S : K → V → Prop}

omit [Std.LawfulEqOrd K] [DecidableEq V] in
private theorem congr {E' : K → K → Prop} {S' : K → V → Prop} (h : p.Presents E S)
    (hE : ∀ a b, E a b ↔ E' a b) (hS : ∀ k v, S k v ↔ S' k v) : p.Presents E' S' := by
  have hE' : E = E' := funext fun a => funext fun b => propext (hE a b)
  have hS' : S = S' := funext fun k => funext fun v => propext (hS k v)
  exact hE' ▸ hS' ▸ h

/-- Accepting a demand adds it to what presents the partition. -/
theorem impose (h : p.Presents E S) {d : Demand K V} (hd : ∀ k ∈ d.keys, p.Registered k)
    (ha : (d.impose p).1 = none) :
    (d.impose p).2.Presents (fun a b => E a b ∨ Demand.equal a b = d)
        (fun k v => S k v ∨ Demand.holds k v = d) ∧
      ∀ k, (d.impose p).2.Registered k ↔ p.Registered k := by
  cases d with
  | equal a b =>
    obtain ⟨h', hreg⟩ := h.union_accepted (hd a (by simp [Demand.keys]))
      (hd b (by simp [Demand.keys])) ha
    exact ⟨h'.congr (by simp) (by simp), hreg⟩
  | holds k v =>
    obtain ⟨h', hreg⟩ := h.assign_accepted (hd k (by simp [Demand.keys])) ha
    exact ⟨h'.congr (by simp) (by simp), hreg⟩

/-- Demands that are all accepted present the partition, in whatever order they came. -/
theorem run (h : p.Presents E S) {ds : List (Demand K V)}
    (hds : ∀ d ∈ ds, ∀ k ∈ d.keys, p.Registered k) (ha : Demand.Accepted ds p) :
    (Demand.run p ds).Presents (fun a b => E a b ∨ .equal a b ∈ ds)
        (fun k v => S k v ∨ .holds k v ∈ ds) ∧
      ∀ k, (Demand.run p ds).Registered k ↔ p.Registered k := by
  induction ds generalizing p E S with
  | nil => exact ⟨h.congr (by simp) (by simp), fun _ => Iff.rfl⟩
  | cons d ds ih =>
    obtain ⟨h', hreg⟩ := h.impose (hds d (by simp)) ha.1
    have hds' : ∀ e ∈ ds, ∀ k ∈ e.keys, (d.impose p).2.Registered k := by
      intro e he k hk
      exact (hreg k).mpr (hds e (by simp [he]) k hk)
    obtain ⟨h'', hreg'⟩ := ih h' hds' ha.2
    exact ⟨h''.congr (by simp [or_assoc]) (by simp [or_assoc]),
      fun k => (hreg' k).trans (hreg k)⟩

/-- Demands that some assignment satisfies are all accepted. -/
theorem accepted (h : p.Presents E S) {ds : List (Demand K V)}
    (hds : ∀ d ∈ ds, ∀ k ∈ d.keys, p.Registered k) {σ : K → V}
    (hσ : Satisfies σ (fun a b => E a b ∨ .equal a b ∈ ds) fun k v => S k v ∨ .holds k v ∈ ds) :
    Demand.Accepted ds p := by
  induction ds generalizing p E S with
  | nil => trivial
  | cons d ds ih =>
    have hbase : Satisfies σ E S := ⟨fun hab => hσ.equation (.inl hab), fun hk => hσ.value (.inl hk)⟩
    have hfirst : (d.impose p).1 = none := by
      cases hd : (d.impose p).1 with
      | none => rfl
      | some c =>
        cases d with
        | equal a b => exact absurd (hσ.equation (.inr (by simp))) (h.union_refused hd hbase)
        | holds k v => exact absurd (hσ.value (.inr (by simp))) (h.assign_refused hd hbase)
    obtain ⟨h', hreg⟩ := h.impose (hds d (by simp)) hfirst
    refine ⟨hfirst, ih h' ?_ ⟨?_, ?_⟩⟩
    · intro e he k hk
      exact (hreg k).mpr (hds e (by simp [he]) k hk)
    · rintro a b ((hab | hab) | hab)
      · exact hσ.equation (.inl hab)
      · exact hσ.equation (.inr (by simp [hab]))
      · exact hσ.equation (.inr (by simp [hab]))
    · rintro k v ((hk | hk) | hk)
      · exact hσ.value (.inl hk)
      · exact hσ.value (.inr (by simp [hk]))
      · exact hσ.value (.inr (by simp [hk]))

omit [DecidableEq V] in
theorem registerAll (ks : List K) :
    (ks.foldl ValuedPartition.register (.empty : ValuedPartition K V)).Presents
        (fun _ _ => False) (fun _ _ => False) ∧
      ∀ k, (ks.foldl ValuedPartition.register (.empty : ValuedPartition K V)).Registered k ↔
        k ∈ ks := by
  have hstep : ∀ (q : ValuedPartition K V), q.Presents (fun _ _ => False) (fun _ _ => False) →
      (ks.foldl ValuedPartition.register q).Presents (fun _ _ => False) (fun _ _ => False) ∧
        ∀ k, (ks.foldl ValuedPartition.register q).Registered k ↔ k ∈ ks ∨ q.Registered k := by
    induction ks with
    | nil => intro q hq; exact ⟨hq, by simp⟩
    | cons l ks ih =>
      intro q hq
      obtain ⟨h', hreg⟩ := ih _ (hq.register l)
      refine ⟨h', fun k => ?_⟩
      rw [List.foldl_cons, hreg, registered_register, List.mem_cons]
      tauto
  obtain ⟨h', hreg⟩ := hstep _ Presents.empty
  refine ⟨h', fun k => ?_⟩
  rw [hreg]
  simp [Registered, slot?, ValuedPartition.empty]

end Presents

end Runs

end ValuedPartition
end PatchTyping
