import PatchTyping.Proofs.PartitionRoots

/-!
# The loops of a look-up

A look-up climbs from parent to parent until it is at a root. Then it goes the same way again and sends every
slot on it straight to that root. Neither loop counts its rounds: the first ends because ranks grow on the way
up, the second because no slot that it redirects is met again. Both take as many rounds as there are steps to the
root, and these are no more than the rank of the root.
-/

namespace PatchTyping

/-- A loop that runs its body as long as its test holds. It stops in `t` after `n` rounds from `s`. -/
inductive LoopStops {S : Type} (test : S → Prop) (body : S → S) : Nat → S → S → Prop
  | stop {s : S} : ¬ test s → LoopStops test body 0 s s
  | round {n : Nat} {s t : S} :
      test s → LoopStops test body n (body s) t → LoopStops test body (n + 1) s t

namespace ValuedPartition

variable {K V : Type} [Ord K] {p : ValuedPartition K V} {n x y r : Nat}

/-- The loop from slot to parent, which goes on unless a slot is its own parent. -/
def ClimbStops (p : ValuedPartition K V) : Nat → Nat → Nat → Prop :=
  LoopStops (fun x => p.parent x ≠ x) p.parent

/-- The loop that redirects a slot and goes on with its former parent, unless that is the root. -/
def CompressStops (root : Nat) :
    Nat → ValuedPartition K V × Nat → ValuedPartition K V × Nat → Prop :=
  LoopStops (fun s => s.2 ≠ root)
    fun s => (s.1.mapCell s.2 fun c => { c with parent := root }, s.1.parent s.2)

/-- A bounded climb that arrives at a root is the loop. -/
private theorem climbStops_climb (h : p.parent (p.climb n x) = p.climb n x) :
    ∃ m ≤ n, p.ClimbStops m x (p.climb n x) := by
  induction n generalizing x with
  | zero => exact ⟨0, le_rfl, .stop (not_not.mpr h)⟩
  | succ n ih =>
    by_cases hx : p.parent x = x
    · have hc : p.climb (n + 1) x = x := by simp [climb, hx]
      rw [hc]
      exact ⟨0, Nat.zero_le _, .stop (not_not.mpr hx)⟩
    · have hc : p.climb (n + 1) x = p.climb n (p.parent x) := by simp [climb, hx]
      rw [hc] at h ⊢
      obtain ⟨m, hm, hstops⟩ := ih h
      exact ⟨m + 1, Nat.succ_le_succ hm, .round hx hstops⟩

theorem Grown.climbStops_rootAbove (hp : p.Grown) (x : Nat) :
    ∃ m ≤ p.cells.size, p.ClimbStops m x (p.rootAbove x) :=
  climbStops_climb (hp.parent_rootAbove x)

theorem ClimbStops.rank_add_le (h : p.ClimbStops n x r) (hp : p.Grown) :
    p.rank x + n ≤ p.rank r := by
  induction h with
  | stop => exact le_rfl
  | round hx _ ih =>
    have hlt := hp.rank_lt hx
    omega

theorem ClimbStops.rootAbove_eq (h : p.ClimbStops n x r) (hp : p.Grown) : p.rootAbove x = r := by
  induction h with
  | stop hx => exact rootAbove_of_root (not_not.mp hx)
  | round _ _ ih => exact (hp.rootAbove_parent _).symm.trans ih

/-- A climb from above a slot does not pass that slot, and so does not see where it is sent. -/
private theorem ClimbStops.redirect (h : p.ClimbStops n y r) (hp : p.Grown) (hx : x < p.cells.size)
    (hxy : p.rank x < p.rank y) (root : Nat) :
    (p.mapCell x fun c => { c with parent := root }).ClimbStops n y r := by
  have hpar : ∀ z, p.rank x < p.rank z →
      (p.mapCell x fun c => { c with parent := root }).parent z = p.parent z := by
    intro z hz
    have hne : x ≠ z := fun e => hz.ne (congrArg p.rank e)
    rw [parent_redirect p hx, if_neg hne]
  induction h with
  | stop hy =>
    refine .stop ?_
    rwa [hpar _ hxy]
  | @round n y r hy _ ih =>
    refine .round ?_ ?_
    · rwa [hpar y hxy]
    · rw [hpar y hxy]
      exact ih (hxy.trans (hp.rank_lt hy))

/-- The second loop takes as many rounds as the first, and any bound that lets it finish leaves what it
leaves. -/
theorem ClimbStops.compressStops {m : Nat} (h : p.ClimbStops n x r) (hp : p.Grown)
    (hx : x < p.cells.size) (hm : n ≤ m) :
    CompressStops r n (p, x) (p.compress r m x, r) := by
  induction n generalizing p x m with
  | zero =>
    cases h
    have hc : p.compress r m r = p := by cases m <;> simp [compress]
    rw [hc]
    exact .stop (by simp)
  | succ n ih =>
    have hr := h.rootAbove_eq hp
    cases h with
    | round hne hrest =>
      have hxr : x ≠ r := by
        rintro rfl
        exact hne (hr ▸ hp.parent_rootAbove x)
      obtain ⟨m, rfl⟩ : ∃ k, m = k + 1 := Nat.exists_eq_add_one.mpr (by omega)
      rw [compress, if_neg hxr]
      obtain ⟨hq, hsame⟩ := hp.redirect hx (hr ▸ hxr)
      rw [hr] at hq hsame
      have hrest' := ClimbStops.redirect hrest hp hx (hp.rank_lt hne) r
      exact .round hxr (ih hrest' hq (hsame.size ▸ hp.parent_lt hx) (Nat.le_of_succ_le_succ hm))

/-- Both loops of a look-up stop, at the root and with the compressed paths. -/
theorem Grown.loops_stop (hp : p.Grown) (hx : x < p.cells.size) :
    ∃ n ≤ p.rank (p.rootAbove x), p.ClimbStops n x (p.rootAbove x) ∧
      CompressStops (p.rootAbove x) n (p, x)
        (p.compress (p.rootAbove x) p.cells.size x, p.rootAbove x) := by
  obtain ⟨n, hn, hclimb⟩ := hp.climbStops_rootAbove x
  have hrank := hclimb.rank_add_le hp
  exact ⟨n, by omega, hclimb, hclimb.compressStops hp hx hn⟩

end ValuedPartition
end PatchTyping
