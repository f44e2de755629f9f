import Mathlib.Logic.Function.Basic

/-!
# Cells with owners

Threads share a family of cells, and each cell has at most one owner: the thread it was made for, or the holder of its
lock. What is known of a thread speaks of its own state and of its own cells only (`view`), what is known of a cell
without an owner is the resource invariant of its lock.

- `view_eq`: a thread's view stays as it is where its cells do;
- `Inv.step`: a step of one thread, which changes its own cells, takes free ones and gives own ones back, needs a proof
  for that thread and for what it gives back, and nothing for the others;
- `Inv.write`, `Inv.acquire`, `Inv.release`, `Inv.renew`, `Inv.mono`: the rules for the single kinds of steps.
-/

namespace Ownership

variable {W L β τ : Type*} [DecidableEq W]

/-- The cells of one thread. -/
def view (own : L → Option W) (cell : L → β) (w : W) (l : L) : Option β :=
  if own l = some w then some (cell l) else none

variable {own own' : L → Option W} {cell cell' : L → β} {th th' : W → τ} {w : W}

theorem view_of_own {l : L} (h : own l = some w) : view own cell w l = some (cell l) := if_pos h

theorem view_of_not_own {l : L} (h : own l ≠ some w) : view own cell w l = none := if_neg h

theorem own_of_view {l : L} {x : β} (h : view own cell w l = some x) : own l = some w ∧ cell l = x := by
  unfold view at h
  split at h
  · rename_i ho
    exact ⟨ho, Option.some_inj.1 h⟩
  · cases h

theorem view_eq (h : ∀ l, own' l = some w ↔ own l = some w) (h' : ∀ l, own l = some w → cell' l = cell l) :
    view own' cell' w = view own cell w := by
  funext l
  by_cases ho : own l = some w
  · rw [view_of_own ho, view_of_own ((h l).2 ho), h' l ho]
  · rw [view_of_not_own ho, view_of_not_own (fun hn => ho ((h l).1 hn))]

/-- Every thread is as `G` says, given its cells, and every free cell is as `R` says. -/
structure Inv (G : W → τ → (L → Option β) → Prop) (R : L → β → Prop) (own : L → Option W) (cell : L → β)
    (th : W → τ) : Prop where
  local' : ∀ w, G w (th w) (view own cell w)
  free : ∀ l, own l = none → R l (cell l)

/-- **One thread moves.** -/
theorem Inv.step {G : W → τ → (L → Option β) → Prop} {R : L → β → Prop} (h : Inv G R own cell th) (w : W)
    (hth : ∀ v, v ≠ w → th' v = th v) (hothers : ∀ l v, v ≠ w → own l = some v → own' l = some v ∧ cell' l = cell l)
    (hnew : ∀ l v, own' l = some v → own l = some v ∨ v = w)
    (hfree : ∀ l, own' l = none → (own l = none ∧ cell' l = cell l) ∨ R l (cell' l))
    (hG : G w (th' w) (view own' cell' w)) : Inv G R own' cell' th' := by
  constructor
  · intro v
    by_cases hv : v = w
    · rw [hv]
      exact hG
    · have hview : view own' cell' v = view own cell v := by
        apply view_eq
        · intro l
          constructor
          · intro hl
            exact (hnew l v hl).resolve_right hv
          · intro hl
            exact (hothers l v hv hl).1
        · intro l hl
          exact (hothers l v hv hl).2
      rw [hview, hth v hv]
      exact h.local' v
  · intro l hl
    rcases hfree l hl with ⟨ho, hc⟩ | hr
    · rw [hc]
      exact h.free l ho
    · exact hr

section Rules

variable {G : W → τ → (L → Option β) → Prop} {R : L → β → Prop}

/-- A thread changes its own cells. -/
theorem Inv.write (h : Inv G R own cell th) (w : W) (hth : ∀ v, v ≠ w → th' v = th v)
    (hcell : ∀ l, own l ≠ some w → cell' l = cell l) (hG : G w (th' w) (view own cell' w)) : Inv G R own cell' th' := by
  apply h.step w hth _ (fun l v hl => Or.inl hl) _ hG
  · intro l v hv hl
    exact ⟨hl, hcell l (by rw [hl]; exact fun he => hv (Option.some_inj.1 he))⟩
  · intro l hl
    exact Or.inl ⟨hl, hcell l (by rw [hl]; simp)⟩

/-- A thread takes a free cell, and may change it. -/
theorem Inv.acquire [DecidableEq L] (h : Inv G R own cell th) (w : W) {l : L} (hl : own l = none) {x : β}
    (hth : ∀ v, v ≠ w → th' v = th v)
    (hG : G w (th' w) (view (Function.update own l (some w)) (Function.update cell l x) w)) :
    Inv G R (Function.update own l (some w)) (Function.update cell l x) th' := by
  apply h.step w hth _ _ _ hG
  · intro l' v hv hl'
    have hne : l' ≠ l := by rintro rfl; rw [hl] at hl'; cases hl'
    exact ⟨by rw [Function.update_of_ne hne]; exact hl', Function.update_of_ne hne x cell⟩
  · intro l' v hl'
    by_cases hne : l' = l
    · rw [hne, Function.update_self] at hl'
      exact Or.inr (Option.some_inj.1 hl').symm
    · rw [Function.update_of_ne hne] at hl'
      exact Or.inl hl'
  · intro l' hl'
    have hne : l' ≠ l := by rintro rfl; rw [Function.update_self] at hl'; cases hl'
    rw [Function.update_of_ne hne] at hl'
    exact Or.inl ⟨hl', Function.update_of_ne hne x cell⟩

/-- A thread gives one of its cells back. -/
theorem Inv.release [DecidableEq L] (h : Inv G R own cell th) (w : W) {l : L} (hl : own l = some w)
    (hR : R l (cell l)) (hth : ∀ v, v ≠ w → th' v = th v)
    (hG : G w (th' w) (view (Function.update own l none) cell w)) :
    Inv G R (Function.update own l none) cell th' := by
  apply h.step w hth _ _ _ hG
  · intro l' v hv hl'
    have hne : l' ≠ l := by rintro rfl; rw [hl] at hl'; exact hv (Option.some_inj.1 hl').symm
    exact ⟨by rw [Function.update_of_ne hne]; exact hl', rfl⟩
  · intro l' v hl'
    by_cases hne : l' = l
    · rw [hne, Function.update_self] at hl'
      cases hl'
    · rw [Function.update_of_ne hne] at hl'
      exact Or.inl hl'
  · intro l' hl'
    by_cases hne : l' = l
    · rw [hne]
      exact Or.inr hR
    · rw [Function.update_of_ne hne] at hl'
      exact Or.inl ⟨hl', rfl⟩

/-- A free cell is replaced. -/
theorem Inv.renew [DecidableEq L] (h : Inv G R own cell th) {l : L} (hl : own l = none) {x : β} (hR : R l x) :
    Inv G R own (Function.update cell l x) th := by
  constructor
  · intro v
    have hview : view own (Function.update cell l x) v = view own cell v := by
      apply view_eq (fun _ => Iff.rfl)
      intro l' hl'
      have hne : l' ≠ l := by rintro rfl; rw [hl] at hl'; cases hl'
      exact Function.update_of_ne hne x cell
    rw [hview]
    exact h.local' v
  · intro l' hl'
    by_cases hne : l' = l
    · rw [hne, Function.update_self]
      exact hR
    · rw [Function.update_of_ne hne]
      exact h.free l' hl'

/-- Threads change without a look at their cells. -/
theorem Inv.mono (h : Inv G R own cell th) (hG : ∀ w v, G w (th w) v → G w (th' w) v) : Inv G R own cell th' :=
  ⟨fun w => hG w _ (h.local' w), h.free⟩

end Rules

end Ownership
