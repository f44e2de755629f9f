import Mathlib.Algebra.BigOperators.Group.Finset.Piecewise
import Mathlib.Algebra.Order.BigOperators.Group.Finset
import Mathlib.Data.Fintype.BigOperators

/-!
# Sums over the components of a state

A concurrent state is a family `g : ι → β` of local states; a step replaces one of them. What is summed or counted over
the family changes by the difference at that component:

- `sum_update`: the sum after the step plus the old summand is the sum before it plus the new summand;
- `count`, `count_update`, `count_pos`: the number of components with a property;
- `count_add_le`: two properties that exclude each other.
-/

namespace Counting

open Finset

variable {ι β M : Type*} [Fintype ι]

section Update

variable [DecidableEq ι]

/-- The sum of a family after a replacement at `i`. -/
theorem sum_update [AddCommMonoid M] (f : β → M) (g : ι → β) (i : ι) (x : β) :
    ∑ j, f (Function.update g i x j) + f (g i) = ∑ j, f (g j) + f x := by
  have h₁ := add_sum_erase univ (fun j => f (Function.update g i x j)) (mem_univ i)
  have h₂ := add_sum_erase univ (fun j => f (g j)) (mem_univ i)
  have hrest : ∑ j ∈ univ.erase i, f (Function.update g i x j) = ∑ j ∈ univ.erase i, f (g j) :=
    sum_congr rfl (fun j hj => by rw [Function.update_of_ne (ne_of_mem_erase hj)])
  rw [← h₁, ← h₂, hrest, Function.update_self]
  ac_rfl

/-- A replacement that keeps the summand keeps the sum. -/
theorem sum_update_same [AddCommMonoid M] (f : β → M) (g : ι → β) {i : ι} {x : β} (h : f x = f (g i)) :
    ∑ j, f (Function.update g i x j) = ∑ j, f (g j) :=
  sum_congr rfl (fun j _ => by
    rcases eq_or_ne j i with rfl | hj
    · rw [Function.update_self, h]
    · rw [Function.update_of_ne hj])

end Update

/-- The number of components with the property `p`. -/
def count (p : β → Bool) (g : ι → β) : Nat := ∑ j, (p (g j)).toNat

theorem count_pos {p : β → Bool} {g : ι → β} {i : ι} (h : p (g i) = true) : 0 < count p g := by
  have hle : (p (g i)).toNat ≤ count p g :=
    single_le_sum (f := fun j => (p (g j)).toNat) (fun _ _ => Nat.zero_le _) (mem_univ i)
  rw [h] at hle
  exact hle

/-- A component with the property, where the count is positive. -/
theorem exists_of_count_pos {p : β → Bool} {g : ι → β} (h : 0 < count p g) : ∃ i, p (g i) = true := by
  by_contra hne
  have hz : count p g = 0 := sum_eq_zero (fun j _ => by
    have hj : p (g j) = false := by
      cases hp : p (g j)
      · rfl
      · exact absurd ⟨j, hp⟩ hne
    simp [hj])
  omega

theorem count_update [DecidableEq ι] (p : β → Bool) (g : ι → β) (i : ι) (x : β) :
    count p (Function.update g i x) + (p (g i)).toNat = count p g + (p x).toNat :=
  sum_update (fun b => (p b).toNat) g i x

/-- Two properties that exclude each other. -/
theorem count_add_le {p q : β → Bool} {g : ι → β} (h : ∀ i, p (g i) = true → q (g i) = false) :
    count p g + count q g ≤ Fintype.card ι := by
  have hone : ∀ i ∈ univ, (p (g i)).toNat + (q (g i)).toNat ≤ 1 := by
    intro i _
    cases hp : p (g i) with
    | false => simpa using Bool.toNat_le (q (g i))
    | true => simp [h i hp]
  calc count p g + count q g
      = ∑ i, ((p (g i)).toNat + (q (g i)).toNat) := sum_add_distrib.symm
    _ ≤ ∑ _i : ι, 1 := sum_le_sum hone
    _ = Fintype.card ι := by simp

end Counting
