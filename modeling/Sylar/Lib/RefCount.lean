import Mathlib.Logic.Function.Basic
import Mathlib.Tactic.SplitIfs

/-!
# Counted references

Objects with a reference count each: a reference is copied (`hold`) or dropped (`drop`), the last drop destroys the
object (`bury`), and a new object starts with one reference. The owners of an object are counted apart from the counts.

- `Sound`: every count is the number of owners, what is not built yet has none, and what is dead has none and is `gone`;
- `Sound.keep`, `Sound.hold`, `Sound.drop`, `Sound.new`: the rules for the single kinds of steps. Only the last drop has
  to show that the object is gone.
-/

namespace RefCount

variable {L : Type*}

section Counts

variable [DecidableEq L]

/-- A reference is copied. -/
def hold (refs : L → Nat) (l : L) : L → Nat := Function.update refs l (refs l + 1)

/-- A reference is dropped. -/
def drop (refs : L → Nat) (l : L) : L → Nat := Function.update refs l (refs l - 1)

/-- The last reference that is dropped destroys the object. -/
def bury (refs : L → Nat) (dead : L → Bool) (l : L) : L → Bool :=
  if refs l = 1 then Function.update dead l true else dead

/-- One reference to `l`. -/
def one (l k : L) : Nat := if k = l then 1 else 0

theorem one_self (l : L) : one l l = 1 := if_pos rfl

theorem one_of_ne {l k : L} (h : k ≠ l) : one l k = 0 := if_neg h

theorem hold_apply (refs : L → Nat) (l k : L) : hold refs l k = refs k + one l k := by
  unfold hold
  by_cases hk : k = l
  · rw [hk, Function.update_self, one_self]
  · rw [Function.update_of_ne hk, one_of_ne hk]
    rfl

theorem drop_apply (refs : L → Nat) (l k : L) : drop refs l k = refs k - one l k := by
  unfold drop
  by_cases hk : k = l
  · rw [hk, Function.update_self, one_self]
  · rw [Function.update_of_ne hk, one_of_ne hk]
    rfl

end Counts

/-- The counts of the objects in `T` are right. -/
structure Sound (T fresh gone : L → Prop) (refs owners : L → Nat) (dead : L → Bool) : Prop where
  count : ∀ l, T l → refs l = owners l
  fresh : ∀ l, T l → fresh l → refs l = 0
  dead : ∀ l, T l → dead l = true → refs l = 0 ∧ gone l

section Rules

variable {T fresh fresh' gone gone' : L → Prop} {refs refs' owners owners' : L → Nat} {dead dead' : L → Bool}

/-- What has an owner is alive. -/
theorem Sound.alive (h : Sound T fresh gone refs owners dead) {l : L} (hl : T l) (ho : 0 < owners l) :
    dead l = false := by
  cases hd : dead l with
  | false => rfl
  | true =>
    have hcount := h.count l hl
    have hzero := (h.dead l hl hd).1
    omega

/-- References move from owner to owner, and what has no owner stays gone. -/
theorem Sound.keep (h : Sound T fresh gone refs owners dead) (hr : ∀ l, T l → refs' l = refs l ∧ dead' l = dead l)
    (hf : ∀ l, T l → fresh' l → fresh l) (ho : ∀ l, T l → owners' l = owners l)
    (hg : ∀ l, T l → owners l = 0 → gone l → gone' l) : Sound T fresh' gone' refs' owners' dead' := by
  refine ⟨?_, ?_, ?_⟩
  · intro l hl
    rw [ho l hl, (hr l hl).1]
    exact h.count l hl
  · intro l hl hfresh
    rw [(hr l hl).1]
    exact h.fresh l hl (hf l hl hfresh)
  · intro l hl hd
    rw [(hr l hl).2] at hd
    obtain ⟨hzero, hgone⟩ := h.dead l hl hd
    rw [(hr l hl).1]
    exact ⟨hzero, hg l hl ((h.count l hl).symm.trans hzero) hgone⟩

variable [DecidableEq L]

/-- An owner copies its reference. -/
theorem Sound.hold (h : Sound T fresh gone refs owners dead) {l : L} (hpos : T l → 0 < owners l)
    (hf : ∀ k, T k → fresh' k → fresh k) (ho : ∀ k, T k → owners' k = owners k + one l k)
    (hg : ∀ k, T k → owners k = 0 → gone k → gone' k) : Sound T fresh' gone' (hold refs l) owners' dead := by
  have hzero : ∀ k, T k → refs k = 0 → RefCount.hold refs l k = 0 := by
    intro k hk hz
    have hcount := h.count k hk
    have hne : k ≠ l := by
      rintro rfl
      have hp := hpos hk
      omega
    rw [hold_apply, one_of_ne hne]
    exact hz
  refine ⟨?_, ?_, ?_⟩
  · intro k hk
    rw [hold_apply, ho k hk, h.count k hk]
  · intro k hk hfresh
    exact hzero k hk (h.fresh k hk (hf k hk hfresh))
  · intro k hk hd
    obtain ⟨hz, hgone⟩ := h.dead k hk hd
    exact ⟨hzero k hk hz, hg k hk ((h.count k hk).symm.trans hz) hgone⟩

/-- An owner drops its reference. If it was the last one, the object has to be gone. -/
theorem Sound.drop (h : Sound T fresh gone refs owners dead) {l : L}
    (hf : ∀ k, T k → fresh' k → fresh k) (ho : ∀ k, T k → owners k = owners' k + one l k)
    (hg : ∀ k, T k → owners k = 0 → gone k → gone' k) (hlast : T l → owners l = 1 → gone' l) :
    Sound T fresh' gone' (drop refs l) owners' (bury refs dead l) := by
  refine ⟨?_, ?_, ?_⟩
  · intro k hk
    have hcount := h.count k hk
    have howners := ho k hk
    rw [drop_apply]
    omega
  · intro k hk hfresh
    rw [drop_apply, h.fresh k hk (hf k hk hfresh)]
    omega
  · intro k hk hd
    have hcount := h.count k hk
    have hkeep : dead k = true → RefCount.drop refs l k = 0 ∧ gone' k := by
      intro hd
      obtain ⟨hz, hgone⟩ := h.dead k hk hd
      refine ⟨?_, hg k hk (hcount.symm.trans hz) hgone⟩
      rw [drop_apply]
      omega
    unfold bury at hd
    split_ifs at hd with hone
    · by_cases hkl : k = l
      · subst hkl
        refine ⟨?_, hlast hk (hcount.symm.trans hone)⟩
        rw [drop_apply, hone, one_self]
      · rw [Function.update_of_ne hkl] at hd
        exact hkeep hd
    · exact hkeep hd

/-- A new object. -/
theorem Sound.new (h : Sound T fresh gone refs owners dead) {l : L} (hl : T l → fresh l) (hl' : ¬ fresh' l)
    (hf : ∀ k, T k → fresh' k → fresh k) (ho : ∀ k, T k → owners' k = owners k + one l k)
    (hg : ∀ k, T k → k ≠ l → owners k = 0 → gone k → gone' k) :
    Sound T fresh' gone' (Function.update refs l 1) owners' (Function.update dead l false) := by
  refine ⟨?_, ?_, ?_⟩
  · intro k hk
    have hcount := h.count k hk
    rw [ho k hk]
    by_cases hkl : k = l
    · subst hkl
      have hz := h.fresh k hk (hl hk)
      rw [Function.update_self, one_self]
      omega
    · rw [Function.update_of_ne hkl, one_of_ne hkl]
      exact hcount
  · intro k hk hfresh
    have hkl : k ≠ l := by
      rintro rfl
      exact hl' hfresh
    rw [Function.update_of_ne hkl]
    exact h.fresh k hk (hf k hk hfresh)
  · intro k hk hd
    have hkl : k ≠ l := by
      rintro rfl
      rw [Function.update_self] at hd
      cases hd
    rw [Function.update_of_ne hkl] at hd ⊢
    obtain ⟨hz, hgone⟩ := h.dead k hk hd
    exact ⟨hz, hg k hk hkl ((h.count k hk).symm.trans hz) hgone⟩

end Rules

end RefCount
