import Mathlib.Order.WellFounded
import Sylar.Lib.Transition

/-!
# Fair executions

An execution goes on for ever (`Path`); a moment in which nothing happens lets a finite run be one. What a program
relies on to get on is a demand: something that is ready does not stay so without being served (`Demand`,
`Path.Just`). What then happens sooner or later is said by `Path.Leads`.

- `Path.reach`, `Path.stable`: invariants hold all along a path;
- `Path.all_leads`: finitely many things that last and come sooner or later come to hold together;
- `Path.leads_of_rank`: the rule for one demand: until the goal no step raises the rank, and each step that serves the
  demand lowers it;
- `Steps.path`: a finite run as a path, and `just_of_end`: it is just if nothing is ready at its end.
-/

namespace Trans.System

universe u v w

variable {σ : Type u} {α : Type v} {M : System σ α} {P : σ → α → Prop}

/-- **An execution**, from an initial state. In a moment without an action nothing happens. -/
structure Path (M : System σ α) (P : σ → α → Prop) where
  state : Nat → σ
  act : Nat → Option α
  init : M.init (state 0)
  step : ∀ n, ∀ a ∈ act n, M.enabled (state n) a ∧ P (state n) a ∧ state (n + 1) = M.next (state n) a
  rest : ∀ n, act n = none → state (n + 1) = state n

/-- What may not stay ready without being served. -/
structure Demand (σ : Type u) (α : Type v) where
  ready : σ → Prop
  serves : σ → α → Prop

namespace Path

variable (π : M.Path P)

/-- The demand is served again and again, or it is not ready. -/
def Just (d : Demand σ α) : Prop :=
  ∀ n, ∃ m ≥ n, ¬ d.ready (π.state m) ∨ ∃ a ∈ π.act m, d.serves (π.state m) a

/-- Whenever `p` holds, `q` holds then or later. -/
def Leads (p q : σ → Prop) : Prop := ∀ n, p (π.state n) → ∃ m ≥ n, q (π.state m)

/-- A path under a condition is a path under a weaker one. -/
def mono {Q : σ → α → Prop} (hPQ : ∀ s a, P s a → Q s a) : M.Path Q where
  state := π.state
  act := π.act
  init := π.init
  step n a ha := ⟨(π.step n a ha).1, hPQ _ _ (π.step n a ha).2.1, (π.step n a ha).2.2⟩
  rest := π.rest

/-! ## What holds all along -/

theorem reach (n : Nat) : M.Reach P (π.state n) := by
  induction n with
  | zero => exact .start π.init
  | succ n ih =>
    cases ha : π.act n with
    | none =>
      rw [π.rest n ha]
      exact ih
    | some a =>
      obtain ⟨he, hp, hn⟩ := π.step n a ha
      rw [hn]
      exact ih.step he hp

/-- What every step keeps stays true. -/
theorem stable {p : σ → Prop} (hstep : ∀ s a, M.Reach P s → p s → M.enabled s a → P s a → p (M.next s a)) {n m : Nat}
    (hnm : n ≤ m) (h : p (π.state n)) : p (π.state m) := by
  induction m, hnm using Nat.le_induction with
  | base => exact h
  | succ m _ ih =>
    cases ha : π.act m with
    | none =>
      rw [π.rest m ha]
      exact ih
    | some a =>
      obtain ⟨he, hp, hn⟩ := π.step m a ha
      rw [hn]
      exact hstep _ a (π.reach m) ih he hp

/-! ## What comes sooner or later -/

/-- Things that last and that each come sooner or later come to hold together. -/
theorem all_leads {ι : Type w} {q : ι → σ → Prop} (hlast : ∀ i n m, n ≤ m → q i (π.state n) → q i (π.state m))
    {n : Nat} : ∀ {l : List ι}, (∀ i ∈ l, ∃ m ≥ n, q i (π.state m)) → ∃ m ≥ n, ∀ i ∈ l, q i (π.state m)
  | [], _ => ⟨n, Nat.le_refl n, by simp⟩
  | i :: l, h => by
    obtain ⟨m, hm, hi⟩ := h i List.mem_cons_self
    obtain ⟨k, hk, hl⟩ := all_leads hlast (n := n) (l := l) fun j hj => h j (List.mem_cons_of_mem _ hj)
    refine ⟨max m k, hm.trans (Nat.le_max_left m k), fun j hj => ?_⟩
    rcases List.mem_cons.mp hj with rfl | hj
    · exact hlast j m _ (Nat.le_max_left m k) hi
    · exact hlast j k _ (Nat.le_max_right m k) (hl j hj)

variable {π}

/-- **The rank rule.** As long as `p` holds and `q` does not, the demand is ready; a step then leads to `q`, or keeps
`p` and lowers the rank, or keeps `p` and the rank and does not serve the demand. -/
theorem leads_of_rank {β : Type w} [LT β] [WellFoundedLT β] {d : Demand σ α} (hjust : π.Just d) {p q : σ → Prop}
    (rank : σ → β) (hready : ∀ n, p (π.state n) → d.ready (π.state n) ∨ q (π.state n))
    (hstep : ∀ s a, M.Reach P s → p s → M.enabled s a → P s a →
      q (M.next s a) ∨ p (M.next s a) ∧ (rank (M.next s a) < rank s ∨
        rank (M.next s a) = rank s ∧ ¬ d.serves s a)) : π.Leads p q := by
  have hall : ∀ b n, rank (π.state n) = b → p (π.state n) → ∃ m ≥ n, q (π.state m) := by
    intro b
    induction b using WellFoundedLT.induction with
    | ind b ih =>
      rintro n rfl hp
      -- up to any later moment: the goal, a lower rank, or nothing new
      have hwalk : ∀ k, (∃ m ≥ n, q (π.state m)) ∨ p (π.state (n + k)) ∧ rank (π.state (n + k)) = rank (π.state n) := by
        intro k
        induction k with
        | zero => exact Or.inr ⟨hp, rfl⟩
        | succ k hk =>
          rcases hk with hq | ⟨hpk, hrk⟩
          · exact Or.inl hq
          · cases ha : π.act (n + k) with
            | none =>
              rw [← Nat.add_assoc, π.rest _ ha]
              exact Or.inr ⟨hpk, hrk⟩
            | some a =>
              obtain ⟨he, hP, hn⟩ := π.step _ a ha
              rw [← Nat.add_assoc, hn]
              rcases hstep _ a (π.reach _) hpk he hP with hq | ⟨hpn, hlt | ⟨heq, -⟩⟩
              · exact Or.inl ⟨n + k + 1, by omega, hn ▸ hq⟩
              · rw [hrk, ← hn] at hlt
                obtain ⟨m, hm, hq⟩ := ih _ hlt _ rfl (hn ▸ hpn)
                exact Or.inl ⟨m, by omega, hq⟩
              · exact Or.inr ⟨hpn, heq.trans hrk⟩
      obtain ⟨m, hm, hserved⟩ := hjust n
      obtain ⟨k, rfl⟩ := Nat.exists_eq_add_of_le hm
      rcases hwalk k with hq | ⟨hpk, hrk⟩
      · exact hq
      rcases hready _ hpk with hr | hq
      · obtain hn | ⟨a, ha, hd⟩ := hserved
        · exact absurd hr hn
        · -- the demand is served
          obtain ⟨he, hP, hn⟩ := π.step _ a ha
          rcases hstep _ a (π.reach _) hpk he hP with hq | ⟨hpn, hlt | ⟨-, hno⟩⟩
          · exact ⟨n + k + 1, by omega, hn ▸ hq⟩
          · rw [hrk, ← hn] at hlt
            obtain ⟨j, hj, hq⟩ := ih _ hlt _ rfl (hn ▸ hpn)
            exact ⟨j, by omega, hq⟩
          · exact absurd hd hno
      · exact ⟨n + k, hm, hq⟩
  exact fun n hp => hall _ n rfl hp

end Path

/-! ## Finite runs -/

/-- The state behind the first `n` actions. -/
def stateAt (M : System σ α) (s : σ) (as : List α) (n : Nat) : σ := (as.take n).foldl M.next s

theorem Steps.foldl_eq {s t : σ} {as : List α} (h : M.Steps P s as t) : as.foldl M.next s = t := by
  induction h with
  | nil s => rfl
  | cons _ _ _ ih => exact ih

/-- A step of a run. -/
theorem Steps.getElem {s t : σ} {as : List α} (h : M.Steps P s as t) :
    ∀ {n : Nat} {a : α}, as[n]? = some a → M.enabled (M.stateAt s as n) a ∧ P (M.stateAt s as n) a ∧
      M.stateAt s as (n + 1) = M.next (M.stateAt s as n) a := by
  induction h with
  | nil s =>
    intro n a ha
    simp at ha
  | @cons s t b as he hp _ ih =>
    intro n a ha
    cases n with
    | zero =>
      obtain rfl : b = a := by simpa using ha
      refine ⟨he, hp, ?_⟩
      simp [stateAt]
    | succ n => exact ih (by simpa using ha)

/-- **A finite run as a path**: behind its end nothing happens. -/
def Steps.path {s t : σ} {as : List α} (h₀ : M.init s) (h : M.Steps P s as t) : M.Path P where
  state := M.stateAt s as
  act n := as[n]?
  init := h₀
  step _ _ ha := h.getElem ha
  rest n hn := by
    have hlen : as.length ≤ n := List.getElem?_eq_none_iff.mp hn
    simp [stateAt, List.take_of_length_le hlen, List.take_of_length_le (Nat.le_succ_of_le hlen)]

theorem Steps.path_end {s t : σ} {as : List α} (h₀ : M.init s) (h : M.Steps P s as t) {n : Nat} (hn : as.length ≤ n) :
    (h.path h₀).state n = t := by
  show M.stateAt s as n = t
  rw [stateAt, List.take_of_length_le hn, h.foldl_eq]

/-- A run that ends where nothing is ready is just. -/
theorem Steps.just_of_end {s t : σ} {as : List α} (h₀ : M.init s) (h : M.Steps P s as t) {d : Demand σ α}
    (hd : ¬ d.ready t) : (h.path h₀).Just d := by
  intro n
  refine ⟨max n as.length, Nat.le_max_left _ _, Or.inl ?_⟩
  rwa [h.path_end h₀ (Nat.le_max_right _ _)]

end Trans.System
