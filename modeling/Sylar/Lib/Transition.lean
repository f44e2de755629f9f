/-!
# Guarded transition systems

A system is a set of initial states and a set of guarded actions, each with a deterministic effect (`System`). A run is
a list of actions, each enabled where it happens (`Steps`); the nondeterminism of a program (which thread moves, what
the environment answers) is the choice of the list. Runs carry a condition `P` that every step of them meets, so that
"in every run whose steps all meet `P`" is a statement about `Steps P` and `Reach P`.

- `Steps.append`, `Steps.mono`: runs compose, and a run under a stronger condition is a run under a weaker one;
- `Steps.inv`, `Reach.inv`: an invariant of the steps is an invariant of the runs;
- `Reach.inv_of`, `Reach.induct`: the same, with the reachability of the state before the step at hand;
  `Steps.history`: with the actions so far;
- `Steps.stays_iff`: the runs whose states are all safe are those under a condition on the steps;
- `tally`: how often a run takes a step of some kind; `Steps.tally_eq`: as a counter has it; `Steps.tally_phase`: at
  most once, where such a step opens a phase that no other step opens or ends; `Steps.tally_until`: at most as often as
  a rank is lowered;
- `exec`, `steps_exec`, `reach_exec`: runs on concrete input are evaluated;
- `Simulation`, `Simulation.steps`: a map of states and actions that turns runs of one system into runs of another.
-/

namespace Trans

universe u v

/-- Initial states, guards and effects. -/
structure System (σ : Type u) (α : Type v) where
  init : σ → Prop
  enabled : σ → α → Prop
  next : σ → α → σ

/-- The condition that every step meets. -/
def Always {σ : Type u} {α : Type v} : σ → α → Prop := fun _ _ => True

instance {σ : Type u} {α : Type v} : ∀ (s : σ) (a : α), Decidable (Always s a) :=
  fun _ _ => isTrue trivial

namespace System

variable {σ : Type u} {α : Type v} (M : System σ α)

/-! ## Runs -/

/-- **Runs**: from `s` the actions `as` lead to `t`, each of them enabled and meeting `P` where it happens. -/
inductive Steps (P : σ → α → Prop) : σ → List α → σ → Prop
  | nil (s : σ) : Steps P s [] s
  | cons {s t : σ} {a : α} {as : List α} : M.enabled s a → P s a → Steps P (M.next s a) as t → Steps P s (a :: as) t

/-- The states that a run from an initial state leads to. -/
def Reach (P : σ → α → Prop) (s : σ) : Prop := ∃ s₀ as, M.init s₀ ∧ M.Steps P s₀ as s

variable {M} {P Q : σ → α → Prop} {s t u : σ} {as bs : List α} {a : α}

theorem Steps.append (h : M.Steps P s as t) (h' : M.Steps P t bs u) : M.Steps P s (as ++ bs) u := by
  induction h with
  | nil _ => exact h'
  | cons he hp _ ih => exact .cons he hp (ih h')

theorem Steps.snoc (h : M.Steps P s as t) (he : M.enabled t a) (hp : P t a) : M.Steps P s (as ++ [a]) (M.next t a) :=
  h.append (.cons he hp (.nil _))

theorem Steps.mono (h : M.Steps P s as t) (hPQ : ∀ s a, P s a → Q s a) : M.Steps Q s as t := by
  induction h with
  | nil _ => exact .nil _
  | cons he hp _ ih => exact .cons he (hPQ _ _ hp) ih

/-- A run splits where its list of actions does. -/
theorem Steps.split : ∀ {as : List α} {s : σ}, M.Steps P s (as ++ bs) u → ∃ t, M.Steps P s as t ∧ M.Steps P t bs u
  | [], s, h => ⟨s, .nil s, h⟩
  | _ :: as, _, .cons he hp h => by
    obtain ⟨t, h₁, h₂⟩ := Steps.split h
    exact ⟨t, .cons he hp h₁, h₂⟩

/-- The actions determine the run. -/
theorem Steps.det (h : M.Steps P s as t) (h' : M.Steps Q s as u) : t = u := by
  induction h with
  | nil s =>
    cases h'
    rfl
  | cons _ _ _ ih =>
    cases h' with
    | cons _ _ h' => exact ih h'

theorem Reach.start (h : M.init s) : M.Reach P s := ⟨s, [], h, .nil s⟩

theorem Reach.steps (h : M.Reach P s) (hs : M.Steps P s as t) : M.Reach P t := by
  obtain ⟨s₀, bs, h₀, h⟩ := h
  exact ⟨s₀, bs ++ as, h₀, h.append hs⟩

theorem Reach.step (h : M.Reach P s) (he : M.enabled s a) (hp : P s a) : M.Reach P (M.next s a) :=
  h.steps (.cons he hp (.nil _))

theorem Reach.mono (h : M.Reach P s) (hPQ : ∀ s a, P s a → Q s a) : M.Reach Q s := by
  obtain ⟨s₀, as, h₀, h⟩ := h
  exact ⟨s₀, as, h₀, h.mono hPQ⟩

/-! ## Invariants -/

/-- What every step keeps, every run keeps. -/
theorem Steps.inv {I : σ → Prop} (hstep : ∀ s a, I s → M.enabled s a → P s a → I (M.next s a))
    (h : M.Steps P s as t) (hs : I s) : I t := by
  induction h with
  | nil _ => exact hs
  | cons he hp _ ih => exact ih (hstep _ _ hs he hp)

/-- **The invariant rule.** -/
theorem Reach.inv {I : σ → Prop} (hinit : ∀ s, M.init s → I s)
    (hstep : ∀ s a, I s → M.enabled s a → P s a → I (M.next s a)) (h : M.Reach P s) : I s := by
  obtain ⟨s₀, as, h₀, h⟩ := h
  exact h.inv hstep (hinit s₀ h₀)

/-- The invariant rule on top of invariants already known: the state before the step is reachable. -/
theorem Reach.inv_of {I : σ → Prop} (hinit : ∀ s, M.init s → I s)
    (hstep : ∀ s a, M.Reach P s → I s → M.enabled s a → P s a → I (M.next s a)) (h : M.Reach P s) : I s := by
  have h' : M.Reach P s ∧ I s := h.inv (I := fun s => M.Reach P s ∧ I s) (fun s h₀ => ⟨.start h₀, hinit s h₀⟩)
    (fun s a hs he hp => ⟨hs.1.step he hp, hstep s a hs.1 hs.2 he hp⟩)
  exact h'.2

/-- The invariant rule as an induction principle, for `induction h using Reach.induct`. -/
theorem Reach.induct {motive : (s : σ) → M.Reach P s → Prop} (start : ∀ s (h₀ : M.init s), motive s (.start h₀))
    (step : ∀ s a (hr : M.Reach P s) (he : M.enabled s a) (hp : P s a), motive s hr →
      motive (M.next s a) (hr.step he hp)) {s : σ} (h : M.Reach P s) : motive s h :=
  Reach.inv_of (I := fun s => ∀ h : M.Reach P s, motive s h) (fun s h₀ _ => start s h₀)
    (fun s a hr ih he hp _ => step s a hr he hp (ih hr)) h h

/-- What holds where it is reachable and is kept by every step stays true to the end of every run. -/
theorem Reach.stable {p : σ → Prop} (hstep : ∀ s a, M.Reach P s → p s → M.enabled s a → P s a → p (M.next s a))
    (hr : M.Reach P s) (hs : p s) (h : M.Steps P s as t) : p t := by
  have h' : M.Reach P t ∧ p t := h.inv (I := fun s => M.Reach P s ∧ p s)
    (fun s a hs he hp => ⟨hs.1.step he hp, hstep s a hs.1 hs.2 he hp⟩) ⟨hr, hs⟩
  exact h'.2

/-- The invariant rule with the actions so far. -/
theorem Steps.history {I : List α → σ → Prop}
    (hstep : ∀ bs s a, I bs s → M.enabled s a → P s a → I (bs ++ [a]) (M.next s a)) (h : M.Steps P s as t) :
    ∀ bs, I bs s → I (bs ++ as) t := by
  induction h with
  | nil s =>
    intro bs hs
    rwa [List.append_nil]
  | @cons s t a as he hp _ ih =>
    intro bs hs
    rw [← List.singleton_append, ← List.append_assoc]
    exact ih _ (hstep bs s a hs he hp)

/-- **Which runs stay safe.** Where every state that is reached under `P` is safe, and a step that ends in a safe state
meets `P`, the runs through safe states are those under `P`. -/
theorem Steps.stays_iff {safe : σ → Prop} {s₀ : σ} (h : M.Steps Always s₀ as t) (hsafe : ∀ s, M.Reach P s → safe s)
    (hstep : ∀ s a, M.Reach Always s → M.enabled s a → safe (M.next s a) → P s a) (h₀ : M.init s₀) :
    (∀ bs cs u, as = bs ++ cs → M.Steps Always s₀ bs u → safe u) ↔ M.Steps P s₀ as t := by
  constructor
  · have hr : M.Reach Always s₀ := .start h₀
    clear h₀
    induction h with
    | nil s => exact fun _ => .nil s
    | @cons s t a as he _ _ ih =>
      intro hall
      refine .cons he (hstep s a hr he (hall [a] as _ rfl (.cons he trivial (.nil _)))) (ih (hr.step he trivial) ?_)
      intro bs cs u has hbs
      exact hall (a :: bs) cs u (by rw [has]; rfl) (.cons he trivial hbs)
  · rintro hp bs cs u rfl hbs
    obtain ⟨u', hbs', -⟩ := hp.split
    obtain rfl := hbs.det hbs'
    exact hsafe u ((Reach.start h₀).steps hbs')

/-! ## Counting steps -/

/-- How often the actions `as`, from `s` on, are steps with the property `p`. -/
def tally (M : System σ α) (p : σ → α → Bool) : σ → List α → Nat
  | _, [] => 0
  | s, a :: as => (p s a).toNat + tally M p (M.next s a) as

/-- A counter that every step with `p` raises, and no other step changes. -/
theorem Steps.tally_eq {p : σ → α → Bool} (count : σ → Nat)
    (hstep : ∀ s a, M.enabled s a → P s a → count (M.next s a) = count s + (p s a).toNat) (h : M.Steps P s as t) :
    count t = count s + M.tally p s as := by
  induction h with
  | nil s => rfl
  | @cons s t a as he hp _ ih =>
    rw [ih, hstep s a he hp, tally, Nat.add_assoc]

/-- **One-shot events.** Where a step with `p` is taken outside the phase `q` and leads into it, and every other step
stays in the phase or outside it, a run that starts outside has as many such steps as the phase it ends in says. -/
theorem Steps.tally_phase {p : σ → α → Bool} {q : σ → Prop}
    (hstep : ∀ s a, M.Reach P s → M.enabled s a → P s a →
      (p s a = true → ¬ q s ∧ q (M.next s a)) ∧ (p s a = false → (q (M.next s a) ↔ q s)))
    (hr : M.Reach P s) (h : M.Steps P s as t) :
    (q s → q t ∧ M.tally p s as = 0) ∧ (¬ q s → q t ∧ M.tally p s as = 1 ∨ ¬ q t ∧ M.tally p s as = 0) := by
  induction h with
  | nil s => exact ⟨fun hq => ⟨hq, rfl⟩, fun hq => Or.inr ⟨hq, rfl⟩⟩
  | @cons s t a as he hp _ ih =>
    obtain ⟨hin, hout⟩ := ih (hr.step he hp)
    obtain ⟨htrue, hfalse⟩ := hstep s a hr he hp
    unfold tally
    cases hpa : p s a with
    | true =>
      obtain ⟨hq, hq'⟩ := htrue hpa
      obtain ⟨ht, hzero⟩ := hin hq'
      refine ⟨fun hs => absurd hs hq, fun _ => Or.inl ⟨ht, ?_⟩⟩
      rw [hzero]
      rfl
    | false =>
      have hiff := hfalse hpa
      rw [Bool.toNat_false, Nat.zero_add]
      constructor
      · intro hs
        exact hin (hiff.2 hs)
      · intro hs
        exact hout (fun hn => hs (hiff.1 hn))

/-- **Bounded waiting.** Where, for as long as `q` holds, no step raises the rank and a step with `p` lowers it, a run
to the end of which `q` has held has at most as many such steps as the rank has lost. -/
theorem Steps.tally_until {p : σ → α → Bool} {q r : σ → Prop} (rank : σ → Nat)
    (hstep : ∀ s a, M.Reach P s → M.enabled s a → P s a → q s →
      q (M.next s a) ∧ (p s a).toNat + rank (M.next s a) ≤ rank s ∨ r (M.next s a))
    (hlast : ∀ s a, M.Reach P s → r s → M.enabled s a → P s a → r (M.next s a)) (hr : M.Reach P s) (hq : q s)
    (h : M.Steps P s as t) : q t ∧ M.tally p s as + rank t ≤ rank s ∨ r t := by
  induction h with
  | nil s => exact Or.inl ⟨hq, by simp [tally]⟩
  | @cons s t a as he hp h ih =>
    have hn := hr.step he hp
    rcases hstep s a hr he hp hq with ⟨hq', hle⟩ | hr'
    · refine (ih hn hq').imp_left ?_
      rintro ⟨ht, hrest⟩
      refine ⟨ht, ?_⟩
      unfold tally
      omega
    · exact Or.inr (hn.stable hlast hr' h)

/-! ## Runs on concrete input -/

section Exec

variable (M P) [∀ s a, Decidable (M.enabled s a)] [∀ s a, Decidable (P s a)]

/-- The state that a list of actions leads to, if each of them is enabled and meets `P`. -/
def exec : σ → List α → Option σ
  | s, [] => some s
  | s, a :: as => if M.enabled s a ∧ P s a then exec (M.next s a) as else none

variable {M P}

theorem steps_of_exec : ∀ {as : List α} {s : σ}, exec M P s as = some t → M.Steps P s as t
  | [], _, h => by cases h; exact .nil _
  | a :: as, s, h => by
    unfold exec at h
    split at h
    · rename_i hg
      exact .cons hg.1 hg.2 (steps_of_exec h)
    · cases h

/-- An evaluated run. -/
theorem steps_exec (h : (exec M P s as).isSome = true) : M.Steps P s as ((exec M P s as).get h) :=
  steps_of_exec (Option.some_get h).symm

/-- An evaluated run, with what is evaluated of its end. -/
theorem exists_exec {q : σ → Bool} (h : (exec M P s as).any q = true) : ∃ t, M.Steps P s as t ∧ q t = true := by
  obtain ⟨t, ht, hq⟩ := (Option.any_eq_true _ _).1 h
  exact ⟨t, steps_of_exec ht, hq⟩

/-- The end of an evaluated run is reachable. -/
theorem reach_exec {s₀ : σ} (h₀ : M.init s₀) (h : (exec M P s₀ as).isSome = true) :
    M.Reach P ((exec M P s₀ as).get h) :=
  ⟨s₀, as, h₀, steps_exec h⟩

end Exec

end System

/-! ## Simulations -/

/-- A map of states that turns every step of `M` into a run of `N`. -/
structure Simulation {σ τ : Type u} {α β : Type v} (M : System σ α) (P : σ → α → Prop) (N : System τ β)
    (Q : τ → β → Prop) where
  abs : σ → τ
  acts : σ → α → List β
  init : ∀ s, M.init s → N.init (abs s)
  step : ∀ s a, M.Reach P s → M.enabled s a → P s a → N.Steps Q (abs s) (acts s a) (abs (M.next s a))

/-- **Simulation rule**: the image of a reachable state is reachable. -/
theorem Simulation.reach {σ τ : Type u} {α β : Type v} {M : System σ α} {P : σ → α → Prop} {N : System τ β}
    {Q : τ → β → Prop} (S : Simulation M P N Q) {s : σ} (h : M.Reach P s) : N.Reach Q (S.abs s) :=
  System.Reach.inv_of (I := fun s => N.Reach Q (S.abs s)) (fun s h₀ => .start (S.init s h₀))
    (fun s a hr ih he hp => ih.steps (S.step s a hr he hp)) h

/-- The image of a run's actions. -/
def Simulation.trace {σ τ : Type u} {α β : Type v} {M : System σ α} {P : σ → α → Prop} {N : System τ β}
    {Q : τ → β → Prop} (S : Simulation M P N Q) : σ → List α → List β
  | _, [] => []
  | s, a :: as => S.acts s a ++ S.trace (M.next s a) as

/-- The image of a run is a run. -/
theorem Simulation.steps {σ τ : Type u} {α β : Type v} {M : System σ α} {P : σ → α → Prop} {N : System τ β}
    {Q : τ → β → Prop} (S : Simulation M P N Q) {s t : σ} {as : List α} (hr : M.Reach P s) (h : M.Steps P s as t) :
    N.Steps Q (S.abs s) (S.trace s as) (S.abs t) := by
  induction h with
  | nil s => exact .nil _
  | cons he hp _ ih => exact (S.step _ _ hr he hp).append (ih (hr.step he hp))

end Trans
