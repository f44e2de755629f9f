import Mathlib.Logic.Function.Basic
import Mathlib.Logic.Relation
import Mathlib.Order.Basic
import Sylar.Lib.Transition

/-!
# A mutex over a transition system

In a system some actions stand for whole sections under one mutex. `withMutex` takes them apart: a thread asks for the
mutex before the section, acquires it when nobody has it, and gives it back with the section; meanwhile the thread makes
no other step, and the other threads make theirs.

- `ofMutex`, `reach_base`: a run with the mutex is a run of the system;
- `owner_iff`, `site_reach`: who has the mutex, and where a thread is that waits for it or has it;
- `acyclic_of_rank`: locks that are taken in the order of a rank cannot deadlock.
-/

namespace Mutex

open Trans

/-- A thread outside the sections, in front of one, or in one. -/
inductive Phase where
  | out
  | waiting
  | holding
deriving DecidableEq, Repr

/-- A state of the system, the owner of the mutex, and the threads' phases. -/
structure State (σ τ : Type) where
  base : σ
  owner : Option τ
  phase : τ → Phase

/-- `request a` asks for the mutex for the section `a`. -/
inductive Act (α τ : Type) where
  | request (a : α)
  | acquire (t : τ)
  | step (a : α)

/-- The thread that makes an action, if it is one thread's, and the actions that are sections. -/
structure Sections (σ α τ : Type) where
  mover : α → Option τ
  critical : σ → α → Bool

section System

variable {σ α τ : Type} [DecidableEq τ]

/-- The thread comes to another phase. -/
def move (phase : τ → Phase) (o : Option τ) (p : Phase) : τ → Phase :=
  match o with
  | none => phase
  | some t => Function.update phase t p

theorem move_eq (phase : τ → Phase) (o : Option τ) (p : Phase) (t : τ) :
    o = some t ∧ move phase o p t = p ∨ o ≠ some t ∧ move phase o p t = phase t := by
  cases o with
  | none => exact Or.inr ⟨by simp, rfl⟩
  | some u =>
    rcases eq_or_ne u t with rfl | hne
    · exact Or.inl ⟨rfl, Function.update_self ..⟩
    · exact Or.inr ⟨by simpa using hne, Function.update_of_ne hne.symm ..⟩

/-- **The system with its mutex.** -/
def withMutex (M : System σ α) (S : Sections σ α τ) : System (State σ τ) (Act α τ) where
  init s := M.init s.base ∧ s.owner = none ∧ ∀ t, s.phase t = .out
  enabled s
    | .request a => M.enabled s.base a ∧ S.critical s.base a = true ∧ (S.mover a).map s.phase = some .out
    | .acquire t => s.phase t = .waiting ∧ s.owner = none
    | .step a => M.enabled s.base a ∧
        (S.mover a).map s.phase = if S.critical s.base a then some .holding else (S.mover a).map fun _ => .out
  next s
    | .request a => { s with phase := move s.phase (S.mover a) .waiting }
    | .acquire t => { s with owner := some t, phase := move s.phase (some t) .holding }
    | .step a =>
      if S.critical s.base a then ⟨M.next s.base a, none, move s.phase (S.mover a) .out⟩
      else { s with base := M.next s.base a }

variable {M : System σ α} {S : Sections σ α τ} {P : σ → α → Prop}

/-- The condition of a run, on the steps of the system. -/
def Lift (P : σ → α → Prop) (s : State σ τ) : Act α τ → Prop
  | .step a => P s.base a
  | _ => True

omit [DecidableEq τ] in
theorem lift_always {s : State σ τ} {a : Act α τ} (h : Always s a) : Lift Always s a := by
  cases a with
  | step a => trivial
  | request a | acquire t => exact h

/-- A run with the mutex is a run of the system. -/
def ofMutex (M : System σ α) (S : Sections σ α τ) (P : σ → α → Prop) :
    Simulation (withMutex M S) (Lift P) M P where
  abs s := s.base
  acts _ a :=
    match a with
    | .step a => [a]
    | _ => []
  init s h := h.1
  step := by
    intro s a _ he hp
    cases a with
    | request a => exact .nil _
    | acquire t => exact .nil _
    | step a =>
      have hbase : ((withMutex M S).next s (.step a)).base = M.next s.base a := by
        simp only [withMutex]
        split <;> rfl
      rw [hbase]
      exact .cons he.1 hp (.nil _)

theorem reach_base {s : State σ τ} (h : (withMutex M S).Reach (Lift P) s) : M.Reach P s.base := (ofMutex M S P).reach h

theorem next_base (s : State σ τ) (a : α) : ((withMutex M S).next s (.step a)).base = M.next s.base a := by
  simp only [withMutex]
  split <;> rfl

/-- The thread that has the mutex is in a section. -/
theorem owner_iff {s : State σ τ} (h : (withMutex M S).Reach (Lift P) s) (t : τ) :
    s.owner = some t ↔ s.phase t = .holding := by
  revert t
  apply h.inv (I := fun s => ∀ t, s.owner = some t ↔ s.phase t = .holding)
  · rintro s ⟨-, howner, hout⟩ t
    simp [howner, hout t]
  · intro s a hs he _ t
    cases a with
    | request a =>
      obtain ⟨-, -, hphase⟩ := he
      rcases move_eq s.phase (S.mover a) .waiting t with ⟨ho, hm⟩ | ⟨-, hm⟩
      · rw [ho] at hphase
        simp only [withMutex, hm, hs t, Option.some_inj.1 hphase]
        simp
      · simp only [withMutex, hm, hs t]
    | acquire u =>
      obtain ⟨-, hnone⟩ := he
      rcases move_eq s.phase (some u) .holding t with ⟨ho, hm⟩ | ⟨hne, hm⟩
      · exact ⟨fun _ => hm, fun _ => ho⟩
      · simp only [withMutex, hm, ← hs t, hnone]
        simp [hne]
    | step a =>
      obtain ⟨-, hphase⟩ := he
      simp only [withMutex]
      split
      · -- the section ends
        rename_i hcritical
        rw [if_pos hcritical] at hphase
        obtain ⟨u, hu, hhold⟩ := Option.map_eq_some_iff.1 hphase
        rcases move_eq s.phase (S.mover a) .out t with ⟨-, hm⟩ | ⟨hne, hm⟩
        · simp [hm]
        · simp only [hm, ← hs t, (hs u).2 hhold]
          rw [hu] at hne
          simp [hne]
      · exact hs t

/-- **Where a thread is that waits for the mutex or has it**: in front of a section, since only its own steps take it
elsewhere. -/
theorem site_reach {site : σ → τ → Prop} {s : State σ τ} (h : (withMutex M S).Reach (Lift P) s)
    (hat : ∀ s a t, M.Reach P s → M.enabled s a → S.critical s a = true → S.mover a = some t → site s t)
    (hframe : ∀ s a t, M.Reach P s → M.enabled s a → P s a → S.mover a ≠ some t → site s t → site (M.next s a) t) :
    ∀ t, s.phase t ≠ .out → site s.base t := by
  induction h using System.Reach.induct with
  | start s h₀ => exact fun t ht => absurd (h₀.2.2 t) ht
  | step s a hr he hp ih =>
    intro t ht
    have hreach := reach_base hr
    cases a with
    | request a =>
      obtain ⟨hen, hcritical, -⟩ := he
      rcases move_eq s.phase (S.mover a) .waiting t with ⟨ho, -⟩ | ⟨-, hm⟩
      · exact hat s.base a t hreach hen hcritical ho
      · exact ih t (fun hout => ht (hm.trans hout))
    | acquire u =>
      rcases move_eq s.phase (some u) .holding t with ⟨ho, -⟩ | ⟨-, hm⟩
      · cases ho
        exact ih t (by rw [he.1]; simp)
      · exact ih t (fun hout => ht (hm.trans hout))
    | step a =>
      obtain ⟨hen, hphase⟩ := he
      rw [next_base]
      by_cases hcritical : S.critical s.base a = true
      · simp only [withMutex, if_pos hcritical] at ht
        rcases move_eq s.phase (S.mover a) .out t with ⟨-, hm⟩ | ⟨hne, hm⟩
        · exact absurd hm ht
        · exact hframe s.base a t hreach hen hp hne (ih t (fun hout => ht (hm.trans hout)))
      · simp only [withMutex, if_neg hcritical] at ht
        rw [if_neg hcritical] at hphase
        refine hframe s.base a t hreach hen hp ?_ (ih t ht)
        intro ho
        rw [ho] at hphase
        exact ht (Option.some_inj.1 hphase)

instance [∀ s a, Decidable (M.enabled s a)] (s : State σ τ) (a : Act α τ) :
    Decidable ((withMutex M S).enabled s a) := by
  cases a <;> dsimp only [withMutex] <;> infer_instance

instance [∀ s a, Decidable (P s a)] (s : State σ τ) (a : Act α τ) : Decidable (Lift P s a) := by
  cases a <;> dsimp only [Lift] <;> infer_instance

end System

/-! ## Deadlock -/

section Deadlock

variable {τ L R : Type*} {holds waits : τ → L → Prop}

/-- `t` waits for a lock that `u` has. -/
def WaitsFor (holds waits : τ → L → Prop) (t u : τ) : Prop := ∃ l, waits t l ∧ holds u l

/-- **Lock order.** Where every thread waits for a lock of a higher rank than all it has, no threads wait for each other
in a cycle. -/
theorem acyclic_of_rank [Preorder R] (rank : L → R)
    (h : ∀ t l m, waits t l → holds t m → rank m < rank l) (t : τ) :
    ¬ Relation.TransGen (WaitsFor holds waits) t t := by
  have hchain : ∀ u, Relation.TransGen (WaitsFor holds waits) t u →
      ∃ l m, waits t l ∧ holds u m ∧ rank l ≤ rank m := by
    intro u hu
    induction hu with
    | single hu =>
      obtain ⟨l, hw, hh⟩ := hu
      exact ⟨l, l, hw, hh, le_refl _⟩
    | tail _ hstep ih =>
      obtain ⟨l, m, hw, hh, hle⟩ := ih
      obtain ⟨n, hw', hh'⟩ := hstep
      exact ⟨l, n, hw, hh', hle.trans (h _ n m hw' hh).le⟩
  intro hcycle
  obtain ⟨l, m, hw, hh, hle⟩ := hchain t hcycle
  exact absurd (h t l m hw hh) (not_lt_of_ge hle)

end Deadlock

end Mutex
