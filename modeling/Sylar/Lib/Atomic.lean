import Mathlib.Data.Option.Basic
import Sylar.Lib.Program

/-!
# Jobs that take effect at once

Threads and an environment act on one state (`crowd`). What a job does to the state may be spread over its program;
here are the programs that do it in one step. In the system `atomic` a thread at work has done its deed or has not yet,
and whoever calls sees of both systems the same: which job begins when, and which ends when and with what (`Mark`).

- `Follows`: the monitor of each program says whether the deed is done; `follows_step`, the step lemma;
- `crowd_atomic`: every history of the programs is one of the deeds.
-/

namespace Trans

variable {O : Type} {R : O → Type} {α ρ σ T J E β : Type} [DecidableEq T]

/-- What the steps of a run show, in order. -/
def System.trace (M : System σ α) (f : σ → α → Option β) : σ → List α → List β
  | _, [] => []
  | s, a :: as => (f s a).toList ++ trace M f (M.next s a) as

/-- What can be seen from outside: a thread begins a job, or ends it with a result. -/
inductive Mark (α T J : Type) where
  | call (t : T) (j : J)
  | ret (t : T) (a : α)
deriving DecidableEq

/-! ## Programs -/

/-- **Threads in an environment**, which acts on the state that they share. -/
def crowd (S : Sem O R σ) (V : System σ E) (body : J → Prog O R α) :
    System (Pool O R α σ T J) (PoolAct O R T J ⊕ E) where
  init p := V.init p.shared ∧ ∀ t, p.thread t = none
  enabled p a := Sum.elim (Pool.guard S p) (V.enabled p.shared) a
  next p a := Sum.elim (Pool.next S body p) (fun e => { p with shared := V.next p.shared e }) a

instance {S : Sem O R σ} [∀ s o r, Decidable (S.allowed s o r)] {V : System σ E} [∀ s e, Decidable (V.enabled s e)]
    (body : J → Prog O R α) (p : Pool O R α σ T J) (a : PoolAct O R T J ⊕ E) :
    Decidable ((crowd S V body).enabled p a) := by
  cases a with
  | inl a => exact inferInstanceAs (Decidable ((pool S body fun _ => True).enabled p a))
  | inr e => exact inferInstanceAs (Decidable (V.enabled p.shared e))

def Pool.mark (p : Pool O R α σ T J) : PoolAct O R T J ⊕ E → Option (Mark α T J)
  | .inl (.start t j) => some (.call t j)
  | .inl (.finish t) =>
    match p.thread t with
    | some (_, .ret a) => some (.ret t a)
    | _ => none
  | _ => none

/-! ## Deeds -/

/-- What a job does to the state, with what comes of it, and what it can return then; `none` is without its deed. -/
structure Deed (σ J ρ α : Type) where
  does : J → σ → ρ → σ → Prop
  gives : J → Option ρ → α → Prop

/-- A thread at work has its job and what came of the deed, once that is done. -/
structure Atomic (σ ρ T J : Type) where
  shared : σ
  thread : T → Option (J × Option ρ)

inductive AtomicAct (σ ρ α T J E : Type) where
  | start (t : T) (j : J)
  | perform (t : T) (r : ρ) (s : σ)
  | finish (t : T) (a : α)
  | env (e : E)

def AtomicAct.mark : AtomicAct σ ρ α T J E → Option (Mark α T J)
  | .start t j => some (.call t j)
  | .finish t a => some (.ret t a)
  | _ => none

namespace Atomic

def guard (D : Deed σ J ρ α) (V : System σ E) (q : Atomic σ ρ T J) : AtomicAct σ ρ α T J E → Prop
  | .start t _ => q.thread t = none
  | .perform t r s => ∃ j, q.thread t = some (j, none) ∧ D.does j q.shared r s
  | .finish t a => ∃ j g, q.thread t = some (j, g) ∧ D.gives j g a
  | .env e => V.enabled q.shared e

def next (V : System σ E) (q : Atomic σ ρ T J) : AtomicAct σ ρ α T J E → Atomic σ ρ T J
  | .start t j => { q with thread := Function.update q.thread t (some (j, none)) }
  | .perform t r s => ⟨s, Function.update q.thread t ((q.thread t).map fun x => (x.1, some r))⟩
  | .finish t _ => { q with thread := Function.update q.thread t none }
  | .env e => { q with shared := V.next q.shared e }

end Atomic

/-- **Deeds in an environment.** Each job does its deed in one step between its beginning and its end. -/
def atomic (D : Deed σ J ρ α) (V : System σ E) : System (Atomic σ ρ T J) (AtomicAct σ ρ α T J E) where
  init q := V.init q.shared ∧ ∀ t, q.thread t = none
  enabled := Atomic.guard D V
  next := Atomic.next V

/-! ## From the one to the other -/

section

variable {S : Sem O R σ} {V : System σ E} {body : J → Prog O R α} {D : Deed σ J ρ α} {m : J → Monitor O R (Option ρ)}
  {p p' : Pool O R α σ T J} {q : Atomic σ ρ T J}

/-- The states agree, and the monitor of every program knows what came of the deed. -/
structure Follows (D : Deed σ J ρ α) (m : J → Monitor O R (Option ρ)) (p : Pool O R α σ T J) (q : Atomic σ ρ T J) :
    Prop where
  shared : q.shared = p.shared
  thread : ∀ t, Option.Rel (fun x y => y.1 = x.1 ∧ Obeys (m x.1) (D.gives x.1) y.2 x.2) (p.thread t) (q.thread t)

omit [DecidableEq T] in
/-- The thread at work in the one system is at work in the other one. -/
theorem Follows.at (h : Follows D m p q) {t : T} {j : J} {k : Prog O R α} (ht : p.thread t = some (j, k)) :
    ∃ g, q.thread t = some (j, g) ∧ Obeys (m j) (D.gives j) g k := by
  have hrel := h.thread t
  rw [ht] at hrel
  cases hq : q.thread t with
  | none =>
    rw [hq] at hrel
    cases hrel
  | some y =>
    obtain ⟨i, g⟩ := y
    rw [hq] at hrel
    cases hrel with
    | some hrel =>
      obtain ⟨rfl, hobeys⟩ := hrel
      exact ⟨g, rfl, hobeys⟩

/-- One thread moves in both. -/
theorem Follows.update (h : Follows D m p q) {t : T} {x : Option (J × Prog O R α)} {y : Option (J × Option ρ)} {s : σ}
    (hxy : Option.Rel (fun x y => y.1 = x.1 ∧ Obeys (m x.1) (D.gives x.1) y.2 x.2) x y) :
    Follows D m ⟨s, Function.update p.thread t x⟩ ⟨s, Function.update q.thread t y⟩ := by
  refine ⟨rfl, fun u => ?_⟩
  rcases eq_or_ne u t with rfl | hne
  · simpa using hxy
  · simpa [hne] using h.thread u

/-- A step of the programs: at most one of the deeds' system, which shows the same. -/
theorem follows_step (hbody : ∀ j, Obeys (m j) (D.gives j) none (body j))
    (hop : ∀ j g s o r, (m j).ok g o → S.allowed s o r → (m j).next g o r = g ∧ S.next s o r = s ∨
      g = none ∧ ∃ b, (m j).next g o r = some b ∧ D.does j s b (S.next s o r))
    (h : Follows D m p q) {a : PoolAct O R T J ⊕ E} (ha : (crowd S V body).enabled p a) :
    ∃ bs q', (atomic D V).Steps Always q bs q' ∧ Follows D m ((crowd S V body).next p a) q' ∧
      bs.filterMap AtomicAct.mark = (p.mark a).toList := by
  cases a with
  | inr e =>
    refine ⟨[.env e], _, .cons ?_ trivial (.nil _), ⟨?_, h.thread⟩, rfl⟩
    · show V.enabled q.shared e
      rw [h.shared]
      exact ha
    · show V.next q.shared e = V.next p.shared e
      rw [h.shared]
  | inl a =>
    have ha' : (pool S body fun _ => True).enabled p a := ha
    have hnext : (crowd S V body).next p (.inl a) = (pool S body fun _ => True).next p a := rfl
    rw [hnext]
    obtain ⟨t, j, rfl, ht, hn⟩ | ⟨t, answer, j, o, k, rfl, ht, hal, hn⟩ | ⟨t, j, b, rfl, ht, hn⟩ := pool_cases ha'
    · rw [hn]
      refine ⟨[.start t j], _, .cons ?_ trivial (.nil _), ?_, rfl⟩
      · have hrel := h.thread t
        rw [ht] at hrel
        show q.thread t = none
        cases hq : q.thread t with
        | none => rfl
        | some y =>
          rw [hq] at hrel
          cases hrel
      · show Follows D m _ ⟨q.shared, _⟩
        rw [h.shared]
        exact h.update (.some ⟨rfl, hbody j⟩)
    · obtain ⟨g, hg, hok, hk⟩ := h.at ht
      rw [hn]
      rcases hop j g p.shared o _ hok hal with ⟨hsame, hs⟩ | ⟨rfl, b, hb, hdoes⟩
      · -- nothing to be seen
        refine ⟨[], q, .nil _, ?_, rfl⟩
        have hq : q = ⟨p.shared, Function.update q.thread t (some (j, g))⟩ := by
          rw [← hg, Function.update_eq_self, ← h.shared]
        rw [hs, hq]
        refine h.update (.some ⟨rfl, ?_⟩)
        rw [← hsame]
        exact hk _
      · refine ⟨[.perform t b (S.next p.shared o (answer o))], _, .cons ⟨j, hg, ?_⟩ trivial (.nil _), ?_, rfl⟩
        · rw [h.shared]
          exact hdoes
        · show Follows D m _ ⟨_, Function.update q.thread t ((q.thread t).map fun x => (x.1, some b))⟩
          rw [hg]
          refine h.update (.some ⟨rfl, ?_⟩)
          show Obeys (m j) (D.gives j) (some b) _
          rw [← hb]
          exact hk _
    · obtain ⟨g, hg, hgives⟩ := h.at ht
      rw [hn]
      refine ⟨[.finish t b], _, .cons ⟨j, g, hg, hgives⟩ trivial (.nil _), ?_, ?_⟩
      · show Follows D m _ ⟨q.shared, _⟩
        rw [h.shared]
        exact h.update .none
      · simp [AtomicAct.mark, Pool.mark, ht]

/-- **Programs that do a deed at once.** Where every operation that the monitor of a program admits leaves the state
alone, or is the first and only one to do the deed of the job, every history of the programs is one of the deeds, and it
ends in the same state. -/
theorem crowd_atomic (hbody : ∀ j, Obeys (m j) (D.gives j) none (body j))
    (hop : ∀ j g s o r, (m j).ok g o → S.allowed s o r → (m j).next g o r = g ∧ S.next s o r = s ∨
      g = none ∧ ∃ b, (m j).next g o r = some b ∧ D.does j s b (S.next s o r))
    {as : List (PoolAct O R T J ⊕ E)} (h : (crowd S V body).Steps Always p as p') :
    ∀ {q : Atomic σ ρ T J}, Follows D m p q → ∃ bs q', (atomic D V).Steps Always q bs q' ∧ Follows D m p' q' ∧
      bs.filterMap AtomicAct.mark = (crowd S V body).trace Pool.mark p as := by
  induction h with
  | nil p => exact fun hq => ⟨[], _, .nil _, hq, rfl⟩
  | cons ha _ _ ih =>
    intro q hq
    obtain ⟨bs, q', hbs, hq', hmark⟩ := follows_step hbody hop hq ha
    obtain ⟨cs, q'', hcs, hq'', hmarks⟩ := ih hq'
    refine ⟨bs ++ cs, q'', hbs.append hcs, hq'', ?_⟩
    rw [List.filterMap_append, hmark, hmarks]
    rfl

end

end Trans
