import Mathlib.Logic.Function.Basic
import Sylar.Lib.Transition

/-!
# Programs that call an interface

A program is a tree of operations `O`, each of which is answered by a value of `R o` (`Prog`). What the operations mean
is said apart from the programs: `Sem` has the answers that a state allows, and what they do to it. A program alone
leaves a list of events (`Run`); any number of threads, each with a program of its own, interleave their operations
(`pool`).

- `run_ret`, `run_op`, `run_bind`: what a run of a program is, from the outside in;
- `Obeys`: at every operation of the program a monitor, which has seen the operations before it, is content;
- `Run.keeps`: an invariant of the operations that the monitor admits holds all along a run;
- `pool_cases`: what a step of the threads is; `pool_obeys`: the program of every thread obeys;
- `amid`: one program, amid an environment that changes the state between any two operations; `amid_keeps`: the rule for
  runs, with what the environment does.
-/

namespace Trans

/-- Programs over the operations `O` that return an `α`. -/
inductive Prog (O : Type) (R : O → Type) (α : Type) where
  | ret (a : α)
  | op (o : O) (k : R o → Prog O R α)

variable {O : Type} {R : O → Type} {α β σ G T J : Type}

namespace Prog

def bind : Prog O R α → (α → Prog O R β) → Prog O R β
  | .ret a, f => f a
  | .op o k, f => .op o fun r => (k r).bind f

instance : Monad (Prog O R) where
  pure := .ret
  bind := bind

/-- One operation. -/
def call (o : O) : Prog O R (R o) := .op o .ret

@[simp] theorem pure_eq (a : α) : (pure a : Prog O R α) = .ret a := rfl

@[simp] theorem ret_bind (a : α) (f : α → Prog O R β) : (Prog.ret a : Prog O R α) >>= f = f a := rfl

@[simp] theorem op_bind (o : O) (k : R o → Prog O R α) (f : α → Prog O R β) :
    Prog.op o k >>= f = .op o fun r => k r >>= f := rfl

@[simp] theorem call_bind (o : O) (f : R o → Prog O R β) : (call o : Prog O R (R o)) >>= f = .op o f := rfl

end Prog

/-! ## Runs of one program -/

/-- What the operations mean: the answers that are possible in a state, and the state after them. -/
structure Sem (O : Type) (R : O → Type) (σ : Type) where
  allowed : σ → (o : O) → R o → Prop
  next : σ → (o : O) → R o → σ

/-- An operation, its answer, and the state that it was called in. -/
structure Event (O : Type) (R : O → Type) (σ : Type) where
  before : σ
  op : O
  reply : R op

/-- **A run** of a program from one state to another, with its events and its result. -/
inductive Run (S : Sem O R σ) : σ → Prog O R α → List (Event O R σ) → σ → α → Prop
  | ret (s : σ) (a : α) : Run S s (.ret a) [] s a
  | op {s t : σ} {o : O} {k : R o → Prog O R α} {r : R o} {es : List (Event O R σ)} {a : α} :
      S.allowed s o r → Run S (S.next s o r) (k r) es t a → Run S s (.op o k) (⟨s, o, r⟩ :: es) t a

variable {S : Sem O R σ} {s t : σ} {es : List (Event O R σ)}

@[simp] theorem run_ret {a b : α} : Run S s (.ret a) es t b ↔ es = [] ∧ t = s ∧ b = a := by
  constructor
  · intro h
    cases h
    exact ⟨rfl, rfl, rfl⟩
  · rintro ⟨rfl, rfl, rfl⟩
    exact .ret t b

@[simp] theorem run_op {o : O} {k : R o → Prog O R α} {b : α} :
    Run S s (.op o k) es t b ↔
      ∃ r es', S.allowed s o r ∧ es = ⟨s, o, r⟩ :: es' ∧ Run S (S.next s o r) (k r) es' t b := by
  constructor
  · intro h
    cases h with
    | op ha h => exact ⟨_, _, ha, rfl, h⟩
  · rintro ⟨r, es', ha, rfl, h⟩
    exact .op ha h

/-- **A run of a sequence** is a run of each part. -/
theorem run_bind {p : Prog O R α} {f : α → Prog O R β} {b : β} :
    Run S s (p >>= f) es t b ↔
      ∃ es₁ es₂ u a, es = es₁ ++ es₂ ∧ Run S s p es₁ u a ∧ Run S u (f a) es₂ t b := by
  induction p generalizing s es with
  | ret a =>
    constructor
    · intro h
      exact ⟨[], es, s, a, rfl, .ret s a, h⟩
    · rintro ⟨es₁, es₂, u, a', rfl, h₁, h₂⟩
      obtain ⟨rfl, rfl, rfl⟩ := run_ret.mp h₁
      exact h₂
  | op o k ih =>
    constructor
    · intro h
      obtain ⟨r, es', ha, rfl, h'⟩ := run_op.mp h
      obtain ⟨es₁, es₂, u, a, rfl, h₁, h₂⟩ := (ih r).mp h'
      exact ⟨_ :: es₁, es₂, u, a, rfl, .op ha h₁, h₂⟩
    · rintro ⟨es₁, es₂, u, a, rfl, h₁, h₂⟩
      obtain ⟨r, es', ha, rfl, h₁'⟩ := run_op.mp h₁
      exact .op ha ((ih r).mpr ⟨es', es₂, u, a, rfl, h₁', h₂⟩)

/-! ## Monitors -/

/-- What watches the operations of a program: a state, the operations that it admits there, and what an operation with
its answer makes of it. -/
structure Monitor (O : Type) (R : O → Type) (G : Type) where
  ok : G → O → Prop
  next : G → (o : O) → R o → G

/-- Whatever the answers, the monitor admits every operation of the program, and `L` holds of its state and the result
at the end. -/
def Obeys (m : Monitor O R G) (L : G → α → Prop) : G → Prog O R α → Prop
  | g, .ret a => L g a
  | g, .op o k => m.ok g o ∧ ∀ r, Obeys m L (m.next g o r) (k r)

variable {m : Monitor O R G} {g : G}

@[simp] theorem obeys_ret {L : G → α → Prop} {a : α} : Obeys m L g (.ret a : Prog O R α) ↔ L g a := Iff.rfl

@[simp] theorem obeys_op {L : G → α → Prop} {o : O} {k : R o → Prog O R α} :
    Obeys m L g (.op o k) ↔ m.ok g o ∧ ∀ r, Obeys m L (m.next g o r) (k r) := Iff.rfl

/-- **Sequencing**: the second program starts where the first one leaves the monitor. -/
theorem Obeys.bind {L : G → α → Prop} {L' : G → β → Prop} {f : α → Prog O R β}
    (hf : ∀ g a, L g a → Obeys m L' g (f a)) : ∀ {p : Prog O R α} {g : G}, Obeys m L g p → Obeys m L' g (p >>= f)
  | .ret a, g, h => hf g a h
  | .op _ _, _, ⟨ho, hk⟩ => ⟨ho, fun r => Obeys.bind hf (hk r)⟩

/-- **The rule for runs**: what every operation that the monitor admits keeps holds at every operation of a run, and at
its end. -/
theorem Run.keeps {L : G → α → Prop} {I : G → σ → Prop} {p : Prog O R α} {a : α}
    (hstep : ∀ g s o r, m.ok g o → I g s → S.allowed s o r → I (m.next g o r) (S.next s o r)) (h : Run S s p es t a) :
    ∀ {g : G}, Obeys m L g p → I g s → (∃ g', I g' t ∧ L g' a) ∧ ∀ e ∈ es, ∃ g', I g' e.before ∧ m.ok g' e.op := by
  induction h with
  | ret s a =>
    intro g hp hs
    exact ⟨⟨g, hs, hp⟩, by simp⟩
  | op ha _ ih =>
    rintro g ⟨ho, hk⟩ hs
    obtain ⟨hend, hes⟩ := ih (hk _) (hstep _ _ _ _ ho hs ha)
    refine ⟨hend, fun e he => ?_⟩
    rcases List.mem_cons.mp he with rfl | he
    · exact ⟨g, hs, ho⟩
    · exact hes e he

/-! ## Threads -/

/-- Threads `T` over a shared state. A thread at work has its job and what is left of the job's program. -/
structure Pool (O : Type) (R : O → Type) (α σ T J : Type) where
  shared : σ
  thread : T → Option (J × Prog O R α)

/-- A thread begins a job, gets the answer to its next operation (as a function of the operation), or ends its job. -/
inductive PoolAct (O : Type) (R : O → Type) (T J : Type) where
  | start (t : T) (j : J)
  | op (t : T) (answer : (o : O) → R o)
  | finish (t : T)

namespace Pool

/-- What a thread is about to do. -/
def head (p : Pool O R α σ T J) (t : T) : Option O :=
  match p.thread t with
  | some (_, .op o _) => some o
  | _ => none

def guard (S : Sem O R σ) (p : Pool O R α σ T J) : PoolAct O R T J → Prop
  | .start t _ => p.thread t = none
  | .op t answer =>
    match p.thread t with
    | some (_, .op o _) => S.allowed p.shared o (answer o)
    | _ => False
  | .finish t =>
    match p.thread t with
    | some (_, .ret _) => True
    | _ => False

def next [DecidableEq T] (S : Sem O R σ) (body : J → Prog O R α) (p : Pool O R α σ T J) :
    PoolAct O R T J → Pool O R α σ T J
  | .start t j => { p with thread := Function.update p.thread t (some (j, body j)) }
  | .op t answer =>
    match p.thread t with
    | some (j, .op o k) =>
      { shared := S.next p.shared o (answer o), thread := Function.update p.thread t (some (j, k (answer o))) }
    | _ => p
  | .finish t => { p with thread := Function.update p.thread t none }

end Pool

variable [DecidableEq T]

/-- **The threads as a system**, from the states `init` with every thread idle. -/
def pool (S : Sem O R σ) (body : J → Prog O R α) (init : σ → Prop) :
    System (Pool O R α σ T J) (PoolAct O R T J) where
  init p := init p.shared ∧ ∀ t, p.thread t = none
  enabled := Pool.guard S
  next := Pool.next S body

instance [∀ s o r, Decidable (S.allowed s o r)] (body : J → Prog O R α) (init : σ → Prop) (p : Pool O R α σ T J)
    (a : PoolAct O R T J) : Decidable ((pool S body init).enabled p a) := by
  unfold pool
  cases a with
  | start t j =>
    exact decidable_of_iff ((p.thread t).isNone = true) Option.isNone_iff_eq_none
  | op t answer =>
    dsimp only [Pool.guard]
    split <;> infer_instance
  | finish t =>
    dsimp only [Pool.guard]
    split <;> infer_instance

variable {body : J → Prog O R α} {init : σ → Prop} {p : Pool O R α σ T J} {a : PoolAct O R T J}

/-- **What a step of the threads is.** -/
theorem pool_cases (h : (pool S body init).enabled p a) :
    (∃ t j, a = .start t j ∧ p.thread t = none ∧
      (pool S body init).next p a = { p with thread := Function.update p.thread t (some (j, body j)) }) ∨
    (∃ t answer j o k, a = .op t answer ∧ p.thread t = some (j, .op o k) ∧ S.allowed p.shared o (answer o) ∧
      (pool S body init).next p a =
        ⟨S.next p.shared o (answer o), Function.update p.thread t (some (j, k (answer o)))⟩) ∨
    (∃ t j b, a = .finish t ∧ p.thread t = some (j, .ret b) ∧
      (pool S body init).next p a = { p with thread := Function.update p.thread t none }) := by
  cases a with
  | start t j => exact Or.inl ⟨t, j, rfl, h, rfl⟩
  | op t answer =>
    refine Or.inr (Or.inl ?_)
    simp only [pool, Pool.guard] at h
    split at h
    · rename_i j o k ht
      exact ⟨t, answer, j, o, k, rfl, ht, h, by simp only [pool, Pool.next, ht]⟩
    · exact h.elim
  | finish t =>
    refine Or.inr (Or.inr ?_)
    simp only [pool, Pool.guard] at h
    split at h
    · rename_i j b ht
      exact ⟨t, j, b, rfl, ht, rfl⟩
    · exact h.elim

/-- The entry of a thread is the one written last. -/
theorem update_eq_some {γ : Type} {f : T → Option γ} {t u : T} {x : Option γ} {y : γ}
    (h : Function.update f u x t = some y) : t = u ∧ x = some y ∨ t ≠ u ∧ f t = some y := by
  rw [Function.update_apply] at h
  split at h
  · exact Or.inl ⟨‹_›, h⟩
  · exact Or.inr ⟨‹_›, h⟩

omit [DecidableEq T] in
theorem head_eq_some {t : T} {o : O} : p.head t = some o ↔ ∃ j k, p.thread t = some (j, .op o k) := by
  unfold Pool.head
  constructor
  · intro h
    split at h
    · rename_i j o' k ht
      cases h
      exact ⟨j, k, ht⟩
    · cases h
  · rintro ⟨j, k, ht⟩
    rw [ht]

/-- Only the thread that moves has something else to do next. -/
theorem head_update {s : σ} {t u : T} {x : Option (J × Prog O R α)} {o : O}
    (h : Pool.head ⟨s, Function.update p.thread t x⟩ u = some o) :
    u = t ∧ (∃ j k, x = some (j, .op o k)) ∨ u ≠ t ∧ p.head u = some o := by
  obtain ⟨j, k, hu⟩ := head_eq_some.mp h
  obtain ⟨rfl, hx⟩ | ⟨hne, hu⟩ := update_eq_some hu
  · exact Or.inl ⟨rfl, j, k, hx⟩
  · exact Or.inr ⟨hne, head_eq_some.mpr ⟨j, k, hu⟩⟩

/-- **The program of every thread obeys**, at every moment, if the bodies of all jobs do. -/
theorem pool_obeys {L : G → α → Prop} {g₀ : G} (hbody : ∀ j, Obeys m L g₀ (body j)) {P : _ → _ → Prop}
    (h : (pool S body init).Reach P p) : ∀ t j q, p.thread t = some (j, q) → ∃ g, Obeys m L g q := by
  refine h.inv (I := fun p => ∀ t j q, p.thread t = some (j, q) → ∃ g, Obeys m L g q) ?_ ?_
  · intro p h₀ t j q ht
    rw [h₀.2 t] at ht
    cases ht
  · intro p a ih he _ t j q ht
    obtain ⟨u, i, rfl, -, hn⟩ | ⟨u, answer, i, o, k, rfl, hu, -, hn⟩ | ⟨u, i, b, rfl, -, hn⟩ := pool_cases he
    · rw [hn] at ht
      obtain ⟨-, ht⟩ | ⟨-, ht⟩ := update_eq_some ht
      · cases ht
        exact ⟨g₀, hbody j⟩
      · exact ih t j q ht
    · rw [hn] at ht
      obtain ⟨-, ht⟩ | ⟨-, ht⟩ := update_eq_some ht
      · cases ht
        obtain ⟨g, -, hk⟩ := ih u j _ hu
        exact ⟨_, hk (answer o)⟩
      · exact ih t j q ht
    · rw [hn] at ht
      obtain ⟨-, ht⟩ | ⟨-, ht⟩ := update_eq_some ht
      · cases ht
      · exact ih t j q ht

/-! ## Environments -/

/-- A state that an environment changes too, and what is left of the program. -/
structure Amid (O : Type) (R : O → Type) (α σ : Type) where
  shared : σ
  rest : Prog O R α

/-- The program gets the answer to its next operation, or the environment acts. -/
inductive AmidAct (O : Type) (R : O → Type) (E : Type) where
  | op (answer : (o : O) → R o)
  | env (e : E)

variable {E : Type}

namespace Amid

/-- Nothing happens once the program has returned. -/
def guard (S : Sem O R σ) (V : System σ E) (p : Amid O R α σ) : AmidAct O R E → Prop
  | .op answer =>
    match p.rest with
    | .op o _ => S.allowed p.shared o (answer o)
    | .ret _ => False
  | .env e =>
    match p.rest with
    | .op _ _ => V.enabled p.shared e
    | .ret _ => False

def next (S : Sem O R σ) (V : System σ E) (p : Amid O R α σ) : AmidAct O R E → Amid O R α σ
  | .op answer =>
    match p.rest with
    | .op o k => ⟨S.next p.shared o (answer o), k (answer o)⟩
    | .ret _ => p
  | .env e => { p with shared := V.next p.shared e }

end Amid

/-- **A program amid an environment**, which is a system on the same states. -/
def amid (S : Sem O R σ) (V : System σ E) (body : Prog O R α) : System (Amid O R α σ) (AmidAct O R E) where
  init p := V.init p.shared ∧ p.rest = body
  enabled := Amid.guard S V
  next := Amid.next S V

instance [∀ s o r, Decidable (S.allowed s o r)] {V : System σ E} [∀ s e, Decidable (V.enabled s e)]
    (body : Prog O R α) (p : Amid O R α σ) (a : AmidAct O R E) : Decidable ((amid S V body).enabled p a) := by
  unfold amid
  cases a with
  | op answer =>
    dsimp only [Amid.guard]
    split <;> infer_instance
  | env e =>
    dsimp only [Amid.guard]
    split <;> infer_instance

section

variable {V : System σ E} {body : Prog O R α} {p : Amid O R α σ} {a : AmidAct O R E} {L : G → α → Prop}
  {I : G → σ → Prop} {P : Amid O R α σ → AmidAct O R E → Prop} {g₀ : G}

/-- **What a step is**, of the program or of the environment. -/
theorem amid_cases (h : (amid S V body).enabled p a) :
    (∃ answer o k, a = .op answer ∧ p.rest = .op o k ∧ S.allowed p.shared o (answer o) ∧
      (amid S V body).next p a = ⟨S.next p.shared o (answer o), k (answer o)⟩) ∨
    (∃ e o k, a = .env e ∧ p.rest = .op o k ∧ V.enabled p.shared e ∧
      (amid S V body).next p a = { p with shared := V.next p.shared e }) := by
  cases a with
  | op answer =>
    refine Or.inl ?_
    simp only [amid, Amid.guard] at h
    split at h
    · rename_i o k ho
      exact ⟨answer, o, k, rfl, ho, h, by simp only [amid, Amid.next, ho]⟩
    · exact h.elim
  | env e =>
    refine Or.inr ?_
    simp only [amid, Amid.guard] at h
    split at h
    · rename_i o k ho
      exact ⟨e, o, k, rfl, ho, h, rfl⟩
    · exact h.elim

/-- **The rule for runs**: what every operation that the monitor admits keeps, and every act of the environment, holds
at every moment, and what is left of the program obeys. -/
theorem amid_keeps (hbody : Obeys m L g₀ body) (hinit : ∀ s, V.init s → I g₀ s)
    (hop : ∀ g s o r, m.ok g o → I g s → S.allowed s o r → I (m.next g o r) (S.next s o r))
    (henv : ∀ g p e, I g p.shared → V.enabled p.shared e → P p (.env e) → I g (V.next p.shared e))
    (h : (amid S V body).Reach P p) : ∃ g, Obeys m L g p.rest ∧ I g p.shared := by
  refine h.inv (I := fun p => ∃ g, Obeys m L g p.rest ∧ I g p.shared) ?_ ?_
  · rintro p ⟨hs, hrest⟩
    exact ⟨g₀, by rw [hrest]; exact hbody, hinit _ hs⟩
  · rintro p a ⟨g, hrest, hs⟩ he hP
    obtain ⟨answer, o, k, -, ho, ha, hn⟩ | ⟨e, o, k, rfl, -, ha, hn⟩ := amid_cases he
    · rw [ho] at hrest
      rw [hn]
      exact ⟨_, hrest.2 _, hop _ _ _ _ hrest.1 hs ha⟩
    · rw [hn]
      exact ⟨g, hrest, henv g p e hs ha hP⟩

end

end Trans
