import Sylar.Fiber.Machine

/-!
# Contexts of one thread

`Fiber::resume`, `yield`, `reset`, `MainFunc` and the public constructor (`fiber.cpp`) on one thread that has called
`getRunningFiber()`, under any user code: whatever executes may construct, reset, resume and yield fibers, at any depth.
`getcontext` in `reset` returns what its step says; in the constructors it succeeds, and so do `makecontext` and
`swapcontext`. The fibers that are used are alive.

A context is where it continues (`Point`). `resume()` of a fiber saves the caller in the context of `_scheduler_fiber`
or of `_main_fiber`, its slot, and `yield()` continues from what the slot holds.

- `Spares`, `spared`: a context stays as it is where nobody saves in it;
- `resume_returns`: where a `resume()` returns to, and with which `_running_fiber`; `resume_strays`: where it does not;
- `cycle_runs`: what a cycle of `reset()` and `resume()` would do; `reuse_iff`: what it does.
-/

namespace Sylar.Context

open Trans
open Fibers (FiberState)

/-- Where a saved context continues: at the begin of `MainFunc` on the stack of a fiber, in the code on a stack behind
the call with this number, or in `MainFunc` behind its last `yield()`. The thread's own stack is that of its main
fiber. -/
inductive Point where
  | entry (stack : Nat)
  | code (stack : Nat) (call : Nat)
  | done (stack : Nat)
deriving DecidableEq, Repr

def Point.stack : Point → Nat
  | .entry f | .code f _ | .done f => f

/-- `Fiber`. A null pointer is `0`. -/
structure Fiber (C : Type) where
  mId : UInt64
  mStackPtr : Nat
  mStackSize : UInt32
  mYieldToSchedulerFiber : Bool
  mState : FiberState
  mCb : Option C
  mCtx : Point

/-- The fibers `0`, .., `fibers - 1` of a thread, its thread-local pointers, and the place from where it executes.
`self f` is `runningFiber` in `MainFunc` on the stack of `f`, and `inCb f` says that the callback there has been called
and has not returned. `calls` numbers the switches; `entered` and `returned` are histories of the callbacks. -/
structure State (C : Type) where
  fiber : Nat → Fiber C
  fibers : Nat
  running : Nat
  scheduler : Nat
  main : Nat
  cur : Point
  calls : Nat
  self : Nat → Nat
  inCb : Nat → Bool
  entered : List (Nat × C)
  returned : List Nat
  /-- The thread has been terminated, by `pthread_exit` or behind the end of `MainFunc`. -/
  exited : Bool
  /-- An assertion has failed, or an empty callback was called. -/
  aborted : Bool

/-- What the code that executes can do. `reset` has what `getcontext` returns. -/
inductive Act (C : Type) where
  | construct (cb : Option C) (stacksize : UInt64) (runInScheduler : Bool) (id : UInt64) (ptr : Nat)
  | setScheduler (f : Nat)
  | resume (f : Nat)
  | yield (f : Nat)
  | reset (f : Nat) (cb : Option C) (got : Int)
  | enter
  | finish
  | exit

variable {C : Type}

namespace State

def setFiber (s : State C) (f : Nat) (x : Fiber C) : State C := { s with fiber := Function.update s.fiber f x }

/-- The fiber in whose context `resume()` of `f` saves, and from whose context `yield()` of `f` continues. -/
def slot (s : State C) (f : Nat) : Nat := if (s.fiber f).mYieldToSchedulerFiber then s.scheduler else s.main

/-- `setRunningFiber(target)` and `swapcontext(&save->m_ctx, &target->m_ctx)`. -/
def swap (s : State C) (save target : Nat) (at' : Point) : State C :=
  let s' := s.setFiber save { s.fiber save with mCtx := at' }
  { s' with cur := (s'.fiber target).mCtx, running := target, calls := s.calls + 1 }

/-- `f->yield()`, behind which the code stands at `at'`. -/
def yield (s : State C) (f : Nat) (at' : Point) : State C :=
  match (s.fiber f).mState with
  | .ready => { s with aborted := true }
  | .running => (s.setFiber f { s.fiber f with mState := .ready }).swap f (s.slot f) at'
  | .term => s.swap f (s.slot f) at'

end State

/-- Behind `getRunningFiber()`, which has made the main fiber. -/
def initial (C : Type) : State C where
  fiber _ := ⟨0, 0, 0, false, .running, none, .code 0 0⟩
  fibers := 1
  running := 0
  scheduler := 0
  main := 0
  cur := .code 0 0
  calls := 1
  self _ := 0
  inCb _ := false
  entered := []
  returned := []
  exited := false
  aborted := false

/-- Some code executes, outside `MainFunc` itself. -/
def State.inCode (s : State C) : Prop :=
  match s.cur with
  | .code _ _ => True
  | _ => False

/-- Where a step is possible. -/
def guard (s : State C) : Act C → Prop
  | .construct _ _ _ _ ptr => s.inCode ∧ ptr ≠ 0
  | .setScheduler f | .resume f | .yield f | .reset f _ _ => s.inCode ∧ f < s.fibers
  | .enter => s.cur = .entry s.cur.stack
  | .finish => s.inCode ∧ s.inCb s.cur.stack = true
  | .exit => s.cur = .done s.cur.stack

/-- What a step does. -/
def next (s : State C) : Act C → State C
  | .construct cb stacksize runInScheduler id ptr =>
    -- a `size_t` goes into a `uint32_t`
    let size := (if stacksize = 0 then 128000 else stacksize).toUInt32
    { s.setFiber s.fibers ⟨id, ptr, size, runInScheduler, .ready, cb, .entry s.fibers⟩ with fibers := s.fibers + 1 }
  | .setScheduler f => { s with scheduler := f }
  | .resume f =>
    if (s.fiber f).mState = .ready then
      (s.setFiber f { s.fiber f with mState := .running }).swap (s.slot f) f (.code s.cur.stack s.calls)
    else { s with aborted := true }
  | .yield f => s.yield f (.code s.cur.stack s.calls)
  | .reset f cb got =>
    if (s.fiber f).mStackPtr ≠ 0 ∧ (s.fiber f).mState = .term then
      let x := { s.fiber f with mState := .ready, mCb := cb }
      -- the test is that for a failure, the other way round
      if got = 0 then { s.setFiber f x with exited := true } else s.setFiber f { x with mCtx := .entry f }
    else { s with aborted := true }
  | .enter =>
    match (s.fiber s.running).mCb with
    | none => { s with aborted := true }
    | some cb =>
      { s with
        cur := .code s.cur.stack s.calls
        calls := s.calls + 1
        self := Function.update s.self s.cur.stack s.running
        inCb := Function.update s.inCb s.cur.stack true
        entered := s.entered ++ [(s.running, cb)] }
  | .finish =>
    let f := s.self s.cur.stack
    let s' := s.setFiber f { s.fiber f with mCb := none, mState := .term }
    { s' with
      inCb := Function.update s.inCb s.cur.stack false
      returned := s.returned ++ [f] }.yield f (.done s.cur.stack)
  | .exit => { s with exited := true }

/-- **The thread.** -/
def system (C : Type) : System (State C) (Act C) where
  init s := s = initial C
  enabled s a := s.aborted = false ∧ s.exited = false ∧ guard s a
  next := next

/-! ## The steps -/

variable {s t : State C} {a : Act C} {f g c : Nat}

/-- The step saves nothing in the context of `g`. -/
def Spares (g : Nat) (s : State C) : Act C → Prop
  | .resume f => s.slot f ≠ g
  | .yield f | .reset f _ _ => f ≠ g
  | .finish => s.self s.cur.stack ≠ g
  | .construct .. => g ≠ s.fibers
  | _ => True

@[simp] theorem setFiber_fiber {x : Fiber C} : (s.setFiber f x).fiber g = if g = f then x else s.fiber g :=
  Function.update_apply s.fiber f x g

/-- `swapcontext` writes one context. -/
theorem swap_ctx {p : Point} (hne : f ≠ g) : ((s.swap f c p).fiber g).mCtx = (s.fiber g).mCtx := by
  simp [State.swap, Ne.symm hne]

theorem swap_saves {p : Point} : ((s.swap f c p).fiber f).mCtx = p := by
  simp [State.swap]

/-- And it continues from the other one. -/
theorem swap_cur {p : Point} (hne : c ≠ f) : (s.swap f c p).cur = (s.fiber c).mCtx := by
  simp [State.swap, hne]

@[simp] theorem swap_running {p : Point} : (s.swap f c p).running = c := rfl

theorem yield_ctx {p : Point} (hne : f ≠ g) : ((s.yield f p).fiber g).mCtx = (s.fiber g).mCtx := by
  unfold State.yield
  split
  · rfl
  · rw [swap_ctx hne]
    simp [Ne.symm hne]
  · exact swap_ctx hne

/-- A step that saves nothing in a context leaves it as it is. -/
theorem next_ctx (h : Spares g s a) : ((next s a).fiber g).mCtx = (s.fiber g).mCtx := by
  cases a with
  | construct cb stacksize runInScheduler id ptr =>
    have hne : g ≠ s.fibers := h
    simp [next, hne]
  | setScheduler f => rfl
  | resume f =>
    simp only [next]
    split
    · rw [swap_ctx h]
      by_cases hgf : g = f
      · simp [hgf]
      · simp [hgf]
    · rfl
  | yield f => exact yield_ctx h
  | reset f cb got =>
    have hne : g ≠ f := Ne.symm h
    simp only [next]
    split_ifs <;> simp [hne]
  | enter =>
    simp only [next]
    split <;> rfl
  | finish =>
    have hne : g ≠ s.self s.cur.stack := Ne.symm h
    simp only [next]
    rw [yield_ctx h]
    simp [hne]
  | exit => rfl

/-- **Nobody saves in it**: the context stays as it is. -/
theorem spared {as : List (Act C)} (h : (system C).Steps (Spares g) s as t) :
    (t.fiber g).mCtx = (s.fiber g).mCtx := by
  induction h with
  | nil s => rfl
  | cons _ hp _ ih => exact ih.trans (next_ctx hp)

/-! ## Who executes -/

/-- **What a thread knows**: a context at the begin of `MainFunc` is that of the fiber with this stack, and so is the
fiber that `MainFunc` finds running. -/
structure Coherent (s : State C) : Prop where
  entry : ∀ f x, (s.fiber f).mCtx = .entry x → x = f
  cur : ∀ x, s.cur = .entry x → s.running = x
  self : ∀ x, s.inCb x = true → s.self x = x

theorem Coherent.swap (h : Coherent s) {p : Point} (hp : ∀ x, p ≠ .entry x) : Coherent (s.swap f c p) := by
  have hentry : ∀ g x, ((s.swap f c p).fiber g).mCtx = .entry x → x = g := by
    intro g x hx
    by_cases hfg : f = g
    · subst hfg
      rw [swap_saves] at hx
      exact absurd hx (hp x)
    · rw [swap_ctx hfg] at hx
      exact h.entry g x hx
  exact ⟨hentry, fun x hx => (hentry c x hx).symm, h.self⟩

theorem Coherent.setFiber (h : Coherent s) {x : Fiber C} (hx : x.mCtx = (s.fiber f).mCtx ∨ x.mCtx = .entry f) :
    Coherent (s.setFiber f x) := by
  refine ⟨fun g y hy => ?_, h.cur, h.self⟩
  rw [setFiber_fiber] at hy
  split at hy
  · rename_i hgf
    subst hgf
    rcases hx with hx | hx
    · exact h.entry g y (hx.symm.trans hy)
    · rw [hx] at hy
      cases hy
      rfl
  · exact h.entry g y hy

theorem Coherent.yield (h : Coherent s) {p : Point} (hp : ∀ x, p ≠ .entry x) : Coherent (s.yield f p) := by
  unfold State.yield
  split
  · exact ⟨h.entry, h.cur, h.self⟩
  · have hset := h.setFiber (f := f) (x := { s.fiber f with mState := .ready }) (Or.inl rfl)
    exact hset.swap hp
  · exact h.swap hp

theorem coherent_next (h : Coherent s) (hg : guard s a) : Coherent (next s a) := by
  cases a with
  | construct cb stacksize runInScheduler id ptr =>
    have hset := h.setFiber (f := s.fibers)
      (x := ⟨id, ptr, (if stacksize = 0 then 128000 else stacksize).toUInt32, runInScheduler, .ready, cb,
        .entry s.fibers⟩)
      (Or.inr rfl)
    exact ⟨hset.entry, hset.cur, hset.self⟩
  | setScheduler f => exact ⟨h.entry, h.cur, h.self⟩
  | resume f =>
    simp only [next]
    split
    · have hset := h.setFiber (f := f) (x := { s.fiber f with mState := .running }) (Or.inl rfl)
      exact hset.swap fun x hx => by cases hx
    · exact ⟨h.entry, h.cur, h.self⟩
  | yield f => exact h.yield fun x hx => by cases hx
  | reset f cb got =>
    simp only [next]
    split_ifs
    · have hset := h.setFiber (f := f) (x := { s.fiber f with mState := .ready, mCb := cb }) (Or.inl rfl)
      exact ⟨hset.entry, hset.cur, hset.self⟩
    · exact h.setFiber (f := f) (x := { s.fiber f with mState := .ready, mCb := cb, mCtx := .entry f }) (Or.inr rfl)
    · exact ⟨h.entry, h.cur, h.self⟩
  | enter =>
    simp only [next]
    split
    · exact ⟨h.entry, h.cur, h.self⟩
    · refine ⟨h.entry, fun x hx => (nomatch hx), fun x hx => ?_⟩
      rcases eq_or_ne x s.cur.stack with rfl | hne
      · simpa using h.cur _ hg
      · have hself := h.self x
        simp_all
  | finish =>
    simp only [next]
    refine Coherent.yield ?_ fun x hx => by cases hx
    have hset := h.setFiber (f := s.self s.cur.stack)
      (x := { s.fiber (s.self s.cur.stack) with mCb := none, mState := .term }) (Or.inl rfl)
    refine ⟨hset.entry, hset.cur, fun x hx => h.self x ?_⟩
    rcases eq_or_ne x s.cur.stack with rfl | hne
    · simp at hx
    · simpa [hne] using hx
  | exit => exact ⟨h.entry, h.cur, h.self⟩

theorem coherent_reach {P : State C → Act C → Prop} (h : (system C).Reach P s) : Coherent s := by
  refine h.inv ?_ ?_
  · rintro s rfl
    exact ⟨fun f x hx => (nomatch hx), fun x hx => (nomatch hx), fun x hx => (nomatch hx)⟩
  · intro s a hs he _
    exact coherent_next hs he.2.2

/-! ## Where `resume()` returns -/

/-- What `resume()` of a fiber leaves: the caller is in the context of the slot. -/
theorem resume_saves (hready : (s.fiber c).mState = .ready) :
    ((next s (.resume c)).fiber (s.slot c)).mCtx = .code s.cur.stack s.calls := by
  simp only [next, hready, if_true]
  exact swap_saves

/-- The fiber that executes leaves, by `yield()` or behind its callback. -/
structure Leaves (c : Nat) (s : State C) (a : Act C) : Prop where
  stack : s.cur.stack = c
  action : a = .yield c ∨ a = .finish
  enabled : (system C).enabled s a

theorem yield_switches {p : Point} (hstate : (s.fiber c).mState ≠ .ready) (hne : s.slot c ≠ c) :
    (s.yield c p).cur = (s.fiber (s.slot c)).mCtx ∧ (s.yield c p).running = s.slot c := by
  unfold State.yield
  split
  · rename_i hr
    exact absurd hr hstate
  · rw [swap_cur hne]
    simp [hne]
  · exact ⟨swap_cur hne, rfl⟩

/-- A fiber that leaves continues from its slot. -/
theorem Leaves.switches (h : Leaves c s a) (hs : Coherent s) (hgo : (next s a).aborted = false) (hne : s.slot c ≠ c) :
    (next s a).cur = (s.fiber (s.slot c)).mCtx ∧ (next s a).running = s.slot c := by
  obtain ⟨hstack, rfl | rfl, he⟩ := h
  · have hstate : (s.fiber c).mState ≠ .ready := by
      intro hr
      simp [next, State.yield, hr] at hgo
    exact yield_switches hstate hne
  · have hself : s.self s.cur.stack = c := by
      rw [← hstack]
      exact hs.self _ he.2.2.2
    let u : State C :=
      { s.setFiber c { s.fiber c with mCb := none, mState := .term } with
        inCb := Function.update s.inCb s.cur.stack false
        returned := s.returned ++ [c] }
    have hslot : u.slot c = s.slot c := by
      simp [u, State.slot, State.setFiber]
    have hfiber : u.fiber (s.slot c) = s.fiber (s.slot c) := by
      simp [u, State.setFiber, hne]
    have hterm : (u.fiber c).mState ≠ .ready := by
      simp [u, State.setFiber]
    have hswitch := yield_switches (p := .done s.cur.stack) hterm (hslot ▸ hne)
    rw [hslot, hfiber] at hswitch
    simpa only [next, hself] using hswitch

/-- **`resume()` returns to its caller**, if nobody else saves in the slot before the fiber leaves: then the code goes
on behind the call. `_running_fiber` is the slot then. The contexts are as they were, but for that of the fiber, that of
the slot, and those in which somebody has saved. -/
theorem resume_returns (C : Type) {s : State C} (h : (system C).Reach Always s) {c : Nat}
    (hresume : (system C).enabled s (.resume c)) (hready : (s.fiber c).mState = .ready) (hslot : s.slot c ≠ c)
    {as : List (Act C)} {t : State C} (hrun : (system C).Steps (Spares (s.slot c)) (next s (.resume c)) as t)
    (hsame : t.slot c = s.slot c) {a : Act C} (ha : Leaves c t a) (hgo : (next t a).aborted = false) :
    (next t a).cur = .code s.cur.stack s.calls ∧ (next t a).running = s.slot c ∧
      ∀ g, g ≠ c → g ≠ s.slot c → (system C).Steps (Spares g) (next s (.resume c)) as t →
        ((next t a).fiber g).mCtx = (s.fiber g).mCtx := by
  have hreach : (system C).Reach Always t :=
    (h.step hresume trivial).steps (hrun.mono fun _ _ _ => trivial)
  obtain ⟨hcur, hrunning⟩ := ha.switches (coherent_reach hreach) hgo (hsame ▸ hslot)
  refine ⟨?_, hrunning.trans hsame, fun g hgc hgf hg => ?_⟩
  · rw [hcur, hsame, spared hrun, resume_saves hready]
  · have hleave : Spares g t a := by
      obtain ⟨hstack, rfl | rfl, he⟩ := ha
      · exact Ne.symm hgc
      · have hself := (coherent_reach hreach).self _ he.2.2.2
        show t.self t.cur.stack ≠ g
        rw [hself, hstack]
        exact Ne.symm hgc
    have hfirst : Spares g s (.resume c) := Ne.symm hgf
    rw [next_ctx hleave, spared hg, next_ctx hfirst]

instance (s : State C) : Decidable s.inCode := by
  unfold State.inCode
  split <;> infer_instance

instance (s : State C) (a : Act C) : Decidable (guard s a) := by
  cases a <;> dsimp only [guard] <;> infer_instance

instance (s : State C) (a : Act C) : Decidable ((system C).enabled s a) :=
  inferInstanceAs (Decidable (_ ∧ _ ∧ guard s a))

def makeTwo : List (Act Unit) := [.construct (some ()) 0 true 1 64, .construct (some ()) 0 true 2 64]

/-- Two task fibers. -/
def twoTasks : State Unit := makeTwo.foldl next (initial Unit)

theorem twoTasks_reach : (system Unit).Reach Always twoTasks :=
  ⟨_, makeTwo, rfl, .cons (by decide) trivial (.cons (by decide) trivial (.nil _))⟩

/-- The first one executes. -/
def inTask : State Unit := [.resume 1, .enter].foldl next twoTasks

theorem inTask_reach : (system Unit).Reach Always inTask :=
  twoTasks_reach.steps (.cons (a := .resume 1) (by decide) trivial (.cons (a := .enter) (by decide) trivial (.nil _)))

theorem resume_returns_task : (next (next twoTasks (.resume 1)) .enter).cur.stack = 1 ∧
    (next (next (next twoTasks (.resume 1)) .enter) (.yield 1)).cur = .code 0 1 := by
  have hrun : (system Unit).Steps (Spares (twoTasks.slot 1)) (next twoTasks (.resume 1)) [.enter] _ :=
    .cons (by decide) trivial (.nil _)
  have h := resume_returns Unit twoTasks_reach (c := 1) (by decide) rfl (by decide) hrun rfl (a := .yield 1)
    ⟨rfl, Or.inl rfl, by decide⟩ rfl
  exact ⟨rfl, h.1⟩

/-- **`resume()` need not return to its caller** as the fiber that was running: where a task fiber resumes another one,
which yields at once, the main fiber is the running one behind that, and its own continuation is lost. And where the
second one is resumed in turn by the first, the first one's `yield()` does not get back to the main fiber. -/
theorem resume_strays :
    (¬ ∀ (s : State Unit) (c : Nat) (as : List (Act Unit)) (t : State Unit), (system Unit).Reach Always s →
      (system Unit).enabled s (.resume c) → (s.fiber c).mState = .ready → s.slot c ≠ c →
      (system Unit).Steps (fun _ a => a = .enter) (next s (.resume c)) as t → Leaves c t (.yield c) →
      (next t (.yield c)).cur = .code s.cur.stack s.calls ∧ (next t (.yield c)).running = s.cur.stack ∧
        ∀ g, g ≠ c → g ≠ s.cur.stack → ((next t (.yield c)).fiber g).mCtx = (s.fiber g).mCtx) ∧
    ∃ t, (system Unit).Steps Always twoTasks [.resume 1, .enter, .resume 2, .enter, .yield 2, .yield 1] t ∧
      t.cur.stack = 1 := by
  constructor
  · intro h
    obtain ⟨-, hrunning, -⟩ := h inTask 2 [.enter] _ inTask_reach (by decide) rfl (by decide)
      (.cons (by decide) rfl (.nil _)) ⟨rfl, Or.inl rfl, by decide⟩
    exact absurd hrunning (by decide)
  · have hrun : (System.exec (system Unit) Always twoTasks
        [.resume 1, .enter, .resume 2, .enter, .yield 2, .yield 1]).isSome = true := by
      decide
    exact ⟨_, System.steps_exec hrun, rfl⟩

/-! ## Reuse -/

/-- One cycle: `reset(cb)`, and `resume()` until the fiber has terminated, where `cb` yields `n` times. -/
def cycle (got : Int) (f : Nat) (cb : C) (n : Nat) : List (Act C) :=
  [.reset f (some cb) got, .resume f, .enter] ++ (List.replicate n [.yield f, .resume f]).flatten ++ [.finish]

/-- What a cycle shall come to: the caller goes on, and the fiber has run `cb` once, from its begin to its end. -/
structure Ran (f : Nat) (cb : C) (s t : State C) : Prop where
  alive : t.exited = false ∧ t.aborted = false
  caller : t.inCode ∧ t.cur.stack = s.cur.stack
  entered : t.entered = s.entered ++ [(f, cb)]
  returned : t.returned = s.returned ++ [f]
  term : (t.fiber f).mState = .term
  id : (t.fiber f).mId = (s.fiber f).mId
  stackPtr : (t.fiber f).mStackPtr = (s.fiber f).mStackPtr
  stackSize : (t.fiber f).mStackSize = (s.fiber f).mStackSize
  slot : t.slot f = s.slot f
  fibers : t.fibers = s.fibers

/-- **A terminated fiber can be reused**: one cycle after the other can be carried out, for these callbacks with these
numbers of yields. -/
def Reuses (got : Int) (f : Nat) : State C → List (C × Nat) → Prop
  | _, [] => True
  | s, (cb, n) :: cbs => ∃ t, (system C).Steps Always s (cycle got f cb n) t ∧ Ran f cb s t ∧ Reuses got f t cbs

/-- In the callback of `f`, which the code on the stack of `p` has resumed, since `s`. -/
structure Inside (p f : Nat) (cb : C) (s t : State C) : Prop where
  alive : t.exited = false ∧ t.aborted = false
  code : t.inCode ∧ t.cur.stack = f
  inCb : t.inCb f = true ∧ t.self f = f
  entered : t.entered = s.entered ++ [(f, cb)]
  returned : t.returned = s.returned
  running : (t.fiber f).mState = .running
  id : (t.fiber f).mId = (s.fiber f).mId
  stackPtr : (t.fiber f).mStackPtr = (s.fiber f).mStackPtr
  stackSize : (t.fiber f).mStackSize = (s.fiber f).mStackSize
  slot : t.slot f = s.slot f
  fibers : t.fibers = s.fibers
  saved : ∃ call, (t.fiber (s.slot f)).mCtx = .code p call

theorem yield_eq (hstate : (s.fiber f).mState = .running) (hne : s.slot f ≠ f) :
    next s (.yield f) =
      { s with
        fiber := Function.update s.fiber f
          { s.fiber f with mState := .ready, mCtx := .code s.cur.stack s.calls }
        cur := (s.fiber (s.slot f)).mCtx
        running := s.slot f
        calls := s.calls + 1 } := by
  simp [next, State.yield, hstate, State.swap, State.setFiber, hne]

theorem resume_eq (hstate : (s.fiber f).mState = .ready) (hne : s.slot f ≠ f) :
    next s (.resume f) =
      { s with
        fiber := Function.update (Function.update s.fiber f { s.fiber f with mState := .running }) (s.slot f)
          { s.fiber (s.slot f) with mCtx := .code s.cur.stack s.calls }
        cur := (s.fiber f).mCtx
        running := f
        calls := s.calls + 1 } := by
  simp [next, hstate, State.swap, State.setFiber, hne, Ne.symm hne]

theorem slot_congr (hflag : (t.fiber f).mYieldToSchedulerFiber = (s.fiber f).mYieldToSchedulerFiber)
    (hscheduler : t.scheduler = s.scheduler) (hmain : t.main = s.main) : t.slot f = s.slot f := by
  unfold State.slot
  rw [hflag, hscheduler, hmain]

/-- The fiber yields and is resumed. -/
theorem Inside.pass {p : Nat} {cb : C} (h : Inside p f cb s t) (hf : f < s.fibers) (hslot : s.slot f ≠ f) :
    ∃ u, (system C).Steps Always t [.yield f, .resume f] u ∧ Inside p f cb s u := by
  obtain ⟨call, hsaved⟩ := h.saved
  have hf' : f < t.fibers := h.fibers ▸ hf
  have hne : t.slot f ≠ f := h.slot ▸ hslot
  rw [← h.slot] at hsaved
  let u : State C := next t (.yield f)
  have hu : u = _ := yield_eq h.running hne
  rw [hsaved] at hu
  have huslot : u.slot f = t.slot f := by
    simp [hu, State.slot]
  have hready : (u.fiber f).mState = .ready := by
    simp [hu]
  have hv := resume_eq hready (huslot ▸ hne)
  rw [huslot] at hv
  have hcode : u.inCode := by
    simp [hu, State.inCode]
  have hyield : (system C).enabled t (.yield f) := ⟨h.alive.2, h.alive.1, h.code.1, hf'⟩
  have hresume : (system C).enabled u (.resume f) := by
    refine ⟨?_, ?_, hcode, ?_⟩
    · simpa [hu] using h.alive.2
    · simpa [hu] using h.alive.1
    · simpa [hu] using hf'
  refine ⟨next u (.resume f), .cons hyield trivial (.cons hresume trivial (.nil _)), ?_⟩
  rw [hv]
  have hctx : (u.fiber f).mCtx = .code f t.calls := by
    simp [hu, h.code.2]
  have hcur : u.cur.stack = p := by
    simp [hu, Point.stack]
  constructor
  · simpa [hu] using h.alive
  · simp [hctx, State.inCode, Point.stack]
  · simpa [hu] using h.inCb
  · simpa [hu] using h.entered
  · simpa [hu] using h.returned
  · simp [Ne.symm hne]
  · simpa [hu, Ne.symm hne] using h.id
  · simpa [hu, Ne.symm hne] using h.stackPtr
  · simpa [hu, Ne.symm hne] using h.stackSize
  · refine (slot_congr ?_ ?_ ?_).trans h.slot
    · simp [hu, Ne.symm hne]
    · simp [hu]
    · simp [hu]
  · simpa [hu] using h.fibers
  · refine ⟨u.calls, ?_⟩
    rw [← h.slot, hcur]
    simp

theorem Inside.passes {p : Nat} {cb : C} (hf : f < s.fibers) (hslot : s.slot f ≠ f) : ∀ n {t}, Inside p f cb s t →
    ∃ u, (system C).Steps Always t (List.replicate n [.yield f, .resume f]).flatten u ∧ Inside p f cb s u
  | 0, t, h => ⟨t, .nil t, h⟩
  | n + 1, t, h => by
    obtain ⟨u, hrun, hu⟩ := h.pass hf hslot
    obtain ⟨v, hrun', hv⟩ := Inside.passes hf hslot n hu
    refine ⟨v, ?_, hv⟩
    rw [List.replicate_succ, List.flatten_cons]
    exact hrun.append hrun'

/-- The callback returns, and the caller goes on. -/
theorem Inside.finish {p : Nat} {cb : C} (h : Inside p f cb s t) (hslot : s.slot f ≠ f) (hp : s.cur.stack = p) :
    (system C).Steps Always t [.finish] (next t .finish) ∧ Ran f cb s (next t .finish) := by
  obtain ⟨call, hsaved⟩ := h.saved
  have hne : t.slot f ≠ f := h.slot ▸ hslot
  rw [← h.slot] at hsaved
  have hin : t.inCb t.cur.stack = true := by
    rw [h.code.2]
    exact h.inCb.1
  have hu : next t .finish =
      { t with
        fiber := Function.update t.fiber f { t.fiber f with mCb := none, mState := .term, mCtx := .done f }
        cur := .code p call
        running := t.slot f
        calls := t.calls + 1
        inCb := Function.update t.inCb f false
        returned := t.returned ++ [f] } := by
    let u : State C :=
      { t with
        fiber := Function.update t.fiber f { t.fiber f with mCb := none, mState := .term }
        inCb := Function.update t.inCb f false
        returned := t.returned ++ [f] }
    have hyield : next t .finish = u.yield f (.done f) := by
      simp only [next, h.code.2, h.inCb.2]
      rfl
    have hterm : (u.fiber f).mState = .term := by
      simp [u]
    have hu : u.slot f = t.slot f := slot_congr (by simp [u]) rfl rfl
    rw [hyield]
    unfold State.yield
    simp only [hterm, hu]
    simp [State.swap, State.setFiber, hne, u, hsaved]
  refine ⟨.cons ⟨h.alive.2, h.alive.1, h.code.1, hin⟩ trivial (.nil _), ?_⟩
  rw [hu]
  constructor
  · simpa using h.alive
  · exact ⟨by simp [State.inCode], hp.symm⟩
  · simpa using h.entered
  · simpa using h.returned
  · simp
  · simpa using h.id
  · simpa using h.stackPtr
  · simpa using h.stackSize
  · refine (slot_congr ?_ ?_ ?_).trans h.slot
    · simp
    · rfl
    · rfl
  · exact h.fibers

theorem enter_eq {cb : C} (hcur : s.cur = .entry f) (hrunning : s.running = f) (hcb : (s.fiber f).mCb = some cb) :
    next s .enter =
      { s with
        cur := .code f s.calls
        calls := s.calls + 1
        self := Function.update s.self f f
        inCb := Function.update s.inCb f true
        entered := s.entered ++ [(f, cb)] } := by
  simp only [next, hrunning, hcb, hcur, Point.stack]

/-- The cycle up to the callback. -/
theorem inside_start {p : Nat} {cb : C} {got : Int} (halive : s.exited = false ∧ s.aborted = false)
    (hcode : s.inCode ∧ s.cur.stack = p) (hf : f < s.fibers) (hptr : (s.fiber f).mStackPtr ≠ 0)
    (hterm : (s.fiber f).mState = .term) (hslot : s.slot f ≠ f) (hgot : got ≠ 0) :
    ∃ t, (system C).Steps Always s [.reset f (some cb) got, .resume f, .enter] t ∧ Inside p f cb s t := by
  let u : State C :=
    s.setFiber f { s.fiber f with mState := .ready, mCb := some cb, mCtx := .entry f }
  have hu : next s (.reset f (some cb) got) = u := by
    simp [next, hptr, hterm, hgot, u]
  have huslot : u.slot f = s.slot f := slot_congr (by simp [u]) rfl rfl
  have hready : (u.fiber f).mState = .ready := by
    simp [u]
  have hv := resume_eq hready (huslot ▸ hslot)
  have hcur : (next u (.resume f)).cur = .entry f := by
    rw [hv]
    simp [u]
  have hrunning : (next u (.resume f)).running = f := by
    rw [hv]
  have hcb : ((next u (.resume f)).fiber f).mCb = some cb := by
    rw [hv, huslot]
    simp [u, Ne.symm hslot]
  have hw := enter_eq hcur hrunning hcb
  have hreset : (system C).enabled s (.reset f (some cb) got) := ⟨halive.2, halive.1, hcode.1, hf⟩
  have hresume : (system C).enabled u (.resume f) := ⟨halive.2, halive.1, hcode.1, hf⟩
  have henter : (system C).enabled (next u (.resume f)) .enter := by
    refine ⟨?_, ?_, ?_⟩
    · rw [hv]
      exact halive.2
    · rw [hv]
      exact halive.1
    · show (next u (.resume f)).cur = .entry (next u (.resume f)).cur.stack
      rw [hcur]
      rfl
  refine ⟨next (next u (.resume f)) .enter, .cons hreset trivial ?_, ?_⟩
  · rw [show (system C).next s (.reset f (some cb) got) = u from hu]
    exact .cons hresume trivial (.cons henter trivial (.nil _))
  rw [hw, hv, huslot]
  have hother : u.fiber (s.slot f) = s.fiber (s.slot f) := by
    simp [u, hslot]
  constructor
  · exact halive
  · exact ⟨trivial, rfl⟩
  · simp
  · rfl
  · rfl
  · simp [Ne.symm hslot]
  · simp [Ne.symm hslot, u]
  · simp [Ne.symm hslot, u]
  · simp [Ne.symm hslot, u]
  · refine slot_congr ?_ rfl rfl
    simp [Ne.symm hslot, u]
  · rfl
  · refine ⟨u.calls, ?_⟩
    rw [← hcode.2]
    simp [u, State.setFiber]

/-- **What the cycles would do**, if `reset()` did not take the success of `getcontext` for its failure. -/
theorem cycle_runs {got : Int} (hgot : got ≠ 0) : ∀ (cbs : List (C × Nat)) {s : State C},
    s.exited = false ∧ s.aborted = false → s.inCode → f < s.fibers → (s.fiber f).mStackPtr ≠ 0 →
    (s.fiber f).mState = .term → s.slot f ≠ f → Reuses got f s cbs
  | [], _, _, _, _, _, _, _ => trivial
  | (cb, n) :: cbs, s, halive, hcode, hf, hptr, hterm, hslot => by
    obtain ⟨t, hstart, ht⟩ : ∃ t, (system C).Steps Always s [.reset f (some cb) got, .resume f, .enter] t ∧
        Inside s.cur.stack f cb s t := inside_start halive ⟨hcode, rfl⟩ hf hptr hterm hslot hgot
    obtain ⟨u, hpasses, hu⟩ := ht.passes hf hslot n
    obtain ⟨hfinish, hran⟩ := hu.finish hslot rfl
    refine ⟨_, (hstart.append hpasses).append hfinish, hran, ?_⟩
    refine cycle_runs hgot cbs hran.alive hran.caller.1 ?_ ?_ hran.term ?_
    · rw [hran.fibers]
      exact hf
    · rw [hran.stackPtr]
      exact hptr
    · rw [hran.slot]
      exact hslot

/-- **A terminated fiber cannot be reused**: where `getcontext` succeeds, `reset()` terminates the thread, so that no
cycle at all can be carried out. Where it returned something else than `0`, all of them could. -/
theorem reuse_iff (C : Type) (f : Nat) (s : State C) (cbs : List (C × Nat)) :
    (Reuses 0 f s cbs ↔ cbs = []) ∧
      ∀ got, got ≠ 0 → s.exited = false ∧ s.aborted = false → s.inCode → f < s.fibers → (s.fiber f).mStackPtr ≠ 0 →
        (s.fiber f).mState = .term → s.slot f ≠ f → Reuses got f s cbs := by
  refine ⟨⟨fun h => ?_, fun h => ?_⟩, fun got hgot => cycle_runs hgot cbs⟩
  · cases cbs with
    | nil => rfl
    | cons x cbs =>
      obtain ⟨t, hrun, -, -⟩ := h
      -- behind `reset()` nothing is possible
      cases hrun with
      | cons hreset _ hrun =>
        cases hrun with
        | cons hresume _ _ =>
          exfalso
          obtain ⟨haborted, hexited, -⟩ := hresume
          simp only [system, next] at haborted hexited
          split_ifs at haborted hexited
  · subst h
    trivial

def terminate : List (Act Unit) := [.construct (some ()) 0 true 1 64, .resume 1, .enter, .finish]

/-- A fiber that has run its callback. -/
def terminated : State Unit := terminate.foldl next (initial Unit)

theorem terminated_reach : (system Unit).Reach Always terminated :=
  ⟨_, terminate, rfl, .cons (by decide) trivial (.cons (by decide) trivial (.cons (by decide) trivial
    (.cons (by decide) trivial (.nil _))))⟩

theorem reuse_iff_terminated : Reuses 1 1 terminated [((), 2), ((), 0)] :=
  (reuse_iff Unit 1 terminated _).2 1 (by decide) ⟨rfl, rfl⟩ (by decide) (by decide) (by decide) rfl (by decide)

/-- A fiber that cannot be reused. -/
theorem not_reusable : ¬ ∀ (s : State Unit) (f : Nat) (cbs : List (Unit × Nat)), (system Unit).Reach Always s →
    (s.fiber f).mStackPtr ≠ 0 → (s.fiber f).mState = .term → Reuses 0 f s cbs := by
  intro h
  obtain ⟨t, hrun, -, -⟩ := h terminated 1 [((), 0)] terminated_reach (by decide) rfl
  cases hrun with
  | cons _ _ hrun =>
    cases hrun with
    | cons hresume _ _ => exact absurd hresume (by decide)

end Sylar.Context
