import Sylar.Scheduler.Machine

/-!
# Fibers and contexts

`Fiber::resume`, `yield`, `getRunningFiber` and `MainFunc` (`fiber.cpp`) under `Scheduler::run`, `idle` and `stop`, with
the hooked `sleep` (`hook.cpp`). The scheduler's own members and positions are those of `Sylar.Scheduler.Machine`
(`State.base`); this model has what happens inside `resume()`: fibers with their state, mutex and saved context,
threads with their thread-local pointers and the stack they execute, reference counts, and timers.

`swapcontext(a, b)` saves the continuation of the stack that executes in `a` and continues from what `b` holds,
whatever that is. `setRunningFiber` and the `swapcontext` behind it are one step, since only the thread itself reads
`_running_fiber`. User code runs in task and callback fibers: it schedules, sleeps, yields the running fiber, creates
and drops fibers and returns. It calls neither `resume()` nor `stop()` and hands no main, scheduler or idle fiber to
`scheduleLock`.
-/

namespace Sylar.Fibers

open Trans

/-- The fibers, named by what they are made for: the main fiber of a thread, `m_schedulerFiber`, the `idle_fiber` of a
`run()`, and the task and callback fibers in the order of their construction. No code looks at the name. -/
inductive FiberId (W : Type) where
  | main (w : W)
  | sched
  | idle (w : W)
  | task (n : Nat)
deriving DecidableEq, Repr

/-- `Fiber::State`. -/
inductive FiberState where
  | ready
  | running
  | term
deriving DecidableEq, Repr

/-- `m_cb`. -/
inductive Cb (C : Type) where
  | run
  | idle
  | user (c : C)
deriving DecidableEq, Repr

/-- Which `resume()` of `run()`: that of `task.fiber` or `cb_fiber`, or that of `idle_fiber`. -/
inductive Branch where
  | task
  | idle
deriving DecidableEq, Repr

/-- Where a thread stands in `run()`: at the scheduler's position (`main`), or inside a branch. `check` is the test of
the state in the branch of `task.fiber`, and `back` is behind the `swapcontext` of `resume()` in the `n`-th iteration.
-/
inductive RunPc where
  | main
  | make
  | lock
  | check
  | set (k : Branch)
  | swap (k : Branch)
  | back (k : Branch) (n : Nat)
  | unlock
deriving DecidableEq, Repr

/-- Where a thread stands: outside `run()`, in `run()`, or in `MainFunc`; `yield` is in `this->yield()` behind the
change of the state, on the way to the switch. -/
inductive Pc (W : Type) where
  | unborn
  | native
  | stopBack
  | gone
  | run (p : RunPc)
  | entry
  | body
  | setTerm
  | dropSelf
  | last
  | yield (this : FiberId W) (ended : Bool)
  | exited
deriving DecidableEq, Repr

/-- A thread's own stack, or the one a fiber allocated. -/
inductive Stack (W : Type) where
  | native (w : W)
  | fiber (f : FiberId W)
deriving DecidableEq, Repr

/-- A continuation, as saved in a `ucontext_t`. -/
structure Cont (W : Type) where
  stack : Stack W
  pc : Pc W
deriving DecidableEq, Repr

/-- `Fiber`, with the locals `runningFiber` (`self`) and `raw_ptr` of `MainFunc` on its stack. The last three fields are
histories: `last` is where the fiber's code was when it was last suspended, `resumer` what the last `resume()` saved. -/
structure Fiber (W C : Type) where
  mState : FiberState
  mCtx : Cont W
  mYieldToSchedulerFiber : Bool
  mCb : Option (Cb C)
  self : Option (FiberId W)
  rawPtr : Option (FiberId W)
  last : Pc W
  resumer : Option (Cont W)
  started : Bool

/-- A thread: the stack and position it executes, its thread-local fiber pointers, the locals `idle_fiber` and
`cb_fiber` of `run()`, and the number of the iteration. -/
structure Thread (W : Type) where
  stack : Stack W
  pc : Pc W
  runningFiber : Option (FiberId W)
  mainFiber : Option (FiberId W)
  schedulerFiber : Option (FiberId W)
  idleFiber : Option (FiberId W)
  cbFiber : Option (FiberId W)
  iter : Nat

/-- `nextId` is the number of task fibers constructed so far, `refs` are the `use_count`s and `userRefs` those of them
that user code holds, `timers` are the fibers in the closures of pending timers, and `destroyed` is behind
`~Scheduler`. -/
structure State (W E C : Type) where
  base : Sched.State W E (FiberId W) C
  thread : W → Thread W
  fib : FiberId W → Fiber W C
  nextId : Nat
  mMutex : FiberId W → Option W
  refs : FiberId W → Nat
  userRefs : FiberId W → Nat
  timers : List (FiberId W)
  dead : FiberId W → Bool
  destroyed : Bool

/-- The steps. `base` are those in which the scheduler's model has everything, up to the references. `sleep` is the
hooked `sleep` of user code up to its `yield()`, which is a step `yield`. -/
inductive Act (W E C : Type) where
  | base (a : Sched.Act W E (FiberId W) C)
  | newFiber (c : C)
  | share (f : FiberId W)
  | getRunning (w : W)
  | release (f : FiberId W)
  | fire (e : E) (i : Nat)
  | prologue (w : W)
  | enter (w : W)
  | top (w : W)
  | dispatch (w : W)
  | make (w : W)
  | lock (w : W)
  | check (w : W)
  | set (w : W) (k : Branch)
  | swap (w : W) (k : Branch)
  | unlock (w : W)
  | reset (w : W)
  | idleInc (w : W)
  | idleDec (w : W)
  | leave (w : W)
  | entry (w : W)
  | sleep (w : W)
  | yield (w : W)
  | ret (w : W)
  | idle (w : W)
  | setTerm (w : W)
  | dropSelf (w : W)
  | last (w : W)
  | yswap (w : W)
  | stopResume (e : E)
  | stopBack (e : E)
  | destroy (e : E)

variable {W E C : Type} [DecidableEq W] [DecidableEq E]

/-- What `run()` resumes: `task.fiber`, else `cb_fiber`, or `idle_fiber`. -/
def Thread.target (t : Thread W) (x : Sched.Worker (FiberId W) C) : Branch → Option (FiberId W)
  | .task => (x.task.bind fun e => e.task.fiber).or t.cbFiber
  | .idle => t.idleFiber

/-- The private constructor, on the thread `w`. -/
def Fiber.main (w : W) : Fiber W C :=
  ⟨.running, ⟨.native w, .native⟩, false, none, none, none, .native, none, true⟩

/-- The public constructor. -/
def Fiber.make (f : FiberId W) (cb : Option (Cb C)) (runInScheduler : Bool) : Fiber W C :=
  ⟨.ready, ⟨.fiber f, .entry⟩, runInScheduler, cb, none, none, .entry, none, false⟩

namespace State

/-- The fiber whose code a thread executes. -/
def exec (s : State W E C) (w : W) : Option (FiberId W) :=
  match (s.thread w).stack with
  | .fiber f => some f
  | .native v => (s.thread v).mainFiber

/-- The callback that `MainFunc` runs on the stack that a thread executes. -/
def code (s : State W E C) (w : W) : Option (Cb C) :=
  match (s.thread w).stack with
  | .fiber f => (s.fib f).self.bind fun x => (s.fib x).mCb
  | .native _ => none

/-- The thread is in user code, outside `scheduleLock`. -/
def inUser (s : State W E C) (w : W) : Bool :=
  (s.thread w).pc == .body && (s.base.wake (.inl w)).isNone &&
    match s.code w with
    | some (.user _) => true
    | _ => false

/-- The thread stands at `pc`, outside `scheduleLock`. -/
def stands (s : State W E C) (w : W) (pc : Pc W) : Prop := (s.thread w).pc = pc ∧ s.base.wake (.inl w) = none

/-- The thread stands in `run()` at the scheduler's position `pc`. -/
def standsAt (s : State W E C) (w : W) (pc : Sched.Pc) : Prop := s.stands w (.run .main) ∧ (s.base.worker w).pc = pc

def target (s : State W E C) (w : W) (k : Branch) : Option (FiberId W) := (s.thread w).target (s.base.worker w) k

@[simp] def setThread (s : State W E C) (w : W) (t : Thread W) : State W E C :=
  { s with thread := Function.update s.thread w t }

@[simp] def goto (s : State W E C) (w : W) (pc : Pc W) : State W E C := s.setThread w { s.thread w with pc := pc }

@[simp] def setFiber (s : State W E C) (f : FiberId W) (x : Fiber W C) : State W E C :=
  { s with fib := Function.update s.fib f x }

/-- A failed `assert`, or the use of a null pointer. -/
@[simp] def abort (s : State W E C) (a : Sched.Assertion) : State W E C := { s with base := s.base.abort a }

/-- A `shared_ptr` is copied. -/
@[simp] def hold (s : State W E C) (f : FiberId W) : State W E C :=
  { s with refs := Function.update s.refs f (s.refs f + 1) }

/-- A `shared_ptr` is dropped; the last one destroys the fiber. -/
@[simp] def drop (s : State W E C) (f : FiberId W) : State W E C :=
  { s with
    refs := Function.update s.refs f (s.refs f - 1)
    dead := if s.refs f = 1 then Function.update s.dead f true else s.dead }

def dropAny (s : State W E C) : Option (FiberId W) → State W E C
  | none => s
  | some f => s.drop f

/-- A fiber is constructed, with one `shared_ptr` to it. -/
@[simp] def construct (s : State W E C) (f : FiberId W) (x : Fiber W C) : State W E C :=
  { s.setFiber f x with
    refs := Function.update s.refs f 1
    dead := Function.update s.dead f false }

/-- A fiber that runs `cb` is constructed, for a task or a callback. -/
@[simp] def newTask (s : State W E C) (cb : Option (Cb C)) : State W E C :=
  { s.construct (.task s.nextId) (.make (.task s.nextId) cb true) with nextId := s.nextId + 1 }

/-- `setRunningFiber(target)` and `swapcontext(&save->m_ctx, &target->m_ctx)`, behind which the code stands at `pc`. -/
def switchTo (s : State W E C) (w : W) (save target : FiberId W) (pc : Pc W) : State W E C :=
  let t := s.thread w
  let fib := fun f => { s.fib f with
    mCtx := if f = save then ⟨t.stack, pc⟩ else (s.fib f).mCtx
    last := if s.exec w = some f then pc else (s.fib f).last }
  { s with
    fib := fib
    thread := Function.update s.thread w
      { t with stack := (fib target).mCtx.stack, pc := (fib target).mCtx.pc, runningFiber := some target } }

/-- Where `resume()` of `g` saves and where `yield()` of `g` goes. -/
def partner (s : State W E C) (w : W) (g : FiberId W) : Option (FiberId W) :=
  if (s.fib g).mYieldToSchedulerFiber then (s.thread w).schedulerFiber else (s.thread w).mainFiber

/-- The second half of `g->resume()`. -/
def swapIn (s : State W E C) (w : W) (g : FiberId W) (pc : Pc W) : State W E C :=
  match s.partner w g with
  | none => s.abort .nullFiber
  | some r =>
    (s.switchTo w r g pc).setFiber g
      { (s.switchTo w r g pc).fib g with resumer := some ⟨(s.thread w).stack, pc⟩, started := true }

/-- The first half of `x->yield()`. -/
def callYield (s : State W E C) (w : W) (x : FiberId W) (ended : Bool) : State W E C :=
  if (s.fib x).mState = .ready then s.abort .fiberYield
  else
    (s.setFiber x { s.fib x with mState := if (s.fib x).mState = .term then .term else .ready }).goto w
      (.yield x ended)

/-- `getRunningFiber()->yield()`. -/
def yieldRunning (s : State W E C) (w : W) : State W E C :=
  match (s.thread w).runningFiber with
  | none => s.abort .nullFiber
  | some x => s.callYield w x false

/-- `addTimer` in the hooked `sleep`: the closure holds the running fiber. -/
def addTimer (s : State W E C) (w : W) : State W E C :=
  match (s.thread w).runningFiber with
  | none => s.abort .nullFiber
  | some x => { s.hold x with timers := s.timers ++ [x] }

/-- `m_cb()` has returned into `MainFunc`: `runningFiber->m_cb = nullptr`. -/
def endCb (s : State W E C) (w : W) : State W E C :=
  match (s.thread w).stack with
  | .native _ => s.abort .nullFiber
  | .fiber f =>
    match (s.fib f).self with
    | none => s.abort .nullFiber
    | some x => (s.setFiber x { s.fib x with mCb := none }).goto w .setTerm

/-- The worker whose idle fiber a thread executes. -/
def idler (s : State W E C) (w : W) : Option W :=
  match (s.thread w).stack with
  | .fiber (.idle v) => some v
  | _ => none

/-- The idle fiber of `v` moves on in `idle()`. -/
@[simp] def idleTo (s : State W E C) (v : W) (pos : Sched.IdlePos) : State W E C :=
  { s with base := s.base.setWorker v { s.base.worker v with idlePos := pos } }

end State

/-- After the constructor. What `fib` has of a fiber before its construction is never used. -/
def initial (C : Type) (cfg : Sylar.Config W E) : State W E C where
  base := Sched.initial W E (FiberId W) C
  thread w :=
    if cfg.root = some w then ⟨.native w, .native, some (.main w), some (.main w), some .sched, none, none, 0⟩
    else ⟨.native w, .unborn, none, none, none, none, none, 0⟩
  fib
    | .main w => .main w
    | .sched => .make .sched (some .run) false
    | .idle w => .make (.idle w) (some .idle) true
    | .task n => .make (.task n) none true
  nextId := 0
  mMutex _ := none
  refs
    | .main w => if cfg.root = some w then 1 else 0
    | .sched => if cfg.root.isSome then 1 else 0
    | _ => 0
  userRefs _ := 0
  timers := []
  dead _ := false
  destroyed := false

/-- `m_schedulerFiber`. -/
def mSchedulerFiber (cfg : Sylar.Config W E) (s : State W E C) : Option (FiberId W) :=
  if cfg.root.isSome = true ∧ s.destroyed = false then some .sched else none

/-- A fiber that user code, or the task on `t`, can hand to `scheduleLock`. -/
def mayPass (s : State W E C) : W ⊕ E → FiberOrCallback (FiberId W) C → Prop
  | .inl w, .fiber (some f) => 0 < s.userRefs f ∨ (s.thread w).runningFiber = some f
  | .inr _, .fiber (some f) | _, .fiberPtr (some f) => 0 < s.userRefs f
  | _, _ => True

/-- Where a thread is when it calls `scheduleLock`. -/
def mayCall (s : State W E C) : W ⊕ E → Prop
  | .inl w => s.inUser w = true
  | .inr _ => True

/-- The scheduler's steps that concern no context. -/
def baseGuard (s : State W E C) : Sched.Act W E (FiberId W) C → Prop
  | .scheduleLock t fc _ => mayCall s t ∧ mayPass s t fc
  | .scan w | .tickle w | .decr w => s.stands w (.run .main)
  | .wakeUp _ | .start _ | .stopCall _ | .stopCheck _ | .stopSet _ | .stopAssert _ | .stopTickle _ | .stopSwap _
    | .stopJoin _ | .stopEnd _ => True
  | _ => False

/-- Where a step is possible. -/
def guard (cfg : Sylar.Config W E) (s : State W E C) : Act W E C → Prop
  | .base a => Sched.guard cfg s.base a ∧ baseGuard s a
  | .newFiber _ => True
  | .share f | .release f => 0 < s.userRefs f
  | .getRunning w => s.inUser w = true
  | .fire e i => s.base.stop e = .out ∧ s.base.wake (.inr e) = none ∧ i < s.timers.length
  | .prologue w =>
    (s.base.worker w).pc = .start ∧ ((s.thread w).pc = .unborn ∨ s.stands w .body ∧ s.code w = some .run)
  | .enter w => s.standsAt w .start
  | .top w => s.standsAt w .top
  | .dispatch w => s.standsAt w .dispatch
  | .make w => s.stands w (.run .make)
  | .lock w => s.stands w (.run .lock) ∧ ∃ g ∈ s.target w .task, s.mMutex g = none
  | .check w => s.stands w (.run .check)
  | .set w k => s.stands w (.run (.set k))
  | .swap w k => s.stands w (.run (.swap k))
  | .unlock w => s.stands w (.run .unlock) ∨ s.stands w (.run (.back .task (s.thread w).iter))
  | .reset w => s.standsAt w .reset
  | .idleInc w => s.standsAt w .idleInc
  | .idleDec w => s.stands w (.run (.back .idle (s.thread w).iter))
  | .leave w => s.standsAt w .done
  | .entry w => s.stands w .entry
  | .sleep w | .yield w | .ret w => s.inUser w = true
  | .idle w => s.stands w .body ∧ s.code w = some .idle ∧ s.idler w ≠ none
  | .setTerm w => s.stands w .setTerm
  | .dropSelf w => s.stands w .dropSelf
  | .last w => s.stands w .last
  | .yswap w =>
    match (s.thread w).pc with
    | .yield _ _ => s.base.wake (.inl w) = none
    | _ => False
  | .stopResume e => s.base.stop e = .resume ∧ ∀ w ∈ cfg.root, (s.thread w).pc = .native
  | .stopBack e => Sched.guard cfg s.base (.stopBack e) ∧ ∀ w ∈ cfg.root, (s.thread w).pc = .stopBack
  -- where the assertion of `~Scheduler` fails, the process ends
  | .destroy e =>
    s.base.stop e = .out ∧ s.base.wake (.inr e) = none ∧ s.base.stopping = true ∧
      ∀ w ∈ cfg.root, (s.thread w).pc = .native

/-- Behind `~Scheduler` nobody uses the scheduler, and no worker moves. -/
def usable (s : State W E C) : Act W E C → Prop
  | .newFiber _ | .share _ | .release _ => True
  | _ => s.destroyed = false

/-- The position in `idle()` behind its `sleep` or its `yield`. -/
def afterYield : Sched.IdlePos → Sched.IdlePos
  | .sleep => .yield
  | .yield => .test
  | pos => pos

/-- What a step does. -/
def next (cfg : Sylar.Config W E) (s : State W E C) : Act W E C → State W E C
  | .base a =>
    let s' : State W E C := { s with base := Sched.next cfg s.base a }
    match a with
    | .scheduleLock _ (.fiber (some f)) _ => s'.hold f
    | .scheduleLock _ (.fiberPtr (some f)) _ => { s' with userRefs := Function.update s.userRefs f (s.userRefs f - 1) }
    | _ => s'
  | .newFiber c =>
    { s.newTask (some (.user c)) with userRefs := Function.update s.userRefs (.task s.nextId) 1 }
  | .share f => { s.hold f with userRefs := Function.update s.userRefs f (s.userRefs f + 1) }
  | .getRunning w =>
    match (s.thread w).runningFiber with
    | none => s.abort .nullFiber
    | some f => { s.hold f with userRefs := Function.update s.userRefs f (s.userRefs f + 1) }
  | .release f => { s.drop f with userRefs := Function.update s.userRefs f (s.userRefs f - 1) }
  | .fire e i =>
    match s.timers[i]? with
    | none => s
    | some f =>
      -- the reference of the closure becomes that of the queue's entry
      { s with
        base := Sched.next cfg s.base (.scheduleLock (.inr e) (.fiber (some f)) (-1))
        timers := s.timers.eraseIdx i }
  | .prologue w =>
    if (s.thread w).pc = .unborn then
      -- the thread is new, and `getRunningFiber()` makes its main fiber
      (s.construct (.main w) (.main w)).setThread w
        { s.thread w with
          pc := .run .main
          runningFiber := some (.main w)
          mainFiber := some (.main w)
          schedulerFiber := some (.main w) }
    else s.goto w (.run .main)
  | .enter w =>
    { (s.construct (.idle w) (.make (.idle w) (some .idle) true)).setThread w
        { s.thread w with idleFiber := some (.idle w) } with
      base := Sched.next cfg s.base (.enter w) }
  | .top w =>
    { s.setThread w { s.thread w with iter := (s.thread w).iter + 1 } with base := Sched.next cfg s.base (.top w) }
  | .dispatch w =>
    match (s.base.worker w).task with
    | some e =>
      { s.goto w (if e.task.fiber.isSome then .run .lock else .run .make) with
        base := Sched.next cfg s.base (.dispatch w) }
    | none =>
      match (s.thread w).idleFiber with
      | none => s.abort .nullFiber
      | some i => { s with base := s.base.goto w (if (s.fib i).mState = .term then .done else .idleInc) }
  | .make w =>
    -- nobody else knows the fiber yet, so its mutex is taken at once
    { (s.newTask (((s.base.worker w).task.bind fun e => e.task.callback).map .user)).setThread w
        { s.thread w with pc := .run (.set .task), cbFiber := some (.task s.nextId) } with
      mMutex := Function.update s.mMutex (.task s.nextId) (some w) }
  | .lock w =>
    match s.target w .task with
    | none => s.abort .nullFiber
    | some g => { s.goto w (.run .check) with mMutex := Function.update s.mMutex g (some w) }
  | .check w =>
    match s.target w .task with
    | none => s.abort .nullFiber
    | some g => s.goto w (if (s.fib g).mState = .term then .run .unlock else .run (.set .task))
  | .set w k =>
    match s.target w k with
    | none => s.abort .nullFiber
    | some g =>
      if (s.fib g).mState = .ready then
        (s.setFiber g { s.fib g with mState := .running }).goto w (.run (.swap k))
      else s.abort .fiberReady
  | .swap w k =>
    match s.target w k with
    | none => s.abort .nullFiber
    | some g => s.swapIn w g (.run (.back k (s.thread w).iter))
  | .unlock w =>
    match s.target w .task with
    | none => s.abort .nullFiber
    | some g =>
      { s.goto w (.run .main) with
        mMutex := Function.update s.mMutex g none
        base := Sched.next cfg s.base (.finish w) }
  | .reset w =>
    { (s.dropAny (s.target w .task)).setThread w { s.thread w with cbFiber := none } with
      base := Sched.next cfg s.base (.reset w) }
  | .idleInc w => { s.goto w (.run (.set .idle)) with base := Sched.next cfg s.base (.idleInc w) }
  | .idleDec w => { s.goto w (.run .main) with base := Sched.next cfg s.base (.idleDec w) }
  | .leave w =>
    -- the locals of `run()` are destroyed
    let s' := (s.dropAny (s.thread w).idleFiber).setThread w { s.thread w with idleFiber := none }
    match (s.thread w).stack with
    | .native _ => s'.goto w .gone
    | .fiber _ => s'.endCb w
  | .entry w =>
    match (s.thread w).stack, (s.thread w).runningFiber with
    | .fiber f, some x => ((s.hold x).setFiber f { s.fib f with self := some x }).goto w .body
    | _, _ => s.abort .nullFiber
  | .sleep w => s.addTimer w
  | .yield w => s.yieldRunning w
  | .ret w => s.endCb w
  | .idle w =>
    match s.idler w with
    | none => s
    | some v =>
      match (s.base.worker v).idlePos with
      | .test => s.idleTo v (if s.base.stopping then .out else .sleep)
      | .sleep => if cfg.idle = .hooked then (s.addTimer w).yieldRunning w else s.idleTo v .yield
      | .yield => s.yieldRunning w
      | .out => s.endCb w
      | .term => s
  | .setTerm w =>
    match (s.thread w).stack with
    | .native _ => s.abort .nullFiber
    | .fiber f =>
      match (s.fib f).self with
      | none => s.abort .nullFiber
      | some x =>
        let s' := (s.setFiber x { s.fib x with mState := .term }).goto w .dropSelf
        match s.idler w with
        | none => s'
        | some v => s'.idleTo v .term
  | .dropSelf w =>
    match (s.thread w).stack with
    | .native _ => s.abort .nullFiber
    | .fiber f =>
      ((s.dropAny (s.fib f).self).setFiber f { s.fib f with rawPtr := (s.fib f).self, self := none }).goto w .last
  | .last w =>
    match (s.thread w).stack with
    | .native _ => s.abort .nullFiber
    | .fiber f =>
      match (s.fib f).rawPtr with
      | none => s.abort .nullFiber
      | some x => s.callYield w x true
  | .yswap w =>
    match (s.thread w).pc with
    | .yield x ended =>
      match s.partner w x with
      | none => s.abort .nullFiber
      | some r =>
        let s' := s.switchTo w x r (if ended then .exited else .body)
        match s.idler w with
        | none => s'
        | some v =>
          -- `idle()` will go on behind its `sleep` or behind its `yield`
          let s' := s'.idleTo v (afterYield (s.base.worker v).idlePos)
          if (s.base.worker w).pc = .idle then { s' with base := s'.base.goto w .idleDec } else s'
    | _ => s
  | .stopResume e =>
    match cfg.root with
    | none => { s with base := Sched.next cfg s.base (.stopResume e) }
    | some w =>
      if (s.fib .sched).mState = .ready then
        { (s.setFiber .sched { s.fib .sched with mState := .running }).swapIn w .sched .stopBack with
          base := { s.base.goto w .start with stop := Function.update s.base.stop e .wait } }
      else s.abort .fiberReady
  | .stopBack e =>
    match cfg.root with
    | none => s
    | some w => { s.goto w .native with base := Sched.next cfg s.base (.stopBack e) }
  | .destroy _ => { s.dropAny (mSchedulerFiber cfg s) with destroyed := true }

instance (s : State W E C) : ∀ t fc, Decidable (mayPass s t fc)
  | .inl _, .fiber (some _) => inferInstanceAs (Decidable (_ ∨ _))
  | .inr _, .fiber (some _) | .inl _, .fiberPtr (some _) | .inr _, .fiberPtr (some _) =>
    inferInstanceAs (Decidable (_ < _))
  | .inl _, .fiber none | .inr _, .fiber none | .inl _, .fiberPtr none | .inr _, .fiberPtr none => isTrue trivial
  | .inl _, .callback _ | .inr _, .callback _ | .inl _, .callbackPtr _ | .inr _, .callbackPtr _ => isTrue trivial

instance (s : State W E C) : ∀ t, Decidable (mayCall s t)
  | .inl _ => inferInstanceAs (Decidable (_ = _))
  | .inr _ => isTrue trivial

instance (s : State W E C) (w : W) (pc : Pc W) : Decidable (s.stands w pc) := inferInstanceAs (Decidable (_ ∧ _))

instance (s : State W E C) (w : W) (pc : Sched.Pc) : Decidable (s.standsAt w pc) := inferInstanceAs (Decidable (_ ∧ _))

instance (s : State W E C) (a : Sched.Act W E (FiberId W) C) : Decidable (baseGuard s a) := by
  cases a <;> dsimp only [baseGuard] <;> infer_instance

instance [DecidableEq C] (cfg : Sylar.Config W E) (s : State W E C) (a : Act W E C) : Decidable (guard cfg s a) := by
  cases a with
  | yswap w =>
    dsimp only [guard]
    split <;> infer_instance
  | _ => dsimp only [guard]; infer_instance

instance (s : State W E C) (a : Act W E C) : Decidable (usable s a) := by
  cases a <;> dsimp only [usable] <;> infer_instance

/-- **Fibers under the scheduler.** -/
def system (C : Type) (cfg : Sylar.Config W E) : System (State W E C) (Act W E C) where
  init s := s = initial C cfg
  enabled s a := (s.base.aborted = none ∧ usable s a) ∧ guard cfg s a
  next := next cfg

instance [DecidableEq C] (cfg : Sylar.Config W E) (s : State W E C) (a : Act W E C) :
    Decidable ((system C cfg).enabled s a) :=
  inferInstanceAs (Decidable ((_ ∧ _) ∧ guard cfg s a))

/-! ## What the parts of a step leave alone -/

section Frame

omit [DecidableEq E]

omit [DecidableEq W] in
/-- A thread that executes an idle fiber executes nothing else. -/
theorem eq_idle_of_idler {s : State W E C} {w v : W} {f : FiberId W} (hst : (s.thread w).stack = .fiber f)
    (hv : s.idler w = some v) : f = .idle v := by
  unfold State.idler at hv
  rw [hst] at hv
  cases f <;> cases hv
  rfl

/-- To drop a `shared_ptr` is to write the counters. -/
theorem dropAny_eq (s : State W E C) (o : Option (FiberId W)) :
    ∃ refs dead, s.dropAny o = { s with refs := refs, dead := dead } := by
  cases o with
  | none => exact ⟨s.refs, s.dead, rfl⟩
  | some f => exact ⟨_, _, rfl⟩

@[simp] theorem base_dropAny (s : State W E C) (o : Option (FiberId W)) : (s.dropAny o).base = s.base := by
  cases o <;> rfl

@[simp] theorem thread_dropAny (s : State W E C) (o : Option (FiberId W)) : (s.dropAny o).thread = s.thread := by
  cases o <;> rfl

@[simp] theorem fib_dropAny (s : State W E C) (o : Option (FiberId W)) : (s.dropAny o).fib = s.fib := by
  cases o <;> rfl

theorem thread_addTimer (s : State W E C) (w : W) : (s.addTimer w).thread = s.thread := by
  unfold State.addTimer
  split <;> rfl

theorem fib_addTimer (s : State W E C) (w : W) : (s.addTimer w).fib = s.fib := by
  unfold State.addTimer
  split <;> rfl

end Frame

end Sylar.Fibers
