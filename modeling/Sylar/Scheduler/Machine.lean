import Mathlib.Logic.Function.Basic
import Sylar.Lib.Transition
import Sylar.Task

/-!
# The scheduler as a transition system

`Scheduler::scheduleLock`, `run`, `idle`, `stopping`, `start` and `stop` (`scheduler.cpp`), for any number of worker
threads and of outside threads, in any interleaving. Each section under `m_mutex` is one step, and so is each statement
outside one that another thread can observe. What a fiber does between `resume()` and its return is left open here: a
worker in `exec` handles its task for any number of steps, during which the task may call `scheduleLock`
(`Sylar.Fiber.Machine` has the fibers).

`tickle()` and `idle()` are virtual. `tokens` counts the calls of `tickle()`; the base class does nothing with them, and
its `idle()` loops over `stopping()` and `sleep(1)`. A derived class (`IdleMode.token`) leaves `idle()` by taking
tokens.
-/

namespace Sylar

open Trans

/-- Which `idle()` runs: the base class with `sleep(1)` a plain delay, the base class with the hooked `sleep(1)`, which
yields, or a derived class that waits for the tokens that `tickle()` leaves. -/
inductive IdleMode where
  | plain
  | hooked
  | token
deriving DecidableEq, Repr

/-- A constructed scheduler: `W` are the threads that execute `run()`, `E` the other threads. -/
structure Config (W E : Type) where
  /-- The kernel's thread ids. -/
  tid : W → Int
  tid_inj : Function.Injective tid
  tid_ne : ∀ w, tid w ≠ -1
  /-- The worker on the calling thread (`m_rootThreadId`, `m_schedulerFiber`), if `use_caller`. -/
  root : Option W
  /-- The threads that `start()` creates. -/
  pool : List W
  mem_pool : ∀ w, w ∈ pool ↔ root ≠ some w
  /-- `assert(threads > 0)` in the constructor. -/
  worker : root = none → pool ≠ []
  /-- The thread that ran the constructor: its `_scheduler` is this one. -/
  owner : E
  idle : IdleMode

namespace Sched

/-- Where a worker stands in `run()`. -/
inductive Pc where
  | unborn
  | start
  | top
  | scan
  | tickle
  | dispatch
  | exec
  | decr
  | reset
  | idleInc
  | idle
  | idleDec
  | done
deriving DecidableEq, Repr

/-- Where the code of a worker's idle fiber stands: `out` behind the loop of `idle()`, `term` once the fiber is `TERM`.
-/
inductive IdlePos where
  | test
  | sleep
  | yield
  | out
  | term
deriving DecidableEq, Repr

/-- Where a thread stands in `stop()`; `join` has the threads still to join. -/
inductive StopPc (W : Type) where
  | out
  | check
  | set
  | assertion
  | tickle
  | resume
  | wait
  | swap
  | join (vec : List W)
deriving DecidableEq, Repr

/-- What can end the process: the assertions of `scheduler.cpp`, those of `resume()` and `yield()`, and the use of a
null fiber pointer. -/
inductive Assertion where
  | nonEmptyTask
  | emptyPool
  | runningScheduler
  | fiberReady
  | fiberYield
  | nullFiber
deriving DecidableEq, Repr

/-- A worker's position, with the locals `task` and `tickle_me` of `run()`. -/
structure Worker (F C : Type) where
  pc : Pc
  task : Option (Entry F C)
  tickleMe : Bool
  idlePos : IdlePos
deriving DecidableEq, Repr

/-- The scheduler's members and every thread's position. The last three fields are histories that no code reads. -/
structure State (W E F C : Type) where
  mTasks : List (Entry F C)
  mStopping : Bool
  mActiveThreadCnt : Nat
  mIdleThreadCnt : Nat
  mPool : List W
  worker : W → Worker F C
  /-- Between the section of `scheduleLock` and its return: `wakeSignal`. -/
  wake : W ⊕ E → Option Bool
  stop : E → StopPc W
  tokens : Nat
  /-- `start()` has completed. -/
  started : Bool
  /-- This outside thread has run `stop()` to its end. -/
  stopped : E → Bool
  aborted : Option Assertion
  accepted : List (Entry F C)
  fetched : List (Entry F C)
  finished : List (Entry F C)

/-- The steps. The first argument is the thread that moves. -/
inductive Act (W E F C : Type) where
  | scheduleLock (t : W ⊕ E) (fc : FiberOrCallback F C) (thread : Int)
  | wakeUp (t : W ⊕ E)
  | start (e : E)
  | enter (w : W)
  | top (w : W)
  | scan (w : W)
  | tickle (w : W)
  | dispatch (w : W)
  | finish (w : W)
  | decr (w : W)
  | reset (w : W)
  | idleInc (w : W)
  | idleTest (w : W)
  | idleSleep (w : W)
  | idleYield (w : W)
  | idleOut (w : W)
  | idleEnd (w : W)
  | idleMoved (w : W) (pos : IdlePos)
  | idleTake (w : W) (k : Nat) (ends : Bool)
  | idleDec (w : W)
  | stopCall (e : E)
  | stopCheck (e : E)
  | stopSet (e : E)
  | stopAssert (e : E)
  | stopTickle (e : E)
  | stopResume (e : E)
  | stopBack (e : E)
  | stopSwap (e : E)
  | stopJoin (e : E)
  | stopEnd (e : E)

variable {W E F C : Type} [DecidableEq W] [DecidableEq E]

namespace State

/-- `Scheduler::stopping()`. -/
def stopping (s : State W E F C) : Bool := s.mStopping && s.mTasks.isEmpty && s.mActiveThreadCnt == 0

/-- `Scheduler::hasIdleThreads()`. -/
def hasIdleThreads (s : State W E F C) : Bool := s.mActiveThreadCnt > 0

/-- `if (task.fiber || task.callback) m_tasks.push_back(task)`. -/
def push (s : State W E F C) (t : ScheduleTask F C) : State W E F C :=
  if t.nonEmpty then
    { s with
      mTasks := s.mTasks ++ [⟨s.accepted.length, t⟩]
      accepted := s.accepted ++ [⟨s.accepted.length, t⟩] }
  else s

/-- A worker's move. -/
@[simp] def setWorker (s : State W E F C) (w : W) (x : Worker F C) : State W E F C :=
  { s with worker := Function.update s.worker w x }

/-- A worker's move to another position. -/
@[simp] def goto (s : State W E F C) (w : W) (pc : Pc) : State W E F C := s.setWorker w { s.worker w with pc := pc }

/-- An outside thread's move in `stop()`. -/
@[simp] def stopTo (s : State W E F C) (e : E) (pc : StopPc W) : State W E F C :=
  { s with stop := Function.update s.stop e pc }

/-- The end of a `stop()` call. -/
@[simp] def stopReturn (s : State W E F C) (e : E) : State W E F C :=
  { s.stopTo e .out with stopped := Function.update s.stopped e true }

/-- A failed `assert`. -/
@[simp] def abort (s : State W E F C) (a : Assertion) : State W E F C := { s with aborted := some a }

omit [DecidableEq E] in
theorem worker_self (s : State W E F C) (w : W) (x : Worker F C) : (s.setWorker w x).worker w = x := by
  simp

omit [DecidableEq E] in
theorem worker_ne (s : State W E F C) {v w : W} (h : v ≠ w) (x : Worker F C) :
    (s.setWorker w x).worker v = s.worker v := by
  simp [h]

end State

/-- The state after the constructor. -/
def initial (W E F C : Type) : State W E F C where
  mTasks := []
  mStopping := false
  mActiveThreadCnt := 0
  mIdleThreadCnt := 0
  mPool := []
  worker := fun _ => ⟨.unborn, none, false, .test⟩
  wake := fun _ => none
  stop := fun _ => .out
  tokens := 0
  started := false
  stopped := fun _ => false
  aborted := none
  accepted := []
  fetched := []
  finished := []

/-- A thread that may call `scheduleLock`: a worker through its task, an outside thread that is not in `stop()`. -/
def mayCall (s : State W E F C) : W ⊕ E → Prop
  | .inl w => (s.worker w).pc = .exec
  | .inr e => s.stop e = .out

instance (s : State W E F C) : ∀ t, Decidable (mayCall s t)
  | .inl w => inferInstanceAs (Decidable ((s.worker w).pc = .exec))
  | .inr e => inferInstanceAs (Decidable (s.stop e = .out))

/-- The next thread that `stop()` joins has returned from `run()`. -/
def mayJoin (s : State W E F C) (e : E) : Bool :=
  match s.stop e with
  | .join (w :: _) => (s.worker w).pc == .done
  | _ => false

/-- Where a step is possible. -/
def guard (cfg : Config W E) (s : State W E F C) : Act W E F C → Prop
  | .scheduleLock t _ _ => mayCall s t ∧ s.wake t = none
  | .wakeUp t => s.wake t ≠ none
  | .start e => s.stop e = .out ∧ s.wake (.inr e) = none
  | .enter w => (s.worker w).pc = .start
  | .top w => (s.worker w).pc = .top
  | .scan w => (s.worker w).pc = .scan
  | .tickle w => (s.worker w).pc = .tickle
  | .dispatch w => (s.worker w).pc = .dispatch
  | .finish w => (s.worker w).pc = .exec ∧ s.wake (.inl w) = none
  | .decr w => (s.worker w).pc = .decr
  | .reset w => (s.worker w).pc = .reset
  | .idleInc w => (s.worker w).pc = .idleInc
  | .idleTest w => cfg.idle ≠ .token ∧ (s.worker w).pc = .idle ∧ (s.worker w).idlePos = .test
  | .idleSleep w => cfg.idle ≠ .token ∧ (s.worker w).pc = .idle ∧ (s.worker w).idlePos = .sleep
  | .idleYield w => cfg.idle ≠ .token ∧ (s.worker w).pc = .idle ∧ (s.worker w).idlePos = .yield
  | .idleOut w => cfg.idle ≠ .token ∧ (s.worker w).pc = .idle ∧ (s.worker w).idlePos = .out
  | .idleEnd w => cfg.idle ≠ .token ∧ (s.worker w).pc = .idle ∧ (s.worker w).idlePos = .term
  | .idleMoved _ _ => cfg.idle = .hooked
  | .idleTake w k _ => cfg.idle = .token ∧ (s.worker w).pc = .idle ∧ 0 < k ∧ k ≤ s.tokens
  | .idleDec w => (s.worker w).pc = .idleDec
  | .stopCall e => s.stop e = .out ∧ s.wake (.inr e) = none
  | .stopCheck e => s.stop e = .check
  | .stopSet e => s.stop e = .set
  | .stopAssert e => s.stop e = .assertion
  | .stopTickle e => s.stop e = .tickle
  | .stopResume e => s.stop e = .resume
  | .stopBack e => s.stop e = .wait ∧ ∃ w ∈ cfg.root, (s.worker w).pc = .done
  | .stopSwap e => s.stop e = .swap
  | .stopJoin e => mayJoin s e = true
  | .stopEnd e => s.stop e = .join []

instance (cfg : Config W E) (s : State W E F C) (a : Act W E F C) : Decidable (guard cfg s a) := by
  cases a <;> dsimp only [guard] <;> infer_instance

/-- What a step does. -/
def next (cfg : Config W E) (s : State W E F C) : Act W E F C → State W E F C
  | .scheduleLock t fc thr =>
    { s.push (.make fc thr) with wake := Function.update s.wake t (some s.mTasks.isEmpty) }
  | .wakeUp t =>
    { s with
      wake := Function.update s.wake t none
      tokens := if s.wake t = some true then s.tokens + 1 else s.tokens }
  | .start _ =>
    if s.mStopping then s
    else if s.mPool ≠ [] then s.abort .emptyPool
    else
      { s with
        mPool := cfg.pool
        started := true
        worker := fun w =>
          if w ∈ cfg.pool ∧ (s.worker w).pc = .unborn then { s.worker w with pc := .start } else s.worker w }
  | .enter w => s.setWorker w { s.worker w with pc := .top, idlePos := .test }
  | .top w => s.setWorker w { s.worker w with pc := .scan, task := none, tickleMe := false }
  | .scan w =>
    let r := scan (cfg.tid w) s.mTasks
    let s' := s.setWorker w { s.worker w with pc := .tickle, task := r.task, tickleMe := r.tickleMe }
    match r.task with
    | none => s'
    | some e =>
      if e.task.nonEmpty then
        { s' with
          mTasks := r.rest
          mActiveThreadCnt := s.mActiveThreadCnt + 1
          fetched := s.fetched ++ [e] }
      else s.abort .nonEmptyTask
  | .tickle w =>
    { s.goto w .dispatch with tokens := if (s.worker w).tickleMe then s.tokens + 1 else s.tokens }
  | .dispatch w =>
    match (s.worker w).task with
    | some _ => s.goto w .exec
    | none => if (s.worker w).idlePos = .term then s.goto w .done else s.goto w .idleInc
  | .finish w => s.goto w .decr
  | .decr w => { s.goto w .reset with mActiveThreadCnt := s.mActiveThreadCnt - 1 }
  | .reset w =>
    { s.setWorker w { s.worker w with pc := .top, task := none } with
      finished := s.finished ++ (s.worker w).task.toList }
  | .idleInc w => { s.goto w .idle with mIdleThreadCnt := s.mIdleThreadCnt + 1 }
  | .idleTest w => s.setWorker w { s.worker w with idlePos := if s.stopping then .out else .sleep }
  | .idleSleep w =>
    -- the hooked `sleep` arms a timer and yields, so the next `resume()` comes back into `idle()`
    if cfg.idle = .hooked then s.setWorker w { s.worker w with pc := .idleDec, idlePos := .yield }
    else s.setWorker w { s.worker w with idlePos := .yield }
  | .idleYield w => s.setWorker w { s.worker w with pc := .idleDec, idlePos := .test }
  | .idleOut w => s.setWorker w { s.worker w with idlePos := .term }
  | .idleEnd w => s.goto w .idleDec
  | .idleMoved w pos =>
    -- the timer of the hooked `sleep` queues the idle fiber, and any worker may fetch it and run it on
    s.setWorker w { s.worker w with idlePos := pos }
  | .idleTake w k ends =>
    { s.setWorker w { s.worker w with pc := .idleDec, idlePos := if ends then .term else .test } with
      tokens := s.tokens - k }
  | .idleDec w => { s.goto w .top with mIdleThreadCnt := s.mIdleThreadCnt - 1 }
  | .stopCall e => s.stopTo e .check
  | .stopCheck e => if s.stopping then s.stopReturn e else s.stopTo e .set
  | .stopSet e => { s.stopTo e .assertion with mStopping := true }
  | .stopAssert e =>
    -- the running scheduler of `e` is this one exactly if `e` constructed it
    if (cfg.root.isSome = true ↔ e = cfg.owner) then s.stopTo e .tickle else s.abort .runningScheduler
  | .stopTickle e =>
    { s.stopTo e .resume with tokens := s.tokens + cfg.pool.length + (if cfg.root.isSome then 1 else 0) }
  | .stopResume e =>
    match cfg.root with
    | none => s.stopTo e .swap
    | some w =>
      if (s.worker w).pc = .unborn then { s.goto w .start with stop := Function.update s.stop e .wait }
      else s.abort .fiberReady
  | .stopBack e => s.stopTo e .swap
  | .stopSwap e => { s.stopTo e (.join s.mPool) with mPool := [] }
  | .stopJoin e =>
    match s.stop e with
    | .join (_ :: vec) => s.stopTo e (.join vec)
    | _ => s
  | .stopEnd e => s.stopReturn e

/-- **The scheduler.** A failed assertion ends the process. -/
def system (F C : Type) (cfg : Config W E) : System (State W E F C) (Act W E F C) where
  init s := s = initial W E F C
  enabled s a := s.aborted = none ∧ guard cfg s a
  next := next cfg

instance (cfg : Config W E) (s : State W E F C) (a : Act W E F C) : Decidable ((system F C cfg).enabled s a) :=
  inferInstanceAs (Decidable (_ ∧ guard cfg s a))

/-- Where the tasks in the queue come from. -/
theorem mem_next {cfg : Config W E} {s : State W E F C} {a : Act W E F C} {e : Entry F C}
    (he : e ∈ (next cfg s a).mTasks) :
    e ∈ s.mTasks ∨ ∃ t fc thr, a = .scheduleLock t fc thr ∧ e.task = .make fc thr ∧ e.task.nonEmpty = true := by
  cases a with
  | scheduleLock t fc thr =>
    simp only [next, State.push] at he
    split_ifs at he with hne
    · rcases List.mem_append.1 he with he | he
      · exact Or.inl he
      · obtain rfl := List.mem_singleton.1 he
        exact Or.inr ⟨t, fc, thr, rfl, rfl, hne⟩
    · exact Or.inl he
  | scan w =>
    simp only [next] at he
    split at he
    · exact Or.inl he
    · rename_i b hb
      split_ifs at he
      · obtain ⟨l₁, l₂, hl, -, -, hr⟩ := scan_some hb
        rw [hr] at he
        rw [hl]
        rcases List.mem_append.1 he with he | he
        · exact Or.inl (List.mem_append_left _ he)
        · exact Or.inl (List.mem_append_right _ (List.mem_cons_of_mem _ he))
      · exact Or.inl he
  | _ =>
    simp only [next] at he
    repeat' split at he
    all_goals exact Or.inl he

/-- What a worker has as its task it had before, or has found in the queue. -/
theorem task_next {cfg : Config W E} {s : State W E F C} {a : Act W E F C} {v : W} {e : Entry F C}
    (he : e ∈ ((next cfg s a).worker v).task) : e ∈ (s.worker v).task ∨ e ∈ s.mTasks := by
  have hmove : ∀ (w : W) (x : Worker F C), (x.task = (s.worker w).task ∨ x.task = none) →
      e ∈ ((s.setWorker w x).worker v).task → e ∈ (s.worker v).task := by
    intro w x hx he
    by_cases hv : v = w
    · rw [hv, State.worker_self] at he
      rcases hx with hx | hx
      · rw [hx] at he
        rw [hv]
        exact he
      · rw [hx] at he
        cases he
    · rwa [State.worker_ne s hv] at he
  cases a with
  | scan w =>
    simp only [next] at he
    split at he
    · rename_i hnone
      left
      refine hmove w _ ?_ he
      exact Or.inr hnone
    · rename_i b hb
      split at he
      · by_cases hv : v = w
        · simp only [hv, State.setWorker, Function.update_self, hb, Option.mem_def, Option.some.injEq] at he
          obtain ⟨l₁, l₂, hq, -⟩ := scan_some hb
          right
          rw [hq, ← he]
          simp
        · simp only [State.setWorker, Function.update_of_ne hv] at he
          exact Or.inl he
      · exact Or.inl he
  | start e' =>
    left
    simp only [next] at he
    split_ifs at he
    · exact he
    · exact he
    · dsimp only at he
      split_ifs at he <;> exact he
  | top w | reset w =>
    left
    refine hmove w _ ?_ he
    exact Or.inr rfl
  | enter w | tickle w | finish w | decr w | idleInc w | idleTest w | idleYield w | idleOut w | idleEnd w
    | idleMoved w p | idleTake w k b | idleDec w =>
    left
    refine hmove w _ ?_ he
    exact Or.inl rfl
  | dispatch w | idleSleep w =>
    left
    simp only [next] at he
    repeat' split at he
    all_goals
      refine hmove w _ ?_ he
      exact Or.inl rfl
  | stopResume e' =>
    left
    simp only [next] at he
    split at he
    · exact he
    · rename_i w _
      split at he
      · refine hmove w { s.worker w with pc := .start } ?_ he
        exact Or.inl rfl
      · exact he
  | scheduleLock t fc thr =>
    left
    simp only [next, State.push] at he
    split at he <;> exact he
  | stopCheck e' | stopAssert e' | stopJoin e' =>
    left
    simp only [next] at he
    split at he <;> exact he
  | wakeUp t | stopCall e' | stopSet e' | stopTickle e' | stopBack e' | stopSwap e' | stopEnd e' => exact Or.inl he

/-- Two pool threads, no caller thread, and two outside threads besides the one that ran the constructor. -/
def duo (idle : IdleMode) : Config (Fin 2) (Fin 3) where
  tid w := w.val + 10
  tid_inj a b h := Fin.ext (by dsimp only at h; omega)
  tid_ne := by decide
  root := none
  pool := [0, 1]
  mem_pool := by decide
  worker := by decide
  owner := 0
  idle := idle

end Sched

end Sylar
