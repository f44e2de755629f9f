import Sylar.Fiber.Refinement
import Sylar.Scheduler.Shutdown

/-!
# Who executes a fiber

What the invariant says of runs.

- `exclusive_execution`: a task fiber is `READY` where `run()` calls `resume()` on it, and while it is `RUNNING` one
  worker executes it, which holds its mutex;
- `coherent_switches`: `_running_fiber` is the fiber whose code the thread executes, no switch touches the context of a
  suspended fiber, and the switch of a `yield()` goes back to the iteration of `run()`, or the `stop()` call, that has
  resumed the fiber;
- `idle_own`: as long as no timer fires that an idle fiber has armed, an idle fiber is its own worker's; `idle_queued`:
  such a timer puts the idle fiber into `m_tasks`.
-/

set_option linter.unusedSectionVars false

namespace Sylar.Fibers

open Trans Ownership

variable {W E C : Type} [DecidableEq W] [DecidableEq E] {cfg : Sylar.Config W E} {s : State W E C}

/-! ## Exclusive execution -/

/-- The thread executes the code of `f`, or is in `f->resume()` behind `m_state = RUNNING`. -/
def State.Executes (s : State W E C) (w : W) (f : FiberId W) : Prop :=
  s.exec w = some f ∨ (s.thread w).pc = .run (.swap .task) ∧ s.target w .task = some f

/-- Who holds the mutex of a task fiber has it as the fiber of its task, and executes it unless it rests. -/
theorem holder_cases (h : Inv cfg s) {w : W} {n : Nat} (hm : s.mMutex (.task n) = some w) :
    s.target w .task = some (.task n) ∧ (s.Executes w (.task n) ∨ Rest (.task n) (s.fib (.task n))) := by
  have hown : own cfg s.mMutex (.task n) = some w := hm
  have hno : ¬ NoTask (view (own cfg s.mMutex) s.fib w) := fun hno => noTask_iff.1 hno n hown
  have hholds : ∀ P, Holds (s.base.worker w) (s.thread w) (view (own cfg s.mMutex) s.fib w) P →
      s.target w .task = some (.task n) ∧ P (.task n) (s.fib (.task n)) := by
    rintro P ⟨m, htarget, hhas, honly⟩
    have hnm : FiberId.task n = .task m := onlyTask_iff.1 honly n hown
    rw [← hnm] at htarget hhas
    exact ⟨htarget, (has_iff.1 hhas).2⟩
  have hl := h.local w
  unfold Local at hl
  split at hl
  · exact absurd hl.2.2.2.2.2 hno
  · exact absurd hl.2.2.2.2.2.2.1 hno
  · exact absurd hl.2.2.2.2.2.2.1 hno
  · exact absurd hl.2.2.2 hno
  · rename_i p hpc
    obtain ⟨-, -, -, -, hat⟩ := hl
    cases p with
    | main | make | lock => exact absurd hat.1 hno
    | check | unlock =>
      obtain ⟨htarget, hrest⟩ := hholds _ hat.1
      exact ⟨htarget, Or.inr hrest⟩
    | set k =>
      cases k with
      | task =>
        obtain ⟨htarget, hrest, -⟩ := hholds _ hat.1
        exact ⟨htarget, Or.inr hrest⟩
      | idle => exact absurd hat.1 hno
    | swap k =>
      cases k with
      | task =>
        obtain ⟨htarget, -⟩ := hholds _ hat.1
        exact ⟨htarget, Or.inl (Or.inr ⟨hpc, htarget⟩)⟩
      | idle => exact absurd hat.1 hno
    | back k i =>
      cases k with
      | task =>
        obtain ⟨htarget, hrest⟩ := hholds _ hat.1
        exact ⟨htarget, Or.inr hrest⟩
      | idle => exact absurd hat.1 hno
  · cases hl
  · obtain ⟨f, -, hrun, -, hunder⟩ := hl
    have hexec : s.exec w = some f := (exec_eq_running h w).trans hrun
    cases f with
    | main u => cases hunder
    | sched => exact absurd hunder.2.2.2.2.1 hno
    | idle u => exact absurd hunder.2.2.2.1 hno
    | task m =>
      have hnm : FiberId.task n = .task m := onlyTask_iff.1 hunder.2.2.1 n hown
      rw [← hnm] at hexec hunder
      exact ⟨hunder.2.1, Or.inl (Or.inl hexec)⟩

/-- Who holds the mutex of a task fiber is at work on its task. -/
theorem holder_exec (h : Inv cfg s) {w : W} {n : Nat} (hm : s.mMutex (.task n) = some w) :
    (s.base.worker w).pc = .exec := by
  have hno : ¬ NoTask (view (own cfg s.mMutex) s.fib w) := fun hno => noTask_iff.1 hno n hm
  have hl := h.local w
  cases hpc : (s.thread w).pc with
  | unborn =>
    simp only [Local, hpc] at hl
    exact absurd hl.2.2.2.2.2 hno
  | native | stopBack =>
    simp only [Local, hpc] at hl
    exact absurd hl.2.2.2.2.2.2.1 hno
  | gone =>
    simp only [Local, hpc] at hl
    exact absurd hl.2.2.2 hno
  | exited =>
    simp only [Local, hpc] at hl
  | run p =>
    obtain ⟨-, -, -, -, hat⟩ := (local_run hpc).1 hl
    have hrun := (sync_run hpc).1 (h.sync w)
    cases p with
    | main => exact absurd hat.1 hno
    | make | lock | check | unlock => exact hrun.1
    | set k | swap k | back k i =>
      cases k with
      | task => exact hrun.1
      | idle => exact absurd hat.1 hno
  | entry | body | setTerm | dropSelf | last | yield x b =>
    obtain ⟨hmain, hy⟩ := inMain_of_pc h hpc (by simp [Pc.InMainFunc])
    obtain ⟨f, hst, -, -, -, hunder⟩ := hmain.facts
    simp only [MainSync, hst] at hy
    cases f with
    | main u => cases hunder
    | sched => exact absurd hunder.2.2.2.2.1 hno
    | idle u => exact absurd hunder.2.2.2.1 hno
    | task m => exact hy.1

/-- Who executes a task fiber holds its mutex. -/
theorem executes_holder (h : Inv cfg s) {w : W} {n : Nat} (he : s.Executes w (.task n)) :
    s.mMutex (.task n) = some w := by
  rcases he with he | ⟨hpc, htarget⟩
  · exact own_exec h he
  · obtain ⟨-, -, -, -, ⟨m, htarget', hhas, -⟩, -⟩ := (local_run hpc).1 (h.local w)
    have hnm : FiberId.task n = .task m := Option.some_inj.1 (htarget.symm.trans htarget')
    rw [← hnm] at hhas
    exact (has_iff.1 hhas).1

/-- What `run()` resumes in a branch is ready. -/
theorem ready_of_set (h : Inv cfg s) {w : W} {k : Branch} (hpc : (s.thread w).pc = .run (.set k)) :
    ∃ g, s.target w k = some g ∧ (s.fib g).mState = .ready ∧ ((∃ n, g = .task n) ∨ g = .idle w) := by
  obtain ⟨-, -, -, -, hat⟩ := (local_run hpc).1 (h.local w)
  cases k with
  | task =>
    obtain ⟨⟨n, htarget, hhas, -⟩, -⟩ := hat
    exact ⟨_, htarget, (has_iff.1 hhas).2.2, Or.inl ⟨n, rfl⟩⟩
  | idle =>
    obtain ⟨-, htarget, hhas⟩ := hat
    exact ⟨_, htarget, (has_iff.1 hhas).2.2, Or.inr rfl⟩

/-- **Exclusive execution.** In every reachable state, where `run()` calls `resume()` on the fiber of its task, that
fiber is `READY`, so the assertion holds; and a task or callback fiber that is `RUNNING` is executed by exactly one
worker, which holds its mutex. -/
theorem exclusive_execution (hplain : cfg.idle = .plain) (h : (system C cfg).Reach Always s) :
    (∀ w, (s.thread w).pc = .run (.set .task) → ∃ g, s.target w .task = some g ∧ (s.fib g).mState = .ready ∧
      (next cfg s (.set w .task)).base.aborted = s.base.aborted) ∧
    ∀ n, (s.fib (.task n)).mState = .running →
      ∃ w, s.mMutex (.task n) = some w ∧ ∀ v, s.Executes v (.task n) ↔ v = w := by
  have hinv := inv_reach (reach_noIdleTimer hplain h)
  constructor
  · intro w hpc
    obtain ⟨g, htarget, hready, -⟩ := ready_of_set hinv hpc
    refine ⟨g, htarget, hready, ?_⟩
    simp only [next, htarget, if_pos hready]
    rfl
  · intro n hstate
    have hrest : ¬ Rest (.task n) (s.fib (.task n)) := by
      unfold Rest
      rw [hstate]
      exact id
    cases hm : s.mMutex (.task n) with
    | none => exact absurd (hinv.owned.free (.task n) hm n rfl) hrest
    | some w =>
      refine ⟨w, rfl, fun v => ⟨fun he => ?_, ?_⟩⟩
      · have hv := executes_holder hinv he
        rw [hm] at hv
        exact (Option.some_inj.1 hv).symm
      · rintro rfl
        exact (holder_cases hinv hm).2.resolve_right hrest

/-- Thread `a` creates a fiber and schedules it, and worker `w` fetches and resumes it. -/
def taskRun (w : Fin 2) (e a : Fin 3) : List (Act (Fin 2) (Fin 3) Nat) :=
  [.base (.start e), .newFiber 7, .share (.task 0), .base (.scheduleLock (.inr a) (.fiber (some (.task 0))) (-1)),
    .base (.wakeUp (.inr a)), .prologue w, .enter w, .top w, .base (.scan w), .base (.tickle w), .dispatch w, .lock w,
    .check w, .set w .task, .swap w .task, .entry w]

theorem exclusive_execution_duo : ∃ s : State (Fin 2) (Fin 3) Nat, (s.fib (.task 0)).mState = .running ∧
    ∃ w, s.mMutex (.task 0) = some w ∧ ∀ v, s.Executes v (.task 0) ↔ v = w := by
  have h : (System.exec (system Nat (Sched.duo .plain)) Always (initial Nat (Sched.duo .plain))
      (taskRun 0 0 1)).isSome = true := by
    decide
  exact ⟨_, rfl, (exclusive_execution rfl (System.reach_exec rfl h)).2 0 rfl⟩

/-! ## Coherent contexts -/

/-- The steps with a `swapcontext`. -/
def Act.switches : Act W E C → Prop
  | .swap _ _ | .yswap _ | .stopResume _ => True
  | _ => False

/-- What a switch saves in is the executing fiber. -/
theorem mCtx_switchTo {w : W} {r g f : FiberId W} {pc : Pc W} (he : s.exec w = some r) (hf : s.exec w ≠ some f) :
    ((s.switchTo w r g pc).fib f).mCtx = (s.fib f).mCtx := by
  have hne : f ≠ r := by
    rintro rfl
    exact hf he
  simp only [State.switchTo, if_neg hne]

theorem mCtx_swapIn {w : W} {r g f : FiberId W} {pc : Pc W} (hp : s.partner w g = some r) (he : s.exec w = some r)
    (hf : s.exec w ≠ some f) : ((s.swapIn w g pc).fib f).mCtx = (s.fib f).mCtx := by
  unfold State.swapIn
  rw [hp]
  simp only [State.setFiber]
  by_cases hfg : f = g
  · rw [hfg, Function.update_self]
    exact mCtx_switchTo (g := g) he (hfg ▸ hf)
  · rw [Function.update_of_ne hfg]
    exact mCtx_switchTo he hf

/-- **No switch touches the context of a suspended fiber.** -/
theorem mCtx_kept (h : Inv cfg s) {a : Act W E C} (hg : guard cfg s a) (ha : a.switches) {f : FiberId W}
    (hf : ∀ w, s.exec w ≠ some f) : ((next cfg s a).fib f).mCtx = (s.fib f).mCtx := by
  cases a with
  | swap w k =>
    obtain ⟨g, htarget, hsch⟩ := target_of_run h hg.1 (Or.inr (Or.inr (Or.inr (Or.inl rfl)))) (Or.inr (Or.inr rfl))
    obtain ⟨hin, -, hrun, -⟩ := (local_run hg.1).1 (h.local w)
    have hpartner : s.partner w g = some (runner cfg w) := by
      unfold State.partner
      rw [(h.static g).1, hsch, if_pos rfl]
      exact hin.scheduler
    simp only [next, htarget]
    exact mCtx_swapIn hpartner (exec_runner h hrun) (hf w)
  | yswap w =>
    simp only [guard] at hg
    split at hg
    · rename_i x ended hpc
      obtain ⟨hm, -⟩ := inMain_of_pc h hpc (by simp [Pc.InMainFunc])
      obtain ⟨g, -, hrun, -, hlive, -⟩ := hm.facts
      obtain rfl := hlive.yield_eq
      have he : s.exec w = some x := (exec_eq_running h w).trans hrun
      simp only [next, hpc]
      split
      · rfl
      · rename_i r _
        split
        · exact mCtx_switchTo (g := r) he (hf w)
        · split <;> exact mCtx_switchTo (g := r) he (hf w)
    · exact hg.elim
  | stopResume e =>
    obtain ⟨-, hnative⟩ := hg
    simp only [next]
    split
    · rfl
    · rename_i w hroot
      have hl := h.local w
      simp only [Local, hnative w hroot] at hl
      obtain ⟨-, hst, hrun, hmain, -⟩ := hl
      have he : s.exec w = some (.main w) := (exec_eq_running h w).trans hrun
      split_ifs
      · have hset : ∀ g,
            ((s.setFiber .sched { s.fib .sched with mState := .running }).fib g).mCtx = (s.fib g).mCtx := by
          intro g
          by_cases hgs : g = .sched
          · rw [hgs]
            simp
          · simp [hgs]
        have hpartner : (s.setFiber .sched { s.fib .sched with mState := .running }).partner w .sched =
            some (.main w) := by
          simp only [State.partner, State.setFiber, Function.update_self, (h.static .sched).1]
          exact hmain
        exact (mCtx_swapIn hpartner he (hf w)).trans (hset f)
      · rfl
  | _ => exact ha.elim

/-- **The switch of `yield()` returns to the last `resume()`** of the fiber. -/
theorem yield_returns (h : Inv cfg s) {w : W} (hg : guard cfg s (.yswap w)) :
    ∃ f c, s.exec w = some f ∧ (s.fib f).resumer = some c ∧
      ((next cfg s (.yswap w)).thread w).stack = c.stack ∧ ((next cfg s (.yswap w)).thread w).pc = c.pc ∧
      (c = ⟨.native w, .stopBack⟩ ∧ cfg.root = some w ∨
        ∃ k, c = ⟨home (runner cfg w), .run (.back k (s.thread w).iter)⟩) := by
  simp only [guard] at hg
  split at hg
  · rename_i x ended hpc
    obtain ⟨hm, hy⟩ := inMain_of_pc h hpc (by simp [Pc.InMainFunc])
    obtain ⟨g, hst, hrun, -, hlive, hunder⟩ := hm.facts
    obtain rfl := hlive.yield_eq
    have he : s.exec w = some x := (exec_eq_running h w).trans hrun
    -- the thread goes where the resumer waits
    have hgo : ∀ r, s.partner w x = some r → r ≠ x →
        ((next cfg s (.yswap w)).thread w).stack = home r ∧ ((next cfg s (.yswap w)).thread w).pc = (s.fib r).last := by
      intro r hr hne
      simp only [next, hpc, hr, switchTo_eq (h.coherent r).ctx he (stack_of_exec h he) hne]
      split
      · simp
      · split_ifs <;> simp
    have hpartner : s.partner w x = if inScheduler x then (s.thread w).schedulerFiber else (s.thread w).mainFiber := by
      unfold State.partner
      rw [(h.static x).1]
    cases x with
    | main u => cases hunder
    | sched =>
      obtain ⟨hroot, -, hmain, -, -, hwaits, hres⟩ := hunder
      obtain ⟨hs, hp⟩ := hgo (.main w) (hpartner.trans hmain) (by simp)
      refine ⟨_, _, he, (has_iff.1 hres).2, hs, ?_, Or.inl ⟨rfl, hroot⟩⟩
      rw [hp]
      exact (has_iff.1 hwaits).2.2
    | idle u =>
      obtain ⟨rfl, hin, -, -, hwaits, hres⟩ := hunder
      obtain ⟨hs, hp⟩ := hgo (runner cfg u) (hpartner.trans hin.scheduler) (runner_ne_idle cfg u u)
      refine ⟨_, _, he, (has_iff.1 hres).2, hs, ?_, Or.inr ⟨.idle, rfl⟩⟩
      rw [hp]
      exact (has_iff.1 hwaits).2.2
    | task n =>
      obtain ⟨hin, -, -, -, hwaits, hres⟩ := hunder
      obtain ⟨hs, hp⟩ := hgo (runner cfg w) (hpartner.trans hin.scheduler) (runner_ne_task cfg w n)
      refine ⟨_, _, he, (has_iff.1 hres).2, hs, ?_, Or.inr ⟨.task, rfl⟩⟩
      rw [hp]
      exact (has_iff.1 hwaits).2.2
  · exact hg.elim

/-- **Coherent contexts.** In every reachable state each thread's `_running_fiber` is the fiber whose code it executes;
a suspended fiber's context is on the fiber's own stack, where its code was last suspended, or at the entry of
`MainFunc` if it was never started; no switch overwrites it; and a `yield()`, also the last one, continues what the last
`resume()` of the fiber has saved: the iteration of `run()` that the thread is in, or the one `stop()` call that waits
for `run()`. -/
theorem coherent_switches (hplain : cfg.idle = .plain) (h : (system C cfg).Reach Always s) :
    (∀ w, s.exec w = (s.thread w).runningFiber) ∧
    (∀ f, (∀ w, s.exec w ≠ some f) → (s.fib f).mCtx = ⟨home f, (s.fib f).last⟩ ∧
      ((s.fib f).started = false → (s.fib f).last = .entry)) ∧
    (∀ a, (system C cfg).enabled s a → a.switches → ∀ f, (∀ w, s.exec w ≠ some f) →
      ((next cfg s a).fib f).mCtx = (s.fib f).mCtx) ∧
    (∀ w, (system C cfg).enabled s (.yswap w) → ∃ f c, s.exec w = some f ∧ (s.fib f).resumer = some c ∧
      ((next cfg s (.yswap w)).thread w).stack = c.stack ∧ ((next cfg s (.yswap w)).thread w).pc = c.pc ∧
      (c = ⟨.native w, .stopBack⟩ ∧ cfg.root = some w ∨
        ∃ k, c = ⟨home (runner cfg w), .run (.back k (s.thread w).iter)⟩)) ∧
    ∀ e, s.base.stop e = .wait → e = cfg.owner := by
  have hreach := reach_noIdleTimer hplain h
  have hinv := inv_reach hreach
  have hbase : cfg.idle ≠ .token := by
    rw [hplain]
    simp
  refine ⟨exec_eq_running hinv, ?_, ?_, ?_, ?_⟩
  · intro f _
    exact ⟨(hinv.coherent f).ctx, fun hfresh => ((hinv.coherent f).fresh hfresh).1⟩
  · intro a he ha f hf
    exact mCtx_kept hinv he.2 ha hf
  · intro w he
    exact yield_returns hinv he.2
  · intro e he
    exact (Sched.wait_owner (reach_base hbase hreach) he).2

/-- The fiber of `taskRun` yields, and worker `0` is back in its first iteration. -/
theorem coherent_switches_duo : ∃ s : State (Fin 2) (Fin 3) Nat, (s.thread 0).pc = .yield (.task 0) false ∧
    ∃ f c, s.exec 0 = some f ∧ (s.fib f).resumer = some c ∧
      ((next (Sched.duo .plain) s (.yswap 0)).thread 0).stack = c.stack ∧
      ((next (Sched.duo .plain) s (.yswap 0)).thread 0).pc = c.pc := by
  have h : (System.exec (system Nat (Sched.duo .plain)) Always (initial Nat (Sched.duo .plain))
      (taskRun 0 0 1 ++ [.yield 0])).isSome = true := by
    decide
  obtain ⟨f, c, he, hc, hs, hp, -⟩ :=
    (coherent_switches rfl (System.reach_exec rfl h)).2.2.2.1 0 (by decide +revert)
  exact ⟨_, rfl, f, c, he, hc, hs, hp⟩

/-! ## Idle fibers -/

/-- The thread is about to call `f->resume()`, or calls it. -/
def State.Resumes (s : State W E C) (w : W) (f : FiberId W) : Prop :=
  match (s.thread w).pc with
  | .run .lock | .run .check | .run (.set .task) => s.target w .task = some f
  | .run (.set .idle) => s.target w .idle = some f
  | .run .main => s.target w .idle = some f ∧
      ((s.base.worker w).pc = .dispatch ∧ (s.base.worker w).task = none ∨ (s.base.worker w).pc = .idleInc)
  | _ => False

/-- Idle fibers are not in `m_tasks`, and only its own worker resumes one, when it is `READY`, or finds it `TERM`. -/
def IdleOwned (s : State W E C) : Prop :=
  ∀ w, (∀ e ∈ s.base.mTasks, e.task.fiber ≠ some (.idle w)) ∧
    ∀ v, s.Resumes v (.idle w) → v = w ∧ ((s.fib (.idle w)).mState = .ready ∨ (s.fib (.idle w)).mState = .term)

theorem Rest.state {f : FiberId W} {x : Fiber W C} (h : Rest f x) : x.mState = .ready ∨ x.mState = .term := by
  cases hx : x.mState with
  | ready => exact Or.inl rfl
  | term => exact Or.inr rfl
  | running => simp [Rest, hx] at h

/-- **An idle fiber belongs to its own worker**, in every run in which no timer fires that an idle fiber has armed. -/
theorem idle_own (cfg : Sylar.Config W E) (h : (system C cfg).Reach NoIdleTimer s) : IdleOwned s := by
  have hinv := inv_reach h
  intro w
  constructor
  · intro e he hf
    obtain ⟨n, hn, -⟩ := hinv.typed.queue e he _ hf
    cases hn
  · intro v hres
    have htask : s.target v .task ≠ some (.idle w) := by
      intro hn
      obtain ⟨n, hn, -⟩ := target_made hinv.typed hn
      cases hn
    unfold State.Resumes at hres
    split at hres
    · exact absurd hres htask
    · exact absurd hres htask
    · exact absurd hres htask
    · rename_i hpc
      obtain ⟨-, -, -, -, hat⟩ := (local_run hpc).1 (hinv.local v)
      obtain ⟨-, hidle, hhas⟩ := hat
      obtain rfl : w = v := FiberId.idle.inj (Option.some_inj.1 (hres.symm.trans hidle))
      exact ⟨rfl, Or.inl (has_iff.1 hhas).2.2⟩
    · rename_i hpc
      obtain ⟨-, -, -, -, hat⟩ := (local_run hpc).1 (hinv.local v)
      obtain ⟨hwv, hhas⟩ := hat.2.1 _ hres.1
      obtain rfl : w = v := FiberId.idle.inj hwv
      exact ⟨rfl, (has_iff.1 hhas).2.state⟩
    · exact hres.elim

/-- The run in which worker `w` goes idle: the hooked `sleep` in `idle()` arms a timer and yields. -/
def idleRun (w : Fin 2) (e : Fin 3) : List (Act (Fin 2) (Fin 3) Nat) :=
  [.base (.start e), .prologue w, .enter w, .top w, .base (.scan w), .base (.tickle w), .dispatch w, .idleInc w,
    .set w .idle, .swap w .idle, .entry w, .idle w, .idle w, .yswap w, .idleDec w]

theorem idle_own_duo : ∃ s : State (Fin 2) (Fin 3) Nat, s.timers = [.idle 0] ∧ IdleOwned s := by
  have h : (System.exec (system Nat (Sched.duo .hooked)) NoIdleTimer (initial Nat (Sched.duo .hooked))
      (idleRun 0 0)).isSome = true := by
    decide
  exact ⟨_, rfl, idle_own (Sched.duo .hooked) (System.reach_exec rfl h)⟩

/-- The timer fires on thread `a`, worker `v` fetches the idle fiber of worker `w` and resumes it. -/
def stealRun (w v : Fin 2) (a : Fin 3) : List (Act (Fin 2) (Fin 3) Nat) :=
  [.fire a 0, .base (.wakeUp (.inr a)), .prologue v, .enter v, .top v, .base (.scan v), .base (.tickle v), .dispatch v,
    .lock v, .check v, .set v .task, .top w, .base (.scan w), .base (.tickle w), .dispatch w, .idleInc w, .set w .idle]

/-- The timer that an idle fiber has armed puts it into `m_tasks`, and at the end of `stealRun` worker `0` finds it
`RUNNING`: the assertion of `resume()` fails. -/
theorem idle_queued : ∃ s t : State (Fin 2) (Fin 3) Nat, (system Nat (Sched.duo .hooked)).Reach Always s ∧
    ¬ IdleOwned s ∧ (system Nat (Sched.duo .hooked)).Reach Always t ∧ t.base.aborted = some .fiberReady := by
  have hs : (System.exec (system Nat (Sched.duo .hooked)) Always (initial Nat (Sched.duo .hooked))
      (idleRun 0 0 ++ [.fire 1 0])).isSome = true := by
    decide
  have ht : (System.exec (system Nat (Sched.duo .hooked)) Always (initial Nat (Sched.duo .hooked))
      (idleRun 0 0 ++ stealRun 0 1 1)).isSome = true := by
    decide
  refine ⟨_, _, System.reach_exec rfl hs, fun hown => ?_, System.reach_exec rfl ht, rfl⟩
  exact (hown 0).1 ⟨0, ⟨-1, none, some (.idle 0)⟩⟩ (List.mem_singleton.2 rfl) rfl

end Sylar.Fibers
