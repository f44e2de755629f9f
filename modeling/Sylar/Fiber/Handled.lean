import Sylar.Fiber.Workers

/-!
# What becomes of a task

From its fetch to its `reset()` a task stays with one worker. User code on a thread is the callback of the task that the
thread's `run()` has at hand, and that task is not pinned to another thread; a task that `run()` has done with has had
its fiber entered. This holds in every run, idle fibers out of control included (`Sylar.Fiber.Isolation`).

- `behind_step`: which step of the scheduler's own is behind a step; `handling_next`: a worker at work on a task keeps
  it and moves on by its own steps;
- `Hand`: the task at hand, `cb_fiber` and the fiber's code; `hand_reach`: they fit in every reachable state;
- `runs_own_task`, `handled_entered`: what user code runs, and what a handled task has behind it;
- `pinned_stays`: a fiber that is queued for one thread only runs on that thread only. The timer of a hooked call queues
  its fiber for any thread.
-/

set_option linter.unusedSectionVars false

namespace Sylar

open Trans

namespace Sched

variable {W E F C : Type} [DecidableEq W] [DecidableEq E] {cfg : Config W E}

/-! ## The scheduler's part -/

/-- From the fetch of a task to the decrement and the `reset()` behind it. -/
def Pc.handling (pc : Pc) : Prop := pc = .exec ∨ pc = .decr ∨ pc = .reset

/-- **A fetch admits only tasks for any thread and for this one.** -/
theorem admitted_next {s : State W E F C} {a : Act W E F C}
    (h : ∀ w, ∀ e ∈ (s.worker w).task, e.skipped (cfg.tid w) = false) (w : W) :
    ∀ e ∈ ((next cfg s a).worker w).task, e.skipped (cfg.tid w) = false := by
  have hmove : ∀ (v : W) (x : Worker F C), (∀ e ∈ x.task, e.skipped (cfg.tid v) = false) →
      ∀ e ∈ (Function.update s.worker v x w).task, e.skipped (cfg.tid w) = false := by
    intro v x hx
    by_cases hv : w = v
    · subst hv
      rwa [Function.update_self]
    · rw [Function.update_of_ne hv]
      exact h w
  cases a with
  | scan v =>
    simp only [next]
    split
    · rename_i hnone
      refine hmove v _ ?_
      rw [hnone]
      simp
    · rename_i b hb
      split
      · refine hmove v _ ?_
        rw [hb]
        rintro e ⟨⟩
        obtain ⟨-, -, -, -, hskip, -⟩ := scan_some hb
        exact hskip
      · exact h w
  | start e =>
    simp only [next]
    split
    · exact h w
    · split
      · exact h w
      · dsimp only
        split <;> exact h w
  | scheduleLock t fc thr =>
    simp only [next, State.push]
    split <;> exact h w
  | top v | reset v => exact hmove v _ (by simp)
  | enter v | tickle v | finish v | decr v | idleInc v | idleTest v | idleYield v | idleOut v | idleEnd v
    | idleMoved v pos | idleTake v k ends | idleDec v => exact hmove v _ (h v)
  | dispatch v =>
    simp only [next]
    split
    · exact hmove v _ (h v)
    · split <;> exact hmove v _ (h v)
  | idleSleep v =>
    simp only [next]
    split <;> exact hmove v _ (h v)
  | stopResume e =>
    simp only [next]
    split
    · exact h w
    · split
      · exact hmove _ _ (h _)
      · exact h w
  | stopCheck e | stopAssert e | stopJoin e =>
    simp only [next]
    split <;> exact h w
  | wakeUp t | stopCall e | stopSet e | stopTickle e | stopBack e | stopSwap e | stopEnd e => exact h w

/-- **A worker at work on a task keeps it**, and moves on by `finish`, `decr` and `reset`. -/
theorem work_next {s : State W E F C} {a : Act W E F C} (hg : guard cfg s a) {w : W}
    (hx : (s.worker w).pc.handling) :
    a = .reset w ∨ ((next cfg s a).worker w).task = (s.worker w).task ∧
      (((next cfg s a).worker w).pc = (s.worker w).pc ∨ a = .finish w ∧ ((next cfg s a).worker w).pc = .decr ∨
        a = .decr w ∧ ((next cfg s a).worker w).pc = .reset) := by
  -- a step of another worker, or one that starts elsewhere
  have hmove : ∀ (v : W) (x : Worker F C), ¬ (s.worker v).pc.handling →
      (Function.update s.worker v x w).task = (s.worker w).task ∧
        (Function.update s.worker v x w).pc = (s.worker w).pc := by
    intro v x hv
    rw [Function.update_of_ne]
    · exact ⟨rfl, rfl⟩
    · rintro rfl
      exact hv hx
  have hkeep : ((next cfg s a).worker w).task = (s.worker w).task ∧
      ((next cfg s a).worker w).pc = (s.worker w).pc →
      a = .reset w ∨ ((next cfg s a).worker w).task = (s.worker w).task ∧
        (((next cfg s a).worker w).pc = (s.worker w).pc ∨ a = .finish w ∧ ((next cfg s a).worker w).pc = .decr ∨
          a = .decr w ∧ ((next cfg s a).worker w).pc = .reset) :=
    fun h => Or.inr ⟨h.1, Or.inl h.2⟩
  cases a with
  | finish v =>
    by_cases hv : w = v
    · subst hv
      exact Or.inr ⟨by simp [next], Or.inr (Or.inl ⟨rfl, by simp [next]⟩)⟩
    · exact hkeep (by simp [next, hv])
  | decr v =>
    by_cases hv : w = v
    · subst hv
      exact Or.inr ⟨by simp [next], Or.inr (Or.inr ⟨rfl, by simp [next]⟩)⟩
    · exact hkeep (by simp [next, hv])
  | reset v =>
    by_cases hv : w = v
    · exact Or.inl (by rw [hv])
    · exact hkeep (by simp [next, hv])
  | scheduleLock t fc thr =>
    apply hkeep
    simp only [next, State.push]
    split <;> exact ⟨rfl, rfl⟩
  | start e =>
    apply hkeep
    simp only [next]
    split
    · exact ⟨rfl, rfl⟩
    · split
      · exact ⟨rfl, rfl⟩
      · dsimp only
        split
        · rename_i hborn
          rcases hx with hx | hx | hx <;> cases hborn.2.symm.trans hx
        · exact ⟨rfl, rfl⟩
  | enter v | top v | tickle v | idleInc v | idleDec v =>
    exact hkeep (hmove v _ (by rw [show (s.worker v).pc = _ from hg]; simp [Pc.handling]))
  | idleTest v | idleYield v | idleOut v | idleEnd v | idleTake v k ends =>
    exact hkeep (hmove v _ (by rw [hg.2.1]; simp [Pc.handling]))
  | idleSleep v =>
    apply hkeep
    simp only [next]
    split <;> exact hmove v _ (by rw [hg.2.1]; simp [Pc.handling])
  | idleMoved v pos =>
    apply hkeep
    by_cases hv : w = v
    · subst hv
      simp [next]
    · simp [next, hv]
  | scan v =>
    apply hkeep
    have hv : ¬ (s.worker v).pc.handling := by
      rw [show (s.worker v).pc = _ from hg]
      simp [Pc.handling]
    simp only [next]
    split
    · exact hmove v _ hv
    · split
      · exact hmove v _ hv
      · exact ⟨rfl, rfl⟩
  | dispatch v =>
    apply hkeep
    have hv : ¬ (s.worker v).pc.handling := by
      rw [show (s.worker v).pc = _ from hg]
      simp [Pc.handling]
    simp only [next]
    split
    · exact hmove v _ hv
    · split <;> exact hmove v _ hv
  | stopResume e =>
    apply hkeep
    simp only [next]
    split
    · exact ⟨rfl, rfl⟩
    · split
      · rename_i hborn
        exact hmove _ _ (by rw [hborn]; simp [Pc.handling])
      · exact ⟨rfl, rfl⟩
  | stopCheck e | stopAssert e | stopJoin e =>
    apply hkeep
    simp only [next]
    split <;> exact ⟨rfl, rfl⟩
  | wakeUp t | stopCall e | stopSet e | stopTickle e | stopBack e | stopSwap e | stopEnd e => exact hkeep ⟨rfl, rfl⟩

/-- Who is behind `finish` was at work before. -/
theorem work_prev {s : State W E F C} {a : Act W E F C} (hg : guard cfg s a) {w : W}
    (hx : ((next cfg s a).worker w).pc = .decr ∨ ((next cfg s a).worker w).pc = .reset) :
    (s.worker w).pc.handling := by
  have hmove : ∀ (v : W) (x : Worker F C), (x.pc = .decr ∨ x.pc = .reset → (s.worker v).pc.handling) →
      ((Function.update s.worker v x w).pc = .decr ∨ (Function.update s.worker v x w).pc = .reset) →
      (s.worker w).pc.handling := by
    intro v x hv h
    by_cases hw : w = v
    · subst hw
      rw [Function.update_self] at h
      exact hv h
    · rw [Function.update_of_ne hw] at h
      exact Or.inr h
  cases a with
  | finish v => exact hmove v _ (fun _ => Or.inl hg.1) hx
  | decr v => exact hmove v _ (fun _ => Or.inr (Or.inl hg)) hx
  | reset v => exact hmove v _ (fun _ => Or.inr (Or.inr hg)) hx
  | enter v | top v | tickle v | idleInc v | idleYield v | idleEnd v | idleTake v k ends | idleDec v =>
    exact hmove v _ (by simp) hx
  | idleTest v | idleOut v | idleMoved v pos =>
    refine hmove v _ ?_ hx
    exact Or.inr
  | idleSleep v =>
    simp only [next] at hx
    split at hx
    · exact hmove v _ (by simp) hx
    · refine hmove v _ ?_ hx
      exact Or.inr
  | scan v =>
    simp only [next] at hx
    split at hx
    · exact hmove v _ (by simp) hx
    · split at hx
      · exact hmove v _ (by simp) hx
      · exact Or.inr hx
  | dispatch v =>
    simp only [next] at hx
    split at hx
    · exact hmove v _ (by simp) hx
    · split at hx <;> exact hmove v _ (by simp) hx
  | scheduleLock t fc thr =>
    simp only [next, State.push] at hx
    split at hx <;> exact Or.inr hx
  | start e =>
    simp only [next] at hx
    split at hx
    · exact Or.inr hx
    · split at hx
      · exact Or.inr hx
      · dsimp only at hx
        split at hx
        · rcases hx with hx | hx <;> cases hx
        · exact Or.inr hx
  | stopResume e =>
    simp only [next] at hx
    split at hx
    · exact Or.inr hx
    · split at hx
      · exact hmove _ _ (by simp) hx
      · exact Or.inr hx
  | stopCheck e | stopAssert e | stopJoin e =>
    simp only [next] at hx
    split at hx <;> exact Or.inr hx
  | wakeUp t | stopCall e | stopSet e | stopTickle e | stopBack e | stopSwap e | stopEnd e => exact Or.inr hx

end Sched

namespace Fibers.Isolated

open Ownership

variable {W E C : Type} [DecidableEq W] [DecidableEq E] {cfg : Sylar.Config W E} {s : State W E C}

/-! ## What a step is to the scheduler -/

/-- The scheduler's own step behind a step. -/
def behind (cfg : Sylar.Config W E) (s : State W E C) : Act W E C → Option (Sched.Act W E (FiberId W) C)
  | .base a => some a
  | .fire e i => s.timers[i]?.map fun f => .scheduleLock (.inr e) (.fiber (some f)) (-1)
  | .enter w => some (.enter w)
  | .top w => some (.top w)
  | .dispatch w => if (s.base.worker w).task.isSome then some (.dispatch w) else none
  | .unlock w => some (.finish w)
  | .reset w => some (.reset w)
  | .idleInc w => some (.idleInc w)
  | .idleDec w => some (.idleDec w)
  | .stopResume e => if cfg.root = none then some (.stopResume e) else none
  | .stopBack e => some (.stopBack e)
  | _ => none

/-- A step that touches neither the queue nor a task at hand. -/
structure Steady (b b' : Sched.State W E (FiberId W) C) : Prop where
  queue : b'.mTasks = b.mTasks
  finished : b'.finished = b.finished
  workers : ∀ v, Unseen (b.worker v) (b'.worker v)

theorem Stays.steady {b b' : Sched.State W E (FiberId W) C} (h : Stays b b') : Steady b b' := by
  rcases h with rfl | ⟨r, rfl⟩ <;> exact ⟨rfl, rfl, fun _ => Unseen.refl _⟩

theorem lists_yieldRunning (s : State W E C) (w : W) :
    (s.yieldRunning w).base.mTasks = s.base.mTasks ∧ (s.yieldRunning w).base.finished = s.base.finished :=
  have hsteady := (stays_yieldRunning (s := s) w).steady
  ⟨hsteady.queue, hsteady.finished⟩

theorem steady_idleTo (b : Sched.State W E (FiberId W) C) (v : W) (pos : Sched.IdlePos) :
    Steady b (b.setWorker v { b.worker v with idlePos := pos }) :=
  ⟨rfl, rfl, fun u => ⟨(task_idleTo b v pos u).symm, Or.inl (pc_idleTo b v u pos)⟩⟩

theorem Quiet.steady {b b' : Sched.State W E (FiberId W) C} {o : Option W} (h : Quiet o b b')
    (hq : b'.mTasks = b.mTasks) (hf : b'.finished = b.finished) : Steady b b' := ⟨hq, hf, h.workers⟩

/-- What a step is to the scheduler. -/
def Goes (cfg : Sylar.Config W E) (s s' : State W E C) (o : Option (Sched.Act W E (FiberId W) C)) : Prop :=
  match o with
  | some a' => Sched.guard cfg s.base a' ∧ s'.base = Sched.next cfg s.base a'
  | none => Steady s.base s'.base

/-- **The scheduler takes its own step, or keeps the queue and the tasks at hand.** -/
theorem behind_step (hi : Inv cfg s) {a : Act W E C} (hg : guard cfg s a) (hp : ∀ w, Placed cfg s w) :
    Goes cfg s (next cfg s a) (behind cfg s a) := by
  have hstays : ∀ {s' : State W E C}, Stays s.base s'.base → Goes cfg s s' none := fun hs => hs.steady
  cases a with
  | base a => exact ⟨hg.1, sched_base⟩
  | fire e i =>
    cases ht : s.timers[i]? with
    | none =>
      simp only [behind, ht, Option.map_none]
      exact hstays (Or.inl (by simp only [next, ht]))
    | some f =>
      simp only [behind, ht, Option.map_some]
      exact ⟨⟨hg.1, hg.2.1⟩, by simp only [next, ht]⟩
  | enter w | top w | reset w | idleInc w => exact ⟨hg.2, rfl⟩
  | idleDec w => exact ⟨(fit_run hg.1).1 (hp w), rfl⟩
  | dispatch w =>
    cases htask : (s.base.worker w).task with
    | some e =>
      simp only [behind, htask, Option.isSome_some, if_true]
      exact ⟨hg.2, by simp only [next, htask]⟩
    | none =>
      simp only [behind, htask, Option.isSome_none, Bool.false_eq_true, if_false]
      refine (calm_dispatch hg.2 htask).quiet.steady ?_ ?_
      all_goals simp only [next, htask]; split <;> rfl
  | unlock w =>
    have hexec : (s.base.worker w).pc = .exec ∧ s.base.wake (.inl w) = none := by
      rcases hg with hg | hg <;> exact ⟨(fit_run hg.1).1 (hp w), hg.2⟩
    have htarget : ∃ f, s.target w .task = some f := by
      rcases hg with hg | hg
      · obtain ⟨-, -, -, ⟨n, hn, -⟩ | ⟨⟨u, hu⟩, -⟩⟩ := (stands_run hg.1).1 (hi.stands w)
        · exact ⟨_, hn⟩
        · exact ⟨_, hu⟩
      · obtain ⟨-, -, -, ⟨n, hn, -⟩ | ⟨⟨u, hu⟩, -⟩⟩ := (stands_run hg.1).1 (hi.stands w)
        · exact ⟨_, hn⟩
        · exact ⟨_, hu⟩
    obtain ⟨f, hf⟩ := htarget
    exact ⟨hexec, by simp only [next, hf]⟩
  | stopBack e =>
    obtain ⟨w, hroot, -⟩ := hg.1.2
    exact ⟨hg.1, by simp only [next, show cfg.root = some w from hroot]⟩
  | stopResume e =>
    cases hroot : cfg.root with
    | none =>
      simp only [behind, hroot, if_true]
      exact ⟨hg.1, by simp only [next, hroot]⟩
    | some v =>
      have hout : Outer (s.base.worker v).pc := by
        have hfit := hp v
        simp only [Placed, Fit, hg.2 v hroot] at hfit
        exact hfit
      simp only [behind, hroot, reduceCtorEq, if_false]
      by_cases hready : (s.fib .sched).mState = .ready
      · have hb : (next cfg s (.stopResume e)).base =
            { s.base.goto v .start with stop := Function.update s.base.stop e .wait } := by
          simp only [next, hroot, if_pos hready]
        unfold Goes
        rw [hb]
        have hquiet : Quiet (some v) s.base
            { s.base.goto v .start with stop := Function.update s.base.stop e .wait } :=
          Quiet.set rfl rfl rfl ⟨rfl, Or.inr (Or.inr (Or.inl ⟨hout, rfl⟩))⟩
        exact hquiet.steady rfl rfl
      · exact hstays (Or.inr ⟨.fiberReady, by simp only [next, hroot, if_neg hready, State.abort]⟩)
  | newFiber c | share f | release f | make w => exact hstays (Or.inl rfl)
  | getRunning w | lock w | check w | set w k | entry w | prologue w =>
    apply hstays
    simp only [next]
    repeat' split
    all_goals first | exact Or.inl rfl | exact Or.inr ⟨_, rfl⟩
  | swap w k =>
    apply hstays
    simp only [next]
    split
    · exact Or.inr ⟨_, rfl⟩
    · exact stays_swapIn ..
  | leave w =>
    apply hstays
    simp only [next]
    split
    · exact Or.inl (base_dropAny ..)
    · have hend := stays_endCb (s := (s.dropAny (s.thread w).idleFiber).setThread w
        { s.thread w with idleFiber := none }) w
      rwa [show ((s.dropAny (s.thread w).idleFiber).setThread w { s.thread w with idleFiber := none }).base = s.base
        from base_dropAny ..] at hend
  | sleep w => exact hstays (stays_addTimer w)
  | yield w => exact hstays (stays_yieldRunning w)
  | ret w => exact hstays (stays_endCb w)
  | idle w =>
    have hlists : (next cfg s (.idle w)).base.mTasks = s.base.mTasks ∧
        (next cfg s (.idle w)).base.finished = s.base.finished := by
      simp only [next]
      split
      · exact ⟨rfl, rfl⟩
      · split
        · exact ⟨rfl, rfl⟩
        · split
          · have hy := lists_yieldRunning (s.addTimer w) w
            have ht := (stays_addTimer (s := s) w).steady
            exact ⟨hy.1.trans ht.queue, hy.2.trans ht.finished⟩
          · exact ⟨rfl, rfl⟩
        · exact lists_yieldRunning s w
        · have he := (stays_endCb (s := s) w).steady
          exact ⟨he.queue, he.finished⟩
        · exact ⟨rfl, rfl⟩
    exact (calm_idle w).quiet.steady hlists.1 hlists.2
  | yswap w =>
    refine (calm_yswap w).quiet.steady ?_ ?_
    all_goals simp only [next, State.switchTo]; repeat' split
    all_goals rfl
  | setTerm w =>
    simp only [next]
    split
    · exact hstays (Or.inr ⟨_, rfl⟩)
    · split
      · exact hstays (Or.inr ⟨_, rfl⟩)
      · split
        · exact hstays (Or.inl rfl)
        · exact steady_idleTo ..
  | dropSelf w =>
    apply hstays
    simp only [next]
    split
    · exact Or.inr ⟨_, rfl⟩
    · exact Or.inl (base_dropAny ..)
  | last w =>
    apply hstays
    simp only [next]
    split
    · exact Or.inr ⟨_, rfl⟩
    · split
      · exact Or.inr ⟨_, rfl⟩
      · exact stays_callYield ..
  | destroy e => exact hstays (Or.inl (base_dropAny ..))

/-! ## A worker at work -/

/-- What a step is to a worker at work on a task: its `reset()`, or one that leaves it the task, where only its `unlock`
and its decrement move it on. -/
def Works (cfg : Sylar.Config W E) (s : State W E C) (a : Act W E C) (w : W) : Prop :=
  a = .reset w ∨ ((next cfg s a).base.worker w).task = (s.base.worker w).task ∧
    (((next cfg s a).base.worker w).pc = (s.base.worker w).pc ∨
      a = .unlock w ∧ ((next cfg s a).base.worker w).pc = .decr ∨
      a = .base (.decr w) ∧ ((next cfg s a).base.worker w).pc = .reset)

/-- The steps that move a worker on are told from the others. -/
theorem behind_handling {a : Act W E C} (hg : guard cfg s a) {w : W} :
    (behind cfg s a = some (.reset w) → a = .reset w) ∧ (behind cfg s a = some (.finish w) → a = .unlock w) ∧
      (behind cfg s a = some (.decr w) → a = .base (.decr w)) := by
  cases a with
  | base a =>
    refine ⟨?_, ?_, ?_⟩
    · rintro ⟨⟩
      exact hg.2.elim
    · rintro ⟨⟩
      exact hg.2.elim
    · rintro ⟨⟩
      rfl
  | fire e i => cases ht : s.timers[i]? <;> simp [behind, ht]
  | dispatch v => cases ht : (s.base.worker v).task <;> simp [behind, ht]
  | stopResume e => cases hroot : cfg.root <;> simp [behind, hroot]
  | _ => simp [behind]

/-- **A worker at work on a task keeps it** until its `reset()`. -/
theorem handling_next (hi : Inv cfg s) {a : Act W E C} (hg : guard cfg s a) (hp : ∀ w, Placed cfg s w) {w : W}
    (hx : (s.base.worker w).pc.handling) : Works cfg s a w := by
  have hgoes := behind_step hi hg hp
  cases ha : behind cfg s a with
  | some a' =>
    rw [ha] at hgoes
    obtain ⟨hg', hb⟩ := hgoes
    unfold Works
    rw [hb]
    refine (Sched.work_next hg' hx).imp ?_
      (And.imp_right (Or.imp_right (Or.imp (And.imp_left ?_) (And.imp_left ?_))))
    all_goals rintro rfl
    · exact (behind_handling hg).1 ha
    · exact (behind_handling hg).2.1 ha
    · exact (behind_handling hg).2.2 ha
  | none =>
    rw [ha] at hgoes
    obtain ⟨htask, hpc | ⟨hpc, -⟩ | ⟨hpc, -⟩ | ⟨hpc, -⟩⟩ := hgoes.workers w
    · exact Or.inr ⟨htask.symm, Or.inl hpc⟩
    · rcases hx with hx | hx | hx <;> cases hpc.symm.trans hx
    · rcases hpc with hpc | hpc | hpc <;> rcases hx with hx | hx | hx <;> cases hpc.symm.trans hx
    · rcases hx with hx | hx | hx <;> cases hpc.symm.trans hx

/-! ## The thread's part -/

/-- One thread moves, and its local `cb_fiber` stays. -/
theorem cb_move {s' : State W E C} {w : W} {t : Thread W} (hs : s'.thread = Function.update s.thread w t)
    (ht : t.cbFiber = (s.thread w).cbFiber) (v : W) : (s'.thread v).cbFiber = (s.thread v).cbFiber := by
  rw [hs]
  by_cases hv : v = w
  · rw [hv, Function.update_self, ht]
  · rw [Function.update_of_ne hv]

theorem cb_callYield (s : State W E C) (w : W) (x : FiberId W) (ended : Bool) (v : W) :
    ((s.callYield w x ended).thread v).cbFiber = (s.thread v).cbFiber := by
  unfold State.callYield
  split
  · rfl
  · exact cb_move (w := w) rfl (by rfl) v

theorem cb_yieldRunning (s : State W E C) (w v : W) :
    ((s.yieldRunning w).thread v).cbFiber = (s.thread v).cbFiber := by
  unfold State.yieldRunning
  split
  · rfl
  · exact cb_callYield ..

theorem cb_endCb (s : State W E C) (w v : W) : ((s.endCb w).thread v).cbFiber = (s.thread v).cbFiber := by
  unfold State.endCb
  split
  · rfl
  · split
    · rfl
    · exact cb_move (w := w) rfl (by rfl) v

theorem cb_swapIn (s : State W E C) (w : W) (g : FiberId W) (pc : Pc W) (v : W) :
    ((s.swapIn w g pc).thread v).cbFiber = (s.thread v).cbFiber := by
  unfold State.swapIn
  split
  · rfl
  · exact cb_move (w := w) rfl (by rfl) v

/-- **`cb_fiber` is set where `run()` makes the fiber, and cleared with the task.** -/
theorem cb_next {a : Act W E C} {v : W} (hmake : a ≠ .make v) (hreset : a ≠ .reset v) :
    ((next cfg s a).thread v).cbFiber = (s.thread v).cbFiber := by
  cases a with
  | base a | fire e i | getRunning w =>
    simp only [next]
    split <;> rfl
  | newFiber c | share f | release f => rfl
  | make w =>
    have hv : v ≠ w := fun hv => hmake (by rw [hv])
    simp [next, hv]
  | reset w =>
    have hv : v ≠ w := fun hv => hreset (by rw [hv])
    simp [next, hv]
  | enter w | top w | idleInc w | idleDec w => exact cb_move (w := w) rfl (by rfl) v
  | prologue w =>
    simp only [next]
    split <;> exact cb_move (w := w) rfl (by rfl) v
  | dispatch w =>
    simp only [next]
    split
    · exact cb_move (w := w) rfl (by rfl) v
    · split <;> rfl
  | lock w | check w | unlock w | entry w =>
    simp only [next]
    split
    all_goals first | rfl | exact cb_move (w := w) rfl (by rfl) v
  | stopBack e =>
    simp only [next]
    split
    · rfl
    · exact cb_move rfl (by rfl) v
  | set w k =>
    simp only [next]
    split
    · rfl
    · split
      · exact cb_move (w := w) rfl (by rfl) v
      · rfl
  | swap w k =>
    simp only [next]
    split
    · rfl
    · exact cb_swapIn ..
  | leave w =>
    have hdrop : (((s.dropAny (s.thread w).idleFiber).setThread w
        { s.thread w with idleFiber := none }).thread v).cbFiber = (s.thread v).cbFiber := by
      by_cases hv : v = w <;> simp [hv]
    simp only [next]
    split
    · exact (cb_move (w := w) rfl (by rfl) v).trans hdrop
    · exact (cb_endCb ..).trans hdrop
  | sleep w => simp only [next, thread_addTimer]
  | yield w => exact cb_yieldRunning ..
  | ret w => exact cb_endCb ..
  | idle w =>
    simp only [next]
    split
    · rfl
    · split
      · rfl
      · split
        · exact (cb_yieldRunning _ w v).trans (by rw [thread_addTimer])
        · rfl
      · exact cb_yieldRunning ..
      · exact cb_endCb ..
      · rfl
  | setTerm w =>
    simp only [next]
    split
    · rfl
    · split
      · rfl
      · split <;> exact cb_move (w := w) rfl (by rfl) v
  | dropSelf w =>
    simp only [next]
    split
    · rfl
    · exact cb_move (s := s) (w := w) (t := { s.thread w with pc := .last })
        (by simp only [State.goto, State.setThread, State.setFiber, thread_dropAny]) rfl v
  | last w =>
    simp only [next]
    split
    · rfl
    · split
      · rfl
      · exact cb_callYield ..
  | yswap w =>
    simp only [next, State.switchTo]
    repeat' split
    all_goals first | rfl | exact cb_move (w := w) rfl (by rfl) v
  | stopResume e =>
    simp only [next]
    split
    · rfl
    · split
      · exact cb_swapIn ..
      · rfl
  | destroy e => simp [next]

/-- Behind the `resume()` of a task, or where `run()` has found the task's fiber to be `TERM`. -/
def Behind (pc : Pc W) : Prop := pc = .run .unlock ∨ ∃ n, pc = .run (.back .task n)

theorem behind_callYield {w : W} {x : FiberId W} {ended : Bool} (h : Behind ((s.callYield w x ended).thread w).pc) :
    Behind (s.thread w).pc := by
  unfold State.callYield at h
  split at h
  · exact h
  · simp [Behind] at h

theorem behind_yieldRunning {w : W} (h : Behind ((s.yieldRunning w).thread w).pc) : Behind (s.thread w).pc := by
  unfold State.yieldRunning at h
  split at h
  · exact h
  · exact behind_callYield h

theorem behind_endCb {w : W} (h : Behind ((s.endCb w).thread w).pc) : Behind (s.thread w).pc := by
  unfold State.endCb at h
  split at h
  · exact h
  · split at h
    · exact h
    · simp [Behind] at h

/-- **A thread comes there** from the test of the state, or by the switch of a `yield()`. -/
theorem behind_next (hi : Inv cfg s) {a : Act W E C} (hg : guard cfg s a) {w : W}
    (h : Behind ((next cfg s a).thread w).pc) : Behind (s.thread w).pc ∨ a = .check w ∨ a = .yswap w := by
  by_cases hactor : actor cfg a = some w
  · cases a with
    | check v | yswap v =>
      obtain rfl : v = w := Option.some_inj.1 hactor
      simp
    | base a | fire e i | getRunning v =>
      left
      simp only [next] at h
      split at h <;> exact h
    | newFiber c | share f | release f => exact Or.inl h
    | destroy e => exact Or.inl (by simpa [next] using h)
    | enter v | top v | reset v =>
      obtain rfl : v = w := Option.some_inj.1 hactor
      exact Or.inl (by simpa [next] using h)
    | make v | idleInc v | idleDec v =>
      obtain rfl : v = w := Option.some_inj.1 hactor
      simp [next, Behind] at h
    | prologue v =>
      obtain rfl : v = w := Option.some_inj.1 hactor
      simp only [next] at h
      split at h <;> simp [Behind] at h
    | dispatch v =>
      obtain rfl : v = w := Option.some_inj.1 hactor
      simp only [next] at h
      split at h
      · split at h <;> simp [Behind] at h
      · split at h <;> exact Or.inl h
    | lock v | unlock v | entry v | dropSelf v =>
      obtain rfl : v = w := Option.some_inj.1 hactor
      simp only [next] at h
      split at h
      all_goals first | exact Or.inl h | simp [Behind] at h
    | set v k =>
      obtain rfl : v = w := Option.some_inj.1 hactor
      simp only [next] at h
      split at h
      · exact Or.inl h
      · split at h
        · simp [Behind] at h
        · exact Or.inl h
    | swap v k =>
      obtain rfl : v = w := Option.some_inj.1 hactor
      rcases swap_eq hi hg with ⟨-, hthread⟩ | ⟨g, c, x, htarget, -, -, hthread⟩
      · rw [hthread] at h
        exact Or.inl h
      · rw [hthread, Function.update_self] at h
        rcases (last_target hi hg htarget).2 with hl | hl | hl <;> simp [Behind, hl] at h
    | leave v =>
      obtain rfl : v = w := Option.some_inj.1 hactor
      left
      simp only [next] at h
      split at h
      · simp [Behind] at h
      · simpa using behind_endCb h
    | sleep v =>
      left
      simpa only [next, thread_addTimer] using h
    | yield v =>
      obtain rfl : v = w := Option.some_inj.1 hactor
      exact Or.inl (behind_yieldRunning h)
    | ret v =>
      obtain rfl : v = w := Option.some_inj.1 hactor
      exact Or.inl (behind_endCb h)
    | idle v =>
      obtain rfl : v = w := Option.some_inj.1 hactor
      left
      simp only [next] at h
      split at h
      · exact h
      · split at h
        · exact h
        · split at h
          · simpa only [thread_addTimer] using behind_yieldRunning h
          · exact h
        · exact behind_yieldRunning h
        · exact behind_endCb h
        · exact h
    | setTerm v =>
      obtain rfl : v = w := Option.some_inj.1 hactor
      simp only [next] at h
      split at h
      · exact Or.inl h
      · split at h
        · exact Or.inl h
        · split at h <;> simp [Behind] at h
    | last v =>
      obtain rfl : v = w := Option.some_inj.1 hactor
      left
      simp only [next] at h
      split at h
      · exact h
      · split at h
        · exact h
        · exact behind_callYield h
    | stopResume e =>
      have hroot : cfg.root = some w := hactor
      have hpc := hg.2 w hroot
      have hl := hi.stands w
      simp only [Stands, hpc] at hl
      have hrest := (has_iff.1 hl.2.2.2.2.2).2
      simp only [next, hroot] at h
      split at h
      · rename_i hready
        simp only [Rest, hready] at hrest
        rw [show s.setFiber .sched { s.fib .sched with mState := .running } = runSched s from rfl,
          swap_stop hi hpc] at h
        rcases hrest with ⟨hl, -⟩ | ⟨hl, -⟩ <;> simp [Behind, runSched, hl] at h
      · exact Or.inl h
    | stopBack e =>
      have hroot : cfg.root = some w := hactor
      simp [next, hroot, Behind] at h
  · left
    rwa [thread_next cfg s hactor] at h

/-! ## The task at hand -/

variable {w : W}

/-- The fiber at hand of a task that `run()` has done with, up to its `reset()`. -/
def Past (s : State W E C) (w : W) : Prop :=
  Behind (s.thread w).pc ∨ (s.base.worker w).pc = .decr ∨ (s.base.worker w).pc = .reset

/-- **What a worker has at hand**: a task that is not pinned elsewhere; `cb_fiber` is a fiber for the callback of that
task; and behind `resume()` there is a fiber at hand, which has been entered. -/
structure Hand (cfg : Sylar.Config W E) (s : State W E C) (w : W) : Prop where
  admitted : ∀ e ∈ (s.base.worker w).task, e.skipped (cfg.tid w) = false
  working : (s.thread w).cbFiber ≠ none → (s.base.worker w).pc.handling
  cb : ∀ f ∈ (s.thread w).cbFiber, ∃ n, f = .task n ∧ n < s.nextId ∧ ∃ e ∈ (s.base.worker w).task,
    e.task.fiber = none ∧ ∃ c, e.task.callback = some c ∧
      ((s.fib (.task n)).mCb = some (.user c) ∨ (s.fib (.task n)).mCb = none)
  past : Past s w → ∃ f, s.target w .task = some f ∧ ∀ n, f = .task n → Entered n s

/-- The tasks that are not pinned elsewhere. -/
theorem admitted_next {a : Act W E C} (hg : guard cfg s a) (hp : ∀ w, Placed cfg s w) (h : ∀ w, Hand cfg s w) (w : W) :
    ∀ e ∈ ((next cfg s a).base.worker w).task, e.skipped (cfg.tid w) = false := by
  rcases base_next hg hp with ⟨a', -, hb, -⟩ | hq
  · rw [hb]
    exact Sched.admitted_next (fun v => (h v).admitted) w
  · rw [← (hq.workers w).1]
    exact (h w).admitted

/-- Inside a branch of a task the worker is at work. -/
theorem exec_of_behind (hp : Placed cfg s w) (h : Behind (s.thread w).pc) : (s.base.worker w).pc = .exec := by
  rcases h with h | ⟨n, h⟩ <;> exact (fit_run h).1 hp

theorem working_next (hi : Inv cfg s) {a : Act W E C} (hg : guard cfg s a) (hp : ∀ w, Placed cfg s w) (h : Hand cfg s w)
    (hcb : ((next cfg s a).thread w).cbFiber ≠ none) : ((next cfg s a).base.worker w).pc.handling := by
  by_cases hreset : a = .reset w
  · subst hreset
    exact absurd (by simp [next]) hcb
  · by_cases hmake : a = .make w
    · subst hmake
      exact Or.inl ((fit_run hg.1).1 (hp w))
    · rw [cb_next hmake hreset] at hcb
      have hx := h.working hcb
      rcases handling_next hi hg hp hx with hr | ⟨-, hpc | ⟨-, hpc⟩ | ⟨-, hpc⟩⟩
      · exact absurd hr hreset
      · rwa [hpc]
      · exact Or.inr (Or.inl hpc)
      · exact Or.inr (Or.inr hpc)

/-- A callback is cleared, and never replaced. -/
theorem mCb_next (hi : Inv cfg s) {a : Act W E C} (hg : guard cfg s a) {n : Nat} (hn : n < s.nextId) :
    ((next cfg s a).fib (.task n)).mCb = (s.fib (.task n)).mCb ∨ ((next cfg s a).fib (.task n)).mCb = none := by
  rcases turn_of_next hi hg hn with hsame | hturn
  · exact Or.inl (by rw [hsame])
  · generalize (next cfg s a).fib (.task n) = x at hturn ⊢
    cases hturn with
    | ret w c hon => exact Or.inr rfl
    | _ => exact Or.inl rfl

theorem hand_cb_next (hi : Inv cfg s) {a : Act W E C} (hg : guard cfg s a) (hp : ∀ w, Placed cfg s w)
    (h : Hand cfg s w) : ∀ f ∈ ((next cfg s a).thread w).cbFiber, ∃ n, f = .task n ∧ n < (next cfg s a).nextId ∧
      ∃ e ∈ ((next cfg s a).base.worker w).task, e.task.fiber = none ∧ ∃ c, e.task.callback = some c ∧
        (((next cfg s a).fib (.task n)).mCb = some (.user c) ∨ ((next cfg s a).fib (.task n)).mCb = none) := by
  intro f hf
  by_cases hreset : a = .reset w
  · subst hreset
    simp [next] at hf
  · by_cases hmake : a = .make w
    · subst hmake
      obtain ⟨-, -, -, -, hfiber, hcallback⟩ := (stands_run hg.1).1 (hi.stands w)
      obtain ⟨c, hc⟩ := Option.ne_none_iff_exists'.1 hcallback
      obtain ⟨e, he, hc'⟩ := Option.bind_eq_some_iff.1 hc
      have hf : f = .task s.nextId := by simpa [next, eq_comm] using hf
      refine ⟨s.nextId, hf, by simp [next], e, he, ?_, c, hc', Or.inl ?_⟩
      · rwa [he] at hfiber
      · simp only [next, hc]
        simp [Fiber.make]
    · rw [cb_next hmake hreset] at hf
      obtain ⟨n, rfl, hn, e, he, hfiber, c, hc, hcb⟩ := h.cb f hf
      have hx := h.working (by rw [hf]; simp)
      rcases handling_next hi hg hp hx with hr | ⟨htask, -⟩
      · exact absurd hr hreset
      · refine ⟨n, rfl, made_mono hi hg hn, e, by rwa [htask], hfiber, c, hc, ?_⟩
        rcases mCb_next hi hg hn with hsame | hnone
        · rwa [hsame]
        · exact Or.inr hnone

theorem entered_mono (hi : Inv cfg s) {a : Act W E C} (hg : guard cfg s a) {n : Nat} (h : Entered n s) :
    Entered n (next cfg s a) := by
  obtain ⟨hyes, hno⟩ := entered_next hi hg n
  cases ha : enters n s a with
  | true => exact (hyes ha).2
  | false => exact (hno ha).2 h

/-- The task and its fiber stay at hand. -/
theorem target_next {a : Act W E C} (hmake : a ≠ .make w) (hreset : a ≠ .reset w)
    (htask : ((next cfg s a).base.worker w).task = (s.base.worker w).task) :
    (next cfg s a).target w .task = s.target w .task := by
  unfold State.target Thread.target
  rw [htask, cb_next hmake hreset]

/-- Where a thread comes back behind the `resume()` of its task, it comes from the fiber at hand. -/
theorem entered_yswap (hi : Inv cfg s) (hg : guard cfg s (.yswap w)) (hp : ∀ w, Placed cfg s w)
    (hbehind : Behind ((next cfg s (.yswap w)).thread w).pc) :
    ∃ f, s.target w .task = some f ∧ ∀ n, f = .task n → Entered n s := by
  have hexec' : ((next cfg s (.yswap w)).base.worker w).pc = .exec :=
    exec_of_behind (placed_next hi hg hp w) hbehind
  have hexec : (s.base.worker w).pc = .exec := by
    have hcalm : Calm (some w) s.base (next cfg s (.yswap w)).base := calm_yswap w
    obtain ⟨-, hpc | ⟨-, hpc⟩ | ⟨-, hpc⟩ | ⟨-, -, hpc | hpc⟩⟩ := hcalm.quiet.workers w
    · exact hpc.symm.trans hexec'
    all_goals cases hexec'.symm.trans hpc
  simp only [guard] at hg
  split at hg
  · rename_i x ended hpc
    obtain ⟨hst, -, -, hat, hunder⟩ := yields hi hpc
    have hfit : Within (s.base.worker w).pc (.fiber x) (s.fib (runner cfg w)).last := by
      have hmain := (fit_main (Or.inr (Or.inr (Or.inr (Or.inr (Or.inr ⟨x, ended, hpc⟩)))))).1 (hp w)
      rwa [hst] at hmain
    rw [hexec] at hfit
    cases x with
    | main u => exact hunder.elim
    | sched => rcases hfit with hout | hout | hout <;> cases hout
    | idle u =>
      -- the worker is in the branch of `task.fiber`, and that is the idle fiber
      obtain ⟨-, -, k, i, hback, hhand⟩ := hunder
      have hk := hfit k i (has_iff.1 hback).2
      cases k with
      | idle => cases hk
      | task => exact ⟨.idle u, hhand rfl, fun n hn => by cases hn⟩
    | task m =>
      refine ⟨.task m, hunder.2.2.1, ?_⟩
      rintro n ⟨⟩
      have hlive := (has_iff.1 hat).2.1
      refine ⟨on_made hi hst hpc (by simp [Pc.InMainFunc]), ?_⟩
      cases ended with
      | false => exact Or.inl (by rw [hlive.2.2]; simp)
      | true => exact Or.inr hlive.2.1
  · exact hg.elim

theorem past_next (hi : Inv cfg s) {a : Act W E C} (hg : guard cfg s a) (hp : ∀ w, Placed cfg s w)
    (h : Hand cfg s w) (hpast : Past (next cfg s a) w) :
    ∃ f, (next cfg s a).target w .task = some f ∧ ∀ n, f = .task n → Entered n (next cfg s a) := by
  suffices hsame : (next cfg s a).target w .task = s.target w .task ∧
      ∃ f, s.target w .task = some f ∧ ∀ n, f = .task n → Entered n s by
    obtain ⟨hsame, f, hf, hentered⟩ := hsame
    exact ⟨f, hsame.trans hf, fun n hn => entered_mono hi hg (hentered n hn)⟩
  rcases hpast with hbehind | hbase
  · rcases behind_next hi hg hbehind with hold | rfl | rfl
    · have hmake : a ≠ .make w := by
        rintro rfl
        simp [Behind, hg.1] at hold
      have hreset : a ≠ .reset w := by
        rintro rfl
        simp [Behind, hg.1.1] at hold
      rcases handling_next hi hg hp (Or.inl (exec_of_behind (hp w) hold)) with hr | ⟨htask, -⟩
      · exact absurd hr hreset
      · exact ⟨target_next hmake hreset htask, h.past (Or.inl hold)⟩
    · have htask : ((next cfg s (.check w)).base.worker w).task = (s.base.worker w).task := by
        simp only [next]
        split <;> rfl
      refine ⟨target_next (by simp) (by simp) htask, ?_⟩
      cases htarget : s.target w .task with
      | none => simp [next, htarget, Behind, hg.1] at hbehind
      | some f =>
        refine ⟨f, rfl, ?_⟩
        rintro n rfl
        have hmade : n < s.nextId := by
          rcases target_passable hi.typed htarget with ⟨m, hm, hlt⟩ | ⟨u, hu⟩
          · cases hm
            exact hlt
          · cases hu
        refine ⟨hmade, Or.inr ?_⟩
        by_contra hne
        simp [next, htarget, Behind, hne] at hbehind
    · have htask : ((next cfg s (.yswap w)).base.worker w).task = (s.base.worker w).task :=
        ((calm_yswap w).quiet.workers w).1.symm
      exact ⟨target_next (by simp) (by simp) htask, entered_yswap hi hg hp hbehind⟩
  · have hx : (s.base.worker w).pc.handling := by
      rcases base_next hg hp with ⟨a', hg', hb, -⟩ | hq
      · rw [hb] at hbase
        exact Sched.work_prev hg' hbase
      · obtain ⟨-, hpc | ⟨-, hpc⟩ | ⟨-, hpc⟩ | ⟨-, -, hpc | hpc⟩⟩ := hq.workers w
        · rw [hpc] at hbase
          exact Or.inr hbase
        all_goals rcases hbase with hbase | hbase <;> cases hpc.symm.trans hbase
    have hmake : a ≠ .make w := by
      rintro rfl
      have hexec : (s.base.worker w).pc = .exec := (fit_run hg.1).1 (hp w)
      rcases hbase with hbase | hbase <;> cases hexec.symm.trans hbase
    have hreset : a ≠ .reset w := by
      rintro rfl
      simp [next, Sched.next] at hbase
    rcases handling_next hi hg hp hx with hr | ⟨htask, hpc⟩
    · exact absurd hr hreset
    · have hold : Past s w := by
        rcases hpc with hpc | ⟨rfl, -⟩ | ⟨rfl, -⟩
        · rw [hpc] at hbase
          exact Or.inr hbase
        · rcases hg with hg | hg
          · exact Or.inl (Or.inl hg.1)
          · exact Or.inl (Or.inr ⟨_, hg.1⟩)
        · exact Or.inr (Or.inl hg.1)
      exact ⟨target_next hmake hreset htask, h.past hold⟩

theorem hand_reach (h : (system C cfg).Reach Always s) : ∀ w, Hand cfg s w := by
  induction h using System.Reach.induct with
  | start s h₀ =>
    rw [show s = initial C cfg from h₀]
    intro w
    refine ⟨by simp [initial, Sched.initial], ?_, ?_, ?_⟩
    · simp only [initial]
      split <;> simp
    · simp only [initial]
      split <;> simp
    · rintro (hbehind | hbase)
      · simp only [initial] at hbehind
        split at hbehind <;> simp [Behind] at hbehind
      · simp [initial, Sched.initial] at hbase
  | step s a hr he _ ih =>
    have hi := inv_reach hr
    have hp := placed_reach hr
    exact fun w => ⟨admitted_next he.2 hp ih w, working_next hi he.2 hp (ih w), hand_cb_next hi he.2 hp (ih w),
      past_next hi he.2 hp (ih w)⟩

/-- The task at hand is that of the entry, or was made for it. -/
theorem entry_of_target (h : Hand cfg s w) {f : FiberId W} (hf : s.target w .task = some f) :
    ∃ e, (s.base.worker w).task = some e ∧ (e.task.fiber = some f ∨ e.task.fiber = none ∧ ∃ n c, f = .task n ∧
      e.task.callback = some c ∧ ((s.fib f).mCb = some (.user c) ∨ (s.fib f).mCb = none)) := by
  unfold State.target Thread.target at hf
  rcases Option.or_eq_some_iff.1 hf with hf | ⟨-, hf⟩
  · obtain ⟨e, he, hf⟩ := Option.bind_eq_some_iff.1 hf
    exact ⟨e, he, Or.inl hf⟩
  · obtain ⟨n, rfl, -, e, he, hfiber, c, hc, hcb⟩ := h.cb f hf
    exact ⟨e, he, Or.inr ⟨hfiber, n, c, rfl, hc, hcb⟩⟩

/-- **User code is the callback of the task at hand**, and that task is for any thread or for this one: in every run,
where a thread is in user code, its `run()` has a task whose thread is `-1` or the thread's own, and the code is that of
the task's fiber, or the task's callback in the fiber made for it. -/
theorem runs_own_task (h : (system C cfg).Reach Always s) (hu : s.inUser w = true) :
    ∃ n c e, On s w (.task n) ∧ s.code w = some (.user c) ∧ (s.base.worker w).task = some e ∧
      (e.task.thread = -1 ∨ e.task.thread = cfg.tid w) ∧
      (e.task.fiber = some (.task n) ∨ e.task.fiber = none ∧ e.task.callback = some c) := by
  have hi := inv_reach h
  have hhand := hand_reach h w
  obtain ⟨n, c, hon, -, -, hself, hcb⟩ := user_cb hi hu
  obtain ⟨m, -, hst, -, htarget⟩ := user_task hi hu
  obtain rfl : m = n := FiberId.task.inj (Stack.fiber.inj (hst.symm.trans hon))
  obtain ⟨e, he, hfor⟩ := entry_of_target hhand htarget
  refine ⟨m, c, e, hon, ?_, he, Entry.skipped_eq_false.1 (hhand.admitted e he), ?_⟩
  · unfold State.code
    rw [hon]
    simp [hself, hcb]
  · refine hfor.imp id ?_
    rintro ⟨hfiber, -, c', -, hc', hcb' | hcb'⟩
    · refine ⟨hfiber, ?_⟩
      rw [hcb] at hcb'
      cases hcb'
      exact hc'
    · cases hcb.symm.trans hcb'

/-- The callback of `callbackRun`, just entered. -/
theorem runs_own_task_duo : ∃ (s : State (Fin 2) (Fin 3) Nat) (c : Nat) (e : Entry (FiberId (Fin 2)) Nat),
    s.code 0 = some (.user c) ∧ (s.base.worker 0).task = some e ∧ e.task.callback = some c := by
  have h : (System.exec (system Nat (Sched.duo .hooked)) Always (initial Nat (Sched.duo .hooked))
      ((callbackRun 0 0 1).take 13)).any (fun s => s.inUser 0 && decide ((s.thread 0).cbFiber = some (.task 0) ∧
        ((s.base.worker 0).task.bind fun e => e.task.fiber) = none)) = true := by
    decide +kernel
  obtain ⟨s, hsteps, hs⟩ := System.exists_exec h
  obtain ⟨hu, hs⟩ := (Bool.and_eq_true _ _).mp hs
  obtain ⟨-, hnone⟩ := of_decide_eq_true hs
  obtain ⟨n, c, e, -, hcode, he, -, hfor⟩ := runs_own_task ⟨_, _, rfl, hsteps⟩ hu
  rw [he] at hnone
  rcases hfor with hfiber | ⟨-, hc⟩
  · cases hfiber.symm.trans hnone
  · exact ⟨s, c, e, hcode, he, hc⟩

/-- The tasks that are finished are those whose workers have taken them to the `reset()`. -/
theorem finished_next (hi : Inv cfg s) {a : Act W E C} (hg : guard cfg s a) (hp : ∀ w, Placed cfg s w)
    {e : Entry (FiberId W) C} (he : e ∈ (next cfg s a).base.finished) :
    e ∈ s.base.finished ∨ ∃ w, (s.base.worker w).pc = .reset ∧ (s.base.worker w).task = some e := by
  have hgoes := behind_step hi hg hp
  cases ha : behind cfg s a with
  | none =>
    rw [ha] at hgoes
    rw [hgoes.finished] at he
    exact Or.inl he
  | some a' =>
    rw [ha] at hgoes
    obtain ⟨hg', hb⟩ := hgoes
    rw [hb] at he
    cases a' with
    | reset w =>
      rcases List.mem_append.1 he with he | he
      · exact Or.inl he
      · exact Or.inr ⟨w, hg', by simpa using he⟩
    | _ =>
      simp only [Sched.next, Sched.State.push] at he
      repeat' split at he
      all_goals exact Or.inl he

theorem finished_entered (h : (system C cfg).Reach Always s) :
    ∀ e ∈ s.base.finished, ∀ n, e.task.fiber = some (.task n) → Entered n s := by
  induction h using System.Reach.induct with
  | start s h₀ =>
    rw [show s = initial C cfg from h₀]
    simp [initial, Sched.initial]
  | step s a hr he _ ih =>
    have hi := inv_reach hr
    intro e hfin n hn
    refine entered_mono hi he.2 ?_
    rcases finished_next hi he.2 (placed_reach hr) hfin with hold | ⟨w, hpc, htask⟩
    · exact ih e hold n hn
    · obtain ⟨f, hf, hentered⟩ := (hand_reach hr w).past (Or.inr (Or.inr hpc))
      apply hentered n
      unfold State.target Thread.target at hf
      simpa [htask, hn, eq_comm] using hf

/-- **A task that has been handled has been run.** In every run, a fiber whose task is finished has been entered once;
and where `run()` resets a task, the fiber at hand, the task's own or the one made for its callback, has been entered
once, unless it is an idle fiber. -/
theorem handled_entered {s₀ : State W E C} {as : List (Act W E C)} (h₀ : (system C cfg).init s₀)
    (h : (system C cfg).Steps Always s₀ as s) :
    (∀ e ∈ s.base.finished, ∀ n, e.task.fiber = some (.task n) → (system C cfg).tally (enters n) s₀ as = 1) ∧
    ∀ w, (system C cfg).enabled s (.reset w) → ∃ e f, (s.base.worker w).task = some e ∧ s.target w .task = some f ∧
      (e.task.fiber = some f ∨ e.task.fiber = none ∧ ∃ n c, f = .task n ∧ e.task.callback = some c ∧
        ((s.fib f).mCb = some (.user c) ∨ (s.fib f).mCb = none)) ∧
      ∀ n, f = .task n → (system C cfg).tally (enters n) s₀ as = 1 := by
  have hreach : (system C cfg).Reach Always s := (System.Reach.start h₀).steps h
  have honce : ∀ n, Entered n s → (system C cfg).tally (enters n) s₀ as = 1 := by
    intro n hn
    have hphase := (System.Steps.tally_phase (p := enters n) (q := Entered n)
      (fun s a hr he _ => entered_next (inv_reach hr) he.2 n) (.start h₀) h).2 ?_
    · rcases hphase with ⟨-, hone⟩ | ⟨hno, -⟩
      · exact hone
      · exact absurd hn hno
    · rw [show s₀ = initial C cfg from h₀]
      rintro ⟨hlt, -⟩
      cases hlt
  refine ⟨fun e he n hn => honce n (finished_entered hreach e he n hn), fun w hen => ?_⟩
  obtain ⟨f, hf, hentered⟩ := (hand_reach hreach w).past (Or.inr (Or.inr hen.2.2))
  obtain ⟨e, he, hfor⟩ := entry_of_target (hand_reach hreach w) hf
  exact ⟨e, f, he, hf, hfor, fun n hn => honce n (hentered n hn)⟩

/-- Worker `0` is about to reset the task of `callbackRun`. -/
theorem handled_entered_duo : ∃ s : State (Fin 2) (Fin 3) Nat,
    (system Nat (Sched.duo .hooked)).Steps Always (initial Nat (Sched.duo .hooked)) (callbackRun 0 0 1).dropLast s ∧
    (system Nat (Sched.duo .hooked)).tally (enters 0) (initial Nat (Sched.duo .hooked)) (callbackRun 0 0 1).dropLast =
      1 := by
  have h : (System.exec (system Nat (Sched.duo .hooked)) Always (initial Nat (Sched.duo .hooked))
      (callbackRun 0 0 1).dropLast).any (fun s => decide ((system Nat (Sched.duo .hooked)).enabled s (.reset 0) ∧
        s.target 0 .task = some (.task 0))) = true := by
    decide +kernel
  obtain ⟨s, hsteps, hs⟩ := System.exists_exec h
  obtain ⟨hen, htarget⟩ := of_decide_eq_true hs
  obtain ⟨e, f, -, hf, -, honce⟩ := (handled_entered rfl hsteps).2 0 hen
  exact ⟨s, hsteps, honce 0 (Option.some_inj.1 (hf.symm.trans htarget))⟩

/-! ## Fibers for one thread -/

/-- Only entries for the thread `w` are made for the fiber `n`, and if it is made for a callback, `w` makes it. -/
def PinnedTo (cfg : Sylar.Config W E) (n : Nat) (w : W) (s : State W E C) : Act W E C → Prop
  | .base (.scheduleLock _ fc thr) => (ScheduleTask.make fc thr).fiber = some (.task n) → thr = cfg.tid w
  | .fire _ i => s.timers[i]? ≠ some (.task n)
  | .make v => s.nextId = n → v = w
  | _ => True

instance (cfg : Sylar.Config W E) (n : Nat) (w : W) (s : State W E C) : ∀ a, Decidable (PinnedTo cfg n w s a)
  | .base (.scheduleLock _ fc thr) =>
    inferInstanceAs (Decidable ((ScheduleTask.make fc thr).fiber = some (.task n) → thr = cfg.tid w))
  | .fire _ i => inferInstanceAs (Decidable (s.timers[i]? ≠ some (.task n)))
  | .make v => inferInstanceAs (Decidable (s.nextId = n → v = w))
  | .base (.wakeUp _) | .base (.start _) | .base (.enter _) | .base (.top _) | .base (.scan _) | .base (.tickle _)
  | .base (.dispatch _) | .base (.finish _) | .base (.decr _) | .base (.reset _) | .base (.idleInc _)
  | .base (.idleTest _) | .base (.idleSleep _) | .base (.idleYield _) | .base (.idleOut _) | .base (.idleEnd _)
  | .base (.idleMoved _ _) | .base (.idleTake _ _ _) | .base (.idleDec _) | .base (.stopCall _) | .base (.stopCheck _)
  | .base (.stopSet _) | .base (.stopAssert _) | .base (.stopTickle _) | .base (.stopResume _) | .base (.stopBack _)
  | .base (.stopSwap _) | .base (.stopJoin _) | .base (.stopEnd _) => isTrue trivial
  | .newFiber _ | .share _ | .getRunning _ | .release _ | .prologue _ | .enter _ | .top _ | .dispatch _ | .lock _
  | .check _ | .set _ _ | .swap _ _ | .unlock _ | .reset _ | .idleInc _ | .idleDec _ | .leave _ | .entry _ | .sleep _
  | .yield _ | .ret _ | .idle _ | .setTerm _ | .dropSelf _ | .last _ | .yswap _ | .stopResume _ | .stopBack _
  | .destroy _ => isTrue trivial

/-- The fiber `n` is queued for `w` only, and at hand of `w` only. -/
structure Pinned (cfg : Sylar.Config W E) (n : Nat) (w : W) (s : State W E C) : Prop where
  queue : ∀ e ∈ s.base.mTasks, e.task.fiber = some (.task n) → e.task.thread = cfg.tid w
  tasks : ∀ v, ∀ e ∈ (s.base.worker v).task, e.task.fiber = some (.task n) → v = w
  cbs : ∀ v, (s.thread v).cbFiber = some (.task n) → v = w

theorem pinned_queue (hi : Inv cfg s) {a : Act W E C} (hg : guard cfg s a) (hp : ∀ w, Placed cfg s w) {n : Nat}
    (ha : PinnedTo cfg n w s a) (h : Pinned cfg n w s) :
    ∀ e ∈ (next cfg s a).base.mTasks, e.task.fiber = some (.task n) → e.task.thread = cfg.tid w := by
  intro e he hn
  have hgoes := behind_step hi hg hp
  cases hbehind : behind cfg s a with
  | none =>
    rw [hbehind] at hgoes
    rw [hgoes.queue] at he
    exact h.queue e he hn
  | some a' =>
    rw [hbehind] at hgoes
    obtain ⟨-, hb⟩ := hgoes
    rw [hb] at he
    rcases Sched.mem_next he with he | ⟨t, fc, thr, rfl, hmake, -⟩
    · exact h.queue e he hn
    · rw [hmake] at hn
      cases a with
      | base a =>
        obtain rfl : a = .scheduleLock t fc thr := Option.some_inj.1 hbehind
        rw [hmake]
        cases fc <;> exact ha hn
      | fire e' i =>
        obtain ⟨f, hf, heq⟩ := Option.map_eq_some_iff.1 hbehind
        cases heq
        obtain rfl : f = .task n := Option.some_inj.1 hn
        exact absurd hf ha
      | dispatch v => cases ht : (s.base.worker v).task <;> simp [behind, ht] at hbehind
      | stopResume e => cases hroot : cfg.root <;> simp [behind, hroot] at hbehind
      | _ => simp [behind] at hbehind

theorem pinned_next (hr : (system C cfg).Reach Always s) {a : Act W E C} (he : (system C cfg).enabled s a) {n : Nat}
    (ha : PinnedTo cfg n w s a) (h : Pinned cfg n w s) : Pinned cfg n w (next cfg s a) := by
  have hi := inv_reach hr
  have hp := placed_reach hr
  have hhand : ∀ v, Hand cfg (next cfg s a) v := hand_reach (hr.step he trivial)
  have hfrom : ∀ v, ∀ e ∈ ((next cfg s a).base.worker v).task, e ∈ (s.base.worker v).task ∨ e ∈ s.base.mTasks := by
    intro v e hv
    rcases base_next he.2 hp with ⟨a', -, hb, -⟩ | hq
    · rw [hb] at hv
      exact Sched.task_next hv
    · rw [← (hq.workers v).1] at hv
      exact Or.inl hv
  refine ⟨pinned_queue hi he.2 hp ha h, ?_, ?_⟩
  · intro v e hv hn
    rcases hfrom v e hv with hold | hqueue
    · exact h.tasks v e hold hn
    · -- the fetch has admitted it
      have hpin := h.queue e hqueue hn
      rcases Entry.skipped_eq_false.1 ((hhand v).admitted e hv) with hany | hown
      · exact absurd (hpin.symm.trans hany) (cfg.tid_ne w)
      · exact cfg.tid_inj (hown.symm.trans hpin)
  · intro v hcb
    by_cases hreset : a = .reset v
    · subst hreset
      simp [next] at hcb
    · by_cases hmake : a = .make v
      · subst hmake
        exact ha (by simpa [next] using hcb)
      · exact h.cbs v ((cb_next hmake hreset).symm.trans hcb)

theorem pinned_reach {n : Nat} (h : (system C cfg).Reach (PinnedTo cfg n w) s) : Pinned cfg n w s := by
  induction h using System.Reach.induct with
  | start s h₀ =>
    rw [show s = initial C cfg from h₀]
    refine ⟨by simp [initial, Sched.initial], by simp [initial, Sched.initial], fun v hcb => ?_⟩
    simp only [initial] at hcb
    split at hcb <;> cases hcb
  | step s a hr he ha ih => exact pinned_next (hr.mono fun _ _ _ => trivial) he ha ih

/-- **A fiber stays on its thread.** In every run in which each `scheduleLock` of a fiber names one thread, no timer
queues the fiber, and that thread makes it if it is a callback's, no other thread ever executes it, however often it
yields and is queued again. -/
theorem pinned_stays {n : Nat} (h : (system C cfg).Reach (PinnedTo cfg n w) s) {v : W} (hon : On s v (.task n))
    (hmain : (s.thread v).pc.InMainFunc) : v = w := by
  have hpinned := pinned_reach h
  have hi := inv_reach (h.mono fun _ _ _ => trivial)
  obtain ⟨f, hst, -, -, hunder⟩ := inMain_of_pc hi rfl hmain
  obtain rfl : FiberId.task n = f := Stack.fiber.inj (hon.symm.trans hst)
  rcases Option.or_eq_some_iff.1 hunder.2.2.1 with hf | ⟨-, hf⟩
  · obtain ⟨e, he, hf⟩ := Option.bind_eq_some_iff.1 hf
    exact hpinned.tasks v e he hf
  · exact hpinned.cbs v hf

/-- A fiber pinned to worker `w` yields, is queued again, and goes on. -/
def pinnedRun (w : Fin 2) (e a : Fin 3) : List (Act (Fin 2) (Fin 3) Nat) :=
  [.base (.start e), .newFiber 7, .base (.scheduleLock (.inr a) (.fiber (some (.task 0))) 10),
    .base (.wakeUp (.inr a)), .prologue w, .enter w, .top w, .base (.scan w), .base (.tickle w), .dispatch w, .lock w,
    .check w, .set w .task, .swap w .task, .entry w, .yield w, .yswap w, .unlock w, .base (.decr w), .reset w,
    .base (.scheduleLock (.inr a) (.fiber (some (.task 0))) 10), .base (.wakeUp (.inr a)), .top w, .base (.scan w),
    .base (.tickle w), .dispatch w, .lock w, .check w, .set w .task, .swap w .task]

theorem pinned_stays_duo : ∃ (s : State (Fin 2) (Fin 3) Nat) (v : Fin 2), On s v (.task 0) ∧ v = 0 := by
  have h : (System.exec (system Nat (Sched.duo .plain)) (PinnedTo (Sched.duo .plain) 0 0)
      (initial Nat (Sched.duo .plain)) (pinnedRun 0 0 1)).any
      (fun s => decide (∃ v, On s v (.task 0) ∧ (s.thread v).pc = .body)) = true := by
    decide +kernel
  obtain ⟨s, hsteps, hs⟩ := System.exists_exec h
  obtain ⟨v, hon, hpc⟩ := of_decide_eq_true hs
  exact ⟨s, v, hon, pinned_stays ⟨_, _, rfl, hsteps⟩ hon (by simp [hpc, Pc.InMainFunc])⟩

end Fibers.Isolated

end Sylar
