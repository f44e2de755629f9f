import Sylar.Fiber.Workers
import Sylar.Owner.Pointers

/-!
# What `stop()` leaves in the caller thread

A run of the scheduler with two more thread-local variables of its threads: `_scheduler` (`scheduler.cpp`) and
`t_hook_enable` (`hook.cpp`). `run()` sets both of them, and `sleep` is the hooked one where the second is set. User
code calls `set_hook_enable` in tasks and callbacks, and so does the caller thread between its calls.

- `system`: the threads with these variables;
- `Whole`, `whole_next`: what every step keeps; `During`, `during_next`: what a call of `stop()` has come to;
- `stop_restores`: the calls behind which all thread-local variables are what they were.
-/

set_option linter.unusedSectionVars false

namespace Sylar.Restore

open Trans Fibers

/-- `scheduler` is whether `_scheduler` refers to the scheduler. -/
structure State (W E C : Type) where
  fibers : Fibers.State W E C
  scheduler : W → Bool
  hookEnable : W → Bool

/-- The steps: those of the scheduler with its fibers, and `set_hook_enable` on a thread. -/
inductive Act (W E C : Type) where
  | step (a : Fibers.Act W E C)
  | setHookEnable (w : W) (flag : Bool)

variable {W E C : Type} [DecidableEq W] [DecidableEq E] {cfg : Sylar.Config W E}

namespace State

/-- The worker whose idle fiber is at its `sleep` on a thread where that is not the hooked one. -/
def delays (cfg : Sylar.Config W E) (s : State W E C) (w : W) : Option W :=
  if cfg.idle = .hooked ∧ s.hookEnable w = false then
    (s.fibers.idler w).filter fun v => (s.fibers.base.worker v).idlePos == .sleep
  else none

/-- A step of the scheduler with its fibers. -/
def run (cfg : Sylar.Config W E) (s : State W E C) : Fibers.Act W E C → Fibers.State W E C
  | .idle w =>
    match s.delays cfg w with
    | some v => s.fibers.idleTo v .yield
    | none => Fibers.next cfg s.fibers (.idle w)
  | a => Fibers.next cfg s.fibers a

/-- The `sleep` of user code that arms a timer is the hooked one. -/
def hooked (s : State W E C) : Fibers.Act W E C → Prop
  | .sleep w => s.hookEnable w = true
  | _ => True

end State

/-- `_scheduler` behind a step: `run()` sets it in the thread that executes it, and the destructor resets it in its. -/
def schedulerNext (cfg : Sylar.Config W E) (scheduler : W → Bool) : Fibers.Act W E C → W → Bool
  | .prologue w => Function.update scheduler w true
  | .destroy e => fun w => scheduler w && !(cfg.root = some w ∧ e = cfg.owner : Bool)
  | _ => scheduler

/-- `t_hook_enable` behind a step of the scheduler: `run()` sets it, and nothing resets it. -/
def hookNext (hookEnable : W → Bool) : Fibers.Act W E C → W → Bool
  | .prologue w => Function.update hookEnable w true
  | _ => hookEnable

/-- Where a step is possible. -/
def guard (cfg : Sylar.Config W E) (s : State W E C) : Act W E C → Prop
  | .step a => (Fibers.system C cfg).enabled s.fibers a ∧ s.hooked a
  | .setHookEnable w _ =>
    s.fibers.base.aborted = none ∧
      (s.fibers.inUser w = true ∨ cfg.root = some w ∧ s.fibers.base.stop cfg.owner = .out)

/-- What a step does. -/
def next (cfg : Sylar.Config W E) (s : State W E C) : Act W E C → State W E C
  | .step a => ⟨s.run cfg a, schedulerNext cfg s.scheduler a, hookNext s.hookEnable a⟩
  | .setHookEnable w flag => { s with hookEnable := Function.update s.hookEnable w flag }

/-- **The threads with their variables**, from behind the constructor; the caller thread may have had its flag set. -/
def system (C : Type) (cfg : Sylar.Config W E) : System (State W E C) (Act W E C) where
  init s := s.fibers = Fibers.initial C cfg ∧ (∀ w, s.scheduler w = decide (cfg.root = some w)) ∧
    ∀ w, cfg.root ≠ some w → s.hookEnable w = false
  enabled := guard cfg
  next := next cfg

/-- `set_hook_enable` on the thread. -/
def Act.sets (w : W) : Act W E C → Option Bool
  | .setHookEnable v flag => if v = w then some flag else none
  | .step _ => none

/-- What user code has last called `set_hook_enable` with on the thread; `true` where it has not, as `run()` does. -/
def lastSet (w : W) (as : List (Act W E C)) : Bool := as.foldl (fun flag a => (a.sets w).getD flag) true

/-- `stop()` goes on behind its first test. -/
def passes (cfg : Sylar.Config W E) : Act W E C := .step (.base (.stopSet cfg.owner))

/-- The thread that constructed the scheduler has not returned from `stop()`. -/
def Inside (cfg : Sylar.Config W E) (s : State W E C) (_ : Act W E C) : Prop := s.fibers.base.stop cfg.owner ≠ .out

/-- **A call of `stop()`** by the thread that constructed the scheduler, from `s` to its return in `t`, with what all
threads do meanwhile. -/
def Call (cfg : Sylar.Config W E) (s : State W E C) (as : List (Act W E C)) (t : State W E C) : Prop :=
  (system C cfg).enabled s (.step (.base (.stopCall cfg.owner))) ∧
    (system C cfg).Steps (Inside cfg) (next cfg s (.step (.base (.stopCall cfg.owner)))) as t ∧
    t.fibers.base.stop cfg.owner = .out

/-- The thread's variables are what they were, and `m_schedulerFiber` has ended. -/
structure Restored (w : W) (s t : State W E C) : Prop where
  runningFiber : (t.fibers.thread w).runningFiber = (s.fibers.thread w).runningFiber
  schedulerFiber : (t.fibers.thread w).schedulerFiber = (s.fibers.thread w).schedulerFiber
  mainFiber : (t.fibers.thread w).mainFiber = (s.fibers.thread w).mainFiber
  scheduler : t.scheduler w = s.scheduler w
  hookEnable : t.hookEnable w = s.hookEnable w
  term : (t.fibers.fib .sched).mState = .term

/-! ## Where the caller thread is -/

/-- A worker's position stays, or moves on behind the beginning of `run()`. -/
def Onward (x x' : Sched.Pc) : Prop := x' = x ∨ x ≠ .unborn ∧ x' ≠ .unborn ∧ x' ≠ .start

theorem onward_set {F : Type} {b : Sched.State W E F C} {v w : W} {x : Sched.Worker F C}
    (h : Onward (b.worker v).pc x.pc) : Onward (b.worker w).pc (Function.update b.worker v x w).pc := by
  rcases eq_or_ne w v with rfl | hne
  · rw [Function.update_self]
    exact h
  · rw [Function.update_of_ne hne]
    exact Or.inl rfl

/-- `stop()` alone sends the caller thread to the beginning of `run()`. -/
theorem onward_base {F : Type} {b : Sched.State W E F C} {a : Sched.Act W E F C} (hg : Sched.guard cfg b a)
    (ha : ∀ e, a ≠ .stopResume e) {w : W} (hroot : cfg.root = some w) :
    Onward (b.worker w).pc ((Sched.next cfg b a).worker w).pc := by
  cases a with
  | stopResume e => exact absurd rfl (ha e)
  | scheduleLock t fc thr =>
    simp only [Sched.next, Sched.State.push]
    split <;> exact Or.inl rfl
  | start e =>
    have hpool : w ∉ cfg.pool := fun hw => (cfg.mem_pool w).1 hw hroot
    simp only [Sched.next]
    split
    · exact Or.inl rfl
    · split
      · exact Or.inl rfl
      · simp only [hpool, false_and, if_false]
        exact Or.inl rfl
  | scan v =>
    have hpc : (b.worker v).pc = .scan := hg
    have hset : ∀ x : Sched.Worker F C, x.pc = .tickle →
        Onward (b.worker w).pc (Function.update b.worker v x w).pc :=
      fun x hx => onward_set (Or.inr (by simp [hpc, hx]))
    simp only [Sched.next]
    split
    · exact hset _ rfl
    · split
      · exact hset _ rfl
      · exact Or.inl rfl
  | dispatch v =>
    have hpc : (b.worker v).pc = .dispatch := hg
    simp only [Sched.next]
    split
    · exact onward_set (Or.inr (by simp [hpc]))
    · split <;> exact onward_set (Or.inr (by simp [hpc]))
  | enter v | top v | tickle v | decr v | reset v | idleInc v | idleDec v =>
    have hpc := hg
    simp only [Sched.guard] at hpc
    exact onward_set (Or.inr (by simp [hpc]))
  | finish v => exact onward_set (Or.inr (by simp [hg.1]))
  | idleTest v | idleOut v | idleMoved v pos => exact onward_set (Or.inl rfl)
  | idleSleep v =>
    simp only [Sched.next]
    split
    · exact onward_set (Or.inr (by simp [hg.2.1]))
    · exact onward_set (Or.inl rfl)
  | idleYield v | idleEnd v | idleTake v k ends => exact onward_set (Or.inr (by simp [hg.2.1]))
  | stopCheck e | stopAssert e | stopJoin e =>
    simp only [Sched.next]
    split <;> exact Or.inl rfl
  | wakeUp t | stopCall e | stopSet e | stopTickle e | stopBack e | stopSwap e | stopEnd e => exact Or.inl rfl

variable {f : Fibers.State W E C}

theorem onward_next {a : Fibers.Act W E C} (hg : Fibers.guard cfg f a) (hp : ∀ w, Isolated.Placed cfg f w)
    (ha : ∀ e, a ≠ .stopResume e) {w : W} (hroot : cfg.root = some w) :
    Onward (f.base.worker w).pc ((Fibers.next cfg f a).base.worker w).pc := by
  rcases Isolated.base_cases hg hp ha with ⟨a', hg', hb, -, ha'⟩ | hcalm
  · rw [hb]
    exact onward_base hg' ha' hroot
  · rcases (hcalm.quiet.workers w).2 with hpc | ⟨hpc, hpc'⟩ | ⟨-, hpc'⟩ | ⟨hpc, -, hpc' | hpc'⟩
    · exact Or.inl hpc
    · exact Or.inr (by simp [hpc, hpc'])
    · exact Or.inl (hpc'.trans (hcalm.start w hpc').symm)
    · exact Or.inr (by simp [hpc, hpc'])
    · exact Or.inr (by simp [hpc, hpc'])

/-- **What every step keeps**, of the scheduler with its fibers. -/
structure Whole (cfg : Sylar.Config W E) (w : W) (f : Fibers.State W E C) : Prop where
  inv : Isolated.Inv cfg f
  caller : Isolated.Caller cfg w f
  placed : ∀ v, Isolated.Placed cfg f v
  /-- `m_schedulerFiber` waits for its first `resume()` only. -/
  ready : (f.fib .sched).mState = .ready → (f.base.worker w).pc = .unborn

/-- The state of `m_schedulerFiber` changes in its `resume()` and at its end. -/
theorem sched_state (h : Isolated.Inv cfg f) {a : Fibers.Act W E C} (hg : Fibers.guard cfg f a)
    (ha : ∀ e, a ≠ .stopResume e) :
    ((Fibers.next cfg f a).fib .sched).mState = (f.fib .sched).mState ∨
      ∃ v, a = .setTerm v ∧ cfg.root = some v ∧ ((Fibers.next cfg f a).fib .sched).mState = .term := by
  by_cases ht : Isolated.Touches f a
  · cases a with
    | stopResume e => exact absurd rfl (ha e)
    | base a | stopBack e =>
      left
      simp only [Fibers.next]
      split <;> rfl
    | destroy e =>
      left
      simp [Fibers.next]
    | entry v =>
      left
      simp only [Fibers.next, show (f.thread v).stack = _ from ht]
      split
      · rename_i g _ hst _
        cases hst
        simp
      · rfl
    | dropSelf v =>
      left
      simp only [Fibers.next, show (f.thread v).stack = _ from ht]
      simp
    | setTerm v =>
      right
      obtain ⟨hroot, -, hself⟩ := Isolated.sched_live h ht hg.1 (by simp [Pc.InMainFunc])
      refine ⟨v, rfl, hroot, ?_⟩
      simp only [Fibers.next, show (f.thread v).stack = _ from ht, hself]
      split <;> simp
    | _ => exact ht.elim
  · exact Or.inl (Isolated.same_next h hg ht).state

theorem ready_next (h : Isolated.Inv cfg f) {a : Fibers.Act W E C} (hg : Fibers.guard cfg f a) {w : W}
    (hroot : cfg.root = some w) (hready : ((Fibers.next cfg f a).fib .sched).mState = .ready) :
    (f.fib .sched).mState = .ready ∧ ∀ e, a ≠ .stopResume e := by
  by_cases ha : ∀ e, a ≠ .stopResume e
  · rcases sched_state h hg ha with hsame | ⟨-, -, -, hterm⟩
    · exact ⟨hsame.symm.trans hready, ha⟩
    · cases hterm.symm.trans hready
  · exfalso
    cases a with
    | stopResume e =>
      simp only [Fibers.next, hroot] at hready
      split at hready
      · rw [show f.setFiber .sched { f.fib .sched with mState := .running } = Isolated.runSched f from rfl,
          Isolated.swap_stop h (hg.2 w hroot)] at hready
        simp [Isolated.runSched] at hready
      · rename_i hne
        exact hne hready
    | _ => exact ha fun e => by simp

theorem whole_next {w : W} (h : Whole cfg w f) {a : Fibers.Act W E C} (he : (Fibers.system C cfg).enabled f a)
    (hroot : cfg.root = some w) : Whole cfg w (Fibers.next cfg f a) := by
  refine ⟨Isolated.inv_next h.inv he.2, h.caller.next h.inv hroot he, Isolated.placed_next h.inv he.2 h.placed, ?_⟩
  intro hready
  obtain ⟨hready, ha⟩ := ready_next h.inv he.2 hroot hready
  have hpc := h.ready hready
  rcases onward_next he.2 h.placed ha hroot with hkeep | ⟨hne, -⟩
  · exact hkeep.trans hpc
  · exact absurd hpc hne

theorem whole_idleTo {w : W} (h : Whole cfg w f) (v : W) (pos : Sched.IdlePos) : Whole cfg w (f.idleTo v pos) := by
  have hpc : ∀ u, ((f.idleTo v pos).base.worker u).pc = (f.base.worker u).pc := fun u => Isolated.pc_idleTo ..
  refine ⟨h.inv.stood rfl rfl (Isolated.task_idleTo f.base v pos), ?_, fun u => ?_, fun hready => ?_⟩
  · exact ⟨h.caller.face, ⟨h.caller.calls.owner, h.caller.calls.away, h.caller.calls.gone⟩,
      h.caller.held.refs, h.caller.held.fresh⟩
  · unfold Isolated.Placed
    rw [hpc u]
    exact h.placed u
  · rw [hpc w]
    exact h.ready hready

variable {s u : State W E C} {w : W}

/-- A step is one of the scheduler with its fibers, or the `sleep` of an idle fiber that is not the hooked one. -/
theorem run_cases (cfg : Sylar.Config W E) (s : State W E C) (a : Fibers.Act W E C) :
    s.run cfg a = Fibers.next cfg s.fibers a ∨ (∃ w, a = .idle w) ∧ ∃ v, s.run cfg a = s.fibers.idleTo v .yield := by
  unfold State.run
  split
  · split
    · exact Or.inr ⟨⟨_, rfl⟩, _, rfl⟩
    · exact Or.inl rfl
  · exact Or.inl rfl

theorem whole_step (h : Whole cfg w s.fibers) {a : Act W E C} (hg : guard cfg s a) (hroot : cfg.root = some w) :
    Whole cfg w (next cfg s a).fibers := by
  cases a with
  | setHookEnable v flag => exact h
  | step a =>
    simp only [next]
    rcases run_cases cfg s a with hrun | ⟨-, v, hrun⟩
    · rw [hrun]
      exact whole_next h hg.1 hroot
    · rw [hrun]
      exact whole_idleTo h v .yield

theorem whole_reach (hroot : cfg.root = some w) (h : (system C cfg).Reach Always s) : Whole cfg w s.fibers := by
  apply h.inv (I := fun s => Whole cfg w s.fibers)
  · rintro s ⟨hs, -⟩
    rw [hs]
    exact ⟨Isolated.inv_initial cfg, Isolated.caller_initial hroot, Isolated.placed_reach (.start rfl), fun _ => rfl⟩
  · exact fun s a hs he _ => whole_step hs he hroot

/-- Only the destructor, in the caller thread, resets `_scheduler` there. -/
theorem scheduler_next {scheduler : W → Bool} (h : scheduler w = true) {a : Fibers.Act W E C}
    (ha : a ≠ .destroy cfg.owner) : schedulerNext cfg scheduler a w = true := by
  unfold schedulerNext
  split
  · rename_i v
    rcases eq_or_ne w v with rfl | hne
    · rw [Function.update_self]
    · rw [Function.update_of_ne hne]
      exact h
  · rename_i e
    have he : e ≠ cfg.owner := by
      rintro rfl
      exact ha rfl
    simp [h, he]
  · exact h

theorem destroyed_run {a : Fibers.Act W E C} (ha : ∀ e, a ≠ .destroy e) :
    (s.run cfg a).destroyed = s.fibers.destroyed := by
  rcases run_cases cfg s a with hrun | ⟨-, v, hrun⟩
  · rw [hrun]
    exact destroyed_next ha
  · rw [hrun]
    rfl

/-- `_scheduler` of the caller thread refers to the scheduler until its destructor. -/
theorem scheduler_reach (hroot : cfg.root = some w) (h : (system C cfg).Reach Always s) :
    s.fibers.destroyed = false → s.scheduler w = true := by
  apply h.inv (I := fun s => s.fibers.destroyed = false → s.scheduler w = true)
  · rintro s ⟨-, hs, -⟩ -
    simp [hs w, hroot]
  · intro s a hi _ _ hd
    cases a with
    | setHookEnable v flag => exact hi hd
    | step a =>
      by_cases ha : ∀ e, a ≠ .destroy e
      · exact scheduler_next (hi ((destroyed_run ha).symm.trans hd)) (ha _)
      · cases a with
        | destroy e => cases hd
        | _ => exact absurd (fun e => by simp) ha

/-! ## During a call of `stop()` -/

/-- The caller thread has switched to `m_schedulerFiber`, and `run()` has not begun there. -/
def Ahead (w : W) (f : Fibers.State W E C) : Prop := (f.base.worker w).pc = .start ∧ ∀ p, (f.thread w).pc ≠ .run p

/-- The call has passed its test, `run()` has ended, and the flag is what was set last. -/
def Ran (cfg : Sylar.Config W E) (w : W) (as : List (Act W E C)) (u : State W E C) : Prop :=
  passes cfg ∈ as ∧ u.hookEnable w = lastSet w as ∧ (u.fibers.fib .sched).mState = .term

/-- The call has not passed its test, and has changed nothing. -/
def Kept (cfg : Sylar.Config W E) (w : W) (s : State W E C) (as : List (Act W E C)) (u : State W E C) : Prop :=
  passes cfg ∉ as ∧ u.hookEnable w = s.hookEnable w ∧ (u.fibers.fib .sched).mState = (s.fibers.fib .sched).mState

/-- What a call has come to at its position. -/
def Phase (cfg : Sylar.Config W E) (w : W) (s : State W E C) (as : List (Act W E C)) (u : State W E C) :
    Sched.StopPc W → Prop
  | .check | .set => Kept cfg w s as u ∧ lastSet w as = true
  | .assertion | .tickle | .resume => passes cfg ∈ as ∧ lastSet w as = true
  | .wait => passes cfg ∈ as ∧ (u.fibers.base.worker w).pc ≠ .unborn ∧ (Ahead w u.fibers → lastSet w as = true) ∧
      (¬ Ahead w u.fibers → u.hookEnable w = lastSet w as)
  | .swap | .join _ => Ran cfg w as u
  | .out => Ran cfg w as u ∨ Kept cfg w s as u

/-- **What a call has come to** that began in `s` and has seen the steps `as`. -/
def During (cfg : Sylar.Config W E) (w : W) (s : State W E C) (as : List (Act W E C)) (u : State W E C) : Prop :=
  u.scheduler w = true ∧ Phase cfg w s as u (u.fibers.base.stop cfg.owner)

theorem lastSet_snoc (w : W) (as : List (Act W E C)) (a : Act W E C) :
    lastSet w (as ++ [a]) = (a.sets w).getD (lastSet w as) := by
  simp [lastSet]

/-- User code runs inside the branch of a task. -/
theorem exec_of_user (h : Whole cfg w f) (hu : f.inUser w = true) : (f.base.worker w).pc = .exec := by
  obtain ⟨n, hpc, hst, -⟩ := Isolated.user_task h.inv hu
  have hp := h.placed w
  rw [Isolated.Placed, Isolated.fit_main (by simp [hpc, Pc.InMainFunc])] at hp
  have hm := Isolated.inMain_of_pc h.inv hpc (by simp [Pc.InMainFunc])
  obtain ⟨g, hst', -, -, hunder⟩ := hm
  obtain rfl : FiberId.task n = g := Stack.fiber.inj (hst.symm.trans hst')
  obtain ⟨-, -, -, i, hback⟩ := hunder
  simp only [Isolated.Within, hst] at hp
  exact hp .task i (has_iff.1 hback).2

/-- `stop()` resumes `m_schedulerFiber` in the thread that constructed the scheduler. -/
theorem resumes (h : Whole cfg w f) (hroot : cfg.root = some w) {e : E} (hg : Fibers.guard cfg f (.stopResume e)) :
    e = cfg.owner := by
  have howner := h.caller.calls.owner e
  rw [show f.base.stop e = .resume from hg.1] at howner
  exact howner.1 (by simp [hroot])

/-- **Outside `resume()`** the call leaves everything alone. -/
theorem native_frame (h : Whole cfg w u.fibers) {a : Act W E C} (hg : guard cfg u a) (hroot : cfg.root = some w)
    (hstop : u.fibers.base.stop cfg.owner ≠ .out) (hpc : (u.fibers.thread w).pc = .native)
    (ha : ∀ e, a ≠ .step (.stopResume e)) (as : List (Act W E C)) :
    (next cfg u a).hookEnable w = u.hookEnable w ∧ lastSet w (as ++ [a]) = lastSet w as ∧
      ((next cfg u a).fibers.fib .sched).mState = (u.fibers.fib .sched).mState := by
  rw [lastSet_snoc]
  cases a with
  | setHookEnable v flag =>
    have hne : w ≠ v := by
      rintro rfl
      rcases hg.2 with huser | ⟨-, hout⟩
      · obtain ⟨n, hbody, -⟩ := Isolated.user_task h.inv huser
        cases hbody.symm.trans hpc
      · exact hstop hout
    exact ⟨Function.update_of_ne hne _ _, by simp [Act.sets, hne.symm], rfl⟩
  | step a =>
    refine ⟨?_, rfl, ?_⟩
    · simp only [next, hookNext]
      split
      · rename_i v
        apply Function.update_of_ne
        rintro rfl
        rcases hg.1.2.2 with hborn | ⟨hbody, -⟩
        · cases hborn.symm.trans hpc
        · cases hbody.1.symm.trans hpc
      · rfl
    · simp only [next]
      rcases run_cases cfg u a with hrun | ⟨-, v, hrun⟩
      · rw [hrun]
        rcases sched_state h.inv hg.1.2 (fun e he => ha e (congrArg Act.step he)) with hsame | ⟨v, rfl, hv, -⟩
        · exact hsame
        · obtain rfl : w = v := Option.some_inj.1 (hroot.symm.trans hv)
          cases hg.1.2.1.symm.trans hpc
      · rw [hrun]
        rfl

/-- Other threads leave the caller thread's position in `run()` alone. -/
theorem pc_other (h : Whole cfg w f) {a : Fibers.Act W E C} (hg : Fibers.guard cfg f a) (ha : ∀ e, a ≠ .stopResume e)
    (hw : actor cfg a ≠ some w) (hborn : (f.base.worker w).pc ≠ .unborn) :
    ((Fibers.next cfg f a).base.worker w).pc = (f.base.worker w).pc := by
  rcases Isolated.base_cases hg h.placed ha with ⟨a', -, hb, hactor, -⟩ | hcalm
  · rw [hb]
    rcases Isolated.pc_base f.base (fun hm => hw (hactor w hm)) with hpc | ⟨hpc, -⟩
    · exact hpc
    · exact absurd hpc hborn
  · exact hcalm.quiet.others w hw

/-- In front of `run()` nobody but `m_schedulerFiber` yields, and that to the main fiber. -/
theorem ahead_yswap (h : Whole cfg w f) {x : FiberId W} {ended : Bool} (hpc : (f.thread w).pc = .yield x ended)
    (hahead : Ahead w f) : Ahead w (Fibers.next cfg f (.yswap w)) := by
  obtain ⟨hst, hhome, hexec, -, hunder⟩ := Isolated.yields h.inv hpc
  have hp := h.placed w
  rw [Isolated.Placed, Isolated.fit_main (by simp [hpc, Pc.InMainFunc]), hst, hahead.1] at hp
  have hback : ∀ k n, (f.fib (runner cfg w)).last = .run (.back k n) → x = .sched := by
    intro k n hlast
    cases x with
    | sched => rfl
    | main v | idle v | task m =>
      have hk := hp k n hlast
      cases k <;> cases hk
  obtain rfl : x = .sched := by
    cases x with
    | main v => exact hunder.elim
    | sched => rfl
    | idle v =>
      obtain ⟨-, -, k, n, hlast, -⟩ := hunder
      exact hback k n (has_iff.1 hlast).2
    | task m =>
      obtain ⟨-, -, -, n, hlast⟩ := hunder
      exact hback .task n (has_iff.1 hlast).2
  obtain ⟨-, -, -, -, hmain⟩ := hunder
  have hidler : f.idler w = none := by
    unfold State.idler
    rw [hst]
  have hpartner : f.partner w .sched = some (.main w) := by
    unfold State.partner
    rw [(h.inv.static .sched).1]
    exact h.caller.face.main
  simp only [Fibers.next, hpc, hpartner, hidler]
  rw [switchTo_eq (h.inv.ctx (.main w)) hexec (hst.trans hhome.symm) (by simp)]
  refine ⟨hahead.1, fun p hp => ?_⟩
  simp only [Function.update_self, (has_iff.1 hmain).2] at hp
  cases hp

/-- **Only `run()` itself ends the way to it.** -/
theorem ahead_next (h : Whole cfg w f) {a : Fibers.Act W E C} (hg : Fibers.guard cfg f a)
    (ha : ∀ e, a ≠ .stopResume e ∧ a ≠ .stopBack e) (hp : a ≠ .prologue w) (hahead : Ahead w f) :
    Ahead w (Fibers.next cfg f a) := by
  obtain ⟨hpc, hrun⟩ := hahead
  have huser : f.inUser w = true → False := by
    intro hu
    cases hpc.symm.trans (exec_of_user h hu)
  by_cases hw : actor cfg a = some w
  · have hmain : (a = .entry w ∨ a = .sleep w ∨ a = .yield w ∨ a = .ret w ∨ a = .idle w ∨ a = .setTerm w ∨
        a = .dropSelf w ∨ a = .last w) → Ahead w (Fibers.next cfg f a) := by
      intro ha
      obtain ⟨-, hin, hkeep⟩ := Isolated.remains_next h.inv hg ha
      refine ⟨hkeep.trans hpc, fun p hp => ?_⟩
      rw [hp] at hin
      simp [Pc.InMainFunc] at hin
    cases a with
    | stopResume e => exact absurd rfl (ha e).1
    | stopBack e => exact absurd rfl (ha e).2
    | newFiber c | share g | release g | fire e i | destroy e => cases hw
    | prologue v =>
      obtain rfl := Option.some_inj.1 hw
      exact absurd rfl hp
    | getRunning v =>
      obtain rfl := Option.some_inj.1 hw
      exact (huser hg).elim
    | base a =>
      have hthread : (Fibers.next cfg f (.base a)).thread = f.thread := by
        simp only [Fibers.next]
        split <;> rfl
      have hkeep : (∀ v, (Sched.next cfg f.base a).worker v = f.base.worker v) →
          Ahead w (Fibers.next cfg f (.base a)) := by
        intro hworker
        rw [Ahead, hthread, Isolated.sched_base, hworker w]
        exact ⟨hpc, hrun⟩
      cases a with
      | scheduleLock t fc thr =>
        apply hkeep
        intro v
        simp only [Sched.next, Sched.State.push]
        split <;> rfl
      | wakeUp t => exact hkeep fun v => rfl
      | scan v | tickle v | decr v =>
        obtain rfl := Option.some_inj.1 hw
        exact absurd hg.2.1 (hrun _)
      | start e | stopCall e | stopCheck e | stopSet e | stopAssert e | stopTickle e | stopSwap e | stopJoin e
        | stopEnd e => cases hw
      | _ => exact hg.2.elim
    | enter v | top v | dispatch v | reset v | idleInc v | leave v =>
      obtain rfl := Option.some_inj.1 hw
      exact absurd hg.1.1 (hrun _)
    | lock v =>
      obtain rfl := Option.some_inj.1 hw
      exact absurd hg.1.1 (hrun _)
    | make v | check v | set v k | swap v k | idleDec v =>
      obtain rfl := Option.some_inj.1 hw
      exact absurd hg.1 (hrun _)
    | unlock v =>
      obtain rfl := Option.some_inj.1 hw
      rcases hg with hg | hg
      · exact absurd hg.1 (hrun _)
      · exact absurd hg.1 (hrun _)
    | yswap v =>
      obtain rfl := Option.some_inj.1 hw
      simp only [Fibers.guard] at hg
      split at hg
      · rename_i x ended hyield
        exact ahead_yswap h hyield ⟨hpc, hrun⟩
      · exact hg.elim
    | entry v | sleep v | yield v | ret v | idle v | setTerm v | dropSelf v | last v =>
      obtain rfl := Option.some_inj.1 hw
      exact hmain (by simp)
  · refine ⟨?_, ?_⟩
    · rw [pc_other h hg (fun e => (ha e).1) hw (by simp [hpc])]
      exact hpc
    · rw [thread_next cfg f hw]
      exact hrun

/-- Nothing leads back in front of `run()`. -/
theorem behind_next (h : Whole cfg w f) {a : Fibers.Act W E C} (hg : Fibers.guard cfg f a) (hroot : cfg.root = some w)
    (ha : ∀ e, a ≠ .stopResume e) (hborn : (f.base.worker w).pc ≠ .unborn)
    (hahead : Ahead w (Fibers.next cfg f a)) : Ahead w f := by
  obtain ⟨hpc', hrun'⟩ := hahead
  have hpc : (f.base.worker w).pc = .start := by
    rcases onward_next hg h.placed ha hroot with hkeep | ⟨-, -, hne⟩
    · exact hkeep.symm.trans hpc'
    · exact absurd hpc' hne
  refine ⟨hpc, fun p hp => ?_⟩
  obtain rfl : p = .main := by
    have hat := (Isolated.fit_run hp).1 (h.placed w)
    rw [hpc] at hat
    cases p with
    | main => rfl
    | set k | swap k | back k n => cases k <;> cases hat
    | make | lock | check | unlock => cases hat
  by_cases hw : actor cfg a = some w
  · -- the one step from there is `enter`
    have hkeep : (Fibers.next cfg f a).thread w = f.thread w → False := fun hthread => hrun' _ (hthread ▸ hp)
    have hbody : (f.thread w).pc ≠ .body := by
      rw [hp]
      simp
    have huser : f.inUser w = true → False := by
      intro hu
      obtain ⟨n, hb, -⟩ := Isolated.user_task h.inv hu
      exact hbody hb
    cases a with
    | stopResume e => exact absurd rfl (ha e)
    | newFiber c | share g | release g | fire e i | destroy e => cases hw
    | base a =>
      apply hkeep
      simp only [Fibers.next]
      split <;> rfl
    | stopBack e => cases hp.symm.trans (hg.2 w hw)
    | enter v =>
      obtain rfl := Option.some_inj.1 hw
      simp [Fibers.next, Sched.next] at hpc'
    | prologue v =>
      obtain rfl := Option.some_inj.1 hw
      rcases hg.2 with hborn' | hb
      · cases hp.symm.trans hborn'
      · exact hbody hb.1.1
    | getRunning v | sleep v | yield v | ret v =>
      obtain rfl := Option.some_inj.1 hw
      exact huser hg
    | top v | dispatch v | reset v | idleInc v | leave v =>
      obtain rfl := Option.some_inj.1 hw
      cases hpc.symm.trans hg.2
    | lock v | idle v =>
      obtain rfl := Option.some_inj.1 hw
      cases hp.symm.trans hg.1.1
    | make v | check v | set v k | swap v k | idleDec v | entry v | setTerm v | dropSelf v | last v =>
      obtain rfl := Option.some_inj.1 hw
      cases hp.symm.trans hg.1
    | unlock v =>
      obtain rfl := Option.some_inj.1 hw
      rcases hg with hg | hg <;> cases hp.symm.trans hg.1
    | yswap v =>
      obtain rfl := Option.some_inj.1 hw
      simp [Fibers.guard, hp] at hg
  · exact hrun' _ (by rw [thread_next cfg f hw]; exact hp)

/-- The thread whose `stop()` a step belongs to. -/
def stopper : Act W E C → Option E
  | .step (.base a) => Sched.stopper a
  | .step (.stopResume e) | .step (.stopBack e) => some e
  | _ => none

/-- A call stays where it is while others move. -/
theorem stop_kept (h : Isolated.Inv cfg u.fibers) {a : Act W E C} (hg : guard cfg u a) {e : E}
    (ha : stopper a ≠ some e) : (next cfg u a).fibers.base.stop e = u.fibers.base.stop e := by
  cases a with
  | setHookEnable v flag => rfl
  | step a =>
    simp only [next]
    rcases run_cases cfg u a with hrun | ⟨-, v, hrun⟩
    · rw [hrun]
      cases a with
      | base a =>
        rw [Isolated.sched_base]
        exact Sched.stop_next u.fibers.base ha
      | stopResume e' =>
        have hne : e ≠ e' := by
          rintro rfl
          exact ha rfl
        simp only [Fibers.next]
        split
        · exact Sched.stop_next (a := .stopResume e') u.fibers.base ha
        · split
          · exact Function.update_of_ne hne _ _
          · rfl
      | stopBack e' =>
        simp only [Fibers.next]
        split
        · rfl
        · show (Sched.next cfg u.fibers.base (.stopBack e')).stop e = _
          exact Sched.stop_next u.fibers.base ha
      | _ => exact congrFun (Isolated.stop_next h hg.1.2 (by simp) (by simp)).1 e
    · rw [hrun]
      rfl

theorem passes_snoc {as : List (Act W E C)} {a : Act W E C} (ha : a ≠ passes cfg) :
    passes cfg ∈ as ++ [a] ↔ passes cfg ∈ as := by
  simp [ha.symm]

/-- The caller's own step down its `stop()`: nothing has run before `m_stopping` is set, and `run()` is over from the
`swap` of `m_threadPool` on. -/
theorem phase_owned {b : Sched.Act W E (FiberId W) C} (hg : guard cfg u (.step (.base b)))
    (hown : Sched.stopper b = some cfg.owner) {as : List (Act W E C)}
    (hd : Phase cfg w s as u (u.fibers.base.stop cfg.owner)) (hout : u.fibers.base.stop cfg.owner ≠ .out)
    (hset : lastSet w (as ++ [.step (.base b)]) = lastSet w as)
    (hkept : (.step (.base b) : Act W E C) ≠ passes cfg → Kept cfg w s as u →
      Kept cfg w s (as ++ [.step (.base b)]) (next cfg u (.step (.base b))))
    (hran : Ran cfg w as u → Ran cfg w (as ++ [.step (.base b)]) (next cfg u (.step (.base b)))) :
    Phase cfg w s (as ++ [.step (.base b)]) (next cfg u (.step (.base b)))
      ((next cfg u (.step (.base b))).fibers.base.stop cfg.owner) := by
  have hbase : (next cfg u (.step (.base b))).fibers.base = Sched.next cfg u.fibers.base b := Isolated.sched_base
  rw [hbase]
  -- every step has its own position
  have hat : ∀ {e pc}, u.fibers.base.stop e = pc → some e = some cfg.owner → Phase cfg w s as u pc := by
    intro e pc hpc he
    obtain rfl := Option.some_inj.1 he
    rwa [hpc] at hd
  have hto : ∀ {e} (pc : Sched.StopPc W), some e = some cfg.owner →
      Function.update u.fibers.base.stop e pc cfg.owner = pc := by
    intro e pc he
    obtain rfl := Option.some_inj.1 he
    exact Function.update_self ..
  obtain ⟨hg, hb⟩ := hg.1.2
  cases b with
  | stopCall e =>
    obtain rfl : e = cfg.owner := Option.some_inj.1 hown
    exact absurd hg.1 hout
  | stopCheck e =>
    obtain ⟨hk, hs⟩ := hat hg hown
    simp only [Sched.next]
    split
    · rw [show (u.fibers.base.stopReturn e).stop cfg.owner = .out from hto .out hown]
      exact Or.inr (hkept (by simp [passes]) hk)
    · rw [show (u.fibers.base.stopTo e .set).stop cfg.owner = .set from hto .set hown]
      exact ⟨hkept (by simp [passes]) hk, hset.trans hs⟩
  | stopSet e =>
    have hs := (hat hg hown).2
    rw [show (Sched.next cfg u.fibers.base (.stopSet e)).stop cfg.owner = .assertion from hto .assertion hown]
    obtain rfl : e = cfg.owner := Option.some_inj.1 hown
    exact ⟨List.mem_append_right _ (List.mem_singleton_self _), hset.trans hs⟩
  | stopAssert e =>
    obtain ⟨hin, hs⟩ := hat hg hown
    simp only [Sched.next]
    split
    · rw [show (u.fibers.base.stopTo e .tickle).stop cfg.owner = .tickle from hto .tickle hown]
      exact ⟨List.mem_append_left _ hin, hset.trans hs⟩
    · obtain rfl : e = cfg.owner := Option.some_inj.1 hown
      rw [show (u.fibers.base.abort .runningScheduler).stop cfg.owner = .assertion from hg]
      exact ⟨List.mem_append_left _ hin, hset.trans hs⟩
  | stopTickle e =>
    obtain ⟨hin, hs⟩ := hat hg hown
    rw [show (Sched.next cfg u.fibers.base (.stopTickle e)).stop cfg.owner = .resume from hto .resume hown]
    exact ⟨List.mem_append_left _ hin, hset.trans hs⟩
  | stopSwap e =>
    rw [show (Sched.next cfg u.fibers.base (.stopSwap e)).stop cfg.owner = .join u.fibers.base.mPool from
      hto _ hown]
    exact hran (hat hg hown)
  | stopJoin e =>
    obtain rfl : e = cfg.owner := Option.some_inj.1 hown
    cases hstop : u.fibers.base.stop cfg.owner with
    | join vec =>
      rw [hstop] at hd
      cases vec with
      | nil =>
        simp only [Sched.next, hstop]
        exact hran hd
      | cons v vec =>
        simp only [Sched.next, hstop, Sched.State.stopTo, Function.update_self]
        exact hran hd
    | _ => simp [Sched.guard, Sched.mayJoin, hstop] at hg
  | stopEnd e =>
    rw [show (Sched.next cfg u.fibers.base (.stopEnd e)).stop cfg.owner = .out from hto .out hown]
    exact Or.inl (hran (hat hg hown))
  | stopResume e | stopBack e => exact hb.elim
  | _ => cases hown

/-- The steps of the caller's `stop()` outside its `resume()`. -/
theorem phase_native (h : Whole cfg w u.fibers) {a : Act W E C} (hg : guard cfg u a) (hroot : cfg.root = some w)
    {as : List (Act W E C)} (hd : Phase cfg w s as u (u.fibers.base.stop cfg.owner))
    (hout : u.fibers.base.stop cfg.owner ≠ .out) (hwait : u.fibers.base.stop cfg.owner ≠ .wait)
    (ha : ∀ e, a ≠ .step (.stopResume e)) :
    Phase cfg w s (as ++ [a]) (next cfg u a) ((next cfg u a).fibers.base.stop cfg.owner) := by
  obtain ⟨hhook, hset, hstate⟩ := native_frame h hg hroot hout (h.caller.native (Or.inl hwait)) ha as
  have hkept : a ≠ passes cfg → Kept cfg w s as u → Kept cfg w s (as ++ [a]) (next cfg u a) := by
    rintro hp ⟨hno, hk, hst⟩
    exact ⟨fun hin => hno ((passes_snoc hp).1 hin), hhook.trans hk, hstate.trans hst⟩
  have hran : Ran cfg w as u → Ran cfg w (as ++ [a]) (next cfg u a) := by
    rintro ⟨hin, hk, hst⟩
    exact ⟨List.mem_append_left _ hin, hhook.trans (hk.trans hset.symm), hstate.trans hst⟩
  by_cases hown : stopper a = some cfg.owner
  · cases a with
    | setHookEnable v flag => cases hown
    | step a =>
      cases a with
      | stopResume e => exact absurd rfl (ha e)
      | stopBack e =>
        obtain rfl : e = cfg.owner := Option.some_inj.1 hown
        exact absurd hg.1.2.1.1 hwait
      | base b => exact phase_owned hg hown hd hout hset hkept hran
      | _ => cases hown
  · have hp : a ≠ passes cfg := by
      rintro rfl
      exact hown rfl
    rw [stop_kept h.inv hg hown]
    cases hstop : u.fibers.base.stop cfg.owner with
    | out => exact absurd hstop hout
    | wait => exact absurd hstop hwait
    | check | set =>
      rw [hstop] at hd
      exact ⟨hkept hp hd.1, hset.trans hd.2⟩
    | assertion | tickle | resume =>
      rw [hstop] at hd
      exact ⟨List.mem_append_left _ hd.1, hset.trans hd.2⟩
    | swap | join vec =>
      rw [hstop] at hd
      exact hran hd

/-- The switch to `m_schedulerFiber`, which waits for it in front of `run()`. -/
theorem phase_resume (h : Whole cfg w u.fibers) {e : E} (hg : guard cfg u (.step (.stopResume e)))
    (hroot : cfg.root = some w) {as : List (Act W E C)}
    (hd : Phase cfg w s as u (u.fibers.base.stop cfg.owner)) :
    Phase cfg w s (as ++ [.step (.stopResume e)]) (next cfg u (.step (.stopResume e)))
      ((next cfg u (.step (.stopResume e))).fibers.base.stop cfg.owner) := by
  have hguard := hg.1.2
  obtain rfl := resumes h hroot hguard
  rw [show u.fibers.base.stop cfg.owner = .resume from hguard.1] at hd
  obtain ⟨hin, hs⟩ := hd
  have hin' : passes cfg ∈ as ++ [.step (.stopResume cfg.owner)] := List.mem_append_left _ hin
  have hs' : lastSet w (as ++ [.step (.stopResume cfg.owner)]) = true := (lastSet_snoc ..).trans hs
  have hpc := hguard.2 w hroot
  by_cases hready : (u.fibers.fib .sched).mState = .ready
  · have hlast : ∀ p, (u.fibers.fib .sched).last ≠ .run p := by
      have hl := h.inv.stands w
      simp only [Isolated.Stands, hpc] at hl
      have hrest := (has_iff.1 hl.2.2.2.2.2).2
      simp only [Rest, hready] at hrest
      rintro p hp
      rcases hrest with ⟨hl, -⟩ | ⟨hl, -⟩ <;> cases hl.symm.trans hp
    have hf : (next cfg u (.step (.stopResume cfg.owner))).fibers =
        Fibers.next cfg u.fibers (.stopResume cfg.owner) := rfl
    simp only [Fibers.next, hroot, if_pos hready] at hf
    rw [show u.fibers.setFiber .sched { u.fibers.fib .sched with mState := .running } = Isolated.runSched u.fibers
      from rfl, Isolated.swap_stop h.inv hpc] at hf
    have hstart : ((next cfg u (.step (.stopResume cfg.owner))).fibers.base.worker w).pc = .start := by
      rw [hf]
      simp
    have hahead : Ahead w (next cfg u (.step (.stopResume cfg.owner))).fibers := by
      refine ⟨hstart, fun p hp => hlast p ?_⟩
      rw [hf] at hp
      simpa [Isolated.runSched] using hp
    have hstop : (next cfg u (.step (.stopResume cfg.owner))).fibers.base.stop cfg.owner = .wait := by
      rw [hf]
      simp
    rw [hstop]
    exact ⟨hin', by simp [hstart], fun _ => hs', fun hbehind => absurd hahead hbehind⟩
  · have hstop : (next cfg u (.step (.stopResume cfg.owner))).fibers.base.stop cfg.owner = .resume := by
      simp only [next, State.run, Fibers.next, hroot, if_neg hready]
      exact hguard.1
    rw [hstop]
    exact ⟨hin', hs'⟩

/-- **The steps while `stop()` waits in `resume()`.** -/
theorem phase_wait (h : Whole cfg w u.fibers) {a : Act W E C} (hg : guard cfg u a) (hroot : cfg.root = some w)
    {as : List (Act W E C)} (hd : Phase cfg w s as u (u.fibers.base.stop cfg.owner))
    (hwait : u.fibers.base.stop cfg.owner = .wait) (ha : stopper a ≠ some cfg.owner) :
    Phase cfg w s (as ++ [a]) (next cfg u a) .wait := by
  rw [hwait] at hd
  obtain ⟨hin, hborn, hahead, hbehind⟩ := hd
  refine ⟨List.mem_append_left _ hin, ?_⟩
  rw [lastSet_snoc]
  cases a with
  | setHookEnable v flag =>
    refine ⟨hborn, ?_⟩
    rcases eq_or_ne v w with rfl | hne
    · -- a task runs, which is behind the beginning of `run()`
      have hexec : (u.fibers.base.worker v).pc = .exec := by
        rcases hg.2 with huser | ⟨-, hout⟩
        · exact exec_of_user h huser
        · cases hwait.symm.trans hout
      refine ⟨fun hf => ?_, fun _ => by simp [next, Act.sets]⟩
      cases hexec.symm.trans hf.1
    · simp only [next, Act.sets, if_neg hne, Option.getD_none, Function.update_of_ne hne.symm]
      exact ⟨hahead, hbehind⟩
  | step a =>
    have hno : ∀ e, a ≠ .stopResume e ∧ a ≠ .stopBack e := by
      intro e
      constructor
      · rintro rfl
        exact ha (congrArg some (resumes h hroot hg.1.2))
      · rintro rfl
        have howner := h.caller.calls.owner e
        rw [show u.fibers.base.stop e = .wait from hg.1.2.1.1] at howner
        exact ha (congrArg some howner.2)
    simp only [next, Act.sets, Option.getD_none]
    rcases run_cases cfg u a with hrun | ⟨⟨v, rfl⟩, v', hrun⟩
    · rw [hrun]
      refine ⟨?_, ?_⟩
      · rcases onward_next hg.1.2 h.placed (fun e => (hno e).1) hroot with hkeep | ⟨-, hne, -⟩
        · rwa [hkeep]
        · exact hne
      · by_cases hp : a = .prologue w
        · subst hp
          have hfront : Ahead w u.fibers := by
            refine ⟨hg.1.2.1, fun p hp => ?_⟩
            rcases hg.1.2.2 with hpc | ⟨hpc, -⟩
            · cases hp.symm.trans hpc
            · cases hp.symm.trans hpc.1
          have hs := hahead hfront
          exact ⟨fun _ => hs, fun _ => (Function.update_self ..).trans hs.symm⟩
        · have hhook : hookNext u.hookEnable a w = u.hookEnable w := by
            unfold hookNext
            split
            · apply Function.update_of_ne
              rintro rfl
              exact hp rfl
            · rfl
          rw [hhook]
          refine ⟨fun hf => hahead ?_, fun hf => hbehind fun hfront => hf ?_⟩
          · exact behind_next h hg.1.2 hroot (fun e => (hno e).1) hborn hf
          · exact ahead_next h hg.1.2 hno hp hfront
    · have hpc : ((u.fibers.idleTo v' .yield).base.worker w).pc = (u.fibers.base.worker w).pc :=
        Isolated.pc_idleTo ..
      have hiff : Ahead w (u.fibers.idleTo v' .yield) ↔ Ahead w u.fibers := by
        unfold Ahead
        rw [hpc]
        rfl
      rw [hrun, hpc, hiff]
      exact ⟨hborn, hahead, hbehind⟩

/-- A call that waits in `resume()` goes on behind it. -/
theorem back_of_wait {a : Act W E C} (hg : guard cfg u a) (hwait : u.fibers.base.stop cfg.owner = .wait)
    (ha : stopper a = some cfg.owner) (hresume : ∀ e, a ≠ .step (.stopResume e)) :
    a = .step (.stopBack cfg.owner) := by
  cases a with
  | setHookEnable v flag => cases ha
  | step a =>
    cases a with
    | stopResume e => exact absurd rfl (hresume e)
    | stopBack e => rw [Option.some_inj.1 ha]
    | base b =>
      obtain ⟨hg, hb⟩ := hg.1.2
      rcases Sched.stop_of_stopper hg ha with ⟨-, hout⟩ | ⟨rfl, -⟩ | ⟨-, hne⟩
      · cases hwait.symm.trans hout
      · exact hb.elim
      · exact absurd hwait hne
    | _ => cases ha

/-- `run()` has ended, and with it `m_schedulerFiber`. -/
theorem phase_back (h : Whole cfg w u.fibers) (hg : guard cfg u (.step (.stopBack cfg.owner)))
    (hroot : cfg.root = some w) {as : List (Act W E C)}
    (hd : Phase cfg w s as u (u.fibers.base.stop cfg.owner)) :
    Phase cfg w s (as ++ [.step (.stopBack cfg.owner)]) (next cfg u (.step (.stopBack cfg.owner)))
      ((next cfg u (.step (.stopBack cfg.owner))).fibers.base.stop cfg.owner) := by
  obtain ⟨⟨hwait, v, hv, hdone⟩, hback⟩ := hg.1.2
  obtain rfl : w = v := Option.some_inj.1 (hroot.symm.trans hv)
  rw [hwait] at hd
  obtain ⟨hin, -, -, hbehind⟩ := hd
  have hnot : ¬ Ahead w u.fibers := by
    intro hf
    cases hdone.symm.trans hf.1
  have hterm : (u.fibers.fib .sched).mState = .term := by
    have hl := h.inv.stands w
    simp only [Isolated.Stands, hback w hroot] at hl
    have hrest := (has_iff.1 hl.2.2.2.2.2).2
    cases hstate : (u.fibers.fib .sched).mState with
    | ready => cases hdone.symm.trans (h.ready hstate)
    | running => simp [Rest, hstate] at hrest
    | term => rfl
  have hnext : next cfg u (.step (.stopBack cfg.owner)) = { u with
      fibers := { u.fibers.goto w .native with base := u.fibers.base.stopTo cfg.owner .swap } } := by
    simp only [next, State.run, Fibers.next, hroot]
    rfl
  rw [hnext]
  have hset : lastSet w (as ++ [.step (.stopBack cfg.owner)]) = lastSet w as := lastSet_snoc ..
  simp only [Sched.State.stopTo, Function.update_self]
  exact ⟨List.mem_append_left _ hin, (hbehind hnot).trans hset.symm, hterm⟩

/-- **Every step of a call.** -/
theorem during_next (h : Whole cfg w u.fibers) {a : Act W E C} (hg : guard cfg u a) (hroot : cfg.root = some w)
    {as : List (Act W E C)} (hd : During cfg w s as u) (hout : u.fibers.base.stop cfg.owner ≠ .out) :
    During cfg w s (as ++ [a]) (next cfg u a) := by
  obtain ⟨hsched, hphase⟩ := hd
  constructor
  · cases a with
    | setHookEnable v flag => exact hsched
    | step a =>
      refine scheduler_next hsched ?_
      rintro rfl
      exact hout hg.1.2.1
  · by_cases hresume : ∃ e, a = .step (.stopResume e)
    · obtain ⟨e, rfl⟩ := hresume
      exact phase_resume h hg hroot hphase
    · by_cases hwait : u.fibers.base.stop cfg.owner = .wait
      · by_cases ha : stopper a = some cfg.owner
        · obtain rfl := back_of_wait hg hwait ha fun e he => hresume ⟨e, he⟩
          exact phase_back h hg hroot hphase
        · rw [stop_kept h.inv hg ha, hwait]
          exact phase_wait h hg hroot hphase hwait ha
      · exact phase_native h hg hroot hphase hout hwait fun e he => hresume ⟨e, he⟩

/-! ## Calls -/

/-- What a call has come to at its return. -/
theorem returned (hroot : cfg.root = some w) (hr : (system C cfg).Reach Always s) {as : List (Act W E C)}
    {t : State W E C} (h : Call cfg s as t) :
    (system C cfg).Reach Always t ∧ t.scheduler w = true ∧ (Ran cfg w as t ∨ Kept cfg w s as t) := by
  obtain ⟨hcall, hsteps, hout⟩ := h
  have hnext : (system C cfg).Reach Always (next cfg s (.step (.base (.stopCall cfg.owner)))) :=
    hr.step hcall trivial
  have hstart : During cfg w s [] (next cfg s (.step (.base (.stopCall cfg.owner)))) := by
    have hstop : (next cfg s (.step (.base (.stopCall cfg.owner)))).fibers.base.stop cfg.owner = .check := by
      simp [next, State.run, Fibers.next, Sched.next]
    have hsched : s.scheduler w = true := scheduler_reach hroot hr hcall.1.1.2
    refine ⟨hsched, ?_⟩
    rw [hstop]
    exact ⟨⟨List.not_mem_nil, rfl, rfl⟩, rfl⟩
  obtain ⟨ht, hsched, hphase⟩ := hsteps.history (I := fun as u => (system C cfg).Reach Always u ∧ During cfg w s as u)
    (fun as u a hi hg hne => ⟨hi.1.step hg trivial, during_next (whole_reach hroot hi.1) hg hroot hi.2 hne⟩) []
    ⟨hnext, hstart⟩
  rw [hout] at hphase
  exact ⟨ht, hsched, hphase⟩

/-- **What `stop()` restores.** In every run and for every call of the thread that constructed the scheduler with
`use_caller`: behind the return the thread-local variables are what they were and `m_schedulerFiber` has ended, exactly
if either the call goes on behind its test and `t_hook_enable` was before what user code has last set it to there, or
`true` where it has not, or the call returns at its test and `m_schedulerFiber` had ended. -/
theorem stop_restores (hroot : cfg.root = some w) (hr : (system C cfg).Reach Always s) {as : List (Act W E C)}
    {t : State W E C} (h : Call cfg s as t) :
    Restored w s t ↔ passes cfg ∈ as ∧ s.hookEnable w = lastSet w as ∨
      passes cfg ∉ as ∧ (s.fibers.fib .sched).mState = .term := by
  obtain ⟨ht, hsched, hresult⟩ := returned hroot hr h
  obtain ⟨⟨⟨⟨-, hu⟩, ⟨hout, -⟩, -⟩, -⟩, -, hout'⟩ := h
  have hs := whole_reach hroot hr
  have ht := whole_reach hroot ht
  have hout : s.fibers.base.stop cfg.owner ≠ .wait := by
    rw [hout]
    simp
  have hout' : t.fibers.base.stop cfg.owner ≠ .wait := by
    rw [hout']
    simp
  have hrun := (hs.caller.outside hs.inv (hs.caller.native (Or.inl hout))).1
  have hrun' := (ht.caller.outside ht.inv (ht.caller.native (Or.inl hout'))).1
  -- the pointers are back in every case
  have hiff : Restored w s t ↔ t.hookEnable w = s.hookEnable w ∧ (t.fibers.fib .sched).mState = .term := by
    refine ⟨fun hres => ⟨hres.hookEnable, hres.term⟩, fun ⟨hhook, hterm⟩ => ⟨?_, ?_, ?_, ?_, hhook, hterm⟩⟩
    · rw [hrun, hrun']
    · rw [hs.caller.face.scheduler, ht.caller.face.scheduler]
    · rw [hs.caller.face.main, ht.caller.face.main]
    · rw [hsched, scheduler_reach hroot hr hu]
  rw [hiff]
  rcases hresult with ⟨hin, hhook, hterm⟩ | ⟨hnot, hhook, hstate⟩
  · rw [hhook]
    constructor
    · rintro ⟨hset, -⟩
      exact Or.inl ⟨hin, hset.symm⟩
    · rintro (⟨-, hset⟩ | ⟨hnot, -⟩)
      · exact ⟨hset.symm, hterm⟩
      · exact absurd hin hnot
  · rw [hhook, hstate]
    constructor
    · rintro ⟨-, hterm⟩
      exact Or.inr ⟨hnot, hterm⟩
    · rintro (⟨hin, -⟩ | ⟨-, hterm⟩)
      · exact absurd hin hnot
      · exact ⟨rfl, hterm⟩

instance (s : State W E C) : ∀ a, Decidable (s.hooked a)
  | .sleep w => inferInstanceAs (Decidable (s.hookEnable w = true))
  | .base _ | .newFiber _ | .share _ | .getRunning _ | .release _ | .fire _ _ | .prologue _ | .enter _ | .top _
    | .dispatch _ | .make _ | .lock _ | .check _ | .set _ _ | .swap _ _ | .unlock _ | .reset _ | .idleInc _
    | .idleDec _ | .leave _ | .entry _ | .yield _ | .ret _ | .idle _ | .setTerm _ | .dropSelf _ | .last _ | .yswap _
    | .stopResume _ | .stopBack _ | .destroy _ => isTrue trivial

instance [DecidableEq C] (s : State W E C) : ∀ a, Decidable ((system C cfg).enabled s a)
  | .step a => inferInstanceAs (Decidable ((Fibers.system C cfg).enabled s.fibers a ∧ s.hooked a))
  | .setHookEnable w _ =>
    inferInstanceAs (Decidable (s.fibers.base.aborted = none ∧
      (s.fibers.inUser w = true ∨ cfg.root = some w ∧ s.fibers.base.stop cfg.owner = .out)))

instance (s : State W E C) (a : Act W E C) : Decidable (Inside cfg s a) := inferInstanceAs (Decidable (_ ≠ _))

/-- The caller thread behind the constructor, with its flag not set. -/
def fresh : State (Fin 1) (Fin 1) Nat := ⟨Fibers.initial Nat (Owner.solo .hooked), fun _ => true, fun _ => false⟩

/-- A callback is scheduled. -/
def queueRun (e : E) (c : C) : List (Fibers.Act W E C) :=
  [.base (.scheduleLock (.inr e) (.callback (some c)) (-1)), .base (.wakeUp (.inr e))]

/-- `stop()` up to the callback. -/
def toCallback (w : W) (e : E) : List (Fibers.Act W E C) :=
  [.base (.stopCheck e), .base (.stopSet e), .base (.stopAssert e), .base (.stopTickle e), .stopResume e, .entry w,
    .prologue w, .enter w, .top w, .base (.scan w), .base (.tickle w), .dispatch w, .make w, .set w .task,
    .swap w .task, .entry w]

/-- The end of `MainFunc`. -/
def endRun (w : W) : List (Fibers.Act W E C) := [.setTerm w, .dropSelf w, .last w, .yswap w]

/-- The rest of `stop()`, from the end of the callback. -/
def fromCallback (w : W) (e : E) : List (Fibers.Act W E C) :=
  .ret w :: endRun w ++ [.unlock w, .base (.decr w), .reset w, .top w, .base (.scan w), .base (.tickle w),
    .dispatch w, .idleInc w, .set w .idle, .swap w .idle, .entry w, .idle w, .idle w] ++ endRun w ++
  [.idleDec w, .top w, .base (.scan w), .base (.tickle w), .dispatch w, .leave w] ++ endRun w ++
  [.stopBack e, .base (.stopSwap e), .base (.stopEnd e)]

/-- A call of `stop()`, behind its first step, in which the callback does these steps. -/
def callbackRun (w : W) (e : E) (user : List (Act W E C)) : List (Act W E C) :=
  (toCallback w e).map .step ++ user ++ (fromCallback w e).map .step

/-- An evaluated call. -/
theorem exists_call (user : List (Act (Fin 1) (Fin 1) Nat)) (q : State (Fin 1) (Fin 1) Nat → Bool)
    (h : (System.exec (system Nat (Owner.solo .hooked)) Always fresh ((queueRun 0 7).map .step)).any (fun s =>
      decide ((system Nat (Owner.solo .hooked)).enabled s (.step (.base (.stopCall 0)))) && (!s.hookEnable 0 &&
        (System.exec (system Nat (Owner.solo .hooked)) (Inside (Owner.solo .hooked))
          (next (Owner.solo .hooked) s (.step (.base (.stopCall 0)))) (callbackRun 0 0 user)).any fun t =>
            decide (t.fibers.base.stop 0 = .out) && q t)) = true) :
    ∃ s t, (system Nat (Owner.solo .hooked)).Reach Always s ∧ Call (Owner.solo .hooked) s (callbackRun 0 0 user) t ∧
      s.hookEnable 0 = false ∧ q t = true := by
  obtain ⟨s, hsteps, hs⟩ := System.exists_exec h
  rw [Bool.and_eq_true, Bool.and_eq_true, Bool.not_eq_true'] at hs
  obtain ⟨hcall, hflag, hs⟩ := hs
  obtain ⟨t, hrun, ht⟩ := System.exists_exec hs
  rw [Bool.and_eq_true] at ht
  refine ⟨s, t, ⟨_, _, ⟨rfl, by decide, by decide⟩, hsteps⟩, ?_, hflag, ht.2⟩
  exact ⟨of_decide_eq_true hcall, hrun, of_decide_eq_true ht.1⟩

/-- The callback resets the flag that `run()` has set. -/
theorem stop_restores_reset : ∃ s t : State (Fin 1) (Fin 1) Nat, s.hookEnable 0 = false ∧
    Call (Owner.solo .hooked) s (callbackRun 0 0 [.setHookEnable 0 false]) t ∧ Restored 0 s t := by
  obtain ⟨s, t, hr, hcall, hflag, -⟩ := exists_call [.setHookEnable 0 false] (fun _ => true)
    (by decide +kernel)
  refine ⟨s, t, hflag, hcall, (stop_restores rfl hr hcall).2 (Or.inl ⟨?_, hflag⟩)⟩
  exact List.mem_append_left _ (List.mem_append_left _ (List.mem_map_of_mem (by simp [toCallback, Owner.solo])))

/-- **`t_hook_enable` is left set.** -/
theorem flag_left_set : ∃ s t : State (Fin 1) (Fin 1) Nat,
    (system Nat (Owner.solo .hooked)).Reach Always s ∧ Call (Owner.solo .hooked) s (callbackRun 0 0 []) t ∧
      s.hookEnable 0 = false ∧ t.hookEnable 0 = true ∧ ¬ Restored 0 s t := by
  obtain ⟨s, t, hr, hcall, hflag, hset⟩ := exists_call [] (fun t => t.hookEnable 0) (by decide +kernel)
  refine ⟨s, t, hr, hcall, hflag, hset, fun hres => ?_⟩
  have hkept := hres.hookEnable
  rw [hset, hflag] at hkept
  cases hkept

end Sylar.Restore
