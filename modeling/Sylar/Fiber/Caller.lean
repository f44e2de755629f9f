import Sylar.Fiber.Life
import Sylar.Fiber.Lifetime
import Sylar.Fiber.Movers
import Sylar.Scheduler.Shutdown

/-!
# The caller thread outside `stop()`

With `use_caller` the thread that ran the constructor executes `m_schedulerFiber` inside its `stop()`. Outside it is
where its main fiber is: `_running_fiber` is the main fiber, `_scheduler_fiber` is `m_schedulerFiber`, and the only
reference to that is the member of the scheduler. This holds in every run, idle fibers out of control included
(`Sylar.Fiber.Isolation`).

- `Face`, `Calls`, `Held`: the thread's pointers, the call it is in, the references to `m_schedulerFiber`;
- `same_next`: what a step leaves alone that does not belong to the end or the beginning of `m_schedulerFiber`;
- `caller_reach`: the three together; `Caller.outside`: what they say outside `stop()`.
-/

set_option linter.unusedSectionVars false

namespace Sylar

open Trans

namespace Fibers.Isolated

open Ownership

variable {W E C : Type} [DecidableEq W] [DecidableEq E] {cfg : Sylar.Config W E} {s : State W E C}

/-! ## What a step leaves alone -/

/-- `m_schedulerFiber`, its references, the positions in `stop()` and `m_pool` are left alone. -/
structure Same (s s' : State W E C) : Prop where
  refs : s'.refs .sched = s.refs .sched
  state : (s'.fib .sched).mState = (s.fib .sched).mState
  self : (s'.fib .sched).self = (s.fib .sched).self
  calls : (s'.base.stop, s'.base.mPool) = (s.base.stop, s.base.mPool)

theorem Same.trans {s' s'' : State W E C} (h : Same s s') (h' : Same s' s'') : Same s s'' :=
  ⟨h'.refs.trans h.refs, h'.state.trans h.state, h'.self.trans h.self, h'.calls.trans h.calls⟩

theorem same_hold {f : FiberId W} (hf : f ≠ .sched) : Same s (s.hold f) :=
  ⟨Function.update_of_ne hf.symm _ _, rfl, rfl, rfl⟩

theorem same_dropAny {o : Option (FiberId W)} (ho : ∀ f ∈ o, f ≠ .sched) : Same s (s.dropAny o) := by
  cases o with
  | none => exact ⟨rfl, rfl, rfl, rfl⟩
  | some f => exact ⟨Function.update_of_ne (ho f rfl).symm _ _, rfl, rfl, rfl⟩

theorem same_setFiber {f : FiberId W} {x : Fiber W C} (hstate : f = .sched → x.mState = (s.fib f).mState)
    (hself : f = .sched → x.self = (s.fib f).self) : Same s (s.setFiber f x) := by
  by_cases hf : f = .sched
  · subst hf
    refine ⟨rfl, ?_, ?_, rfl⟩
    · simpa using hstate rfl
    · simpa using hself rfl
  · refine ⟨rfl, ?_, ?_, rfl⟩ <;> simp [Ne.symm hf]

theorem same_goto {f : FiberId W} {x : Fiber W C} (w : W) (pc : Pc W)
    (hstate : f = .sched → x.mState = (s.fib f).mState) (hself : f = .sched → x.self = (s.fib f).self) :
    Same s ((s.setFiber f x).goto w pc) := by
  have hset := same_setFiber hstate hself
  exact ⟨hset.refs, hset.state, hset.self, hset.calls⟩

theorem same_addTimer {w : W} (hrun : ∀ f ∈ (s.thread w).runningFiber, f ≠ .sched) : Same s (s.addTimer w) := by
  unfold State.addTimer
  split
  · exact ⟨rfl, rfl, rfl, rfl⟩
  · rename_i x hx
    exact ⟨(same_hold (hrun x hx)).refs, rfl, rfl, rfl⟩

theorem same_callYield {w : W} {x : FiberId W} {ended : Bool} (hx : x = .sched → (s.fib x).mState = .term) :
    Same s (s.callYield w x ended) := by
  unfold State.callYield
  split
  · exact ⟨rfl, rfl, rfl, rfl⟩
  · refine same_goto w _ ?_ fun _ => rfl
    intro hsched
    rw [if_pos (hx hsched), hx hsched]

theorem same_yieldRunning {w : W} (hrun : ∀ f ∈ (s.thread w).runningFiber, f ≠ .sched) :
    Same s (s.yieldRunning w) := by
  unfold State.yieldRunning
  split
  · exact ⟨rfl, rfl, rfl, rfl⟩
  · rename_i x hx
    exact same_callYield fun hsched => absurd hsched (hrun x hx)

theorem same_endCb (w : W) : Same s (s.endCb w) := by
  unfold State.endCb
  split
  · exact ⟨rfl, rfl, rfl, rfl⟩
  · split
    · exact ⟨rfl, rfl, rfl, rfl⟩
    · exact same_goto w _ (fun _ => rfl) fun _ => rfl

theorem same_switchTo (w : W) (f g : FiberId W) (pc : Pc W) : Same s (s.switchTo w f g pc) := ⟨rfl, rfl, rfl, rfl⟩

theorem same_swapIn (w : W) (g : FiberId W) (pc : Pc W) : Same s (s.swapIn w g pc) := by
  unfold State.swapIn
  split
  · exact ⟨rfl, rfl, rfl, rfl⟩
  · rename_i r _
    exact (same_switchTo w r g pc).trans (same_setFiber (fun _ => rfl) fun _ => rfl)

/-- A step of `stop()` or of the destructor, or one of `MainFunc` on the stack of `m_schedulerFiber`. -/
def Touches (s : State W E C) : Act W E C → Prop
  | .base _ | .stopResume _ | .stopBack _ | .destroy _ => True
  | .entry w | .setTerm w | .dropSelf w => On s w .sched
  | _ => False

theorem made_ne {n : Nat} {f : FiberId W} (h : Made n f) : f ≠ .sched := by
  obtain ⟨m, rfl, -⟩ := h
  simp

theorem passable_ne {n : Nat} {f : FiberId W} (h : Passable n f) : f ≠ .sched := by
  rcases h with h | ⟨u, rfl⟩
  · exact made_ne h
  · simp

/-- User code does not run on the stack of `m_schedulerFiber`. -/
theorem user_ne (h : Inv cfg s) {w : W} (hu : s.inUser w = true) : ∀ f ∈ (s.thread w).runningFiber, f ≠ .sched := by
  intro f hf
  exact made_ne (running_made h hu hf)

/-- The code of `MainFunc` on a thread's stack names its own fiber. -/
theorem main_facts (h : Inv cfg s) {w : W} {pc : Pc W} (hpc : (s.thread w).pc = pc) (hmain : pc.InMainFunc) :
    ∃ f, On s w f ∧ (s.thread w).runningFiber = some f ∧ (∀ g ∈ (s.fib f).self, g = f) ∧
      (pc = .last → ∀ g ∈ (s.fib f).rawPtr, g = f) := by
  obtain ⟨f, hst, hrun, hself, hraw, -⟩ := (inMain_of_pc h hpc hmain).facts h
  exact ⟨f, hst, hrun, hself, hraw⟩

/-- A thread on the stack of `m_schedulerFiber`, in `MainFunc`. -/
theorem sched_live (h : Inv cfg s) {w : W} (hon : On s w .sched) {pc : Pc W} (hpc : (s.thread w).pc = pc)
    (hmain : pc.InMainFunc) : cfg.root = some w ∧ Live .sched (s.fib .sched) pc := by
  obtain ⟨f, hst, -, hat, hunder⟩ := inMain_of_pc h hpc hmain
  obtain rfl : FiberId.sched = f := Stack.fiber.inj (hon.symm.trans hst)
  exact ⟨hunder.1, (has_iff.1 hat).2.1⟩

theorem ne_sched {w : W} {f : FiberId W} (hon : ¬ On s w .sched) (hst : (s.thread w).stack = .fiber f) :
    f ≠ .sched := by
  rintro rfl
  exact hon hst

/-- `resume()` marks the coroutine of a task or the idle coroutine, never `m_schedulerFiber`. -/
theorem same_set (h : Inv cfg s) (w : W) (k : Branch) : Same s (next cfg s (.set w k)) := by
  simp only [next]
  split
  · exact ⟨rfl, rfl, rfl, rfl⟩
  · rename_i g htarget
    have hne : g ≠ .sched := by
      cases k with
      | task => exact passable_ne (target_passable h.typed htarget)
      | idle =>
        rw [(h.local w).1 g htarget]
        simp
    split
    · exact same_goto w _ (fun hsched => absurd hsched hne) fun _ => rfl
    · exact ⟨rfl, rfl, rfl, rfl⟩

/-- The steps of `idle()`. -/
theorem same_idle (h : Inv cfg s) {w : W} (hpc : (s.thread w).pc = .body) : Same s (next cfg s (.idle w)) := by
  obtain ⟨f, hst, hrun, -⟩ := main_facts h hpc (by simp [Pc.InMainFunc])
  simp only [next]
  split
  · exact ⟨rfl, rfl, rfl, rfl⟩
  · rename_i v hv
    have hf : f = .idle v := eq_idle_of_idler hst hv
    have hne : ∀ g ∈ (s.thread w).runningFiber, g ≠ .sched := by
      rw [hrun, hf]
      simp
    split
    · exact ⟨rfl, rfl, rfl, rfl⟩
    · split
      · refine (same_addTimer hne).trans (same_yieldRunning ?_)
        rw [thread_addTimer]
        exact hne
      · exact ⟨rfl, rfl, rfl, rfl⟩
    · exact same_yieldRunning hne
    · exact same_endCb w
    · exact ⟨rfl, rfl, rfl, rfl⟩

/-- **What every other step leaves alone.** -/
theorem same_next (h : Inv cfg s) {a : Act W E C} (hg : guard cfg s a) (ha : ¬ Touches s a) :
    Same s (next cfg s a) := by
  cases a with
  | base a => exact absurd trivial ha
  | stopResume e | stopBack e | destroy e => exact absurd trivial ha
  | newFiber c => exact ⟨by simp [next], by simp [next], by simp [next], rfl⟩
  | share f =>
    have hhold := same_hold (s := s) (made_ne (h.typed.users f hg))
    exact ⟨hhold.refs, rfl, rfl, rfl⟩
  | getRunning w =>
    simp only [next]
    split
    · exact ⟨rfl, rfl, rfl, rfl⟩
    · rename_i f hf
      have hhold := same_hold (s := s) (user_ne h hg f hf)
      exact ⟨hhold.refs, rfl, rfl, rfl⟩
  | release f =>
    have hdrop : Same s (s.dropAny (some f)) :=
      same_dropAny fun g hgf => Option.some_inj.1 hgf ▸ made_ne (h.typed.users f hg)
    exact ⟨hdrop.refs, rfl, rfl, rfl⟩
  | fire e i =>
    simp only [next, Sched.next, Sched.State.push]
    split
    · exact ⟨rfl, rfl, rfl, rfl⟩
    · split <;> exact ⟨rfl, rfl, rfl, rfl⟩
  | prologue w =>
    simp only [next]
    split
    · exact ⟨by simp, by simp, by simp, rfl⟩
    · exact ⟨rfl, rfl, rfl, rfl⟩
  | enter w => exact ⟨by simp [next], by simp [next], by simp [next], rfl⟩
  | top w | idleInc w | idleDec w => exact ⟨rfl, rfl, rfl, rfl⟩
  | dispatch w =>
    simp only [next, Sched.next]
    split
    · rename_i e he
      simp only [he]
      exact ⟨rfl, rfl, rfl, rfl⟩
    · split <;> exact ⟨rfl, rfl, rfl, rfl⟩
  | make w => exact ⟨by simp [next], by simp [next], by simp [next], rfl⟩
  | lock w | check w | unlock w =>
    simp only [next]
    split <;> exact ⟨rfl, rfl, rfl, rfl⟩
  | set w k => exact same_set h w k
  | swap w k =>
    simp only [next]
    split
    · exact ⟨rfl, rfl, rfl, rfl⟩
    · exact same_swapIn w _ _
  | reset w =>
    have hdrop : Same s (s.dropAny (s.target w .task)) :=
      same_dropAny fun f hf => passable_ne (target_passable h.typed hf)
    exact ⟨hdrop.refs, hdrop.state, hdrop.self, rfl⟩
  | leave w =>
    have hdrop : Same s (s.dropAny (s.thread w).idleFiber) := by
      apply same_dropAny
      intro f hf
      rw [(h.local w).1 f hf]
      simp
    have hlocals : Same s ((s.dropAny (s.thread w).idleFiber).setThread w { s.thread w with idleFiber := none }) :=
      ⟨hdrop.refs, hdrop.state, hdrop.self, hdrop.calls⟩
    simp only [next]
    split
    · exact ⟨hlocals.refs, hlocals.state, hlocals.self, hlocals.calls⟩
    · exact hlocals.trans (same_endCb w)
  | entry w =>
    obtain ⟨f, hst, hrun, -⟩ := main_facts h hg.1 (by simp [Pc.InMainFunc])
    have hne := ne_sched ha hst
    simp only [next, show (s.thread w).stack = _ from hst, hrun]
    exact (same_hold hne).trans (same_goto w .body (fun hsched => absurd hsched hne) fun hsched => absurd hsched hne)
  | sleep w => exact same_addTimer (user_ne h hg)
  | yield w => exact same_yieldRunning (user_ne h hg)
  | ret w => exact same_endCb w
  | idle w => exact same_idle h hg.1.1
  | setTerm w =>
    obtain ⟨f, hst, -, hself, -⟩ := main_facts h hg.1 (by simp [Pc.InMainFunc])
    have hne := ne_sched ha hst
    simp only [next, show (s.thread w).stack = _ from hst]
    split
    · exact ⟨rfl, rfl, rfl, rfl⟩
    · rename_i x hx
      have hset := same_goto (s := s) (f := x) (x := { s.fib x with mState := .term }) w .dropSelf
        (fun hsched => absurd ((hself x hx).symm.trans hsched) hne) fun _ => rfl
      split
      · exact hset
      · exact ⟨hset.refs, hset.state, hset.self, rfl⟩
  | dropSelf w =>
    obtain ⟨f, hst, -, hself, -⟩ := main_facts h hg.1 (by simp [Pc.InMainFunc])
    have hne := ne_sched ha hst
    simp only [next, show (s.thread w).stack = _ from hst]
    have hdrop : Same s (s.dropAny (s.fib f).self) :=
      same_dropAny fun g hgf => by rw [hself g hgf]; exact hne
    exact hdrop.trans (same_goto w .last (fun hsched => absurd hsched hne) fun hsched => absurd hsched hne)
  | last w =>
    obtain ⟨f, hst, -, -, hraw⟩ := main_facts h hg.1 (by simp [Pc.InMainFunc])
    simp only [next, show (s.thread w).stack = _ from hst]
    split
    · exact ⟨rfl, rfl, rfl, rfl⟩
    · rename_i x hx
      obtain rfl := hraw rfl x hx
      apply same_callYield
      rintro rfl
      exact (sched_live h hst hg.1 (by simp [Pc.InMainFunc])).2.1
  | yswap w =>
    simp only [next]
    split
    · split
      · exact ⟨rfl, rfl, rfl, rfl⟩
      · split
        · exact same_switchTo w _ _ _
        · split <;> exact ⟨rfl, rfl, rfl, rfl⟩
    · exact ⟨rfl, rfl, rfl, rfl⟩

/-! ## The thread's pointers -/

/-- The caller thread's pointers: it runs the fiber whose stack it executes. -/
structure Face (w : W) (t : Thread W) : Prop where
  main : t.mainFiber = some (.main w)
  scheduler : t.schedulerFiber = some .sched
  running : ∃ f, t.runningFiber = some f ∧ t.stack = home f

theorem Face.of_eq {w : W} {t t' : Thread W} (h : Face w t) (ht : face t' = face t) : Face w t' := by
  simp only [face, Prod.mk.injEq] at ht
  obtain ⟨hst, hrun, hmain, hsch⟩ := ht
  obtain ⟨f, hf, hhome⟩ := h.running
  exact ⟨hmain.trans h.main, hsch.trans h.scheduler, f, hrun.trans hf, hst.trans hhome⟩

/-- A switch to `g`. -/
theorem Face.switch {w : W} {t : Thread W} (h : Face w t) (g : FiberId W) (pc : Pc W) :
    Face w { t with stack := home g, pc := pc, runningFiber := some g } := ⟨h.main, h.scheduler, g, rfl, rfl⟩

theorem face_step (h : Inv cfg s) {a : Act W E C} (hg : guard cfg s a) {w : W} (hroot : cfg.root = some w)
    (hf : Face w (s.thread w)) : Face w ((next cfg s a).thread w) := by
  have hswitch : ∀ {th : W → Thread W} {v : W} {g : FiberId W} {pc : Pc W}, th = Function.update s.thread v
      { s.thread v with stack := home g, pc := pc, runningFiber := some g } → Face w (th w) := by
    rintro th v g pc rfl
    by_cases hv : w = v
    · subst hv
      rw [Function.update_self]
      exact hf.switch g pc
    · rw [Function.update_of_ne hv]
      exact hf
  by_cases ha : a.switches
  · cases a with
    | swap v k =>
      rcases swap_eq h hg with ⟨-, hthread⟩ | ⟨g, c, x, -, -, -, hthread⟩
      · rw [hthread]
        exact hf
      · exact hswitch hthread
    | yswap v =>
      simp only [guard] at hg
      split at hg
      · rename_i x ended hpc
        obtain ⟨-, ⟨-, hthread⟩ | ⟨r, c, pc, -, -, hthread⟩⟩ := yswap_eq h hpc
        · rw [hthread]
          exact hf
        · exact hswitch hthread
      · exact hg.elim
    | stopResume e =>
      simp only [next, hroot]
      split
      · rw [show s.setFiber .sched { s.fib .sched with mState := .running } = runSched s from rfl,
          swap_stop h (hg.2 w hroot)]
        exact hswitch rfl
      · exact hf
    | _ => exact ha.elim
  · by_cases hp : ∀ v, a ≠ .prologue v
    · exact hf.of_eq (face_next ha hp w)
    · cases a with
      | prologue v =>
        by_cases hv : w = v
        · subst hv
          have hborn : (s.thread w).pc ≠ .unborn := by
            intro hpc
            have hl := h.stands w
            simp only [Stands, hpc] at hl
            exact hl.1 hroot
          refine hf.of_eq ?_
          simp only [next, if_neg hborn]
          simp [face]
        · have hthread : (next cfg s (.prologue v)).thread w = s.thread w := by
            refine thread_next cfg s ?_
            simp [actor, mover, Ne.symm hv]
          rw [hthread]
          exact hf
      | _ => exact absurd (fun v => by simp) hp

/-! ## The call that the thread is in -/

/-- The caller thread is in `run()` only while `stop()` waits in `resume()`, and not behind the destructor. -/
structure Calls (cfg : Sylar.Config W E) (w : W) (s : State W E C) : Prop where
  owner : ∀ e, Sched.StopOwner cfg e (s.base.stop e)
  away : (s.thread w).pc = .native ∨ s.base.stop cfg.owner = .wait
  gone : s.destroyed = true → (s.thread w).pc = .native

/-- A thread outside `resume()` goes nowhere. -/
theorem native_next {a : Act W E C} (hg : guard cfg s a) {w : W} (hpc : (s.thread w).pc = .native)
    (ha : ∀ e, a ≠ .stopResume e) : (next cfg s a).thread w = s.thread w := by
  have hstay : ∀ v p, actor cfg a = some v → (s.thread v).pc = p → p ≠ .native →
      (next cfg s a).thread w = s.thread w := by
    rintro v p hv hp hne
    apply thread_next
    intro hw
    obtain rfl : v = w := Option.some_inj.1 (hv.symm.trans hw)
    exact hne (hp.symm.trans hpc)
  have huser : ∀ v, actor cfg a = some v → s.inUser v = true → (next cfg s a).thread w = s.thread w := by
    intro v hv hu
    unfold State.inUser at hu
    simp only [Bool.and_eq_true, beq_iff_eq] at hu
    exact hstay v .body hv hu.1.1 (by simp)
  cases a with
  | stopResume e => exact absurd rfl (ha e)
  | base a =>
    simp only [next]
    split <;> rfl
  | newFiber c | share f | release f | fire e i | destroy e => exact thread_next cfg s (by simp [actor, mover])
  | stopBack e =>
    apply thread_next
    intro hw
    cases (hg.2 w hw).symm.trans hpc
  | getRunning v | sleep v | yield v | ret v => exact huser v rfl hg
  | enter v | top v | dispatch v | reset v | idleInc v | leave v => exact hstay v _ rfl hg.1.1 (by simp)
  | make v | check v | set v k | swap v k | idleDec v | entry v | setTerm v | dropSelf v | last v =>
    exact hstay v _ rfl hg.1 (by simp)
  | lock v | idle v => exact hstay v _ rfl hg.1.1 (by simp)
  | unlock v =>
    rcases hg with hg | hg
    · exact hstay v _ rfl hg.1 (by simp)
    · exact hstay v _ rfl hg.1 (by simp)
  | prologue v =>
    rcases hg.2 with hborn | ⟨hbody, -⟩
    · exact hstay v _ rfl hborn (by simp)
    · exact hstay v _ rfl hbody.1 (by simp)
  | yswap v =>
    simp only [guard] at hg
    split at hg
    · rename_i x ended hp
      exact hstay v _ rfl hp (by simp)
    · exact hg.elim

/-- The positions in `stop()` and `m_pool` are changed by the scheduler's steps. -/
theorem stop_next (h : Inv cfg s) {a : Act W E C} (hg : guard cfg s a) (hb : ∀ a', a ≠ .base a')
    (ha : ∀ e, a ≠ .stopResume e ∧ a ≠ .stopBack e) :
    (next cfg s a).base.stop = s.base.stop ∧ (next cfg s a).base.mPool = s.base.mPool := by
  by_cases ht : Touches s a
  · cases a with
    | base a => exact absurd rfl (hb a)
    | stopResume e => exact absurd rfl (ha e).1
    | stopBack e => exact absurd rfl (ha e).2
    | destroy e =>
      simp only [next]
      cases mSchedulerFiber cfg s <;> exact ⟨rfl, rfl⟩
    | entry w =>
      simp only [next]
      split <;> exact ⟨rfl, rfl⟩
    | setTerm w =>
      simp only [next]
      split
      · exact ⟨rfl, rfl⟩
      · split
        · exact ⟨rfl, rfl⟩
        · split <;> exact ⟨rfl, rfl⟩
    | dropSelf w =>
      simp only [next]
      split
      · exact ⟨rfl, rfl⟩
      · rename_i f _
        cases (s.fib f).self <;> exact ⟨rfl, rfl⟩
    | _ => exact ht.elim
  · exact Prod.mk.inj (same_next h hg ht).calls

theorem calls_other (h : Inv cfg s) {a : Act W E C} (hg : guard cfg s a) (hb : ∀ a', a ≠ .base a')
    (ha : ∀ e, a ≠ .stopResume e ∧ a ≠ .stopBack e) (hd : ∀ e, a ≠ .destroy e) {w : W} (hc : Calls cfg w s) :
    Calls cfg w (next cfg s a) := by
  have hstop := (stop_next h hg hb ha).1
  have hnative : (s.thread w).pc = .native → ((next cfg s a).thread w).pc = .native := by
    intro hpc
    rw [native_next hg hpc fun e => (ha e).1]
    exact hpc
  refine ⟨?_, ?_, ?_⟩
  · rw [hstop]
    exact hc.owner
  · rw [hstop]
    exact hc.away.imp hnative id
  · rw [destroyed_next hd]
    exact fun hdest => hnative (hc.gone hdest)

theorem calls_next (h : Inv cfg s) {a : Act W E C} (hu : usable s a) (hg : guard cfg s a) {w : W}
    (hroot : cfg.root = some w) (hc : Calls cfg w s) : Calls cfg w (next cfg s a) := by
  have hsome : cfg.root.isSome = true := by
    rw [hroot]
    rfl
  cases a with
  | base a =>
    have hthread : (next cfg s (.base a)).thread = s.thread := by
      simp only [next]
      split <;> rfl
    have hbase : (next cfg s (.base a)).base = Sched.next cfg s.base a := by
      simp only [next]
      split <;> rfl
    have hgone : (next cfg s (.base a)).destroyed = s.destroyed := destroyed_next (by simp)
    refine ⟨?_, ?_, ?_⟩
    · rw [hbase]
      exact Sched.stopOwner_next hg.1 hc.owner
    · rw [hthread, hbase]
      refine hc.away.imp id fun hwait => Sched.wait_next hg.1 ?_ hwait
      rintro e rfl
      exact hg.2
    · rw [hthread, hgone]
      exact hc.gone
  | stopResume e =>
    have howner := hc.owner e
    rw [show s.base.stop e = .resume from hg.1] at howner
    have he : e = cfg.owner := howner.1 hsome
    have hd : s.destroyed = false := hu
    have hgone : (next cfg s (.stopResume e)).destroyed = s.destroyed := destroyed_next (by simp)
    have habs : (next cfg s (.stopResume e)).destroyed = true → False := by
      rw [hgone, hd]
      simp
    refine ⟨?_, ?_, fun hdest => (habs hdest).elim⟩
    · simp only [next, hroot]
      split
      · intro e'
        by_cases he' : e' = e
        · rw [he']
          simp only [Function.update_self]
          exact ⟨hsome, he⟩
        · simp only [Function.update_of_ne he']
          exact hc.owner e'
      · exact hc.owner
    · simp only [next, hroot]
      split
      · right
        rw [← he]
        simp
      · exact hc.away
  | stopBack e =>
    have hto : ∀ e', Sched.StopOwner cfg e' ((s.base.stopTo e .swap).stop e') := by
      intro e'
      by_cases he' : e' = e
      · rw [he']
        simp [Sched.StopOwner]
      · simp only [Sched.State.stopTo, Function.update_of_ne he']
        exact hc.owner e'
    have hpc : ((next cfg s (.stopBack e)).thread w).pc = .native := by
      simp [next, hroot]
    refine ⟨?_, Or.inl hpc, fun _ => hpc⟩
    simp only [next, hroot]
    exact hto
  | destroy e =>
    have hpc : ((next cfg s (.destroy e)).thread w).pc = .native := by
      rw [native_next hg (hg.2.2.2 w hroot) (by simp)]
      exact hg.2.2.2 w hroot
    refine ⟨?_, Or.inl hpc, fun _ => hpc⟩
    rw [(stop_next h hg (by simp) (by simp)).1]
    exact hc.owner
  | _ => exact calls_other h hg (by simp) (by simp) (by simp) hc

/-! ## The references to `m_schedulerFiber` -/

/-- `m_schedulerFiber` and the local of its `MainFunc` are all the references there are, and it does not yield on its
way. -/
structure Held (s : State W E C) : Prop where
  refs : s.refs .sched = (!s.destroyed).toNat + (s.fib .sched).self.toList.length
  fresh : (s.fib .sched).mState = .ready → (s.fib .sched).self = none

theorem Held.same (h : Held s) {s' : State W E C} (hs : Same s s') (hd : s'.destroyed = s.destroyed) : Held s' := by
  constructor
  · rw [hs.refs, hs.self, hd]
    exact h.refs
  · rw [hs.state, hs.self]
    exact h.fresh

theorem held_next (h : Inv cfg s) {a : Act W E C} (hu : usable s a) (hg : guard cfg s a)
    (hroot : cfg.root.isSome = true) (hh : Held s) : Held (next cfg s a) := by
  by_cases ht : Touches s a
  · cases a with
    | base a =>
      have hfib : (next cfg s (.base a)).fib = s.fib := by
        simp only [next]
        split <;> rfl
      have hrefs : (next cfg s (.base a)).refs .sched = s.refs .sched := by
        simp only [next]
        split
        · rename_i t f thr
          exact (same_hold (made_ne (pass_made h thr hg.2 rfl))).refs
        · rfl
        · rfl
      constructor
      · rw [hrefs, hfib, destroyed_next (by simp)]
        exact hh.refs
      · rw [hfib]
        exact hh.fresh
    | stopResume e =>
      simp only [next]
      split
      · exact ⟨hh.refs, hh.fresh⟩
      · rename_i w hw
        split
        · have hset : Held (s.setFiber .sched { s.fib .sched with mState := .running }) := by
            constructor
            · simpa using hh.refs
            · simp
          have hswap := hset.same (same_swapIn w .sched .stopBack) (by simp)
          exact ⟨hswap.refs, hswap.fresh⟩
        · exact ⟨hh.refs, hh.fresh⟩
    | stopBack e =>
      simp only [next]
      split <;> exact ⟨hh.refs, hh.fresh⟩
    | destroy e =>
      have hd : s.destroyed = false := hu
      have hrefs := hh.refs
      constructor
      · simp only [next, mSchedulerFiber, hroot, hd, State.dropAny, State.drop, Function.update_self, true_and, if_true]
        rw [hrefs, hd]
        simp
      · simpa [next] using hh.fresh
    | entry w =>
      obtain ⟨-, hstate, hself⟩ := sched_live h ht hg.1 (by simp [Pc.InMainFunc])
      obtain ⟨f, hst, hrun, -⟩ := main_facts h hg.1 (by simp [Pc.InMainFunc])
      obtain rfl : FiberId.sched = f := Stack.fiber.inj (ht.symm.trans hst)
      have hrefs := hh.refs
      rw [hself] at hrefs
      simp only [next, show (s.thread w).stack = _ from hst, hrun]
      constructor
      · simp [hrefs]
      · simp [hstate]
    | setTerm w =>
      obtain ⟨-, hstate, hself⟩ := sched_live h ht hg.1 (by simp [Pc.InMainFunc])
      have hidler : s.idler w = none := by
        unfold State.idler
        rw [show (s.thread w).stack = _ from ht]
      simp only [next, show (s.thread w).stack = _ from ht, hself, hidler]
      constructor
      · simpa [hself] using hh.refs
      · simp
    | dropSelf w =>
      obtain ⟨-, hstate, hself⟩ := sched_live h ht hg.1 (by simp [Pc.InMainFunc])
      have hrefs := hh.refs
      rw [hself] at hrefs
      simp only [next, show (s.thread w).stack = _ from ht, hself]
      constructor
      · simp [State.dropAny, hrefs]
      · simp
    | _ => exact ht.elim
  · refine hh.same (same_next h hg ht) (destroyed_next ?_)
    rintro e rfl
    exact ht trivial

/-! ## Every run -/

/-- **The caller thread.** -/
structure Caller (cfg : Sylar.Config W E) (w : W) (s : State W E C) : Prop where
  face : Face w (s.thread w)
  calls : Calls cfg w s
  held : Held s

theorem Caller.next {w : W} (hc : Caller cfg w s) (h : Inv cfg s) (hroot : cfg.root = some w) {a : Act W E C}
    (he : (system C cfg).enabled s a) : Caller cfg w (next cfg s a) := by
  have hsome : cfg.root.isSome = true := by
    rw [hroot]
    rfl
  exact ⟨face_step h he.2 hroot hc.face, calls_next h he.1.2 he.2 hroot hc.calls, held_next h he.1.2 he.2 hsome hc.held⟩

theorem caller_initial {w : W} (hroot : cfg.root = some w) : Caller cfg w (initial C cfg) := by
  have hsome : cfg.root.isSome = true := by
    rw [hroot]
    rfl
  have hth : (initial C cfg).thread w =
      ⟨.native w, .native, some (.main w), some (.main w), some .sched, none, none, 0⟩ := if_pos hroot
  refine ⟨?_, ?_, ?_⟩
  · rw [hth]
    exact ⟨rfl, rfl, .main w, rfl, rfl⟩
  · refine ⟨fun _ => trivial, Or.inl ?_, fun _ => ?_⟩ <;> rw [hth]
  · refine ⟨?_, fun _ => rfl⟩
    simp [initial, hsome, Fiber.make]

theorem caller_reach {w : W} (hroot : cfg.root = some w) (h : (system C cfg).Reach Always s) : Caller cfg w s := by
  induction h using System.Reach.induct with
  | start s hs =>
    have hs : s = initial C cfg := hs
    subst hs
    exact caller_initial hroot
  | step s a hr he _ ih => exact ih.next (inv_reach hr) hroot he

theorem Caller.native {w : W} (hc : Caller cfg w s) (hout : s.base.stop cfg.owner ≠ .wait ∨ s.destroyed = true) :
    (s.thread w).pc = .native := by
  rcases hout with hout | hdest
  · exact hc.calls.away.resolve_right hout
  · exact hc.calls.gone hdest

/-- **The caller thread outside `resume()`** runs its main fiber, and somebody refers to `m_schedulerFiber` exactly
before the destructor. -/
theorem Caller.outside (h : Inv cfg s) {w : W} (hc : Caller cfg w s) (hpc : (s.thread w).pc = .native) :
    (s.thread w).runningFiber = some (.main w) ∧ (0 < s.refs .sched ↔ s.destroyed = false) := by
  have hl := h.stands w
  simp only [Stands, hpc] at hl
  obtain ⟨-, hst, -, -, -, hsched⟩ := hl
  have hself : (s.fib .sched).self = none := by
    have hrest := (has_iff.1 hsched).2
    cases hstate : (s.fib .sched).mState with
    | ready => exact hc.held.fresh hstate
    | running => simp [Rest, hstate] at hrest
    | term =>
      simp only [Rest, hstate] at hrest
      exact hrest.2
  constructor
  · obtain ⟨f, hrun, hhome⟩ := hc.face.running
    rw [hst] at hhome
    cases f with
    | main u =>
      cases hhome
      exact hrun
    | sched | idle u | task n => cases hhome
  · rw [hc.held.refs, hself]
    cases s.destroyed <;> simp

end Fibers.Isolated

end Sylar
