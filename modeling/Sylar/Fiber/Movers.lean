import Sylar.Fiber.Machine

/-!
# Who makes a step

A step of the fibers is made by a worker's thread or by an outside thread. It moves no other thread, up to the caller
thread, which `stop()` resumes from outside.

- `mover`, `actor`: the thread that makes a step, and the worker's thread that it moves;
- `moves_next`: what a step leaves alone, and which steps lock and unlock a fiber's mutex;
- `thread_next`: a thread that a step does not move stays where it is.
-/

set_option linter.unusedSectionVars false

namespace Sylar.Fibers

variable {W E C : Type} [DecidableEq W] [DecidableEq E] {cfg : Sylar.Config W E} {s : State W E C}

/-! ## Movers -/

/-- Who makes a step of the scheduler. -/
def baseMover : Sched.Act W E (FiberId W) C → W ⊕ E
  | .scheduleLock t _ _ | .wakeUp t => t
  | .enter w | .top w | .scan w | .tickle w | .dispatch w | .finish w | .decr w | .reset w | .idleInc w | .idleTest w
    | .idleSleep w | .idleYield w | .idleOut w | .idleEnd w | .idleMoved w _ | .idleTake w _ _ | .idleDec w => .inl w
  | .start e | .stopCall e | .stopCheck e | .stopSet e | .stopAssert e | .stopTickle e | .stopResume e | .stopBack e
    | .stopSwap e | .stopJoin e | .stopEnd e => .inr e

/-- Who makes a step. What user code does with its references it does on any thread. -/
def mover : Act W E C → Option (W ⊕ E)
  | .base a => some (baseMover a)
  | .newFiber _ | .share _ | .release _ => none
  | .fire e _ | .stopResume e | .stopBack e | .destroy e => some (.inr e)
  | .getRunning w | .prologue w | .enter w | .top w | .dispatch w | .make w | .lock w | .check w | .set w _ | .swap w _
    | .unlock w | .reset w | .idleInc w | .idleDec w | .leave w | .entry w | .sleep w | .yield w | .ret w | .idle w
    | .setTerm w | .dropSelf w | .last w | .yswap w => some (.inl w)

/-! ## Frames -/

/-- At most the thread `o` has moved, and it has neither taken nor released a fiber's mutex. -/
structure Moves (o : Option W) (s s' : State W E C) : Prop where
  thread : ∀ w, o ≠ some w → s'.thread w = s.thread w
  locks : s'.mMutex = s.mMutex

theorem Moves.refl (o : Option W) (s : State W E C) : Moves o s s := ⟨fun _ _ => rfl, rfl⟩

theorem Moves.trans {o : Option W} {s s' s'' : State W E C} (h : Moves o s s') (h' : Moves o s' s'') : Moves o s s'' :=
  ⟨fun w hw => (h'.thread w hw).trans (h.thread w hw), h'.locks.trans h.locks⟩

theorem moves_set (s : State W E C) {s' : State W E C} (v : W) (t : Thread W)
    (h : s'.thread = Function.update s.thread v t) (hm : s'.mMutex = s.mMutex) : Moves (some v) s s' := by
  refine ⟨fun w hw => ?_, hm⟩
  rw [h]
  refine Function.update_of_ne ?_ ..
  rintro rfl
  exact hw rfl

theorem moves_dropAny (o : Option W) (s : State W E C) (f : Option (FiberId W)) : Moves o s (s.dropAny f) := by
  cases f <;> exact ⟨fun _ _ => rfl, rfl⟩

theorem moves_addTimer (s : State W E C) (v : W) : Moves (some v) s (s.addTimer v) := by
  unfold State.addTimer
  split <;> exact ⟨fun _ _ => rfl, rfl⟩

theorem moves_callYield (s : State W E C) (v : W) (x : FiberId W) (ended : Bool) :
    Moves (some v) s (s.callYield v x ended) := by
  unfold State.callYield
  by_cases hready : (s.fib x).mState = .ready
  · rw [if_pos hready]
    exact ⟨fun _ _ => rfl, rfl⟩
  · rw [if_neg hready]
    exact moves_set s v _ rfl rfl

theorem moves_yieldRunning (s : State W E C) (v : W) : Moves (some v) s (s.yieldRunning v) := by
  unfold State.yieldRunning
  split
  · exact ⟨fun _ _ => rfl, rfl⟩
  · exact moves_callYield ..

theorem moves_endCb (s : State W E C) (v : W) : Moves (some v) s (s.endCb v) := by
  unfold State.endCb
  split
  · exact ⟨fun _ _ => rfl, rfl⟩
  · split
    · exact ⟨fun _ _ => rfl, rfl⟩
    · exact moves_set s v _ rfl rfl

theorem moves_swapIn (s : State W E C) (v : W) (g : FiberId W) (pc : Pc W) : Moves (some v) s (s.swapIn v g pc) := by
  unfold State.swapIn
  split
  · exact ⟨fun _ _ => rfl, rfl⟩
  · exact moves_set s v _ rfl rfl

/-- The thread that a step moves: the one that makes it, and the caller thread where `stop()` resumes it. -/
def actor (cfg : Sylar.Config W E) (a : Act W E C) : Option W :=
  match a with
  | .stopResume _ | .stopBack _ => cfg.root
  | _ =>
    match mover a with
    | some (.inl w) => some w
    | _ => none

/-- **Only its own steps move a thread**, and only those of `run()` in front of `resume()` and behind it lock and
unlock. -/
theorem moves_next (cfg : Sylar.Config W E) (s : State W E C) {a : Act W E C}
    (ha : ∀ w, a ≠ .lock w ∧ a ≠ .make w ∧ a ≠ .unlock w) : Moves (actor cfg a) s (next cfg s a) := by
  cases a with
  | lock w => exact absurd rfl (ha w).1
  | make w => exact absurd rfl (ha w).2.1
  | unlock w => exact absurd rfl (ha w).2.2
  | base a =>
    simp only [next]
    split <;> exact ⟨fun _ _ => rfl, rfl⟩
  | newFiber c | share f | release f => exact ⟨fun _ _ => rfl, rfl⟩
  | fire e i =>
    simp only [next]
    split <;> exact ⟨fun _ _ => rfl, rfl⟩
  | destroy e =>
    have hdrop := moves_dropAny (actor cfg (.destroy e : Act W E C)) s (mSchedulerFiber cfg s)
    exact ⟨hdrop.thread, hdrop.locks⟩
  | stopResume e =>
    simp only [next]
    split
    · exact ⟨fun _ _ => rfl, rfl⟩
    · rename_i v hv
      rw [show actor cfg (.stopResume e : Act W E C) = some v from hv]
      split_ifs
      · have hswap := moves_swapIn (s.setFiber .sched { s.fib .sched with mState := .running }) v .sched .stopBack
        exact ⟨hswap.thread, hswap.locks⟩
      · exact ⟨fun _ _ => rfl, rfl⟩
  | stopBack e =>
    simp only [next]
    split
    · exact ⟨fun _ _ => rfl, rfl⟩
    · rename_i v hv
      rw [show actor cfg (.stopBack e : Act W E C) = some v from hv]
      exact moves_set s v _ rfl rfl
  | getRunning v =>
    simp only [next]
    split <;> exact ⟨fun _ _ => rfl, rfl⟩
  | idleInc v | idleDec v | top v | enter v => exact moves_set s v _ rfl rfl
  | prologue v =>
    simp only [next]
    split_ifs <;> exact moves_set s v _ rfl rfl
  | dispatch v =>
    simp only [next]
    split
    · exact moves_set s v _ rfl rfl
    · split <;> exact ⟨fun _ _ => rfl, rfl⟩
  | check v =>
    simp only [next]
    split
    · exact ⟨fun _ _ => rfl, rfl⟩
    · exact moves_set s v _ rfl rfl
  | set v k =>
    simp only [next]
    split
    · exact ⟨fun _ _ => rfl, rfl⟩
    · split_ifs
      · exact moves_set s v _ rfl rfl
      · exact ⟨fun _ _ => rfl, rfl⟩
  | swap v k =>
    simp only [next]
    split
    · exact ⟨fun _ _ => rfl, rfl⟩
    · exact moves_swapIn s v ..
  | reset v =>
    have hdrop := moves_dropAny (some v) s (s.target v .task)
    exact hdrop.trans (moves_set _ v _ rfl rfl)
  | leave v =>
    have hset : Moves (some v) (s.dropAny (s.thread v).idleFiber)
        ((s.dropAny (s.thread v).idleFiber).setThread v { s.thread v with idleFiber := none }) :=
      moves_set _ v _ rfl rfl
    have hlocals := (moves_dropAny (some v) s (s.thread v).idleFiber).trans hset
    simp only [next]
    split
    · exact hlocals.trans (moves_set _ v _ rfl rfl)
    · exact hlocals.trans (moves_endCb _ v)
  | entry v =>
    simp only [next]
    split
    · exact moves_set s v _ rfl rfl
    · exact ⟨fun _ _ => rfl, rfl⟩
  | sleep v => exact moves_addTimer s v
  | yield v => exact moves_yieldRunning s v
  | ret v => exact moves_endCb s v
  | idle v =>
    simp only [next]
    split
    · exact ⟨fun _ _ => rfl, rfl⟩
    · split
      · exact ⟨fun _ _ => rfl, rfl⟩
      · split_ifs
        · exact (moves_addTimer s v).trans (moves_yieldRunning _ v)
        · exact ⟨fun _ _ => rfl, rfl⟩
      · exact moves_yieldRunning s v
      · exact moves_endCb s v
      · exact ⟨fun _ _ => rfl, rfl⟩
  | setTerm v =>
    simp only [next]
    split
    · exact ⟨fun _ _ => rfl, rfl⟩
    · split
      · exact ⟨fun _ _ => rfl, rfl⟩
      · split <;> exact moves_set s v _ rfl rfl
  | dropSelf v =>
    simp only [next]
    split
    · exact ⟨fun _ _ => rfl, rfl⟩
    · rename_i f _
      exact (moves_dropAny (some v) s (s.fib f).self).trans (moves_set _ v _ rfl rfl)
  | last v =>
    simp only [next]
    split
    · exact ⟨fun _ _ => rfl, rfl⟩
    · split
      · exact ⟨fun _ _ => rfl, rfl⟩
      · exact moves_callYield s v ..
  | yswap v =>
    simp only [next]
    split
    · split
      · exact ⟨fun _ _ => rfl, rfl⟩
      · split
        · exact moves_set s v _ rfl rfl
        · split_ifs <;> exact moves_set s v _ rfl rfl
    · exact ⟨fun _ _ => rfl, rfl⟩

/-- A thread stays where it is while others move. -/
theorem thread_next (cfg : Sylar.Config W E) (s : State W E C) {a : Act W E C} {w : W} (h : actor cfg a ≠ some w) :
    (next cfg s a).thread w = s.thread w := by
  by_cases ha : ∀ v, a ≠ .lock v ∧ a ≠ .make v ∧ a ≠ .unlock v
  · exact (moves_next cfg s ha).thread w h
  · have hne : ∀ v, actor cfg a = some v → w ≠ v := by
      rintro v hv rfl
      exact h hv
    cases a with
    | lock v | unlock v =>
      simp only [next]
      split
      · rfl
      · exact Function.update_of_ne (hne v rfl) ..
    | make v => exact Function.update_of_ne (hne v rfl) ..
    | _ => exact absurd (fun v => by simp) ha

end Sylar.Fibers
