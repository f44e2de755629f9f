import Sylar.Scheduler.Counters

/-!
# Shutdown

`stop()` over the base class's `idle()`, whose `sleep(1)` is a plain delay. Runs are `Orderly`: once `m_stopping` is
set, tasks are scheduled by running tasks only.

- `stopping_next`: `stopping()` stays true, since nobody is left that could schedule, fetch or finish a task;
- `over_next`: before `stopping()` is true no idle fiber leaves its loop and no worker leaves `run()`;
- `gone_next`: before it no `stop()` comes to its end, if each swaps out the threads of the pool itself (`TakesPool`);
- `drained`: the run lemma, and `drained_early`: a second `stop()`, called while the first one joins, finds `m_pool`
  empty, joins nothing and returns while tasks are queued;
- `stop_next`, `stop_of_stopper`: a thread moves in `stop()` by its own steps;
- `wait_owner`: only the thread that ran the constructor waits for the caller thread's `run()`.
-/

namespace Sylar.Sched

open Trans

variable {W E F C : Type} [DecidableEq W] [DecidableEq E] {cfg : Config W E}

/-- Outside threads schedule nothing once `m_stopping` is set, and call `stop()` on a scheduler that has a worker. -/
def Orderly (cfg : Config W E) (s : State W E F C) : Act W E F C → Prop
  | .scheduleLock (.inr _) _ _ => s.mStopping = false
  | .stopCall _ => s.started = true ∨ cfg.root.isSome = true
  | _ => True

instance (cfg : Config W E) (s : State W E F C) (a : Act W E F C) : Decidable (Orderly cfg s a) := by
  refine decidable_of_iff ((match a with
    | .scheduleLock (.inr _) _ _ => !s.mStopping
    | .stopCall _ => s.started || cfg.root.isSome
    | _ => true) = true) ?_
  cases a with
  | scheduleLock t task thread => cases t <;> simp [Orderly]
  | _ => simp [Orderly]

/-- A `stop()` call without a caller thread does not find `m_pool` swapped out by another `stop()` call. -/
def TakesPool (cfg : Config W E) (s : State W E F C) : Act W E F C → Prop
  | .stopSwap _ => cfg.root.isSome = true ∨ s.mPool ≠ []
  | _ => True

instance (cfg : Config W E) (s : State W E F C) (a : Act W E F C) : Decidable (TakesPool cfg s a) := by
  refine decidable_of_iff ((match a with
    | .stopSwap _ => cfg.root.isSome || !s.mPool.isEmpty
    | _ => true) = true) ?_
  cases a <;> simp [TakesPool]

omit [DecidableEq W] [DecidableEq E] in
theorem stopping_iff {s : State W E F C} :
    s.stopping = true ↔ s.mStopping = true ∧ s.mTasks = [] ∧ s.mActiveThreadCnt = 0 := by
  simp [State.stopping, and_assoc]

/-! ## `stopping()` stays true -/

/-- With the queue empty and no active task only a new task changes that. -/
theorem stopping_keep {s : State W E F C} {a : Act W E F C}
    (ha : ∀ t fc thr, a = .scheduleLock t fc thr → (ScheduleTask.make fc thr).nonEmpty = false)
    (hs : s.stopping = true) : (next cfg s a).stopping = true := by
  obtain ⟨hstop, hq, hact⟩ := stopping_iff.1 hs
  cases a with
  | scheduleLock t fc thr =>
    have hne : ¬ (ScheduleTask.make fc thr).nonEmpty = true := by simp [ha t fc thr rfl]
    simp only [next, State.push, if_neg hne]
    exact hs
  | scan w =>
    have he : (scan (cfg.tid w) s.mTasks).task = none := by rw [hq]; rfl
    simp only [next, he]
    exact hs
  | start e => simp only [next, hstop, if_true]; exact hs
  | decr w => exact stopping_iff.2 ⟨hstop, hq, by simp [next, hact]⟩
  | stopSet e => exact stopping_iff.2 ⟨rfl, hq, hact⟩
  | _ =>
    simp only [next]
    repeat' split
    all_goals exact hs

/-- Once it is true nobody is left that could schedule a task. -/
theorem no_schedule [Fintype W] {P : State W E F C → Act W E F C → Prop} {s : State W E F C} {a : Act W E F C}
    (hr : (system F C cfg).Reach P s) (hg : guard cfg s a) (ho : Orderly cfg s a) (hs : s.stopping = true) (t : W ⊕ E)
    (fc : FiberOrCallback F C) (thr : Int) : a ≠ .scheduleLock t fc thr := by
  rintro rfl
  obtain ⟨hstop, -, hact⟩ := stopping_iff.1 hs
  cases t with
  | inl w =>
    -- a task is running
    have hpos := active_pos hr (w := w) hg.1
    omega
  | inr e =>
    have hno : s.mStopping = false := ho
    rw [hno] at hstop
    cases hstop

theorem stopping_next [Fintype W] {P : State W E F C → Act W E F C → Prop} {s : State W E F C} {a : Act W E F C}
    (hr : (system F C cfg).Reach P s) (hg : guard cfg s a) (ho : Orderly cfg s a) (hs : s.stopping = true) :
    (next cfg s a).stopping = true := by
  apply stopping_keep _ hs
  intro t fc thr ha
  exact absurd ha (no_schedule hr hg ho hs t fc thr)

/-! ## Who has seen it -/

/-- The idle fiber has left its loop, or the worker has left `run()`. -/
def Worker.over (x : Worker F C) : Bool :=
  x.pc == .done || x.idlePos == .out || x.idlePos == .term

/-- The thread has run `stop()` to its end or has nothing left to wait for. -/
def gone (cfg : Config W E) (s : State W E F C) (e : E) : Bool :=
  s.stopped e || s.stop e == .join [] || (s.stop e == .swap && cfg.root.isSome)

omit [DecidableEq E] in
/-- A worker's move that does not leave a loop. -/
theorem over_setWorker {s : State W E F C} (hs : ∀ v, (s.worker v).over = false) {w : W} {x : Worker F C}
    (hx : x.over = false) : ∀ v, ((s.setWorker w x).worker v).over = false :=
  update_all (p := fun y : Worker F C => y.over = false) hs w hx

/-- Before `stopping()` is true no worker leaves `idle()` or `run()`. -/
theorem over_next (hidle : cfg.idle = .plain) {s : State W E F C} {a : Act W E F C} (hg : guard cfg s a)
    (hn : s.stopping = false) (hs : ∀ w, (s.worker w).over = false) : ∀ w, ((next cfg s a).worker w).over = false := by
  cases a with
  | scheduleLock t fc thr => simp only [next, State.push]; split <;> exact hs
  | start e =>
    simp only [next]
    split_ifs
    · exact hs
    · exact hs
    · intro w
      have hw := hs w
      dsimp only
      split_ifs with hu
      · simpa [Worker.over, hu.2] using hw
      · exact hw
  | enter w => exact over_setWorker hs rfl
  | top w | tickle w | finish w | decr w | reset w | idleInc w | idleDec w =>
    have hw := hs w
    refine over_setWorker hs ?_
    simp only [Worker.over, Bool.or_eq_false_iff] at hw ⊢
    exact ⟨⟨rfl, hw.1.2⟩, hw.2⟩
  | scan w =>
    have hw := hs w
    have hx : ∀ r : Scanned F C,
        ({ s.worker w with pc := .tickle, task := r.task, tickleMe := r.tickleMe } : Worker F C).over = false := by
      intro r
      simp only [Worker.over, Bool.or_eq_false_iff] at hw ⊢
      exact ⟨⟨rfl, hw.1.2⟩, hw.2⟩
    simp only [next]
    split
    · exact over_setWorker hs (hx _)
    · split_ifs
      · exact over_setWorker hs (hx _)
      · exact hs
  | dispatch w =>
    have hw := hs w
    simp only [Worker.over, Bool.or_eq_false_iff, beq_eq_false_iff_ne] at hw
    simp only [next]
    split
    · exact over_setWorker hs (by simp [Worker.over, hw])
    · rw [if_neg hw.2]
      exact over_setWorker hs (by simp [Worker.over, hw])
  | idleTest w => exact over_setWorker hs (by simp [Worker.over, hn, hg.2.1])
  | idleSleep w => simp only [next]; split_ifs <;> exact over_setWorker hs (by simp [Worker.over, hg.2.1])
  | idleYield w => exact over_setWorker hs rfl
  | idleOut w | idleEnd w =>
    have hw := hs w
    simp [Worker.over, hg.2.2] at hw
  | idleMoved w pos =>
    have hhooked : cfg.idle = .hooked := hg
    rw [hidle] at hhooked
    cases hhooked
  | idleTake w k ends =>
    have htoken : cfg.idle = .token := hg.1
    rw [hidle] at htoken
    cases htoken
  | stopCheck e => simp only [next]; split_ifs <;> exact hs
  | stopAssert e => simp only [next]; split_ifs <;> exact hs
  | stopResume e =>
    simp only [next]
    split
    · exact hs
    · rename_i w _
      have hw := hs w
      split_ifs
      · refine over_setWorker hs ?_
        simp only [Worker.over, Bool.or_eq_false_iff] at hw ⊢
        exact ⟨⟨rfl, hw.1.2⟩, hw.2⟩
      · exact hs
  | stopJoin e => simp only [next]; split <;> exact hs
  | wakeUp t | stopCall e | stopSet e | stopTickle e | stopBack e | stopSwap e | stopEnd e => exact hs

/-- Only a thread's own step in `stop()` changes its position there. -/
theorem gone_stopTo {s : State W E F C} (hs : ∀ e, gone cfg s e = false) {e : E} {pc : StopPc W}
    (hpc : pc ≠ .join [] ∧ (pc = .swap → cfg.root.isSome = false)) : ∀ e', gone cfg (s.stopTo e pc) e' = false := by
  intro e'
  have he' := hs e'
  simp only [gone, State.stopTo, Bool.or_eq_false_iff] at he' ⊢
  rcases eq_or_ne e' e with rfl | hne
  · rw [Function.update_self]
    refine ⟨⟨he'.1.1, by simpa using hpc.1⟩, ?_⟩
    by_cases hsw : pc = .swap
    · simp [hpc.2 hsw]
    · simp [hsw]
  · rw [Function.update_of_ne hne]
    exact he'

/-- Before `stopping()` is true no `stop()` call ends. -/
theorem gone_next {s : State W E F C} {a : Act W E F C} (hg : guard cfg s a) (ht : TakesPool cfg s a)
    (hn : s.stopping = false) (hw : ∀ w, (s.worker w).over = false) (hs : ∀ e, gone cfg s e = false) :
    ∀ e, gone cfg (next cfg s a) e = false := by
  have hrun : ∀ w, (s.worker w).pc ≠ .done := by
    intro w hpc
    have hwo := hw w
    simp [Worker.over, hpc] at hwo
  cases a with
  | scheduleLock t fc thr => simp only [next, State.push]; split <;> exact hs
  | start e => simp only [next]; split_ifs <;> exact hs
  | scan w =>
    simp only [next]
    split
    · exact hs
    · split_ifs <;> exact hs
  | dispatch w =>
    simp only [next]
    split
    · exact hs
    · split_ifs <;> exact hs
  | idleSleep w => simp only [next]; split_ifs <;> exact hs
  | stopCall e => exact gone_stopTo hs (by simp)
  | stopCheck e =>
    simp only [next, hn, Bool.false_eq_true, if_false]
    exact gone_stopTo hs (by simp)
  | stopSet e => exact gone_stopTo (s := { s with mStopping := true }) hs (by simp)
  | stopAssert e =>
    simp only [next]
    split_ifs
    · exact gone_stopTo hs (by simp)
    · exact hs
  | stopTickle e =>
    exact gone_stopTo (s := { s with tokens := s.tokens + cfg.pool.length + (if cfg.root.isSome then 1 else 0) }) hs
      (by simp)
  | stopResume e =>
    simp only [next]
    split
    · rename_i hroot
      exact gone_stopTo hs (by simp [hroot])
    · rename_i w _
      split_ifs
      · exact gone_stopTo (s := s.goto w .start) hs (by simp)
      · exact hs
  | stopBack e =>
    obtain ⟨w, -, hpc⟩ := hg.2
    exact absurd hpc (hrun w)
  | stopSwap e =>
    have hpool : s.mPool ≠ [] := by
      rcases ht with hroot | hne
      · have he := hs e
        simp [gone, hroot, show s.stop e = .swap from hg] at he
      · exact hne
    exact gone_stopTo (s := { s with mPool := [] }) hs (by simp [hpool])
  | stopJoin e =>
    -- the thread at the head of the list has left `run()`
    have hj : mayJoin s e = true := hg
    unfold mayJoin at hj
    split at hj
    · rename_i w _ _
      exact absurd (by simpa using hj) (hrun w)
    · cases hj
  | stopEnd e =>
    have he := hs e
    simp [gone, show s.stop e = .join [] from hg] at he
  | wakeUp t | enter w | top w | tickle w | finish w | decr w | reset w | idleInc w | idleTest w | idleYield w
    | idleOut w | idleEnd w | idleMoved w pos | idleTake w k ends | idleDec w => exact hs

/-! ## Who is in `stop()` -/

/-- The thread that a step moves in `stop()`. -/
def stopper : Act W E F C → Option E
  | .stopCall e | .stopCheck e | .stopSet e | .stopAssert e | .stopTickle e | .stopResume e | .stopBack e | .stopSwap e
    | .stopJoin e | .stopEnd e => some e
  | _ => none

/-- A thread stays where it is in `stop()` while others move. -/
theorem stop_next (s : State W E F C) {a : Act W E F C} {e : E} (ha : stopper a ≠ some e) :
    (next cfg s a).stop e = s.stop e := by
  have hto : ∀ e' pc, stopper a = some e' → Function.update s.stop e' pc e = s.stop e := by
    rintro e' pc ha'
    apply Function.update_of_ne
    rintro rfl
    exact ha ha'
  cases a with
  | stopCall e' | stopSet e' | stopTickle e' | stopBack e' | stopSwap e' | stopEnd e' => exact hto e' _ rfl
  | stopCheck e' =>
    simp only [next]
    split_ifs <;> exact hto e' _ rfl
  | stopAssert e' =>
    simp only [next]
    split_ifs
    · exact hto e' _ rfl
    · rfl
  | stopJoin e' =>
    simp only [next]
    split
    · exact hto e' _ rfl
    · rfl
  | stopResume e' =>
    simp only [next]
    split
    · exact hto e' _ rfl
    · split_ifs
      · exact hto e' _ rfl
      · rfl
  | _ =>
    simp only [next, State.push]
    repeat' split
    all_goals rfl

omit [DecidableEq W] [DecidableEq E] in
/-- Where a thread is that makes a step of `stop()`. -/
theorem stop_of_stopper {s : State W E F C} {a : Act W E F C} (hg : guard cfg s a) {e : E}
    (ha : stopper a = some e) :
    a = .stopCall e ∧ s.stop e = .out ∨ a = .stopBack e ∧ s.stop e = .wait ∨
      s.stop e ≠ .out ∧ s.stop e ≠ .wait := by
  cases a with
  | stopCall e' =>
    obtain rfl : e' = e := Option.some_inj.1 ha
    exact Or.inl ⟨rfl, hg.1⟩
  | stopBack e' =>
    obtain rfl : e' = e := Option.some_inj.1 ha
    exact Or.inr (Or.inl ⟨rfl, hg.1⟩)
  | stopCheck e' | stopSet e' | stopAssert e' | stopTickle e' | stopResume e' | stopSwap e' | stopEnd e' =>
    obtain rfl : e' = e := Option.some_inj.1 ha
    right
    right
    simp only [guard] at hg
    rw [hg]
    simp
  | stopJoin e' =>
    obtain rfl : e' = e := Option.some_inj.1 ha
    right
    right
    simp only [guard, mayJoin] at hg
    split at hg
    · rename_i hjoin
      rw [hjoin]
      simp
    · cases hg
  | _ => cases ha

/-- Only the end of `run()` ends the wait in `resume()`. -/
theorem wait_next {s : State W E F C} {a : Act W E F C} (hg : guard cfg s a) (ha : ∀ e, a ≠ .stopBack e) {e : E}
    (he : s.stop e = .wait) : (next cfg s a).stop e = .wait := by
  by_cases hstop : stopper a = some e
  · rcases stop_of_stopper hg hstop with ⟨-, hout⟩ | ⟨hback, -⟩ | ⟨-, hne⟩
    · cases he.symm.trans hout
    · exact absurd hback (ha e)
    · exact absurd he hne
  · rw [stop_next s hstop]
    exact he

/-! ## Who waits in `resume()` -/

/-- A thread that has passed the assertion on the running scheduler; only with a caller thread does it wait. -/
def StopOwner (cfg : Config W E) (e : E) : StopPc W → Prop
  | .tickle | .resume => cfg.root.isSome = true ↔ e = cfg.owner
  | .wait => cfg.root.isSome = true ∧ e = cfg.owner
  | _ => True

theorem stopOwner_next {s : State W E F C} {a : Act W E F C} (hg : guard cfg s a)
    (hs : ∀ e, StopOwner cfg e (s.stop e)) : ∀ e, StopOwner cfg e ((next cfg s a).stop e) := by
  have hto : ∀ e pc, StopOwner cfg e pc → ∀ e', StopOwner cfg e' (Function.update s.stop e pc e') := by
    intro e pc hpc e'
    rcases eq_or_ne e' e with rfl | hne
    · rw [Function.update_self]
      exact hpc
    · rw [Function.update_of_ne hne]
      exact hs e'
  cases a with
  | stopAssert e =>
    simp only [next]
    split_ifs with howner
    · exact hto e .tickle howner
    · exact hs
  | stopTickle e =>
    have howner := hs e
    rw [show s.stop e = .tickle from hg] at howner
    exact hto e .resume howner
  | stopResume e =>
    have howner := hs e
    rw [show s.stop e = .resume from hg] at howner
    simp only [next]
    split
    · exact hto e .swap trivial
    · rename_i w hroot
      have hsome : cfg.root.isSome = true := by rw [hroot]; rfl
      split_ifs
      · exact hto e .wait ⟨hsome, howner.1 hsome⟩
      · exact hs
  | stopCall e | stopSet e | stopBack e | stopSwap e | stopEnd e => exact hto e _ trivial
  | stopCheck e =>
    simp only [next]
    split_ifs
    · exact hto e .out trivial
    · exact hto e .set trivial
  | stopJoin e =>
    simp only [next]
    split
    · exact hto e _ trivial
    · exact hs
  | scheduleLock t fc thr =>
    simp only [next, State.push]
    split <;> exact hs
  | start e =>
    simp only [next]
    split_ifs <;> exact hs
  | scan w =>
    simp only [next]
    split
    · exact hs
    · split_ifs <;> exact hs
  | dispatch w =>
    simp only [next]
    split
    · exact hs
    · split_ifs <;> exact hs
  | idleSleep w =>
    simp only [next]
    split_ifs <;> exact hs
  | _ => exact hs

theorem stopOwner_reach {P : State W E F C → Act W E F C → Prop} {s : State W E F C} (h : (system F C cfg).Reach P s) :
    ∀ e, StopOwner cfg e (s.stop e) := by
  apply h.inv (I := fun s => ∀ e, StopOwner cfg e (s.stop e))
  · rintro s rfl e
    trivial
  · intro s a hs hen _
    exact stopOwner_next hen.2 hs

/-- **At most one `stop()` call is inside `resume()`**: that of the thread that ran the constructor. -/
theorem wait_owner {P : State W E F C → Act W E F C → Prop} {s : State W E F C} (h : (system F C cfg).Reach P s) {e : E}
    (he : s.stop e = .wait) : cfg.root.isSome = true ∧ e = cfg.owner := by
  have howner := stopOwner_reach h e
  rw [he] at howner
  exact howner

/-! ## Runs -/

variable [Fintype W]

/-- In an orderly run a worker leaves `idle()` and `run()` only after `stopping()` has been true. -/
theorem over_reach (hidle : cfg.idle = .plain) {s : State W E F C} (h : (system F C cfg).Reach (Orderly cfg) s) :
    s.stopping = true ∨ ∀ w, (s.worker w).over = false := by
  induction h using System.Reach.induct with
  | start s hs =>
    have hs : s = initial W E F C := hs
    subst hs
    exact Or.inr (fun _ => rfl)
  | step s a hr hg ho ih =>
    by_cases hn : s.stopping = true
    · exact Or.inl (stopping_next hr hg.2 ho hn)
    · exact Or.inr (over_next hidle hg.2 (by simpa using hn) (ih.resolve_left hn))

/-- With the pool in the hands of the `stop()` calls, none of them ends before. -/
theorem gone_reach (hidle : cfg.idle = .plain) {s : State W E F C}
    (h : (system F C cfg).Reach (fun s a => Orderly cfg s a ∧ TakesPool cfg s a) s) :
    s.stopping = true ∨ ∀ e, gone cfg s e = false := by
  induction h using System.Reach.induct with
  | start s hs =>
    have hs : s = initial W E F C := hs
    subst hs
    exact Or.inr (fun _ => rfl)
  | step s a hr hg ho ih =>
    by_cases hn : s.stopping = true
    · exact Or.inl (stopping_next hr hg.2 ho.1 hn)
    · have hw := (over_reach hidle (hr.mono fun _ _ h => h.1)).resolve_left hn
      exact Or.inr (gone_next hg.2 ho.2 (by simpa using hn) hw (ih.resolve_left hn))

/-- **Shutdown drains the queue.** In an orderly run `stopping()` stays true once it is true, and a worker leaves
`run()` only after that. If moreover no `stop()` finds the pool swapped out by another one, then after the end of any
`stop()` the queue is empty, no task is active and the assertion of the destructor holds. -/
theorem drained (cfg : Config W E) (hidle : cfg.idle = .plain) {s : State W E F C}
    (h : (system F C cfg).Reach (Orderly cfg) s) :
    (s.stopping = true → ∀ as t, (system F C cfg).Steps (Orderly cfg) s as t → t.stopping = true) ∧
      (∀ w, (s.worker w).pc = .done → s.stopping = true) ∧
      ((system F C cfg).Reach (fun s a => Orderly cfg s a ∧ TakesPool cfg s a) s → ∀ e, s.stopped e = true →
        s.stopping = true ∧ s.mTasks = [] ∧ s.mActiveThreadCnt = 0) := by
  refine ⟨?_, ?_, ?_⟩
  · intro hs as t hst
    exact h.stable (p := fun s => s.stopping = true) (fun s a hr hs hg ho => stopping_next hr hg.2 ho hs) hs hst
  · intro w hpc
    rcases over_reach hidle h with hs | hw
    · exact hs
    · have hwo := hw w
      simp [Worker.over, hpc] at hwo
  · intro ht e he
    rcases gone_reach hidle ht with hs | hgone
    · exact ⟨hs, (stopping_iff.1 hs).2⟩
    · have hge := hgone e
      simp [gone, he] at hge

/-- `start()`, a task, and a `stop()` by thread `a` up to the joins. -/
def stopRun (e a : Fin 3) : List (Act (Fin 2) (Fin 3) Nat Nat) :=
  [.start e, .scheduleLock (.inr a) (.callback (some 3)) (-1), .wakeUp (.inr a), .stopCall a, .stopCheck a, .stopSet a,
    .stopAssert a, .stopTickle a, .stopResume a, .stopSwap a]

/-- Worker `w` finds the queue empty, leaves `idle()` and, after one more scan, `run()`. -/
def leaveRun (w : Fin 2) : List (Act (Fin 2) (Fin 3) Nat Nat) :=
  [.top w, .scan w, .tickle w, .dispatch w, .idleInc w, .idleTest w, .idleOut w, .idleEnd w, .idleDec w, .top w,
    .scan w, .tickle w, .dispatch w]

/-- Worker `w` handles the task, both workers leave, and the call of thread `a` ends. -/
def drainRun (w v : Fin 2) (e a : Fin 3) : List (Act (Fin 2) (Fin 3) Nat Nat) :=
  stopRun e a ++ [.enter w, .top w, .scan w, .tickle w, .dispatch w, .finish w, .decr w, .reset w] ++ leaveRun w ++
    .enter v :: leaveRun v ++ [.stopJoin a, .stopJoin a, .stopEnd a]

theorem drained_duo : ∃ s : State (Fin 2) (Fin 3) Nat Nat,
    (s.stopped 1, (s.worker 0).pc, s.finished.length) = (true, .done, 1) ∧
      s.stopping = true ∧ s.mTasks = [] ∧ s.mActiveThreadCnt = 0 := by
  have h : (System.exec (system Nat Nat (duo .plain))
      (fun s a => Orderly (duo .plain) s a ∧ TakesPool (duo .plain) s a) (initial _ _ _ _)
      (drainRun 0 1 0 1)).isSome = true := by
    decide
  have hr := System.reach_exec (M := system Nat Nat (duo .plain)) rfl h
  exact ⟨_, rfl, (drained (duo .plain) rfl (hr.mono fun _ _ h => h.1)).2.2 hr 1 rfl⟩

/-- Thread `2` calls `stop()` while thread `1` is about to join: its call ends with a task in the queue, where the
assertion of the destructor fails. -/
theorem drained_early : ∃ s : State (Fin 2) (Fin 3) Nat Nat,
    (system Nat Nat (duo .plain)).Reach (Orderly (duo .plain)) s ∧ s.stopped 2 = true ∧ s.mTasks.length = 1 ∧
      s.stopping = false := by
  have h : (System.exec (system Nat Nat (duo .plain)) (Orderly (duo .plain)) (initial _ _ _ _) (stopRun 0 1 ++
      [.stopCall 2, .stopCheck 2, .stopSet 2, .stopAssert 2, .stopTickle 2, .stopResume 2, .stopSwap 2,
        .stopEnd 2])).isSome = true := by
    decide
  exact ⟨_, System.reach_exec rfl h, rfl, rfl, rfl⟩

end Sylar.Sched
