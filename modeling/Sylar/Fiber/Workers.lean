import Sylar.Fiber.Caller
import Sylar.Scheduler.Counters

/-!
# Where a worker is counted

`run()` increments and decrements the two counters on both sides of a context switch. What it finds behind the switch is
where it stood before it: a thread that executes a fiber on its own stack is inside the one `resume()` of its `run()`,
and the scheduler has it in `exec` or in `idle` by the branch of that `resume()`. This holds in every run, idle fibers
out of control included (`Sylar.Fiber.Isolation`), and so the counters are exact in every run.

- `Placed`: the two positions of a thread; `placed_next`: every step keeps them;
- `base_next`: every step is a step of the scheduler, or one that the counters do not see;
- `counters_exact`: what the counters count.
-/

set_option linter.unusedSectionVars false

namespace Sylar.Fibers.Isolated

open Trans Ownership

variable {W E C : Type} [DecidableEq W] [DecidableEq E] {cfg : Sylar.Config W E} {s : State W E C}

/-! ## Where a thread stands -/

/-- The scheduler's position of a worker that is inside the `resume()` of a branch. -/
def Branch.pc : Branch → Sched.Pc
  | .task => .exec
  | .idle => .idle

/-- The scheduler's position of a worker that is not in the loop of `run()`. -/
def Outer (x : Sched.Pc) : Prop := x = .unborn ∨ x = .start ∨ x = .done

/-- The scheduler's position of a worker in `run()`. -/
def AtPos (x : Sched.Pc) : RunPc → Prop
  | .main => x ≠ .exec ∧ x ≠ .idle ∧ x ≠ .idleDec
  | .set .idle | .swap .idle => x = .idle
  | .back .idle _ => x = .idleDec
  | _ => x = .exec

/-- The scheduler's position of a thread in `MainFunc`, whose own fiber was last suspended at `pc`. -/
def Within (x : Sched.Pc) (stack : Stack W) (pc : Pc W) : Prop :=
  match stack with
  | .native _ | .fiber .sched => Outer x
  | .fiber _ => ∀ k n, pc = .run (.back k n) → x = Branch.pc k

/-- The scheduler's position of a thread, whose own fiber was last suspended at `pc`. -/
def Fit (x : Sched.Pc) (t : Thread W) (pc : Pc W) : Prop :=
  match t.pc with
  | .run p => AtPos x p
  | .unborn | .native | .stopBack | .gone => Outer x
  | .exited => True
  | _ => Within x t.stack pc

/-- **The two positions of a thread** fit. -/
def Placed (cfg : Sylar.Config W E) (s : State W E C) (w : W) : Prop :=
  Fit (s.base.worker w).pc (s.thread w) (s.fib (runner cfg w)).last

theorem fit_run {x : Sched.Pc} {t : Thread W} {pc : Pc W} {p : RunPc} (hp : t.pc = .run p) :
    Fit x t pc ↔ AtPos x p := by
  simp only [Fit, hp]

theorem fit_main {x : Sched.Pc} {t : Thread W} {pc : Pc W} (hp : t.pc.InMainFunc) :
    Fit x t pc ↔ Within x t.stack pc := by
  rcases hp with hp | hp | hp | hp | hp | ⟨g, b, hp⟩ <;> simp only [Fit, hp]

/-- A thread that others leave alone, while `start()` may create it. -/
theorem Fit.born {x x' : Sched.Pc} {t : Thread W} {pc : Pc W} (h : Fit x t pc)
    (hx : x' = x ∨ x = .unborn ∧ x' = .start) : Fit x' t pc := by
  rcases hx with rfl | ⟨rfl, rfl⟩
  · exact h
  · have hout : Outer .start := Or.inr (Or.inl rfl)
    have hpos : ∀ p, AtPos .unborn p → AtPos .start p := by
      intro p hp
      cases p with
      | main => simp [AtPos]
      | set k | swap k | back k n => cases k <;> cases hp
      | make | lock | check | unlock => cases hp
    have hwithin : ∀ st : Stack W, Within .unborn st pc → Within .start st pc := by
      intro st hst
      unfold Within at hst ⊢
      split at hst
      · exact hout
      · exact hout
      · intro k n hk
        have hk := hst k n hk
        cases k <;> cases hk
    unfold Fit at h ⊢
    split at h
    · exact hpos _ h
    · exact hout
    · exact hout
    · exact hout
    · exact hout
    · trivial
    · exact hwithin _ h

/-! ## What a step leaves alone -/

theorem runner_inj {w v : W} (h : runner cfg w = runner cfg v) : w = v := by
  have hw := own_runner cfg (fun _ => none) w
  rw [h, own_runner] at hw
  exact (Option.some_inj.1 hw).symm

/-- A fiber is written, and not where it was suspended. -/
theorem last_setFiber {f : FiberId W} {x : Fiber W C} (hx : x.last = (s.fib f).last) (g : FiberId W) :
    ((s.setFiber f x).fib g).last = (s.fib g).last := by
  by_cases hg : g = f
  · subst hg
    simpa using hx
  · simp [hg]

theorem last_callYield (w : W) (x : FiberId W) (ended : Bool) (g : FiberId W) :
    ((s.callYield w x ended).fib g).last = (s.fib g).last := by
  unfold State.callYield
  split
  · rfl
  · exact last_setFiber (by rfl) g

theorem last_yieldRunning (w : W) (g : FiberId W) : ((s.yieldRunning w).fib g).last = (s.fib g).last := by
  unfold State.yieldRunning
  split
  · rfl
  · exact last_callYield ..

theorem last_endCb (w : W) (g : FiberId W) : ((s.endCb w).fib g).last = (s.fib g).last := by
  unfold State.endCb
  split
  · rfl
  · split
    · rfl
    · exact last_setFiber (by rfl) g

/-- Where the fiber of a `run()` was suspended is changed by a switch, or by its construction. -/
theorem last_kept {a : Act W E C} (ha : ¬ a.switches) (hp : ∀ v, a ≠ .prologue v) (w : W) :
    ((next cfg s a).fib (runner cfg w)).last = (s.fib (runner cfg w)).last := by
  cases a with
  | swap v k | yswap v | stopResume e => exact absurd trivial ha
  | prologue v => exact absurd rfl (hp v)
  | base a | fire e i | getRunning v | stopBack e | lock v | check v | unlock v =>
    simp only [next]
    split <;> rfl
  | share f | release f | top v | idleInc v | idleDec v => rfl
  | newFiber c | make v => simp [next, runner_ne_task]
  | enter v => simp [next, runner_ne_idle]
  | reset v | destroy e => simp [next]
  | dispatch v =>
    simp only [next]
    split
    · rfl
    · split <;> rfl
  | set v k =>
    simp only [next]
    split
    · rfl
    · split
      · exact last_setFiber (by rfl) _
      · rfl
  | leave v =>
    simp only [next]
    split
    · simp
    · refine (last_endCb ..).trans ?_
      simp
  | entry v =>
    simp only [next]
    split
    · refine last_setFiber ?_ _
      rfl
    · rfl
  | sleep v => simp only [next, fib_addTimer]
  | yield v => exact last_yieldRunning ..
  | ret v => exact last_endCb ..
  | idle v =>
    simp only [next]
    split
    · rfl
    · split
      · rfl
      · split
        · refine (last_yieldRunning ..).trans ?_
          rw [fib_addTimer]
        · rfl
      · exact last_yieldRunning ..
      · exact last_endCb ..
      · rfl
  | setTerm v =>
    simp only [next]
    split
    · rfl
    · split
      · rfl
      · split <;> exact last_setFiber (by rfl) _
  | dropSelf v =>
    simp only [next]
    split
    · rfl
    · refine (last_setFiber ?_ _).trans ?_ <;> simp
  | last v =>
    simp only [next]
    split
    · rfl
    · split
      · rfl
      · exact last_callYield ..

/-- **Only its own steps suspend the fiber that a `run()` executes in.** -/
theorem last_next (h : Inv cfg s) {a : Act W E C} (hg : guard cfg s a) {w : W} (hw : actor cfg a ≠ some w) :
    ((next cfg s a).fib (runner cfg w)).last = (s.fib (runner cfg w)).last := by
  by_cases ha : a.switches
  · cases a with
    | swap v k =>
      have hne : runner cfg w ≠ runner cfg v := fun hr => hw (congrArg some (runner_inj hr).symm)
      rcases swap_eq h hg with ⟨hfib, -⟩ | ⟨g, c, x, -, hgoal, hfib, -⟩
      · rw [hfib]
      · have hng : runner cfg w ≠ g := by
          rcases hgoal with ⟨n, rfl, -⟩ | ⟨u, rfl⟩
          · exact runner_ne_task cfg w n
          · exact runner_ne_idle cfg w u
        rw [hfib, Function.update_of_ne hng, Function.update_of_ne hne]
    | yswap v =>
      simp only [guard] at hg
      split at hg
      · rename_i x ended hpc
        obtain ⟨-, ⟨hfib, -⟩ | ⟨r, c, pc, -, hfib, -⟩⟩ := yswap_eq h hpc
        · rw [hfib]
        · have hne : runner cfg w ≠ x := by
            rintro rfl
            obtain ⟨-, -, -, -, hunder⟩ := yields h hpc
            cases hr : runner cfg w with
            | main u =>
              rw [hr] at hunder
              exact hunder
            | sched =>
              rw [hr] at hunder
              have hroot : cfg.root = some w := by
                by_contra hn
                simp [runner, hn] at hr
              exact hw (hunder.1.symm.trans hroot)
            | idle u => exact runner_ne_idle cfg w u hr
            | task n => exact runner_ne_task cfg w n hr
          rw [hfib, Function.update_of_ne hne]
      · exact hg.elim
    | stopResume e =>
      simp only [next]
      split
      · rfl
      · rename_i v hv
        have hne : cfg.root ≠ some w := hw
        have hrunner : runner cfg w = .main w := if_neg hne
        have hvw : w ≠ v := by
          rintro rfl
          exact hne hv
        split
        · rw [show s.setFiber .sched { s.fib .sched with mState := .running } = runSched s from rfl,
            swap_stop h (hg.2 v hv), hrunner]
          simp [hvw, runSched]
        · rfl
    | _ => exact ha.elim
  · by_cases hp : ∀ v, a ≠ .prologue v
    · exact last_kept ha hp w
    · cases a with
      | prologue v =>
        have hvw : w ≠ v := by
          rintro rfl
          exact hw rfl
        have hne : runner cfg w ≠ .main v := by
          unfold runner
          split
          · simp
          · simpa using hvw
        simp only [next]
        split
        · simp [hne]
        · rfl
      | _ => exact absurd (fun v => by simp) hp

/-- Only its own steps move a worker, and the creation of its thread. -/
theorem pc_base (b : Sched.State W E (FiberId W) C) {a : Sched.Act W E (FiberId W) C} {w : W}
    (h : baseMover a ≠ .inl w) : ((Sched.next cfg b a).worker w).pc = (b.worker w).pc ∨
      (b.worker w).pc = .unborn ∧ ((Sched.next cfg b a).worker w).pc = .start := by
  have hset : ∀ v (x : Sched.Worker (FiberId W) C), baseMover a = .inl v →
      (Function.update b.worker v x w).pc = (b.worker w).pc := by
    intro v x hv
    rw [Function.update_of_ne]
    rintro rfl
    exact h hv
  cases a with
  | scheduleLock t fc thr =>
    left
    simp only [Sched.next, Sched.State.push]
    split <;> rfl
  | start e =>
    simp only [Sched.next]
    split
    · exact Or.inl rfl
    · split
      · exact Or.inl rfl
      · dsimp only
        split
        · rename_i hw
          exact Or.inr ⟨hw.2, rfl⟩
        · exact Or.inl rfl
  | scan v =>
    left
    simp only [Sched.next]
    split
    · exact hset v _ rfl
    · split
      · exact hset v _ rfl
      · rfl
  | dispatch v =>
    left
    simp only [Sched.next]
    split
    · exact hset v _ rfl
    · split <;> exact hset v _ rfl
  | idleSleep v =>
    left
    simp only [Sched.next]
    split <;> exact hset v _ rfl
  | stopResume e =>
    simp only [Sched.next]
    split
    · exact Or.inl rfl
    · rename_i v _
      split
      · rename_i hv
        by_cases hvw : w = v
        · subst hvw
          exact Or.inr ⟨hv, by simp⟩
        · left
          simp [hvw]
      · exact Or.inl rfl
  | enter v | top v | tickle v | finish v | decr v | reset v | idleInc v | idleTest v | idleYield v | idleOut v
    | idleEnd v | idleMoved v pos | idleTake v k ends | idleDec v => exact Or.inl (hset v _ rfl)
  | stopCheck e | stopAssert e | stopJoin e =>
    left
    simp only [Sched.next]
    split <;> rfl
  | wakeUp t | stopCall e | stopSet e | stopTickle e | stopBack e | stopSwap e | stopEnd e => exact Or.inl rfl

/-! ## What a step is to the scheduler -/

/-- The scheduler stays, or an assertion has failed. -/
def Stays (b b' : Sched.State W E (FiberId W) C) : Prop := b' = b ∨ ∃ r, b' = b.abort r

theorem stays_callYield (w : W) (x : FiberId W) (ended : Bool) : Stays s.base (s.callYield w x ended).base := by
  unfold State.callYield
  split
  · exact Or.inr ⟨_, rfl⟩
  · exact Or.inl rfl

theorem stays_yieldRunning (w : W) : Stays s.base (s.yieldRunning w).base := by
  unfold State.yieldRunning
  split
  · exact Or.inr ⟨_, rfl⟩
  · exact stays_callYield ..

theorem stays_addTimer (w : W) : Stays s.base (s.addTimer w).base := by
  unfold State.addTimer
  split
  · exact Or.inr ⟨_, rfl⟩
  · exact Or.inl rfl

theorem stays_endCb (w : W) : Stays s.base (s.endCb w).base := by
  unfold State.endCb
  split
  · exact Or.inr ⟨_, rfl⟩
  · split
    · exact Or.inr ⟨_, rfl⟩
    · exact Or.inl rfl

theorem stays_swapIn (w : W) (g : FiberId W) (pc : Pc W) : Stays s.base (s.swapIn w g pc).base := by
  unfold State.swapIn
  split
  · exact Or.inr ⟨_, rfl⟩
  · exact Or.inl rfl

/-- A worker's move that leaves it uncounted, or counted as before. -/
def Unseen (x x' : Sched.Worker (FiberId W) C) : Prop :=
  x.task = x'.task ∧ (x'.pc = x.pc ∨ x.pc = .idle ∧ x'.pc = .idleDec ∨ Outer x.pc ∧ x'.pc = .start ∨
    x.pc = .dispatch ∧ x.task = none ∧ (x'.pc = .done ∨ x'.pc = .idleInc))

/-- **A step that the counters do not see**, in which at most the worker `o` moves. -/
structure Quiet (o : Option W) (b b' : Sched.State W E (FiberId W) C) : Prop where
  active : b'.mActiveThreadCnt = b.mActiveThreadCnt
  idle : b'.mIdleThreadCnt = b.mIdleThreadCnt
  workers : ∀ v, Unseen (b.worker v) (b'.worker v)
  others : ∀ v, o ≠ some v → (b'.worker v).pc = (b.worker v).pc

theorem Unseen.refl (x : Sched.Worker (FiberId W) C) : Unseen x x := ⟨rfl, Or.inl rfl⟩

theorem Stays.quiet {b b' : Sched.State W E (FiberId W) C} (h : Stays b b') (o : Option W) : Quiet o b b' := by
  rcases h with rfl | ⟨r, rfl⟩ <;> exact ⟨rfl, rfl, fun _ => Unseen.refl _, fun _ _ => rfl⟩

/-- A worker has moved. -/
theorem Quiet.set {b b' : Sched.State W E (FiberId W) C} {w : W} {x : Sched.Worker (FiberId W) C}
    (ha : b'.mActiveThreadCnt = b.mActiveThreadCnt) (hi : b'.mIdleThreadCnt = b.mIdleThreadCnt)
    (hw : b'.worker = Function.update b.worker w x) (hx : Unseen (b.worker w) x) : Quiet (some w) b b' := by
  refine ⟨ha, hi, fun v => ?_, fun v hv => ?_⟩
  · rw [hw]
    by_cases hv : v = w
    · subst hv
      rwa [Function.update_self]
    · rw [Function.update_of_ne hv]
      exact Unseen.refl _
  · rw [hw, Function.update_of_ne]
    rintro rfl
    exact hv rfl

/-- A move in `idle()` moves nobody in `run()`. -/
theorem pc_idleTo (b : Sched.State W E (FiberId W) C) (v u : W) (pos : Sched.IdlePos) :
    ((b.setWorker v { b.worker v with idlePos := pos }).worker u).pc = (b.worker u).pc := by
  by_cases hu : u = v
  · subst hu
    simp
  · simp [hu]

/-- A move in `idle()`, whoever executes it. -/
theorem quiet_idleTo (o : Option W) (b : Sched.State W E (FiberId W) C) (v : W) (pos : Sched.IdlePos) :
    Quiet o b (b.setWorker v { b.worker v with idlePos := pos }) :=
  ⟨rfl, rfl, fun u => ⟨(task_idleTo b v pos u).symm, Or.inl (pc_idleTo b v u pos)⟩, fun u _ => pc_idleTo b v u pos⟩

/-- A move in `idle()` and a move in `run()`. -/
theorem Quiet.after_idleTo {o : Option W} {b b' : Sched.State W E (FiberId W) C} {v : W} {pos : Sched.IdlePos}
    (h : Quiet o (b.setWorker v { b.worker v with idlePos := pos }) b') : Quiet o b b' := by
  refine ⟨h.active, h.idle, fun u => ?_, fun u hu => (h.others u hu).trans (pc_idleTo b v u pos)⟩
  obtain ⟨ht, hmove⟩ := h.workers u
  rw [pc_idleTo, task_idleTo] at hmove
  exact ⟨(task_idleTo b v pos u).symm.trans ht, hmove⟩

/-- A quiet step that sends nobody to the beginning of `run()`. -/
structure Calm (o : Option W) (b b' : Sched.State W E (FiberId W) C) : Prop where
  quiet : Quiet o b b'
  start : ∀ v, (b'.worker v).pc = .start → (b.worker v).pc = .start

theorem Stays.calm {b b' : Sched.State W E (FiberId W) C} (h : Stays b b') (o : Option W) : Calm o b b' := by
  refine ⟨h.quiet o, fun v => ?_⟩
  rcases h with rfl | ⟨r, rfl⟩ <;> exact id

theorem Calm.set {b b' : Sched.State W E (FiberId W) C} {w : W} {x : Sched.Worker (FiberId W) C}
    (ha : b'.mActiveThreadCnt = b.mActiveThreadCnt) (hi : b'.mIdleThreadCnt = b.mIdleThreadCnt)
    (hw : b'.worker = Function.update b.worker w x) (hx : Unseen (b.worker w) x) (hpc : x.pc ≠ .start) :
    Calm (some w) b b' := by
  refine ⟨Quiet.set ha hi hw hx, fun v => ?_⟩
  rw [hw]
  by_cases hv : v = w
  · subst hv
    rw [Function.update_self]
    exact fun h => absurd h hpc
  · rw [Function.update_of_ne hv]
    exact id

theorem calm_idleTo (o : Option W) (b : Sched.State W E (FiberId W) C) (v : W) (pos : Sched.IdlePos) :
    Calm o b (b.setWorker v { b.worker v with idlePos := pos }) := by
  refine ⟨quiet_idleTo o b v pos, fun u => ?_⟩
  rw [pc_idleTo]
  exact id

theorem Calm.after_idleTo {o : Option W} {b b' : Sched.State W E (FiberId W) C} {v : W} {pos : Sched.IdlePos}
    (h : Calm o (b.setWorker v { b.worker v with idlePos := pos }) b') : Calm o b b' :=
  ⟨h.quiet.after_idleTo, fun u hu => (pc_idleTo b v u pos).symm.trans (h.start u hu)⟩

theorem sched_base {a : Sched.Act W E (FiberId W) C} : (next cfg s (.base a)).base = Sched.next cfg s.base a := by
  simp only [next]
  split <;> rfl

/-- The step from `dispatch` with nothing to run: into the idle coroutine, or out of `run()`. -/
theorem calm_dispatch {w : W} (hpc : (s.base.worker w).pc = .dispatch) (htask : (s.base.worker w).task = none) :
    Calm (some w) s.base (next cfg s (.dispatch w)).base := by
  cases hidle : (s.thread w).idleFiber with
  | none =>
    refine Stays.calm (Or.inr ⟨.nullFiber, ?_⟩) _
    simp only [next, htask, hidle, State.abort]
  | some i =>
    simp only [next, htask, hidle]
    have hto : (if (s.fib i).mState = .term then Sched.Pc.done else .idleInc) = .done ∨
        (if (s.fib i).mState = .term then Sched.Pc.done else .idleInc) = .idleInc := by
      split
      · exact Or.inl rfl
      · exact Or.inr rfl
    refine Calm.set rfl rfl rfl ⟨rfl, Or.inr (Or.inr (Or.inr ⟨hpc, htask, hto⟩))⟩ ?_
    rcases hto with hto | hto <;> simp [hto]

/-- The steps of `idle()`. -/
theorem calm_idle (w : W) : Calm (some w) s.base (next cfg s (.idle w)).base := by
  simp only [next]
  split
  · exact Stays.calm (Or.inl rfl) _
  · split
    · exact calm_idleTo ..
    · split
      · refine Stays.calm ?_ _
        rcases stays_addTimer (s := s) w with hb | ⟨r, hb⟩
        · have hy := stays_yieldRunning (s := s.addTimer w) w
          rwa [hb] at hy
        · right
          rcases stays_yieldRunning (s := s.addTimer w) w with hy | ⟨r', hy⟩
          · exact ⟨r, hy.trans hb⟩
          · refine ⟨r', hy.trans ?_⟩
            rw [hb]
            rfl
      · exact calm_idleTo ..
    · exact Stays.calm (stays_yieldRunning w) _
    · exact Stays.calm (stays_endCb w) _
    · exact Stays.calm (Or.inl rfl) _

/-- The switch out of a coroutine, whichever one the thread runs in `run()`. -/
theorem calm_yswap (w : W) : Calm (some w) s.base (next cfg s (.yswap w)).base := by
  simp only [next]
  split
  · split
    · exact Stays.calm (Or.inr ⟨_, rfl⟩) _
    · split
      · exact Stays.calm (Or.inl rfl) _
      · rename_i v _
        split
        · rename_i hidle
          have hidle' := (pc_idleTo s.base v w (afterYield (s.base.worker v).idlePos)).trans hidle
          have hcalm : Calm (some w) (s.idleTo v (afterYield (s.base.worker v).idlePos)).base
              ((s.idleTo v (afterYield (s.base.worker v).idlePos)).base.goto w .idleDec) :=
            Calm.set rfl rfl rfl ⟨rfl, Or.inr (Or.inl ⟨hidle', rfl⟩)⟩ (by simp)
          exact hcalm.after_idleTo
        · exact calm_idleTo ..
  · exact Stays.calm (Or.inl rfl) _

/-- **What a step is to the scheduler** that does not begin the caller thread's `run()`: one of its own steps, or one
that the counters do not see. -/
theorem base_cases {a : Act W E C} (hg : guard cfg s a) (hp : ∀ w, Placed cfg s w) (ha : ∀ e, a ≠ .stopResume e) :
    (∃ a', Sched.guard cfg s.base a' ∧ (next cfg s a).base = Sched.next cfg s.base a' ∧
      (∀ w, baseMover a' = .inl w → actor cfg a = some w) ∧ ∀ e, a' ≠ .stopResume e) ∨
      Calm (actor cfg a) s.base (next cfg s a).base := by
  have hstays : Stays s.base (next cfg s a).base → Calm (actor cfg a) s.base (next cfg s a).base :=
    fun hs => hs.calm _
  have hpos : ∀ {w : W} {p : RunPc}, (s.thread w).pc = .run p → AtPos (s.base.worker w).pc p :=
    fun hw => (fit_run hw).1 (hp _)
  cases a with
  | base a =>
    refine Or.inl ⟨a, hg.1, sched_base, fun w hw => ?_, ?_⟩
    · simp only [actor, mover, hw]
    · rintro e rfl
      exact hg.2
  | fire e i =>
    cases ht : s.timers[i]? with
    | none => exact Or.inr (hstays (Or.inl (by simp only [next, ht])))
    | some f =>
      refine Or.inl ⟨.scheduleLock (.inr e) (.fiber (some f)) (-1), ⟨hg.1, hg.2.1⟩, ?_, ?_, by simp⟩
      · simp only [next, ht]
      · intro w hw
        cases hw
  | enter w => exact Or.inl ⟨.enter w, hg.2, rfl, fun v hv => congrArg some (Sum.inl.inj hv), by simp⟩
  | top w => exact Or.inl ⟨.top w, hg.2, rfl, fun v hv => congrArg some (Sum.inl.inj hv), by simp⟩
  | reset w => exact Or.inl ⟨.reset w, hg.2, rfl, fun v hv => congrArg some (Sum.inl.inj hv), by simp⟩
  | idleInc w => exact Or.inl ⟨.idleInc w, hg.2, rfl, fun v hv => congrArg some (Sum.inl.inj hv), by simp⟩
  | idleDec w => exact Or.inl ⟨.idleDec w, hpos hg.1, rfl, fun v hv => congrArg some (Sum.inl.inj hv), by simp⟩
  | dispatch w =>
    cases htask : (s.base.worker w).task with
    | some e =>
      refine Or.inl ⟨.dispatch w, hg.2, ?_, fun v hv => congrArg some (Sum.inl.inj hv), by simp⟩
      simp only [next, htask]
    | none => exact Or.inr (calm_dispatch hg.2 htask)
  | unlock w =>
    have hexec : (s.base.worker w).pc = .exec ∧ s.base.wake (.inl w) = none := by
      rcases hg with hg | hg
      · exact ⟨hpos hg.1, hg.2⟩
      · exact ⟨hpos hg.1, hg.2⟩
    cases htarget : s.target w .task with
    | none =>
      refine Or.inr (hstays (Or.inr ⟨.nullFiber, ?_⟩))
      simp only [next, htarget, State.abort]
    | some g =>
      refine Or.inl ⟨.finish w, hexec, ?_, fun v hv => congrArg some (Sum.inl.inj hv), by simp⟩
      simp only [next, htarget]
  | stopBack e =>
    cases hroot : cfg.root with
    | none => exact Or.inr (hstays (Or.inl (by simp only [next, hroot])))
    | some v =>
      refine Or.inl ⟨.stopBack e, hg.1, ?_, (fun u hu => by cases hu), by simp⟩
      simp only [next, hroot]
  | stopResume e => exact absurd rfl (ha e)
  | newFiber c | share f | release f | make w => exact Or.inr (hstays (Or.inl rfl))
  | getRunning w | lock w | check w =>
    right
    apply hstays
    simp only [next]
    split
    · exact Or.inr ⟨_, rfl⟩
    · exact Or.inl rfl
  | prologue w =>
    right
    apply hstays
    simp only [next]
    split <;> exact Or.inl rfl
  | set w k =>
    right
    apply hstays
    simp only [next]
    split
    · exact Or.inr ⟨_, rfl⟩
    · split
      · exact Or.inl rfl
      · exact Or.inr ⟨_, rfl⟩
  | swap w k =>
    right
    apply hstays
    simp only [next]
    split
    · exact Or.inr ⟨_, rfl⟩
    · exact stays_swapIn ..
  | leave w =>
    right
    apply hstays
    simp only [next]
    split
    · exact Or.inl (base_dropAny ..)
    · have hend := stays_endCb (s := (s.dropAny (s.thread w).idleFiber).setThread w
        { s.thread w with idleFiber := none }) w
      rwa [show ((s.dropAny (s.thread w).idleFiber).setThread w { s.thread w with idleFiber := none }).base = s.base
        from base_dropAny ..] at hend
  | entry w =>
    right
    apply hstays
    simp only [next]
    split
    · exact Or.inl rfl
    · exact Or.inr ⟨_, rfl⟩
  | sleep w => exact Or.inr (hstays (stays_addTimer w))
  | yield w => exact Or.inr (hstays (stays_yieldRunning w))
  | ret w => exact Or.inr (hstays (stays_endCb w))
  | idle w => exact Or.inr (calm_idle w)
  | setTerm w =>
    right
    simp only [next]
    split
    · exact Stays.calm (Or.inr ⟨_, rfl⟩) _
    · split
      · exact Stays.calm (Or.inr ⟨_, rfl⟩) _
      · split
        · exact Stays.calm (Or.inl rfl) _
        · exact calm_idleTo ..
  | dropSelf w =>
    right
    apply hstays
    simp only [next]
    split
    · exact Or.inr ⟨_, rfl⟩
    · exact Or.inl (base_dropAny ..)
  | last w =>
    right
    apply hstays
    simp only [next]
    split
    · exact Or.inr ⟨_, rfl⟩
    · split
      · exact Or.inr ⟨_, rfl⟩
      · exact stays_callYield ..
  | yswap w => exact Or.inr (calm_yswap w)
  | destroy e => exact Or.inr (hstays (Or.inl (base_dropAny ..)))

/-- **What a step is to the scheduler**: one of its own steps, or one that the counters do not see. -/
theorem base_next {a : Act W E C} (hg : guard cfg s a) (hp : ∀ w, Placed cfg s w) :
    (∃ a', Sched.guard cfg s.base a' ∧ (next cfg s a).base = Sched.next cfg s.base a' ∧
      ∀ w, baseMover a' = .inl w → actor cfg a = some w) ∨ Quiet (actor cfg a) s.base (next cfg s a).base := by
  by_cases ha : ∀ e, a ≠ .stopResume e
  · rcases base_cases hg hp ha with ⟨a', hg', hb, hactor, -⟩ | hcalm
    · exact Or.inl ⟨a', hg', hb, hactor⟩
    · exact Or.inr hcalm.quiet
  · cases a with
    | stopResume e =>
      cases hroot : cfg.root with
      | none =>
        refine Or.inl ⟨.stopResume e, hg.1, ?_, fun u hu => by cases hu⟩
        simp only [next, hroot]
      | some v =>
        right
        have hout : Outer (s.base.worker v).pc := by
          have hfit := hp v
          simp only [Placed, Fit, hg.2 v hroot] at hfit
          exact hfit
        rw [show actor cfg (.stopResume e : Act W E C) = some v from hroot]
        simp only [next, hroot]
        split
        · exact Quiet.set rfl rfl rfl ⟨rfl, Or.inr (Or.inr (Or.inl ⟨hout, rfl⟩))⟩
        · exact Stays.quiet (Or.inr ⟨_, rfl⟩) _
    | _ => exact absurd (fun e => by simp) ha

/-! ## The positions of a thread -/

theorem placed_other (h : Inv cfg s) {a : Act W E C} (hg : guard cfg s a) (hp : ∀ w, Placed cfg s w) {w : W}
    (hw : actor cfg a ≠ some w) : Placed cfg (next cfg s a) w := by
  unfold Placed
  rw [thread_next cfg s hw, last_next h hg hw]
  apply (hp w).born
  rcases base_next hg hp with ⟨a', -, hb, hactor⟩ | hq
  · rw [hb]
    exact pc_base s.base fun hm => hw (hactor w hm)
  · exact Or.inl (hq.others w hw)

/-- A thread in `MainFunc` stays there, and the scheduler has it where it was. -/
def Remains (s s' : State W E C) (w : W) : Prop :=
  (s'.thread w).pc.InMainFunc ∧ (s'.base.worker w).pc = (s.base.worker w).pc

theorem Remains.refl {w : W} (hpc : (s.thread w).pc.InMainFunc) : Remains s s w := ⟨hpc, rfl⟩

theorem Remains.trans {s' s'' : State W E C} {w : W} (h : Remains s s' w) (h' : Remains s' s'' w) : Remains s s'' w :=
  ⟨h'.1, h'.2.trans h.2⟩

theorem remains_goto {w : W} {pc : Pc W} (hpc : pc.InMainFunc) : Remains s (s.goto w pc) w := by
  refine ⟨?_, rfl⟩
  simpa using hpc

theorem remains_callYield {w : W} (hpc : (s.thread w).pc.InMainFunc) (x : FiberId W) (ended : Bool) :
    Remains s (s.callYield w x ended) w := by
  unfold State.callYield
  split
  · exact Remains.refl (s := s) hpc
  · exact remains_goto (s := s) (by simp [Pc.InMainFunc])

theorem remains_yieldRunning {w : W} (hpc : (s.thread w).pc.InMainFunc) : Remains s (s.yieldRunning w) w := by
  unfold State.yieldRunning
  split
  · exact Remains.refl (s := s) hpc
  · exact remains_callYield hpc _ _

theorem remains_addTimer {w : W} (hpc : (s.thread w).pc.InMainFunc) : Remains s (s.addTimer w) w := by
  unfold State.addTimer
  split <;> exact Remains.refl (s := s) hpc

theorem remains_endCb {w : W} (hpc : (s.thread w).pc.InMainFunc) : Remains s (s.endCb w) w := by
  unfold State.endCb
  split
  · exact Remains.refl (s := s) hpc
  · split
    · exact Remains.refl (s := s) hpc
    · exact remains_goto (s := s) (by simp [Pc.InMainFunc])

theorem Remains.placed {a : Act W E C} {w : W} (hr : Remains s (next cfg s a) w) (hpc : (s.thread w).pc.InMainFunc)
    (ha : ¬ a.switches) (ha' : ∀ v, a ≠ .prologue v) (hp : Placed cfg s w) : Placed cfg (next cfg s a) w := by
  unfold Placed
  rw [fit_main hr.1, hr.2, stack_next ha, last_kept ha ha']
  exact (fit_main hpc).1 hp

/-- The code of `MainFunc` and of the callback. -/
theorem remains_next (h : Inv cfg s) {a : Act W E C} (hg : guard cfg s a) {w : W}
    (ha : a = .entry w ∨ a = .sleep w ∨ a = .yield w ∨ a = .ret w ∨ a = .idle w ∨ a = .setTerm w ∨ a = .dropSelf w ∨
      a = .last w) : (s.thread w).pc.InMainFunc ∧ Remains s (next cfg s a) w := by
  have hbody : s.inUser w = true → (s.thread w).pc.InMainFunc := by
    intro hu
    obtain ⟨n, hpc, -⟩ := user_task h hu
    exact Or.inr (Or.inl hpc)
  rcases ha with rfl | rfl | rfl | rfl | rfl | rfl | rfl | rfl
  · have hpc : (s.thread w).pc.InMainFunc := Or.inl hg.1
    refine ⟨hpc, ?_⟩
    simp only [next]
    split
    · exact remains_goto (s := s) (by simp [Pc.InMainFunc])
    · exact Remains.refl (s := s) hpc
  · exact ⟨hbody hg, remains_addTimer (hbody hg)⟩
  · exact ⟨hbody hg, remains_yieldRunning (hbody hg)⟩
  · exact ⟨hbody hg, remains_endCb (hbody hg)⟩
  · have hpc : (s.thread w).pc.InMainFunc := Or.inr (Or.inl hg.1.1)
    refine ⟨hpc, ?_⟩
    simp only [next]
    split
    · exact Remains.refl (s := s) hpc
    · split
      · exact ⟨hpc, pc_idleTo ..⟩
      · split
        · have ht := remains_addTimer (s := s) hpc
          exact ht.trans (remains_yieldRunning ht.1)
        · exact ⟨hpc, pc_idleTo ..⟩
      · exact remains_yieldRunning hpc
      · exact remains_endCb hpc
      · exact Remains.refl (s := s) hpc
  · have hpc : (s.thread w).pc.InMainFunc := Or.inr (Or.inr (Or.inl hg.1))
    refine ⟨hpc, ?_⟩
    simp only [next]
    split
    · exact Remains.refl (s := s) hpc
    · split
      · exact Remains.refl (s := s) hpc
      · split
        · exact remains_goto (s := s) (by simp [Pc.InMainFunc])
        · exact ⟨by simp [Pc.InMainFunc], pc_idleTo ..⟩
  · have hpc : (s.thread w).pc.InMainFunc := Or.inr (Or.inr (Or.inr (Or.inl hg.1)))
    refine ⟨hpc, ?_⟩
    simp only [next]
    split
    · exact Remains.refl (s := s) hpc
    · exact ⟨by simp [Pc.InMainFunc], by simp⟩
  · have hpc : (s.thread w).pc.InMainFunc := Or.inr (Or.inr (Or.inr (Or.inr (Or.inl hg.1))))
    refine ⟨hpc, ?_⟩
    simp only [next]
    split
    · exact Remains.refl (s := s) hpc
    · split
      · exact Remains.refl (s := s) hpc
      · exact remains_callYield hpc _ _

/-- A step that fails leaves the thread, and the scheduler's position of it, where they are. -/
theorem placed_same {s' : State W E C} {w : W} (hp : Placed cfg s w) (hthread : s'.thread w = s.thread w)
    (hfib : s'.fib = s.fib) (hbase : Stays s.base s'.base) : Placed cfg s' w := by
  unfold Placed
  rw [hthread, hfib]
  rcases hbase with hb | ⟨r, hb⟩ <;>
  · rw [hb]
    exact hp

/-- A worker in `run()`. -/
theorem placed_run {s' : State W E C} {w : W} {p : RunPc} (hpc : (s'.thread w).pc = .run p)
    (hat : AtPos (s'.base.worker w).pc p) : Placed cfg s' w := (fit_run hpc).2 hat

/-- Where the code of the fiber at hand was suspended. -/
theorem last_target (h : Inv cfg s) {w : W} {k : Branch} (hg : guard cfg s (.swap w k)) {g : FiberId W}
    (hg' : s.target w k = some g) : (home g = .fiber g ∧ inScheduler g = true ∧ g ≠ runner cfg w) ∧
      ((s.fib g).last = .entry ∨ (s.fib g).last = .body ∨ (s.fib g).last = .exited) := by
  obtain ⟨-, -, -, hat⟩ := (stands_run hg.1).1 (h.stands w)
  have hidle : ∀ u, g = .idle u → (home g = .fiber g ∧ inScheduler g = true ∧ g ≠ runner cfg w) ∧
      ((s.fib g).last = .entry ∨ (s.fib g).last = .body ∨ (s.fib g).last = .exited) := by
    rintro u rfl
    exact ⟨⟨rfl, rfl, (runner_ne_idle cfg w u).symm⟩, (h.loose u).2.2⟩
  cases k with
  | idle => exact hidle w ((h.local w).1 g hg')
  | task =>
    rcases holds_target hat hg' with ⟨n, rfl, -, harmed, -⟩ | ⟨⟨u, hu⟩, -⟩
    · refine ⟨⟨rfl, rfl, (runner_ne_task cfg w n).symm⟩, ?_⟩
      rcases harmed.2 with ⟨hl, -⟩ | ⟨hl, -⟩
      · exact Or.inl hl
      · exact Or.inr (Or.inl hl)
    · exact hidle u hu

theorem placed_swap (h : Inv cfg s) {w : W} {k : Branch} (hg : guard cfg s (.swap w k)) (hp : Placed cfg s w) :
    Placed cfg (next cfg s (.swap w k)) w := by
  obtain ⟨hin, hst, -, hat⟩ := (stands_run hg.1).1 (h.stands w)
  have hx : (s.base.worker w).pc = Branch.pc k := by
    have hat := (fit_run hg.1).1 hp
    cases k <;> exact hat
  simp only [next]
  split
  · exact placed_same hp rfl rfl (Or.inr ⟨_, rfl⟩)
  · rename_i g htarget
    obtain ⟨⟨hhome, hsch, hne⟩, hlast⟩ := last_target h hg htarget
    -- the fiber of `run()` is suspended behind the `swapcontext`
    have hwithin : Within (s.base.worker w).pc (.fiber g) (Pc.run (.back k (s.thread w).iter) : Pc W) := by
      unfold Within
      split
      · trivial
      · rename_i hf
        cases Stack.fiber.inj hf
        cases hsch
      · rintro k' n hk
        cases hk
        exact hx
    rw [swapIn_eq (h.ctx g) (partner_run h hin hsch) (exec_runner hin hst) hst hne]
    simp only [Placed, Fit, Function.update_self, Function.update_of_ne hne.symm, hhome]
    rcases hlast with hl | hl | hl
    · simp only [hl]
      exact hwithin
    · simp only [hl]
      exact hwithin
    · simp only [hl]

theorem placed_yswap (h : Inv cfg s) {w : W} {x : FiberId W} {ended : Bool} (hpc : (s.thread w).pc = .yield x ended)
    (hp : Placed cfg s w) : Placed cfg (next cfg s (.yswap w)) w := by
  obtain ⟨hst, hhome, hexec, hat, hunder⟩ := yields h hpc
  have hfit : Within (s.base.worker w).pc (.fiber x) (s.fib (runner cfg w)).last := by
    have hmain := (fit_main (Or.inr (Or.inr (Or.inr (Or.inr (Or.inr ⟨x, ended, hpc⟩)))))).1 hp
    rwa [hst] at hmain
  simp only [next, hpc]
  split
  · exact placed_same hp rfl rfl (Or.inr ⟨_, rfl⟩)
  · rename_i r hr
    obtain ⟨hne, -⟩ := local_yswap h hst hat hunder hr ⟨home x, .body⟩
    rw [switchTo_eq (h.ctx r) hexec (hst.trans hhome.symm) hne]
    unfold State.partner at hr
    rw [(h.static x).1] at hr
    cases x with
    | main u => exact hunder.elim
    | sched =>
      obtain ⟨-, -, hm, -, hback⟩ := hunder
      obtain rfl : FiberId.main w = r := Option.some_inj.1 (hm.symm.trans hr)
      have hidler : s.idler w = none := by
        unfold State.idler
        rw [hst]
      simp only [hidler]
      simp only [Placed, Fit, Function.update_self, (has_iff.1 hback).2]
      exact hfit
    | task n =>
      obtain ⟨hin, -, -, i, hback⟩ := hunder
      obtain rfl : runner cfg w = r := Option.some_inj.1 (hin.scheduler.symm.trans hr)
      have hback := (has_iff.1 hback).2
      have hidler : s.idler w = none := by
        unfold State.idler
        rw [hst]
      simp only [hidler]
      exact placed_run (p := .back .task i) (by simp [hback]) (hfit .task i hback)
    | idle u =>
      obtain ⟨hin, -, k, i, hback, -⟩ := hunder
      obtain rfl : runner cfg w = r := Option.some_inj.1 (hin.scheduler.symm.trans hr)
      have hback := (has_iff.1 hback).2
      have hidler : s.idler w = some u := by
        unfold State.idler
        rw [hst]
      have hx := hfit k i hback
      simp only [hidler]
      cases k with
      | task =>
        rw [if_neg (by rw [hx]; simp [Branch.pc])]
        refine placed_run (p := .back .task i) (by simp [hback]) ?_
        exact (pc_idleTo ..).trans hx
      | idle =>
        rw [if_pos (show (s.base.worker w).pc = .idle from hx)]
        exact placed_run (p := .back .idle i) (by simp [hback]) (by simp [AtPos])

theorem placed_stopResume (h : Inv cfg s) {e : E} (hg : guard cfg s (.stopResume e)) {w : W} (hroot : cfg.root = some w)
    (hp : Placed cfg s w) : Placed cfg (next cfg s (.stopResume e)) w := by
  have hpc := hg.2 w hroot
  have hl := h.stands w
  simp only [Stands, hpc] at hl
  have hrest := (has_iff.1 hl.2.2.2.2.2).2
  simp only [next, hroot]
  split
  · rename_i hready
    have hlast : (s.fib .sched).last = .entry ∨ (s.fib .sched).last = .body := by
      simp only [Rest, hready] at hrest
      rcases hrest with ⟨hl, -⟩ | ⟨hl, -⟩
      · exact Or.inl hl
      · exact Or.inr hl
    have hout : Outer .start := Or.inr (Or.inl rfl)
    rw [show s.setFiber .sched { s.fib .sched with mState := .running } = runSched s from rfl, swap_stop h hpc]
    simp only [Placed, Fit, Function.update_self, runSched, State.setFiber, Sched.State.goto, Sched.State.setWorker]
    rcases hlast with hl | hl
    · simp only [hl]
      exact hout
    · simp only [hl]
      exact hout
  · exact placed_same hp rfl rfl (Or.inr ⟨_, rfl⟩)

/-- `run()` returns, to `MainFunc` of `m_schedulerFiber` or to the end of the thread. -/
theorem placed_leave (h : Inv cfg s) {w : W} (hg : guard cfg s (.leave w)) (hp : Placed cfg s w) :
    Placed cfg (next cfg s (.leave w)) w := by
  obtain ⟨-, hst, -, -⟩ := (stands_run hg.1.1).1 (h.stands w)
  have hout : Outer (s.base.worker w).pc := Or.inr (Or.inr hg.2)
  simp only [next]
  split
  · simp only [Placed, Fit, State.goto, State.setThread, Function.update_self, base_dropAny]
    exact hout
  · rename_i f hf
    obtain rfl : f = .sched := by
      unfold runner at hst
      split at hst
      · exact Stack.fiber.inj (hf.symm.trans hst)
      · cases hf.symm.trans hst
    unfold State.endCb
    simp only [State.setThread, Function.update_self, hf, fib_dropAny]
    split
    · simp only [Placed, Fit, State.abort, Function.update_self, base_dropAny, hg.1.1]
      exact (fit_run hg.1.1).1 hp
    · simp only [Placed, Fit, State.goto, State.setThread, State.setFiber, Function.update_self, base_dropAny]
      exact hout

/-- The scheduler's steps outside the contexts. -/
theorem placed_base {a : Sched.Act W E (FiberId W) C} (hg : guard cfg s (.base a)) {w : W}
    (hw : actor cfg (.base a : Act W E C) = some w) (hp : Placed cfg s w) : Placed cfg (next cfg s (.base a)) w := by
  have hthread : (next cfg s (.base a)).thread = s.thread := by
    simp only [next]
    split <;> rfl
  have hfib : (next cfg s (.base a)).fib = s.fib := by
    simp only [next]
    split <;> rfl
  have hmover : baseMover a = .inl w := by
    simp only [actor, mover] at hw
    split at hw
    · rename_i v hv
      obtain rfl := Option.some_inj.1 hw
      exact Option.some_inj.1 hv
    · cases hw
  have hto : s.stands w (.run .main) → AtPos ((Sched.next cfg s.base a).worker w).pc .main →
      Placed cfg (next cfg s (.base a)) w := by
    intro hst hat
    refine placed_run (p := .main) ?_ ?_
    · rw [hthread]
      exact hst.1
    · rwa [sched_base]
  have hsame : ((Sched.next cfg s.base a).worker w).pc = (s.base.worker w).pc →
      Placed cfg (next cfg s (.base a)) w := by
    intro hpc
    unfold Placed
    rw [hthread, hfib, sched_base, hpc]
    exact hp
  cases a with
  | scheduleLock t fc thr =>
    apply hsame
    simp only [Sched.next, Sched.State.push]
    split <;> rfl
  | wakeUp t => exact hsame rfl
  | scan v =>
    obtain rfl := Sum.inl.inj hmover
    apply hto hg.2
    simp only [Sched.next]
    split
    · simp [AtPos]
    · split
      · simp [AtPos]
      · exact (fit_run hg.2.1).1 hp
  | tickle v | decr v =>
    obtain rfl := Sum.inl.inj hmover
    apply hto hg.2
    simp [Sched.next, AtPos]
  | start e | stopCall e | stopCheck e | stopSet e | stopAssert e | stopTickle e | stopSwap e | stopJoin e
    | stopEnd e => cases hmover
  | _ => exact hg.2.elim

/-- The steps between the scheduler's positions of a worker. -/
theorem placed_loop {a : Act W E C} (hg : guard cfg s a) {w : W} (ha : a = .prologue w ∨ a = .enter w ∨ a = .top w ∨
    a = .dispatch w ∨ a = .reset w ∨ a = .idleInc w ∨ a = .idleDec w) (hp : Placed cfg s w) :
    Placed cfg (next cfg s a) w := by
  rcases ha with rfl | rfl | rfl | rfl | rfl | rfl | rfl
  · simp only [next]
    split
    · exact placed_run (p := .main) (by simp) (by simp [AtPos, hg.1])
    · exact placed_run (p := .main) (by simp) (by simp [AtPos, hg.1])
  · exact placed_run (p := .main) (by simp [next, hg.1.1]) (by simp [next, Sched.next, AtPos])
  · exact placed_run (p := .main) (by simp [next, hg.1.1]) (by simp [next, Sched.next, AtPos])
  · cases htask : (s.base.worker w).task with
    | some e =>
      simp only [next, htask]
      cases hf : e.task.fiber with
      | none => exact placed_run (p := .make) (by simp) (by simp [Sched.next, htask, AtPos])
      | some f => exact placed_run (p := .lock) (by simp) (by simp [Sched.next, htask, AtPos])
    | none =>
      simp only [next, htask]
      split
      · exact placed_same hp rfl rfl (Or.inr ⟨_, rfl⟩)
      · refine placed_run (p := .main) hg.1.1 ?_
        simp only [Sched.State.goto, Sched.State.setWorker, Function.update_self]
        split <;> simp [AtPos]
  · exact placed_run (p := .main) (by simp [next, hg.1.1]) (by simp [next, Sched.next, AtPos])
  · exact placed_run (p := .set .idle) (by simp [next]) (by simp [next, Sched.next, AtPos])
  · exact placed_run (p := .main) (by simp [next]) (by simp [next, Sched.next, AtPos])

/-- The steps of `run()` around its `resume()`. -/
theorem placed_branch {a : Act W E C} (hg : guard cfg s a) {w : W} (ha : a = .make w ∨ a = .lock w ∨ a = .check w ∨
    (∃ k, a = .set w k) ∨ a = .unlock w) (hp : Placed cfg s w) : Placed cfg (next cfg s a) w := by
  have hpos : ∀ {p : RunPc}, (s.thread w).pc = .run p → AtPos (s.base.worker w).pc p :=
    fun hpc => (fit_run hpc).1 hp
  rcases ha with rfl | rfl | rfl | ⟨k, rfl⟩ | rfl
  · have hexec : (s.base.worker w).pc = .exec := hpos hg.1
    exact placed_run (p := .set .task) (by simp [next]) hexec
  · have hexec : (s.base.worker w).pc = .exec := hpos hg.1.1
    simp only [next]
    split
    · exact placed_same hp rfl rfl (Or.inr ⟨_, rfl⟩)
    · exact placed_run (p := .check) (by simp) hexec
  · have hexec : (s.base.worker w).pc = .exec := hpos hg.1
    simp only [next]
    split
    · exact placed_same hp rfl rfl (Or.inr ⟨_, rfl⟩)
    · split
      · exact placed_run (p := .unlock) (by simp) hexec
      · exact placed_run (p := .set .task) (by simp) hexec
  · have hk : AtPos (s.base.worker w).pc (.swap k) := by
      have hat := hpos hg.1
      cases k <;> exact hat
    simp only [next]
    split
    · exact placed_same hp rfl rfl (Or.inr ⟨_, rfl⟩)
    · split
      · exact placed_run (p := .swap k) (by simp) hk
      · exact placed_same hp rfl rfl (Or.inr ⟨_, rfl⟩)
  · simp only [next]
    split
    · exact placed_same hp rfl rfl (Or.inr ⟨_, rfl⟩)
    · exact placed_run (p := .main) (by simp) (by simp [Sched.next, AtPos])

/-- **Every step keeps the two positions of a thread.** -/
theorem placed_next (h : Inv cfg s) {a : Act W E C} (hg : guard cfg s a) (hp : ∀ w, Placed cfg s w) (w : W) :
    Placed cfg (next cfg s a) w := by
  by_cases hw : actor cfg a = some w
  · have hmain : (a = .entry w ∨ a = .sleep w ∨ a = .yield w ∨ a = .ret w ∨ a = .idle w ∨ a = .setTerm w ∨
        a = .dropSelf w ∨ a = .last w) → Placed cfg (next cfg s a) w := by
      intro ha
      obtain ⟨hpc, hr⟩ := remains_next h hg ha
      refine hr.placed hpc ?_ ?_ (hp w)
      · rcases ha with rfl | rfl | rfl | rfl | rfl | rfl | rfl | rfl <;> simp [Act.switches]
      · rcases ha with rfl | rfl | rfl | rfl | rfl | rfl | rfl | rfl <;> simp
    cases a with
    | base a => exact placed_base hg hw (hp w)
    | stopResume e => exact placed_stopResume h hg hw (hp w)
    | stopBack e =>
      have hout := hp w
      simp only [Placed, Fit, hg.2 w hw] at hout
      simp only [next, show cfg.root = some w from hw]
      simp only [Placed, Fit, State.goto, State.setThread, Function.update_self]
      exact hout
    | newFiber c | share f | release f | fire e i | destroy e => cases hw
    | getRunning v =>
      simp only [next]
      split
      · exact placed_same (hp w) rfl rfl (Or.inr ⟨_, rfl⟩)
      · exact placed_same (hp w) rfl rfl (Or.inl rfl)
    | swap v k =>
      obtain rfl := Option.some_inj.1 hw
      exact placed_swap h hg (hp v)
    | leave v =>
      obtain rfl := Option.some_inj.1 hw
      exact placed_leave h hg (hp v)
    | yswap v =>
      obtain rfl := Option.some_inj.1 hw
      simp only [guard] at hg
      split at hg
      · rename_i x ended hpc
        exact placed_yswap h hpc (hp v)
      · exact hg.elim
    | prologue v | enter v | top v | dispatch v | reset v | idleInc v | idleDec v =>
      obtain rfl := Option.some_inj.1 hw
      exact placed_loop hg (by simp) (hp v)
    | make v | lock v | check v | set v k | unlock v =>
      obtain rfl := Option.some_inj.1 hw
      exact placed_branch hg (by simp) (hp v)
    | entry v | sleep v | yield v | ret v | idle v | setTerm v | dropSelf v | last v =>
      obtain rfl := Option.some_inj.1 hw
      exact hmain (by simp)
  · exact placed_other h hg hp hw

theorem placed_reach (h : (system C cfg).Reach Always s) : ∀ w, Placed cfg s w := by
  induction h using System.Reach.induct with
  | start s hs =>
    have hs : s = initial C cfg := hs
    subst hs
    intro w
    have hout : Outer .unborn := Or.inl rfl
    unfold Placed Fit
    simp only [initial]
    by_cases hroot : cfg.root = some w
    · simp only [if_pos hroot]
      exact hout
    · simp only [if_neg hroot]
      exact hout
  | step s a hr he _ ih => exact placed_next (inv_reach hr) he.2 ih

/-! ## The counters -/

section Counters

variable [Fintype W]

/-- A step that the counters do not see. -/
theorem exact_quiet {o : Option W} {b b' : Sched.State W E (FiberId W) C} (h : Sched.Exact b) (hq : Quiet o b b') :
    Sched.Exact b' := by
  refine h.same hq.active hq.idle fun w => ?_
  obtain ⟨htask, hmove⟩ := hq.workers w
  have hok := h.ok w
  unfold Sched.Worker.Ok at hok ⊢
  unfold Sched.Worker.busy Sched.Worker.idling
  rw [← htask]
  rcases hmove with hpc | ⟨hpc, hpc'⟩ | ⟨hpc | hpc | hpc, hpc'⟩ | ⟨hpc, hnone, hpc' | hpc'⟩
  · simp [hpc]
  · simp [hpc, hpc']
  · simp [hpc, hpc']
  · simp [hpc, hpc']
  · simp [hpc, hpc']
  · simp [hpc, hpc', hnone]
  · simp [hpc, hpc', hnone]

theorem exact_next {a : Act W E C} (hg : guard cfg s a) (hp : ∀ w, Placed cfg s w) (he : Sched.Exact s.base) :
    Sched.Exact (next cfg s a).base := by
  rcases base_next hg hp with ⟨a', hg', hb, -⟩ | hq
  · rw [hb]
    exact he.next hg'
  · exact exact_quiet he hq

theorem exact_reach (h : (system C cfg).Reach Always s) : Sched.Exact s.base := by
  induction h using System.Reach.induct with
  | start s hs =>
    have hs : s = initial C cfg := hs
    subst hs
    have hr : (Sched.system (FiberId W) C cfg).Reach Always (Sched.initial W E (FiberId W) C) := .start rfl
    exact Sched.exact_reach hr
  | step s a hr he _ ih => exact exact_next he.2 (placed_reach hr) ih

/-- **The counters are exact.** In every reachable state `m_activeThreadCnt` is the number of workers that have fetched
a task and not yet decremented it, and `m_idleThreadCnt` that of the workers between the increment and the decrement
around `idle_fiber->resume()`. Nobody is counted twice, and no decrement happens at zero. -/
theorem counters_exact (cfg : Sylar.Config W E) (h : (system C cfg).Reach Always s) :
    (s.base.mActiveThreadCnt = Counting.count Sched.Worker.busy s.base.worker ∧
      s.base.mIdleThreadCnt = Counting.count Sched.Worker.idling s.base.worker) ∧
    (∀ w, (s.base.worker w).busy = true → (s.base.worker w).idling = false) ∧
    s.base.mActiveThreadCnt + s.base.mIdleThreadCnt ≤ Fintype.card W ∧
    ∀ w, ((system C cfg).enabled s (.base (.decr w)) → 0 < s.base.mActiveThreadCnt) ∧
      ((system C cfg).enabled s (.idleDec w) → 0 < s.base.mIdleThreadCnt) := by
  have he := exact_reach h
  refine ⟨⟨he.active, he.idle⟩, fun w => he.apart, he.sum_le, fun w => ⟨fun ha => ?_, fun ha => ?_⟩⟩
  · exact he.decr_pos.1 ha.2.1
  · exact he.decr_pos.2 ((fit_run ha.2.1).1 (placed_reach h w))

/-- Worker `0` executes a task, and worker `1` is behind the switch out of its idle fiber. -/
theorem counters_exact_duo : ∃ s : State (Fin 2) (Fin 3) Nat, (s.base.worker 0).pc = .exec ∧
    (s.thread 1).pc = .run (.back .idle 1) ∧
    s.base.mActiveThreadCnt = Counting.count Sched.Worker.busy s.base.worker ∧
    s.base.mIdleThreadCnt = Counting.count Sched.Worker.idling s.base.worker := by
  have h : (System.exec (system Nat (Sched.duo .hooked)) Always (initial Nat (Sched.duo .hooked))
      (taskRun 0 0 1 ++ (idleRun 1 0).tail.dropLast)).isSome = true := by
    decide
  exact ⟨_, rfl, rfl, (counters_exact (Sched.duo .hooked) (System.reach_exec rfl h)).1⟩

end Counters

end Sylar.Fibers.Isolated
