import Sylar.Fiber.MainFunc

/-!
# Task fibers beside idle fibers out of control

A timer that the hooked `sleep` of an idle fiber has armed puts that idle fiber into `m_tasks`, so two threads may
execute it at once. What is known of a task fiber does not depend on this: an idle fiber names nobody but itself, and
it yields to the thread that executes it. The invariant here has the idle fibers as cells that any thread may write
(`own`, `Loose`), and holds in every run.

- `Local`: what a thread is like, from its position and its own fibers;
- `inv_next`: every step keeps the invariant; `inv_reach`: it holds in every reachable state.
-/

set_option linter.unusedSectionVars false

namespace Sylar.Fibers.Isolated

open Trans Ownership

variable {W E C : Type} [DecidableEq W] [DecidableEq E] {cfg : Sylar.Config W E} {s : State W E C}

/-! ## The invariant -/

/-- The thread that may touch a fiber; an idle fiber is anybody's. -/
def own (cfg : Sylar.Config W E) (mMutex : FiberId W → Option W) : FiberId W → Option W
  | .idle _ => none
  | f => Fibers.own cfg mMutex f

theorem own_runner (cfg : Sylar.Config W E) (mMutex : FiberId W → Option W) (w : W) :
    own cfg mMutex (runner cfg w) = some w := by
  have h := Fibers.own_runner cfg mMutex w
  cases hr : runner cfg w with
  | idle u => exact absurd hr (runner_ne_idle cfg w u)
  | main u | sched | task n =>
    rw [hr] at h
    exact h

/-- An idle fiber names nobody but itself, and its code was suspended in `MainFunc`. -/
def Loose (f : FiberId W) (x : Fiber W C) : Prop :=
  (∀ g ∈ x.self, g = f) ∧ (∀ g ∈ x.rawPtr, g = f) ∧ (x.last = .entry ∨ x.last = .body ∨ x.last = .exited)

/-- What is known of a fiber without an owner. -/
def Free (f : FiberId W) (x : Fiber W C) : Prop :=
  match f with
  | .task _ => Rest f x
  | .idle _ => Loose f x
  | _ => True

/-- The fiber of the task at hand. -/
def atHand (task : Option (Entry (FiberId W) C)) (t : Thread W) : Option (FiberId W) :=
  (task.bind fun e => e.task.fiber).or t.cbFiber

/-- What holds from the prologue of `run()` to its end. -/
structure InRun (cfg : Sylar.Config W E) (w : W) (t : Thread W) (v : View W C) : Prop where
  scheduler : t.schedulerFiber = some (runner cfg w)
  main : t.mainFiber = some (.main w)
  below : cfg.root = some w → Has v (.main w) (fun x => x.last = .stopBack) ∧
    Has v .sched fun x => x.mState = .running ∧ x.self = some .sched

/-- The fiber of the task at hand is a task fiber whose mutex the worker holds, or an idle fiber. -/
def Holds (task : Option (Entry (FiberId W) C)) (t : Thread W) (v : View W C)
    (P : FiberId W → Fiber W C → Prop) : Prop :=
  (∃ n, atHand task t = some (.task n) ∧ Has v (.task n) (P (.task n)) ∧ OnlyTask v (.task n)) ∨
    (∃ u, atHand task t = some (.idle u)) ∧ NoTask v

/-- A worker in `run()`. -/
def AtRun (task : Option (Entry (FiberId W) C)) (t : Thread W) (v : View W C) : RunPc → Prop
  | .main | .lock | .set .idle | .swap .idle | .back .idle _ => NoTask v
  | .make => NoTask v ∧ (task.bind fun e => e.task.fiber) = none ∧ (task.bind fun e => e.task.callback) ≠ none
  | .check | .set .task | .unlock | .back .task _ => Holds task t v Rest
  | .swap .task => Holds task t v Armed

/-- A fiber whose code stands at `pc` in `MainFunc`; `m_cb` is null where `m_state = TERM` comes next. -/
def Code (f : FiberId W) (x : Fiber W C) (pc : Pc W) : Prop := Live f x pc ∧ (pc = .setTerm → x.mCb = none)

/-- The fiber whose code a thread executes at `pc` in `MainFunc`. -/
def At (v : View W C) (f : FiberId W) (pc : Pc W) : Prop :=
  match f with
  | .idle _ => ∀ g b, pc = .yield g b → g = f
  | _ => Has v f fun y => Code f y pc

/-- Who waits below a thread that executes the code of `f`. -/
def Under (cfg : Sylar.Config W E) (w : W) (task : Option (Entry (FiberId W) C)) (t : Thread W) (v : View W C) :
    FiberId W → Prop
  | .main _ => False
  | .sched => cfg.root = some w ∧ t.schedulerFiber = some .sched ∧ t.mainFiber = some (.main w) ∧ NoTask v ∧
      Has v (.main w) fun x => x.last = .stopBack
  | .idle u => InRun cfg w t v ∧ NoTask v ∧ ∃ k n, Has v (runner cfg w) (fun x => x.last = .run (.back k n)) ∧
      (k = .task → atHand task t = some (.idle u))
  | .task n => InRun cfg w t v ∧ OnlyTask v (.task n) ∧ atHand task t = some (.task n) ∧
      ∃ i, Has v (runner cfg w) fun x => x.last = .run (.back .task i)

/-- A thread in `MainFunc`. -/
def InMain (cfg : Sylar.Config W E) (w : W) (task : Option (Entry (FiberId W) C)) (t : Thread W) (v : View W C)
    (pc : Pc W) : Prop :=
  ∃ f, t.stack = .fiber f ∧ t.runningFiber = some f ∧ At v f pc ∧ Under cfg w task t v f

/-- What a thread is like at its position. -/
def Stands (cfg : Sylar.Config W E) (w : W) (task : Option (Entry (FiberId W) C)) (t : Thread W) (v : View W C) :
    Prop :=
  match t.pc with
  | .unborn => cfg.root ≠ some w ∧ t.stack = .native w ∧ NoTask v
  | .native | .stopBack => cfg.root = some w ∧ t.stack = .native w ∧ t.mainFiber = some (.main w) ∧
      t.schedulerFiber = some .sched ∧ NoTask v ∧ Has v .sched (Rest .sched)
  | .gone => NoTask v
  | .run p => InRun cfg w t v ∧ t.stack = home (runner cfg w) ∧ t.runningFiber = some (runner cfg w) ∧ AtRun task t v p
  -- control has come back behind the last `yield()` of an idle fiber
  | .exited => (∃ u, t.stack = .fiber (.idle u)) ∧ NoTask v
  | pc => InMain cfg w task t v pc

/-- **The local invariant.** -/
def Local (cfg : Sylar.Config W E) (w : W) (l : Option (Entry (FiberId W) C) × Thread W) (v : View W C) : Prop :=
  (∀ i ∈ l.2.idleFiber, i = .idle w) ∧ Stands cfg w l.1 l.2 v

/-- Every context is on the stack of its own fiber, where the fiber's code was suspended. -/
def Ctx (fib : FiberId W → Fiber W C) : Prop := ∀ f, (fib f).mCtx = ⟨home f, (fib f).last⟩

/-- What the queue can hold. -/
def Passable (n : Nat) (f : FiberId W) : Prop := Made n f ∨ ∃ u, f = .idle u

/-- An entry of the queue. -/
def Fits (n : Nat) (e : Entry (FiberId W) C) : Prop := e.task.nonEmpty = true ∧ ∀ f ∈ e.task.fiber, Passable n f

/-- Who is referred to. -/
structure Typed (s : State W E C) : Prop where
  queue : ∀ e ∈ s.base.mTasks, Fits s.nextId e
  tasks : ∀ w, ∀ e ∈ (s.base.worker w).task, Fits s.nextId e
  cbs : ∀ w, ∀ f ∈ (s.thread w).cbFiber, Made s.nextId f
  timers : ∀ f ∈ s.timers, Passable s.nextId f
  users : ∀ f, 0 < s.userRefs f → Made s.nextId f
  mutex : ∀ n, s.mMutex (.task n) ≠ none → n < s.nextId

/-- Every thread is as its position says, and every fiber without an owner as its name says. -/
def Owned (cfg : Sylar.Config W E) (s : State W E C) : Prop :=
  Ownership.Inv (Local cfg) Free (own cfg s.mMutex) s.fib fun w => ((s.base.worker w).task, s.thread w)

/-- **The invariant.** -/
structure Inv (cfg : Sylar.Config W E) (s : State W E C) : Prop where
  static : Static s.fib
  ctx : Ctx s.fib
  typed : Typed s
  owned : Owned cfg s

theorem Passable.mono {n n' : Nat} {f : FiberId W} (h : Passable n f) (hn : n ≤ n') : Passable n' f :=
  h.imp (·.mono hn) id

theorem Fits.mono {n n' : Nat} {e : Entry (FiberId W) C} (h : Fits n e) (hn : n ≤ n') : Fits n' e :=
  ⟨h.1, fun f hf => (h.2 f hf).mono hn⟩

theorem Inv.local (h : Inv cfg s) (w : W) :
    Local cfg w ((s.base.worker w).task, s.thread w) (view (own cfg s.mMutex) s.fib w) := h.owned.local' w

theorem Inv.loose (h : Inv cfg s) (u : W) : Loose (.idle u) (s.fib (.idle u)) := h.owned.free (.idle u) rfl

theorem Inv.stands (h : Inv cfg s) (w : W) :
    Stands cfg w (s.base.worker w).task (s.thread w) (view (own cfg s.mMutex) s.fib w) := (h.local w).2

/-! ## Rules for the parts -/

theorem Ctx.update {fib : FiberId W → Fiber W C} (h : Ctx fib) {f : FiberId W} {x : Fiber W C}
    (hx : x.mCtx = ⟨home f, x.last⟩) : Ctx (Function.update fib f x) := by
  intro g
  by_cases hg : g = f
  · rw [hg, Function.update_self]
    exact hx
  · rw [Function.update_of_ne hg]
    exact h g

/-- What is new in the queue, the timers, the locals and the user's hands has been constructed, or is an idle fiber. -/
theorem Typed.step {s' : State W E C} (h : Typed s) (hn : s.nextId ≤ s'.nextId)
    (hq : ∀ e ∈ s'.base.mTasks, e ∈ s.base.mTasks ∨ Fits s.nextId e)
    (ht : ∀ w, ∀ e ∈ (s'.base.worker w).task, e ∈ (s.base.worker w).task ∨ e ∈ s.base.mTasks)
    (hc : ∀ w, ∀ f ∈ (s'.thread w).cbFiber, f ∈ (s.thread w).cbFiber ∨ Made s'.nextId f)
    (htm : ∀ f ∈ s'.timers, f ∈ s.timers ∨ Passable s.nextId f)
    (hu : ∀ f, 0 < s'.userRefs f → 0 < s.userRefs f ∨ Made s'.nextId f)
    (hm : ∀ n, s'.mMutex (.task n) ≠ none → s.mMutex (.task n) ≠ none ∨ n < s'.nextId) : Typed s' := by
  refine ⟨?_, ?_, ?_, ?_, ?_, ?_⟩
  · intro e he
    rcases hq e he with he | hfits
    · exact (h.queue e he).mono hn
    · exact hfits.mono hn
  · intro w e he
    rcases ht w e he with he | he
    · exact (h.tasks w e he).mono hn
    · exact (h.queue e he).mono hn
  · intro w f hf
    rcases hc w f hf with hf | hf
    · exact (h.cbs w f hf).mono hn
    · exact hf
  · intro f hf
    rcases htm f hf with hf | hf
    · exact (h.timers f hf).mono hn
    · exact hf.mono hn
  · intro f hf
    rcases hu f hf with hf | hf
    · exact (h.users f hf).mono hn
    · exact hf
  · intro n hmn
    rcases hm n hmn with hmn | hmn
    · have hlt := h.mutex n hmn
      omega
    · exact hmn

theorem Inv.abort (h : Inv cfg s) (a : Sched.Assertion) : Inv cfg (s.abort a) :=
  ⟨h.static, h.ctx, ⟨h.typed.queue, h.typed.tasks, h.typed.cbs, h.typed.timers, h.typed.users, h.typed.mutex⟩, h.owned⟩

/-- The owners after a change of one mutex. -/
theorem own_update (mMutex : FiberId W → Option W) (n : Nat) (o : Option W) :
    own cfg (Function.update mMutex (.task n) o) = Function.update (own cfg mMutex) (.task n) o := by
  funext f
  by_cases hf : f = .task n
  · rw [hf, Function.update_self]
    simp [own, Fibers.own]
  · rw [Function.update_of_ne hf]
    cases f with
    | task m => simp only [own, Fibers.own, Function.update_of_ne hf]
    | _ => rfl

theorem stands_run {w : W} {task : Option (Entry (FiberId W) C)} {t : Thread W} {v : View W C} {p : RunPc}
    (hpc : t.pc = .run p) :
    Stands cfg w task t v ↔ InRun cfg w t v ∧ t.stack = home (runner cfg w) ∧
      t.runningFiber = some (runner cfg w) ∧ AtRun task t v p := by
  simp only [Stands, hpc]

theorem InRun.thread {w : W} {t t' : Thread W} {v : View W C} (h : InRun cfg w t v)
    (hs : t'.schedulerFiber = t.schedulerFiber) (hm : t'.mainFiber = t.mainFiber) : InRun cfg w t' v :=
  ⟨hs.trans h.scheduler, hm.trans h.main, h.below⟩

/-- A change that keeps what waits below `run()`. -/
theorem InRun.frame {o : FiberId W → Option W} {fib fib' : FiberId W → Fiber W C} {w : W} {t : Thread W}
    (h : InRun cfg w t (view o fib w))
    (hmain : cfg.root = some w → (fib' (.main w)).last = (fib (.main w)).last)
    (hsched : (fib' .sched).mState = (fib .sched).mState ∧ (fib' .sched).self = (fib .sched).self) :
    InRun cfg w t (view o fib' w) := by
  refine ⟨h.scheduler, h.main, fun hroot => ?_⟩
  obtain ⟨hm, hs⟩ := h.below hroot
  constructor
  · refine hm.frame ?_
    rw [hmain hroot]
    exact id
  · refine hs.frame ?_
    rw [hsched.1, hsched.2]
    exact id

theorem InRun.update {o : FiberId W → Option W} {fib : FiberId W → Fiber W C} {w : W} {t : Thread W} {g : FiberId W}
    {x : Fiber W C} (h : InRun cfg w t (view o fib w)) (hm : g ≠ .main w) (hs : g ≠ .sched) :
    InRun cfg w t (view o (Function.update fib g x) w) := by
  apply h.frame
  · intro _
    rw [Function.update_of_ne hm.symm]
  · rw [Function.update_of_ne hs.symm]
    exact ⟨rfl, rfl⟩

/-- A position of `MainFunc`. -/
theorem stands_main {w : W} {task : Option (Entry (FiberId W) C)} {t : Thread W} {v : View W C} {pc : Pc W}
    (hpc : t.pc = pc) (hmain : pc.InMainFunc) : Stands cfg w task t v ↔ InMain cfg w task t v pc := by
  rcases hmain with rfl | rfl | rfl | rfl | rfl | ⟨x, b, rfl⟩ <;> simp only [Stands, hpc]

/-! ## Moves of one thread -/

/-- The scheduler's part of a step of `w` that takes nothing from the queue. -/
structure BaseKeeps (b b' : Sched.State W E (FiberId W) C) (w : W) : Prop where
  queue : b'.mTasks = b.mTasks
  others : ∀ v, v ≠ w → (b'.worker v).task = (b.worker v).task
  task : ∀ e ∈ (b'.worker w).task, e ∈ (b.worker w).task

theorem BaseKeeps.refl (b : Sched.State W E (FiberId W) C) (w : W) : BaseKeeps b b w :=
  ⟨rfl, fun _ _ => rfl, fun _ he => he⟩

theorem keeps_of_moves {b b' : Sched.State W E (FiberId W) C} {w : W} (h : BaseMoves b b' w) : BaseKeeps b b' w :=
  ⟨h.queue, fun v hv => by rw [h.workers v hv], h.task⟩

/-- A move in `idle()` concerns nobody's task. -/
theorem task_idleTo (b : Sched.State W E (FiberId W) C) (v : W) (pos : Sched.IdlePos) (u : W) :
    ((b.setWorker v { b.worker v with idlePos := pos }).worker u).task = (b.worker u).task := by
  by_cases hu : u = v
  · rw [hu, Sched.State.worker_self]
  · rw [Sched.State.worker_ne _ hu]

theorem task_goto (b : Sched.State W E (FiberId W) C) (v : W) (pc : Sched.Pc) (u : W) :
    ((b.goto v pc).worker u).task = (b.worker u).task := by
  by_cases hu : u = v
  · rw [hu]
    simp
  · simp [hu]

/-- **A thread moves**, and changes fibers that it owns or that nobody owns. -/
theorem Inv.moved (h : Inv cfg s) {s' : State W E C} {w : W} {b : Sched.State W E (FiberId W) C} {t : Thread W}
    {fib : FiberId W → Fiber W C} {r : FiberId W → Nat} {d : FiberId W → Bool}
    (hs : s' = { s with base := b, thread := Function.update s.thread w t, fib := fib, refs := r, dead := d })
    (hb : BaseKeeps s.base b w) (hc : ∀ f ∈ t.cbFiber, f ∈ (s.thread w).cbFiber) (hstatic : Static fib)
    (hctx : Ctx fib) (hcell : ∀ f, fib f = s.fib f ∨ own cfg s.mMutex f = some w ∨
      own cfg s.mMutex f = none ∧ Free f (fib f))
    (hl : Local cfg w ((b.worker w).task, t) (view (own cfg s.mMutex) fib w)) : Inv cfg s' := by
  subst hs
  refine ⟨hstatic, hctx, ?_, ?_⟩
  · refine h.typed.step (Nat.le_refl _) ?_ ?_ ?_ (fun _ hf => Or.inl hf) (fun _ hf => Or.inl hf) (fun _ hn => Or.inl hn)
    · intro e he
      dsimp only at he
      rw [hb.queue] at he
      exact Or.inl he
    · intro v e he
      left
      by_cases hv : v = w
      · subst hv
        exact hb.task e he
      · dsimp only at he
        rwa [hb.others v hv] at he
    · intro v f hf
      left
      by_cases hv : v = w
      · subst hv
        simp only [Function.update_self] at hf
        exact hc f hf
      · simpa only [Function.update_of_ne hv] using hf
  · apply Ownership.Inv.step h.owned w
    · intro v hv
      simp only [hb.others v hv, Function.update_of_ne hv]
    · intro f v hv hf
      refine ⟨hf, ?_⟩
      rcases hcell f with hsame | hown | ⟨hown, -⟩
      · exact hsame
      · exact absurd (Option.some_inj.1 (hf.symm.trans hown)) hv
      · cases hf.symm.trans hown
    · exact fun _ _ hf => Or.inl hf
    · intro f hf
      rcases hcell f with hsame | hown | ⟨-, hfree⟩
      · exact Or.inl ⟨hf, hsame⟩
      · cases hf.symm.trans hown
      · exact Or.inr hfree
    · simp only [Function.update_self]
      exact hl

/-- A thread moves, and no fiber changes. -/
theorem Inv.went (h : Inv cfg s) {s' : State W E C} {w : W} {b : Sched.State W E (FiberId W) C} {t : Thread W}
    {r : FiberId W → Nat} {d : FiberId W → Bool}
    (hs : s' = { s with base := b, thread := Function.update s.thread w t, refs := r, dead := d })
    (hb : BaseKeeps s.base b w) (hc : ∀ f ∈ t.cbFiber, f ∈ (s.thread w).cbFiber)
    (hl : Local cfg w ((b.worker w).task, t) (view (own cfg s.mMutex) s.fib w)) : Inv cfg s' :=
  h.moved hs hb hc h.static h.ctx (fun _ => Or.inl rfl) hl

/-- The scheduler's positions move, and nobody's task. -/
theorem Inv.stood (h : Inv cfg s) {s' : State W E C} {b : Sched.State W E (FiberId W) C}
    (hs : s' = { s with base := b }) (hq : b.mTasks = s.base.mTasks)
    (ht : ∀ w, (b.worker w).task = (s.base.worker w).task) : Inv cfg s' := by
  subst hs
  refine ⟨h.static, h.ctx, ⟨?_, ?_, h.typed.cbs, h.typed.timers, h.typed.users, h.typed.mutex⟩, ?_⟩
  · dsimp only
    rw [hq]
    exact h.typed.queue
  · intro w
    dsimp only
    rw [ht w]
    exact h.typed.tasks w
  · apply Ownership.Inv.mono h.owned
    intro w v hl
    dsimp only
    rw [ht w]
    exact hl

/-- A thread moves, and changes one fiber, which it owns or nobody does. -/
theorem Inv.wrote (h : Inv cfg s) {s' : State W E C} {w : W} {b : Sched.State W E (FiberId W) C} {t : Thread W}
    {f : FiberId W} {x : Fiber W C} {r : FiberId W → Nat} {d : FiberId W → Bool}
    (hs : s' = { s with
      base := b, thread := Function.update s.thread w t, fib := Function.update s.fib f x, refs := r, dead := d })
    (hown : own cfg s.mMutex f = some w ∨ own cfg s.mMutex f = none ∧ Free f x) (hb : BaseKeeps s.base b w)
    (hc : ∀ f ∈ t.cbFiber, f ∈ (s.thread w).cbFiber)
    (hstatic : x.mYieldToSchedulerFiber = inScheduler f ∧ Runs f x.mCb) (hctx : x.mCtx = ⟨home f, x.last⟩)
    (hl : Local cfg w ((b.worker w).task, t) (view (own cfg s.mMutex) (Function.update s.fib f x) w)) : Inv cfg s' := by
  refine h.moved hs hb hc (h.static.update hstatic) (h.ctx.update hctx) ?_ hl
  intro g
  by_cases hg : g = f
  · subst hg
    rw [Function.update_self]
    exact Or.inr hown
  · exact Or.inl (Function.update_of_ne hg _ _)

/-- From one position of `run()` to another. -/
theorem Local.run {w : W} {task task' : Option (Entry (FiberId W) C)} {t : Thread W} {v : View W C} {p p' : RunPc}
    (h : Local cfg w (task, t) v) (hpc : t.pc = .run p)
    (hat : AtRun task t v p → AtRun task' { t with pc := .run p' } v p') :
    Local cfg w (task', { t with pc := .run p' }) v := by
  obtain ⟨hin, hst, hrun, hl⟩ := (stands_run hpc).1 h.2
  exact ⟨h.1, (stands_run rfl).2 ⟨hin.thread rfl rfl, hst, hrun, hat hl⟩⟩

/-! ## Steps outside the workers -/

/-- An entry for a fiber that may be queued. -/
theorem typed_push (h : Typed s) {t : W ⊕ E} {fc : FiberOrCallback (FiberId W) C} {thr : Int}
    (hpass : ∀ f, (ScheduleTask.make fc thr).fiber = some f → Passable s.nextId f) :
    Typed { s with base := Sched.next cfg s.base (.scheduleLock t fc thr) } := by
  refine h.step (Nat.le_refl _) ?_ ?_ (fun _ _ hf => Or.inl hf) (fun _ hf => Or.inl hf) (fun _ hf => Or.inl hf)
    (fun _ hn => Or.inl hn)
  · intro e he
    rcases Sched.mem_next he with he | ⟨t', fc', thr', hact, hmake, hne⟩
    · exact Or.inl he
    · cases hact
      refine Or.inr ⟨hne, fun f hf => hpass f ?_⟩
      rw [← hmake]
      exact hf
  · intro w e he
    dsimp only at he
    exact Sched.task_next he

/-- A thread in `m_cb()` of user code executes a task fiber, that of its task. -/
theorem user_task (h : Inv cfg s) {w : W} (hu : s.inUser w = true) :
    ∃ n, (s.thread w).pc = .body ∧ (s.thread w).stack = .fiber (.task n) ∧ (s.thread w).runningFiber = some (.task n) ∧
      s.target w .task = some (.task n) := by
  unfold State.inUser at hu
  simp only [Bool.and_eq_true, beq_iff_eq] at hu
  obtain ⟨⟨hpc, -⟩, hcode⟩ := hu
  have hstands := h.stands w
  simp only [Stands, hpc] at hstands
  obtain ⟨f, hst, hrun, hat, hunder⟩ := hstands
  unfold State.code at hcode
  rw [hst] at hcode
  have hself : ∀ g ∈ (s.fib f).self, g = f := by
    cases f with
    | idle u => exact (h.loose u).1
    | main u => exact hunder.elim
    | sched | task n =>
      intro g hg
      exact (Option.some_inj.1 ((has_iff.1 hat).2.1.2.symm.trans hg)).symm
  cases hf : (s.fib f).self with
  | none => simp [hf] at hcode
  | some g =>
    obtain rfl := hself g hf
    simp only [hf, Option.bind_some] at hcode
    have hruns := (h.static g).2
    cases g with
    | main u => exact hunder.elim
    | sched => rcases hruns with hcb | hcb <;> rw [hcb] at hcode <;> cases hcode
    | idle u => rcases hruns with hcb | hcb <;> rw [hcb] at hcode <;> cases hcode
    | task n => exact ⟨n, hpc, hst, hrun, hunder.2.2.1⟩

/-- The fiber of the task at hand is a task fiber or an idle fiber. -/
theorem target_passable (h : Typed s) {w : W} {g : FiberId W} (hg : s.target w .task = some g) :
    Passable s.nextId g := by
  unfold State.target Thread.target at hg
  rcases Option.or_eq_some_iff.1 hg with hg | ⟨-, hg⟩
  · obtain ⟨e, he, hf⟩ := Option.bind_eq_some_iff.1 hg
    exact (h.tasks w e he).2 g hf
  · exact Or.inl (h.cbs w g hg)

theorem running_made (h : Inv cfg s) {w : W} (hu : s.inUser w = true) {f : FiberId W}
    (hf : (s.thread w).runningFiber = some f) : Made s.nextId f := by
  obtain ⟨n, -, -, hrun, htarget⟩ := user_task h hu
  rw [hrun] at hf
  cases hf
  rcases target_passable h.typed htarget with hmade | ⟨u, hu⟩
  · exact hmade
  · cases hu

/-- The task at hand matters only inside a branch. -/
theorem Local.task {w : W} {task task' : Option (Entry (FiberId W) C)} {t : Thread W} {v : View W C}
    (h : Local cfg w (task, t) v) (ht : task' = task ∨ t.pc = .run .main) : Local cfg w (task', t) v := by
  rcases ht with ht | hpc
  · rw [ht]
    exact h
  · have hl : Local cfg w (task', { t with pc := .run .main }) v := h.run hpc id
    rwa [show { t with pc := .run .main } = t by rw [← hpc]] at hl

theorem owned_base (h : Owned cfg s) {a : Sched.Act W E (FiberId W) C} (ha : baseGuard s a) :
    Ownership.Inv (Local cfg) Free (own cfg s.mMutex) s.fib
      fun w => (((Sched.next cfg s.base a).worker w).task, s.thread w) := by
  apply Ownership.Inv.mono h
  intro w v hl
  apply hl.task
  by_cases hw : (Sched.next cfg s.base a).worker w = s.base.worker w
  · rw [hw]
    exact Or.inl rfl
  · rcases base_worker ha w hw with ⟨hmain, -⟩ | ⟨-, -, hx⟩
    · exact Or.inr hmain
    · rw [hx]
      exact Or.inl rfl

/-- What is handed to `scheduleLock` has been constructed. -/
theorem pass_made (h : Inv cfg s) {t : W ⊕ E} {fc : FiberOrCallback (FiberId W) C} (thr : Int) {f : FiberId W}
    (hg : mayCall s t ∧ mayPass s t fc) (hf : (ScheduleTask.make fc thr).fiber = some f) : Made s.nextId f :=
  made_of_pass h.typed.users (fun _ _ hu hrun => running_made h hu hrun) hg hf

theorem inv_base (h : Inv cfg s) {a : Sched.Act W E (FiberId W) C} (hg : guard cfg s (.base a)) :
    Inv cfg (next cfg s (.base a)) := by
  obtain ⟨-, ha⟩ := hg
  have htyped : Typed { s with base := Sched.next cfg s.base a } := by
    refine h.typed.step (Nat.le_refl _) ?_ (fun _ _ he => Sched.task_next he) (fun _ _ hf => Or.inl hf)
      (fun _ hf => Or.inl hf) (fun _ hf => Or.inl hf) (fun _ hn => Or.inl hn)
    intro e he
    rcases Sched.mem_next he with he | ⟨t, fc, thr, rfl, hmake, hne⟩
    · exact Or.inl he
    · refine Or.inr ⟨hne, fun f hf => Or.inl (pass_made h thr ha ?_)⟩
      rw [← hmake]
      exact hf
  have howned := owned_base h.owned ha
  simp only [next]
  split
  · exact ⟨h.static, h.ctx, ⟨htyped.queue, htyped.tasks, htyped.cbs, htyped.timers, htyped.users, htyped.mutex⟩, howned⟩
  · rename_i f _
    exact ⟨h.static, h.ctx, htyped.step (Nat.le_refl _) (fun _ he => Or.inl he) (fun _ _ he => Or.inl he)
      (fun _ _ hf => Or.inl hf) (fun _ hf => Or.inl hf) (fun _ hg => Or.inl (users_drop hg))
      (fun _ hn => Or.inl hn), howned⟩
  · exact ⟨h.static, h.ctx, htyped, howned⟩

/-- The next task fiber is nobody's. -/
theorem own_nextId (h : Typed s) : own cfg s.mMutex (.task s.nextId) = none := by
  by_contra hne
  have hlt := h.mutex s.nextId hne
  omega

theorem inv_newFiber (h : Inv cfg s) (c : C) : Inv cfg (next cfg s (.newFiber c)) := by
  refine ⟨h.static.update ⟨rfl, Or.inr ⟨c, rfl⟩⟩, h.ctx.update rfl, ?_, ?_⟩
  · exact h.typed.step (Nat.le_succ _) (fun _ he => Or.inl he) (fun _ _ he => Or.inl he) (fun _ _ hf => Or.inl hf)
      (fun _ hf => Or.inl hf) (fun _ hf => users_take ⟨s.nextId, rfl, Nat.lt_succ_self _⟩ hf) (fun _ hn => Or.inl hn)
  · exact Ownership.Inv.renew h.owned (own_nextId h.typed) (Or.inl ⟨rfl, rfl, rfl⟩)

/-- User code takes or gives up a reference to `f`. -/
theorem Inv.users (h : Inv cfg s) {f : FiberId W} (hf : Made s.nextId f) (refs : FiberId W → Nat)
    (dead : FiberId W → Bool) (n : Nat) :
    Inv cfg { s with refs := refs, dead := dead, userRefs := Function.update s.userRefs f n } := by
  exact ⟨h.static, h.ctx, h.typed.step (Nat.le_refl _) (fun _ he => Or.inl he) (fun _ _ he => Or.inl he)
    (fun _ _ hf => Or.inl hf) (fun _ hf => Or.inl hf) (fun _ hg => users_take hf hg) (fun _ hn => Or.inl hn), h.owned⟩

theorem inv_getRunning (h : Inv cfg s) {w : W} (hg : guard cfg s (.getRunning w)) :
    Inv cfg (next cfg s (.getRunning w)) := by
  simp only [next]
  split
  · exact h.abort _
  · rename_i f hf
    exact h.users (running_made h hg hf) _ _ _

/-- **A timer fires**, whoever has armed it. -/
theorem inv_fire (h : Inv cfg s) (e : E) (i : Nat) : Inv cfg (next cfg s (.fire e i)) := by
  simp only [next]
  split
  · exact h
  · rename_i f hf
    have htyped : Typed { s with base := Sched.next cfg s.base (.scheduleLock (.inr e) (.fiber (some f)) (-1)) } :=
      typed_push h.typed (fun g hg => by cases hg; exact h.typed.timers f (List.mem_of_getElem? hf))
    have howned : (Sched.next cfg s.base (.scheduleLock (.inr e) (.fiber (some f)) (-1))).worker = s.base.worker := rfl
    refine ⟨h.static, h.ctx, ?_, ?_⟩
    · refine ⟨htyped.queue, htyped.tasks, htyped.cbs, ?_, htyped.users, htyped.mutex⟩
      intro g hg
      exact htyped.timers g (List.mem_of_mem_eraseIdx hg)
    · unfold Owned
      simp only [howned]
      exact h.owned

/-- A timer is armed. -/
theorem Inv.arm (h : Inv cfg s) {f : FiberId W} (hf : Passable s.nextId f) :
    Inv cfg { s.hold f with timers := s.timers ++ [f] } := by
  refine ⟨h.static, h.ctx, h.typed.step (Nat.le_refl _) (fun _ he => Or.inl he) (fun _ _ he => Or.inl he)
    (fun _ _ hf => Or.inl hf) ?_ (fun _ hf => Or.inl hf) (fun _ hn => Or.inl hn), h.owned⟩
  intro g hg
  rcases List.mem_append.1 hg with hg | hg
  · exact Or.inl hg
  · rw [List.mem_singleton.1 hg]
    exact Or.inr hf

/-! ## Steps of `run()` -/

theorem inv_enter (h : Inv cfg s) {w : W} (hg : guard cfg s (.enter w)) : Inv cfg (next cfg s (.enter w)) := by
  obtain ⟨⟨hpc, -⟩, -⟩ := hg
  obtain ⟨hin, hst, hrun, hno⟩ := (stands_run hpc).1 (h.stands w)
  refine h.wrote (f := .idle w) rfl (Or.inr ⟨rfl, ?_⟩) (keeps_of_moves (BaseMoves.of rfl rfl fun e he => he))
    (fun f hf => hf) ⟨rfl, Or.inr rfl⟩ rfl ⟨?_, ?_⟩
  · exact ⟨by simp [Fiber.make], by simp [Fiber.make], Or.inl rfl⟩
  · intro i hi
    exact (Option.some_inj.1 hi).symm
  · refine (stands_run (p := .main) (by exact hpc)).2 ⟨?_, hst, hrun, hno.frame⟩
    exact InRun.thread (t := s.thread w) (hin.update (by simp) (by simp)) rfl rfl

theorem inv_top (h : Inv cfg s) {w : W} (hg : guard cfg s (.top w)) : Inv cfg (next cfg s (.top w)) := by
  obtain ⟨⟨hpc, -⟩, -⟩ := hg
  obtain ⟨hin, hst, hrun, hno⟩ := (stands_run hpc).1 (h.stands w)
  exact h.went rfl (keeps_of_moves (BaseMoves.of rfl rfl (by simp))) (fun f hf => hf)
    ⟨(h.local w).1, (stands_run (p := .main) (by exact hpc)).2 ⟨hin.thread rfl rfl, hst, hrun, hno⟩⟩

theorem inv_dispatch (h : Inv cfg s) {w : W} (hg : guard cfg s (.dispatch w)) : Inv cfg (next cfg s (.dispatch w)) := by
  obtain ⟨⟨hpc, -⟩, -⟩ := hg
  have hl := h.local w
  simp only [next]
  split
  · rename_i e he
    have hnext : Sched.next cfg s.base (.dispatch w) = s.base.goto w .exec := by
      simp only [Sched.next, he]
    rw [hnext]
    refine h.went rfl (keeps_of_moves (BaseMoves.of rfl rfl fun _ he => he)) (fun f hf => hf) ?_
    rw [task_goto]
    split_ifs with hf
    · exact hl.run hpc id
    · -- the task has a callback
      have hnone : e.task.fiber = none := by simpa using hf
      have hcb : e.task.callback ≠ none := by
        intro hcb
        have hne := (h.typed.tasks w e he).1
        simp [ScheduleTask.nonEmpty, hnone, hcb] at hne
      refine hl.run hpc (fun hno => ⟨hno, ?_, ?_⟩)
      · rw [he, Option.bind_some]
        exact hnone
      · rw [he, Option.bind_some]
        exact hcb
  · split
    · exact h.abort _
    · exact h.stood rfl rfl (task_goto _ w _)

theorem inv_idleInc (h : Inv cfg s) {w : W} (hg : guard cfg s (.idleInc w)) : Inv cfg (next cfg s (.idleInc w)) := by
  obtain ⟨⟨hpc, -⟩, -⟩ := hg
  exact h.went rfl (keeps_of_moves (BaseMoves.of rfl rfl fun _ he => he)) (fun f hf => hf) ((h.local w).run hpc id)

theorem inv_idleDec (h : Inv cfg s) {w : W} (hg : guard cfg s (.idleDec w)) : Inv cfg (next cfg s (.idleDec w)) := by
  obtain ⟨hpc, -⟩ := hg
  exact h.went rfl (keeps_of_moves (BaseMoves.of rfl rfl fun _ he => he)) (fun f hf => hf) ((h.local w).run hpc id)

theorem inv_reset (h : Inv cfg s) {w : W} (hg : guard cfg s (.reset w)) : Inv cfg (next cfg s (.reset w)) := by
  obtain ⟨⟨hpc, -⟩, -⟩ := hg
  obtain ⟨hin, hst, hrun, hno⟩ := (stands_run hpc).1 (h.stands w)
  have hl : Local cfg w (((Sched.next cfg s.base (.reset w)).worker w).task, { s.thread w with cbFiber := none })
      (view (own cfg s.mMutex) s.fib w) :=
    ⟨(h.local w).1, (stands_run (p := .main) (by exact hpc)).2 ⟨hin.thread rfl rfl, hst, hrun, hno⟩⟩
  have hb : BaseKeeps s.base (Sched.next cfg s.base (.reset w)) w :=
    keeps_of_moves (BaseMoves.of rfl rfl (by simp))
  simp only [next]
  cases s.target w .task with
  | none => exact h.went rfl hb (by simp) hl
  | some f => exact h.went rfl hb (by simp) hl

/-- The fiber of the task at hand rests, and is a task fiber whose mutex the worker holds, or is an idle fiber. -/
theorem holds_target {w : W} {P : FiberId W → Fiber W C → Prop} {g : FiberId W}
    (h : Holds (s.base.worker w).task (s.thread w) (view (own cfg s.mMutex) s.fib w) P)
    (hg : s.target w .task = some g) :
    (∃ n, g = .task n ∧ own cfg s.mMutex g = some w ∧ P g (s.fib g) ∧
      OnlyTask (view (own cfg s.mMutex) s.fib w) g) ∨
    (∃ u, g = .idle u) ∧ NoTask (view (own cfg s.mMutex) s.fib w) := by
  rcases h with ⟨n, htarget, hhas, honly⟩ | ⟨⟨u, htarget⟩, hno⟩
  · obtain rfl : g = .task n := Option.some_inj.1 (hg.symm.trans htarget)
    exact Or.inl ⟨n, rfl, (has_iff.1 hhas).1, (has_iff.1 hhas).2, honly⟩
  · exact Or.inr ⟨⟨u, Option.some_inj.1 (hg.symm.trans htarget)⟩, hno⟩

theorem inv_check (h : Inv cfg s) {w : W} (hg : guard cfg s (.check w)) : Inv cfg (next cfg s (.check w)) := by
  obtain ⟨hpc, -⟩ := hg
  simp only [next]
  split
  · exact h.abort _
  · refine h.went rfl (BaseKeeps.refl _ _) (fun f hf => hf) ?_
    split_ifs <;> exact (h.local w).run hpc id

/-- Main and scheduler fibers have their owner whatever the mutexes are. -/
theorem has_mutex {m m' : FiberId W → Option W} {fib : FiberId W → Fiber W C} {w : W} {f : FiberId W}
    {P : Fiber W C → Prop} (h : Has (view (own cfg m) fib w) f P) (hf : ∀ n, f ≠ .task n) :
    Has (view (own cfg m') fib w) f P := by
  rw [has_iff] at h ⊢
  refine ⟨?_, h.2⟩
  cases f with
  | task n => exact absurd rfl (hf n)
  | _ => exact h.1

theorem InRun.mutex {m m' : FiberId W → Option W} {fib : FiberId W → Fiber W C} {w : W} {t : Thread W}
    (h : InRun cfg w t (view (own cfg m) fib w)) : InRun cfg w t (view (own cfg m') fib w) := by
  refine ⟨h.scheduler, h.main, fun hroot => ?_⟩
  obtain ⟨hmain, hsched⟩ := h.below hroot
  exact ⟨has_mutex hmain (by simp), has_mutex hsched (by simp)⟩

theorem inv_make (h : Inv cfg s) {w : W} (hg : guard cfg s (.make w)) : Inv cfg (next cfg s (.make w)) := by
  obtain ⟨hpc, -⟩ := hg
  obtain ⟨hin, hst, hrun, hno, hnone, -⟩ := (stands_run hpc).1 (h.stands w)
  refine ⟨h.static.update ⟨rfl, ?_⟩, h.ctx.update rfl, ?_, ?_⟩
  · simp only [Fiber.make, Runs]
    cases (s.base.worker w).task.bind fun e => e.task.callback with
    | none => exact Or.inl rfl
    | some c => exact Or.inr ⟨c, rfl⟩
  · refine h.typed.step (Nat.le_succ _) (fun _ he => Or.inl he) (fun _ _ he => Or.inl he) ?_ (fun _ hf => Or.inl hf)
      (fun _ hf => Or.inl hf) ?_
    · intro v f hf
      by_cases hv : v = w
      · simp only [next, State.setThread, hv, Function.update_self, Option.mem_def, Option.some.injEq] at hf
        exact Or.inr ⟨s.nextId, hf.symm, Nat.lt_succ_self _⟩
      · simp only [next, State.setThread, Function.update_of_ne hv] at hf
        exact Or.inl hf
    · intro n hn
      by_cases hnn : n = s.nextId
      · right
        rw [hnn]
        exact Nat.lt_succ_self _
      · simp only [next, Function.update_of_ne (fun he => hnn (FiberId.task.inj he))] at hn
        exact Or.inl hn
  · unfold Owned
    simp only [next, own_update]
    refine Ownership.Inv.acquire h.owned w (own_nextId h.typed) ?_ ?_
    · intro v hv
      simp [hv]
    · simp only [State.setThread, Function.update_self]
      refine ⟨(h.local w).1, (stands_run (p := .set .task) rfl).2 ⟨?_, hst, hrun, Or.inl ⟨s.nextId, ?_, ?_, ?_⟩⟩⟩
      · rw [← own_update]
        exact InRun.thread (t := s.thread w) (hin.mutex.update (by simp) (by simp)) rfl rfl
      · change ((s.base.worker w).task.bind fun e => e.task.fiber).or _ = _
        rw [hnone]
        rfl
      · exact Has.self (Function.update_self ..) (Or.inl ⟨rfl, rfl, rfl⟩)
      · exact (hno.take s.nextId).frame

theorem inv_lock (h : Inv cfg s) {w : W} (hg : guard cfg s (.lock w)) : Inv cfg (next cfg s (.lock w)) := by
  obtain ⟨⟨hpc, -⟩, g, hg, hfree⟩ := hg
  have hg : s.target w .task = some g := hg
  obtain ⟨hin, hst, hrun, hno⟩ := (stands_run hpc).1 (h.stands w)
  have htyped : Typed { s.goto w (.run .check) with mMutex := Function.update s.mMutex g (some w) } := by
    refine h.typed.step (Nat.le_refl _) (fun _ he => Or.inl he) (fun _ _ he => Or.inl he) ?_ (fun _ hf => Or.inl hf)
      (fun _ hf => Or.inl hf) ?_
    · intro v f hf
      left
      rw [← cbFiber_update (f := s.thread) (w := w) (t := { s.thread w with pc := .run .check }) rfl v]
      exact hf
    · intro k hk
      by_cases hkg : FiberId.task k = g
      · rcases target_passable h.typed hg with ⟨m, rfl, hm⟩ | ⟨u, rfl⟩
        · cases hkg
          exact Or.inr hm
        · cases hkg
      · simp only [Function.update_of_ne hkg] at hk
        exact Or.inl hk
  simp only [next, hg]
  refine ⟨h.static, h.ctx, htyped, ?_⟩
  unfold Owned
  rcases target_passable h.typed hg with ⟨n, rfl, hn⟩ | ⟨u, rfl⟩
  · -- a free task fiber becomes the worker's
    have hfree : own cfg s.mMutex (.task n) = none := hfree
    have hcell : s.fib = Function.update s.fib (.task n) (s.fib (.task n)) := (Function.update_eq_self _ _).symm
    simp only [own_update]
    rw [show (State.goto s w (.run .check)).fib = Function.update s.fib (.task n) (s.fib (.task n)) from hcell]
    refine Ownership.Inv.acquire h.owned w hfree ?_ ?_
    · intro v hv
      simp [hv]
    · rw [← hcell]
      simp only [State.goto, State.setThread, Function.update_self]
      refine ⟨(h.local w).1, (stands_run (p := .check) rfl).2 ⟨?_, hst, hrun, Or.inl ⟨n, hg, ?_, hno.take n⟩⟩⟩
      · rw [← own_update]
        exact InRun.thread (t := s.thread w) hin.mutex rfl rfl
      · exact has_iff.2 ⟨Function.update_self .., h.owned.free _ hfree⟩
  · -- the mutex of an idle fiber protects nothing
    have hsame : own cfg (Function.update s.mMutex (.idle u) (some w)) = own cfg s.mMutex := by
      funext f
      cases f <;> simp [own, Fibers.own]
    dsimp only
    rw [hsame]
    refine Ownership.Inv.write h.owned w ?_ (fun _ _ => rfl) ?_
    · intro v hv
      simp [hv]
    · simp only [State.goto, State.setThread, Function.update_self]
      exact ⟨(h.local w).1, (stands_run (p := .check) rfl).2 ⟨hin.thread rfl rfl, hst, hrun, Or.inr ⟨⟨u, hg⟩, hno⟩⟩⟩

theorem inv_set (h : Inv cfg s) {w : W} {k : Branch} (hg : guard cfg s (.set w k)) :
    Inv cfg (next cfg s (.set w k)) := by
  obtain ⟨hpc, -⟩ := hg
  obtain ⟨hin, hst, hrun, hat⟩ := (stands_run hpc).1 (h.stands w)
  simp only [next]
  split
  · exact h.abort _
  · rename_i g hg
    -- an idle fiber is free, whoever sets its state
    have hidle : ∀ u, g = .idle u → AtRun (s.base.worker w).task { s.thread w with pc := .run (.swap k) }
        (view (own cfg s.mMutex) (Function.update s.fib g { s.fib g with mState := .running }) w) (.swap k) →
        Inv cfg ((s.setFiber g { s.fib g with mState := .running }).goto w (.run (.swap k))) := by
      rintro u rfl hat
      refine h.wrote rfl (Or.inr ⟨rfl, (h.loose u).1, (h.loose u).2⟩) (BaseKeeps.refl _ _) (fun f hf => hf)
        (h.static _) (h.ctx _) ⟨(h.local w).1, (stands_run (p := .swap k) rfl).2 ⟨?_, hst, hrun, hat⟩⟩
      exact InRun.thread (t := s.thread w) (hin.update (by simp) (by simp)) rfl rfl
    split_ifs with hready
    · cases k with
      | task =>
        rcases holds_target hat hg with ⟨n, rfl, hown, hrest, honly⟩ | ⟨⟨u, rfl⟩, hno⟩
        · refine h.wrote rfl (Or.inl hown) (BaseKeeps.refl _ _) (fun f hf => hf) (h.static _) (h.ctx _)
            ⟨(h.local w).1, (stands_run (p := .swap .task) rfl).2 ⟨?_, hst, hrun, Or.inl ⟨n, hg, ?_, honly.frame⟩⟩⟩
          · exact InRun.thread (t := s.thread w) (hin.update (by simp) (by simp)) rfl rfl
          · exact Has.self hown (hrest.armed hready)
        · exact hidle u rfl (Or.inr ⟨⟨u, hg⟩, hno.frame⟩)
      | idle => exact hidle w ((h.local w).1 g hg) (NoTask.frame hat)
    · exact h.abort _

/-- A worker in `run()` executes the fiber that `run()` runs in. -/
theorem exec_runner {w : W} {v : View W C} (hin : InRun cfg w (s.thread w) v)
    (hst : (s.thread w).stack = home (runner cfg w)) : s.exec w = some (runner cfg w) := by
  unfold State.exec
  rw [hst]
  unfold runner
  split_ifs
  · rfl
  · exact hin.main

/-- What `run()` resumes yields to the scheduler fiber. -/
theorem partner_run {w : W} {v : View W C} (h : Inv cfg s) (hin : InRun cfg w (s.thread w) v) {g : FiberId W}
    (hg : inScheduler g = true) : s.partner w g = some (runner cfg w) := by
  unfold State.partner
  rw [(h.static g).1, hg, if_pos rfl]
  exact hin.scheduler

theorem inv_swap (h : Inv cfg s) {w : W} {k : Branch} (hg : guard cfg s (.swap w k)) :
    Inv cfg (next cfg s (.swap w k)) := by
  obtain ⟨hpc, -⟩ := hg
  obtain ⟨hin, hst, hrun, hat⟩ := (stands_run hpc).1 (h.stands w)
  simp only [next]
  split
  · exact h.abort _
  · rename_i g hg
    -- the target is the worker's task fiber, armed, or an idle fiber
    have hgoal : (∃ n, g = .task n ∧ k = .task ∧ own cfg s.mMutex g = some w ∧ Armed g (s.fib g) ∧
        OnlyTask (view (own cfg s.mMutex) s.fib w) g) ∨
        (∃ u, g = .idle u) ∧ NoTask (view (own cfg s.mMutex) s.fib w) := by
      cases k with
      | task =>
        rcases holds_target hat hg with ⟨n, hn, hown, harmed, honly⟩ | hidle
        · exact Or.inl ⟨n, hn, rfl, hown, harmed, honly⟩
        · exact Or.inr hidle
      | idle => exact Or.inr ⟨⟨w, (h.local w).1 g hg⟩, hat⟩
    have hsch : inScheduler g = true := by
      rcases hgoal with ⟨n, rfl, -⟩ | ⟨⟨u, rfl⟩, -⟩ <;> rfl
    have hne : g ≠ runner cfg w := by
      rcases hgoal with ⟨n, rfl, -⟩ | ⟨⟨u, rfl⟩, -⟩
      · exact (runner_ne_task cfg w n).symm
      · exact (runner_ne_idle cfg w u).symm
    have hgm : g ≠ .main w ∧ g ≠ .sched := by
      constructor <;> (rintro rfl; cases hsch)
    have hown := own_runner cfg s.mMutex w
    rw [swapIn_eq (h.ctx g) (partner_run h hin hsch) (exec_runner hin hst) hst hne]
    -- what waits below `run()` is not changed by the save
    have hin' : ∀ (x y : Fiber W C), x.mState = (s.fib (runner cfg w)).mState →
        x.self = (s.fib (runner cfg w)).self → InRun cfg w (s.thread w)
          (view (own cfg s.mMutex) (Function.update (Function.update s.fib (runner cfg w) x) g y) w) := by
      intro x y hstate hself
      apply hin.frame
      · intro hroot
        rw [Function.update_of_ne hgm.1.symm, Function.update_of_ne (by simp [runner, hroot])]
      · rw [Function.update_of_ne hgm.2.symm]
        by_cases hrs : runner cfg w = .sched
        · rw [hrs] at hstate hself ⊢
          rw [Function.update_self]
          exact ⟨hstate, hself⟩
        · rw [Function.update_of_ne (Ne.symm hrs)]
          exact ⟨rfl, rfl⟩
    refine h.moved rfl (BaseKeeps.refl _ _) (fun f hf => hf) ((h.static.update ?_).update ?_)
      ((h.ctx.update rfl).update (h.ctx g)) ?_ ⟨(h.local w).1, ?_⟩
    · exact h.static (runner cfg w)
    · exact h.static g
    · intro f
      by_cases hfg : f = g
      · subst hfg
        rw [Function.update_self]
        rcases hgoal with ⟨n, -, -, hown', -⟩ | ⟨⟨u, rfl⟩, -⟩
        · exact Or.inr (Or.inl hown')
        · exact Or.inr (Or.inr ⟨rfl, (h.loose u).1, (h.loose u).2⟩)
      · rw [Function.update_of_ne hfg]
        by_cases hfr : f = runner cfg w
        · rw [hfr]
          exact Or.inr (Or.inl hown)
        · exact Or.inl (Function.update_of_ne hfr _ _)
    · rcases hgoal with ⟨n, rfl, rfl, hown', harmed, honly⟩ | ⟨⟨u, rfl⟩, hno⟩
      · have hlive := harmed.live
        have hpc : (s.fib (.task n)).last.InMainFunc := by
          rcases harmed.2 with ⟨hl, -⟩ | ⟨hl, -⟩ <;> simp [hl, Pc.InMainFunc]
        refine (stands_main rfl hpc).2 ⟨.task n, rfl, rfl, Has.self hown' ⟨hlive, ?_⟩, ?_, honly.frame, hg,
          (s.thread w).iter, ?_⟩
        · intro hpc
          rcases harmed.2 with ⟨hl, -⟩ | ⟨hl, -⟩ <;> cases hl.symm.trans hpc
        · exact InRun.thread (t := s.thread w) (hin' _ _ rfl rfl) rfl rfl
        · refine (Has.self (o := own cfg s.mMutex) hown ?_).update hne.symm
          rfl
      · have hunder : Under cfg w (s.base.worker w).task { s.thread w with
            stack := .fiber (.idle u)
            pc := (s.fib (.idle u)).last
            runningFiber := some (.idle u) } (view (own cfg s.mMutex) (Function.update (Function.update s.fib
              (runner cfg w) { s.fib (runner cfg w) with
                mCtx := ⟨home (runner cfg w), .run (.back k (s.thread w).iter)⟩
                last := .run (.back k (s.thread w).iter) }) (.idle u) { s.fib (.idle u) with
                resumer := some ⟨home (runner cfg w), .run (.back k (s.thread w).iter)⟩, started := true }) w)
            (.idle u) := by
          refine ⟨InRun.thread (t := s.thread w) (hin' _ _ rfl rfl) rfl rfl, hno.frame, k, (s.thread w).iter, ?_, ?_⟩
          · refine (Has.self (o := own cfg s.mMutex) hown ?_).update hne.symm
            rfl
          · rintro rfl
            exact hg
        have hlast := (h.loose u).2.2
        rcases hlast with hlast | hlast | hlast
        · refine (stands_main (show _ = Pc.entry from hlast) (by simp [Pc.InMainFunc])).2
            ⟨.idle u, rfl, rfl, ?_, hunder⟩
          intro g b hpc
          cases hpc
        · refine (stands_main (show _ = Pc.body from hlast) (by simp [Pc.InMainFunc])).2 ⟨.idle u, rfl, rfl, ?_, hunder⟩
          intro g b hpc
          cases hpc
        · simp only [Stands, hlast]
          exact ⟨⟨u, rfl⟩, hno.frame⟩

theorem inv_unlock (h : Inv cfg s) {w : W} (hg : guard cfg s (.unlock w)) : Inv cfg (next cfg s (.unlock w)) := by
  have hl : InRun cfg w (s.thread w) (view (own cfg s.mMutex) s.fib w) ∧ (s.thread w).stack = home (runner cfg w) ∧
      (s.thread w).runningFiber = some (runner cfg w) ∧
      Holds (s.base.worker w).task (s.thread w) (view (own cfg s.mMutex) s.fib w) Rest := by
    rcases hg with ⟨hpc, -⟩ | ⟨hpc, -⟩ <;> exact (stands_run hpc).1 (h.stands w)
  obtain ⟨hin, hst, hrun, hholds⟩ := hl
  have hb : BaseKeeps s.base (Sched.next cfg s.base (.finish w)) w :=
    keeps_of_moves (BaseMoves.of rfl rfl (fun _ he => he))
  simp only [next]
  split
  · exact h.abort _
  · rename_i g hg
    refine ⟨h.static, h.ctx, ?_, ?_⟩
    · refine h.typed.step (Nat.le_refl _) ?_ ?_ ?_ (fun _ hf => Or.inl hf) (fun _ hf => Or.inl hf) ?_
      · intro e he
        dsimp only at he
        rw [hb.queue] at he
        exact Or.inl he
      · intro v e he
        dsimp only at he
        rw [show ((Sched.next cfg s.base (.finish w)).worker v).task = _ from task_goto s.base w .decr v] at he
        exact Or.inl he
      · intro v f hf
        left
        rw [← cbFiber_update (f := s.thread) (w := w) (t := { s.thread w with pc := .run .main }) rfl v]
        exact hf
      · intro m hm
        left
        by_cases hmg : FiberId.task m = g
        · subst hmg
          simp at hm
        · simpa only [Function.update_of_ne hmg] using hm
    · unfold Owned
      have hth : ∀ v, v ≠ w → (((Sched.next cfg s.base (.finish w)).worker v).task,
          Function.update s.thread w { s.thread w with pc := .run .main } v) =
          ((s.base.worker v).task, s.thread v) := by
        intro v hv
        rw [hb.others v hv, Function.update_of_ne hv]
      rcases holds_target hholds hg with ⟨n, rfl, hown, hrest, honly⟩ | ⟨⟨u, rfl⟩, hno⟩
      · simp only [own_update]
        refine Ownership.Inv.release h.owned w hown hrest hth ?_
        simp only [State.goto, State.setThread, Function.update_self]
        refine ⟨(h.local w).1, (stands_run (p := .main) rfl).2 ⟨?_, hst, hrun, honly.give⟩⟩
        rw [← own_update]
        exact InRun.thread (t := s.thread w) hin.mutex rfl rfl
      · have hsame : own cfg (Function.update s.mMutex (.idle u) none) = own cfg s.mMutex := by
          funext f
          cases f <;> simp [own, Fibers.own]
        dsimp only
        rw [hsame]
        refine Ownership.Inv.write h.owned w hth (fun _ _ => rfl) ?_
        simp only [State.goto, State.setThread, Function.update_self]
        exact ⟨(h.local w).1, (stands_run (p := .main) rfl).2 ⟨hin.thread rfl rfl, hst, hrun, hno⟩⟩

/-! ## The code on a fiber's stack -/

/-- Whom the code of a fiber names: nobody but the fiber. -/
theorem live_self {f : FiberId W} {x : Fiber W C} {pc : Pc W} (h : Live f x pc) : ∀ g ∈ x.self, g = f := by
  have hcases : x.self = none ∨ x.self = some f := by
    cases pc with
    | entry => exact Or.inl h.2
    | body | setTerm | dropSelf => exact Or.inr h.2
    | last => exact Or.inl h.2.1
    | yield g b =>
      cases b with
      | false => exact Or.inr h.2.2
      | true => exact Or.inl h.2.2
    | _ => exact h.elim
  intro g hg
  rcases hcases with hself | hself <;> rw [hself] at hg <;> cases hg
  rfl

/-- What a thread in `MainFunc` executes. -/
theorem InMain.facts {w : W} {pc : Pc W} (h : Inv cfg s)
    (hm : InMain cfg w (s.base.worker w).task (s.thread w) (view (own cfg s.mMutex) s.fib w) pc) :
    ∃ f, (s.thread w).stack = .fiber f ∧ (s.thread w).runningFiber = some f ∧ (∀ g ∈ (s.fib f).self, g = f) ∧
      (pc = .last → ∀ g ∈ (s.fib f).rawPtr, g = f) ∧ (∀ g b, pc = .yield g b → g = f) := by
  obtain ⟨f, hst, hrun, hat, hunder⟩ := hm
  refine ⟨f, hst, hrun, ?_⟩
  cases f with
  | main u => exact hunder.elim
  | idle u => exact ⟨(h.loose u).1, fun _ => (h.loose u).2.1, hat⟩
  | sched | task n =>
    obtain ⟨-, hlive, -⟩ := has_iff.1 hat
    refine ⟨live_self hlive, ?_, ?_⟩
    · rintro rfl g hg
      exact (Option.some_inj.1 (hlive.2.2.symm.trans hg)).symm
    · rintro g b rfl
      exact hlive.yield_eq

/-- **A step of the code on a fiber's stack** that changes the fiber itself only. -/
theorem Inv.inMain (h : Inv cfg s) {s' : State W E C} {w : W} {pc pc' : Pc W} {f : FiberId W} {y : Fiber W C}
    {b : Sched.State W E (FiberId W) C} {refs : FiberId W → Nat} {dead : FiberId W → Bool}
    (hs : s' = { s with
      base := b
      thread := Function.update s.thread w { s.thread w with pc := pc' }
      fib := Function.update s.fib f y, refs := refs, dead := dead })
    (hm : InMain cfg w (s.base.worker w).task (s.thread w) (view (own cfg s.mMutex) s.fib w) pc)
    (hrun : (s.thread w).runningFiber = some f) (hq : b.mTasks = s.base.mTasks)
    (ht : ∀ v, (b.worker v).task = (s.base.worker v).task) (hpc : pc'.InMainFunc)
    (hlive : Code f (s.fib f) pc → Code f y pc') (hloose : Loose f (s.fib f) → Loose f y)
    (hyield : ∀ g b, pc' = .yield g b → g = f)
    (hstatic : y.mYieldToSchedulerFiber = (s.fib f).mYieldToSchedulerFiber ∧ (y.mCb = (s.fib f).mCb ∨ y.mCb = none))
    (hctx : y.mCtx = (s.fib f).mCtx ∧ y.last = (s.fib f).last) : Inv cfg s' := by
  obtain ⟨g, hst, hrun', hat, hunder⟩ := hm
  obtain rfl : f = g := Option.some_inj.1 (hrun.symm.trans hrun')
  have hb : BaseKeeps s.base b w := ⟨hq, fun v _ => ht v, fun e he => by rwa [ht w] at he⟩
  have hstatic' : y.mYieldToSchedulerFiber = inScheduler f ∧ Runs f y.mCb := by
    refine ⟨hstatic.1.trans (h.static f).1, ?_⟩
    rcases hstatic.2 with hcb | hcb
    · rw [hcb]
      exact (h.static f).2
    · rw [hcb]
      cases f with
      | main u => rfl
      | sched | idle u | task n => exact Or.inl rfl
  have hctx' : y.mCtx = ⟨home f, y.last⟩ := by
    rw [hctx.1, hctx.2]
    exact h.ctx f
  cases f with
  | main u => exact hunder.elim
  | sched =>
    obtain ⟨hroot, hs', hmain, hno, hback⟩ := hunder
    obtain ⟨hown, hl⟩ := has_iff.1 hat
    refine h.wrote hs (Or.inl hown) hb (fun f hf => hf) hstatic' hctx' ⟨(h.local w).1, ?_⟩
    refine (stands_main rfl hpc).2 ⟨.sched, hst, hrun, Has.self hown (hlive hl), hroot, hs', hmain, hno.frame, ?_⟩
    exact hback.update (by simp)
  | idle u =>
    obtain ⟨hin, hno, k, n, hback, hk⟩ := hunder
    refine h.wrote hs (Or.inr ⟨rfl, hloose (h.loose u)⟩) hb (fun f hf => hf) hstatic' hctx' ⟨(h.local w).1, ?_⟩
    refine (stands_main rfl hpc).2 ⟨.idle u, hst, hrun, hyield, ?_, hno.frame, k, n, ?_, ?_⟩
    · exact InRun.thread (t := s.thread w) (hin.update (by simp) (by simp)) rfl rfl
    · exact hback.update (runner_ne_idle cfg w u)
    · rw [ht w]
      exact hk
  | task n =>
    obtain ⟨hin, honly, htarget, i, hback⟩ := hunder
    obtain ⟨hown, hl⟩ := has_iff.1 hat
    refine h.wrote hs (Or.inl hown) hb (fun f hf => hf) hstatic' hctx' ⟨(h.local w).1, ?_⟩
    refine (stands_main rfl hpc).2 ⟨.task n, hst, hrun, Has.self hown (hlive hl), ?_, honly.frame, ?_, i, ?_⟩
    · exact InRun.thread (t := s.thread w) (hin.update (by simp) (by simp)) rfl rfl
    · rw [ht w]
      exact htarget
    · exact hback.update (runner_ne_task cfg w n)

/-- A thread's position in `MainFunc`. -/
theorem inMain_of_pc (h : Inv cfg s) {w : W} {pc : Pc W} (hpc : (s.thread w).pc = pc) (hmain : pc.InMainFunc) :
    InMain cfg w (s.base.worker w).task (s.thread w) (view (own cfg s.mMutex) s.fib w) pc :=
  (stands_main hpc hmain).1 (h.stands w)

theorem inv_entry (h : Inv cfg s) {w : W} (hg : guard cfg s (.entry w)) : Inv cfg (next cfg s (.entry w)) := by
  have hm := inMain_of_pc h hg.1 (by simp [Pc.InMainFunc])
  obtain ⟨f, hst, hrun, -⟩ := hm.facts h
  simp only [next, hst, hrun]
  refine h.inMain rfl hm hrun rfl (fun _ => rfl) (by simp [Pc.InMainFunc]) ?_ ?_ ?_ ⟨rfl, Or.inl rfl⟩ ⟨rfl, rfl⟩
  · rintro ⟨⟨hstate, -⟩, -⟩
    exact ⟨⟨hstate, rfl⟩, by simp⟩
  · rintro ⟨-, hraw, hlast⟩
    exact ⟨fun g hg => (Option.some_inj.1 hg).symm, hraw, hlast⟩
  · intro g b hpc
    cases hpc

/-- `m_cb()` returns into `MainFunc`. -/
theorem inv_endCb (h : Inv cfg s) {w : W} (hpc : (s.thread w).pc = .body) : Inv cfg (s.endCb w) := by
  have hm := inMain_of_pc h hpc (by simp [Pc.InMainFunc])
  obtain ⟨f, hst, hrun, hself, -⟩ := hm.facts h
  unfold State.endCb
  rw [hst]
  dsimp only
  split
  · exact h.abort _
  · rename_i x hx
    obtain rfl := hself x hx
    refine h.inMain rfl hm hrun rfl (fun _ => rfl) (by simp [Pc.InMainFunc]) (fun hl => ⟨hl.1, fun _ => rfl⟩) id ?_
      ⟨rfl, Or.inr rfl⟩ ⟨rfl, rfl⟩
    intro g b hpc
    cases hpc

/-- The first half of `yield()`, called in the callback or at its end. -/
theorem inv_callYield (h : Inv cfg s) {w : W} {pc : Pc W} (hpc : (s.thread w).pc = pc) (hmain : pc.InMainFunc)
    {f : FiberId W} (hrun : (s.thread w).runningFiber = some f) {ended : Bool}
    (hlive : Live f (s.fib f) pc → Live f { s.fib f with mState := if (s.fib f).mState = .term then .term else .ready }
      (.yield f ended)) : Inv cfg (s.callYield w f ended) := by
  have hm := inMain_of_pc h hpc hmain
  unfold State.callYield
  split
  · exact h.abort _
  · refine h.inMain rfl hm hrun rfl (fun _ => rfl) (by simp [Pc.InMainFunc]) (fun hl => ⟨hlive hl.1, by simp⟩)
      id ?_ ⟨rfl, Or.inl rfl⟩ ⟨rfl, rfl⟩
    intro g b hyield
    cases hyield
    rfl

theorem inv_yieldRunning (h : Inv cfg s) {w : W} (hpc : (s.thread w).pc = .body) : Inv cfg (s.yieldRunning w) := by
  unfold State.yieldRunning
  split
  · exact h.abort _
  · rename_i f hf
    refine inv_callYield h hpc (by simp [Pc.InMainFunc]) hf ?_
    rintro ⟨hstate, hself⟩
    refine ⟨rfl, ?_, hself⟩
    simp [hstate]

theorem inv_sleep (h : Inv cfg s) {w : W} (hg : guard cfg s (.sleep w)) : Inv cfg (next cfg s (.sleep w)) := by
  simp only [next, State.addTimer]
  split
  · exact h.abort _
  · rename_i f hf
    exact h.arm (Or.inl (running_made h hg hf))

theorem inv_idle (h : Inv cfg s) {w : W} (hg : guard cfg s (.idle w)) : Inv cfg (next cfg s (.idle w)) := by
  obtain ⟨⟨hpc, -⟩, -, hidler⟩ := hg
  obtain ⟨f, hst, hrun, -⟩ := (inMain_of_pc h hpc (by simp [Pc.InMainFunc])).facts h
  have hstood : ∀ v pos, Inv cfg (s.idleTo v pos) := fun v pos => h.stood rfl rfl (task_idleTo s.base v pos)
  simp only [next]
  split
  · exact h
  · rename_i v hv
    split
    · exact hstood _ _
    · split_ifs
      · -- the hooked `sleep` arms a timer for whatever idle fiber runs here
        have hf : f = .idle v := eq_idle_of_idler hst hv
        simp only [State.addTimer, hrun]
        exact inv_yieldRunning (h.arm (Or.inr ⟨v, hf⟩)) hpc
      · exact hstood _ _
    · exact inv_yieldRunning h hpc
    · exact inv_endCb h hpc
    · exact h

theorem inv_setTerm (h : Inv cfg s) {w : W} (hg : guard cfg s (.setTerm w)) : Inv cfg (next cfg s (.setTerm w)) := by
  have hm := inMain_of_pc h hg.1 (by simp [Pc.InMainFunc])
  obtain ⟨f, hst, hrun, hself, -⟩ := hm.facts h
  have hterm : Code f (s.fib f) .setTerm → Code f { s.fib f with mState := .term } .dropSelf := by
    rintro ⟨⟨-, hself⟩, -⟩
    exact ⟨⟨rfl, hself⟩, by simp⟩
  have hyield : ∀ (g : FiberId W) b, Pc.dropSelf = .yield g b → g = f := by
    intro g b hpc
    cases hpc
  simp only [next]
  rw [hst]
  dsimp only
  split
  · exact h.abort _
  · rename_i x hx
    obtain rfl := hself x hx
    split
    · exact h.inMain rfl hm hrun rfl (fun _ => rfl) (by simp [Pc.InMainFunc]) hterm id hyield ⟨rfl, Or.inl rfl⟩
        ⟨rfl, rfl⟩
    · exact h.inMain rfl hm hrun rfl (task_idleTo _ _ _) (by simp [Pc.InMainFunc]) hterm id hyield ⟨rfl, Or.inl rfl⟩
        ⟨rfl, rfl⟩

theorem inv_dropSelf (h : Inv cfg s) {w : W} (hg : guard cfg s (.dropSelf w)) : Inv cfg (next cfg s (.dropSelf w)) := by
  have hm := inMain_of_pc h hg.1 (by simp [Pc.InMainFunc])
  obtain ⟨f, hst, hrun, hself, -⟩ := hm.facts h
  obtain ⟨refs, dead, hdrop⟩ := dropAny_eq s (s.fib f).self
  simp only [next, hst, hdrop]
  refine h.inMain rfl hm hrun rfl (fun _ => rfl) (by simp [Pc.InMainFunc]) ?_ ?_ ?_ ⟨rfl, Or.inl rfl⟩
    ⟨rfl, rfl⟩
  · rintro ⟨⟨hstate, hself⟩, -⟩
    exact ⟨⟨hstate, rfl, hself⟩, by simp⟩
  · rintro ⟨hself, -, hlast⟩
    exact ⟨by simp, hself, hlast⟩
  · intro g b hpc
    cases hpc

theorem inv_last (h : Inv cfg s) {w : W} (hg : guard cfg s (.last w)) : Inv cfg (next cfg s (.last w)) := by
  have hm := inMain_of_pc h hg.1 (by simp [Pc.InMainFunc])
  obtain ⟨f, hst, hrun, -, hraw, -⟩ := hm.facts h
  simp only [next, hst]
  split
  · exact h.abort _
  · rename_i x hx
    obtain rfl := hraw rfl x hx
    refine inv_callYield h hg.1 (by simp [Pc.InMainFunc]) hrun ?_
    rintro ⟨hstate, hself, -⟩
    refine ⟨rfl, ?_, hself⟩
    simp [hstate]

/-- **The thread behind the switch of `yield()`** stands where its `resume()` was called. -/
theorem local_yswap (h : Inv cfg s) {w : W} {f r : FiberId W} {ended : Bool} (hst : (s.thread w).stack = .fiber f)
    (hat : At (view (own cfg s.mMutex) s.fib w) f (.yield f ended))
    (hunder : Under cfg w (s.base.worker w).task (s.thread w) (view (own cfg s.mMutex) s.fib w) f)
    (hr : s.partner w f = some r) (c : Cont W) :
    r ≠ f ∧ Local cfg w ((s.base.worker w).task,
      { s.thread w with stack := home r, pc := (s.fib r).last, runningFiber := some r })
      (view (own cfg s.mMutex)
        (Function.update s.fib f { s.fib f with mCtx := c, last := if ended then .exited else .body }) w) := by
  unfold State.partner at hr
  rw [(h.static f).1] at hr
  cases f with
  | main u => exact hunder.elim
  | sched =>
    obtain ⟨hroot, hs, hm, hno, hback⟩ := hunder
    obtain rfl : FiberId.main w = r := Option.some_inj.1 (hm.symm.trans hr)
    obtain ⟨hown, hlive, -⟩ := has_iff.1 hat
    refine ⟨by simp, (h.local w).1, ?_⟩
    simp only [Stands, (has_iff.1 hback).2]
    exact ⟨hroot, rfl, hm, hs, hno.frame, Has.self hown (hlive.rest c)⟩
  | idle u =>
    obtain ⟨hin, hno, k, n, hback, hk⟩ := hunder
    obtain rfl : runner cfg w = r := Option.some_inj.1 (hin.scheduler.symm.trans hr)
    refine ⟨runner_ne_idle cfg w u, (h.local w).1, (stands_run (has_iff.1 hback).2).2 ⟨?_, rfl, rfl, ?_⟩⟩
    · exact InRun.thread (t := s.thread w) (hin.update (by simp) (by simp)) rfl rfl
    · cases k with
      | task => exact Or.inr ⟨⟨u, hk rfl⟩, hno.frame⟩
      | idle => exact hno.frame
  | task n =>
    obtain ⟨hin, honly, htarget, i, hback⟩ := hunder
    obtain rfl : runner cfg w = r := Option.some_inj.1 (hin.scheduler.symm.trans hr)
    obtain ⟨hown, hlive, -⟩ := has_iff.1 hat
    refine ⟨runner_ne_task cfg w n, (h.local w).1, (stands_run (p := .back .task i) (has_iff.1 hback).2).2
      ⟨?_, rfl, rfl, Or.inl ⟨n, htarget, ?_, honly.frame⟩⟩⟩
    · exact InRun.thread (t := s.thread w) (hin.update (by simp) (by simp)) rfl rfl
    · exact Has.self hown (hlive.rest c)

/-- A fiber that has come to its `yield()` is the one on its thread's stack, and runs as the runner or under it. -/
theorem yields (h : Inv cfg s) {w : W} {x : FiberId W} {ended : Bool} (hpc : (s.thread w).pc = .yield x ended) :
    (s.thread w).stack = .fiber x ∧ home x = .fiber x ∧ s.exec w = some x ∧
      At (view (own cfg s.mMutex) s.fib w) x (.yield x ended) ∧
      Under cfg w (s.base.worker w).task (s.thread w) (view (own cfg s.mMutex) s.fib w) x := by
  have hm := inMain_of_pc h hpc (by simp [Pc.InMainFunc])
  obtain ⟨f, hst, -, -, -, hyield⟩ := hm.facts h
  obtain rfl := hyield x ended rfl
  obtain ⟨g, hst', -, hat, hunder⟩ := hm
  obtain rfl : x = g := Stack.fiber.inj (hst.symm.trans hst')
  refine ⟨hst, ?_, ?_, hat, hunder⟩
  · cases x with
    | main u => exact hunder.elim
    | sched | idle u | task n => rfl
  · unfold State.exec
    rw [hst]

theorem inv_yswap (h : Inv cfg s) (w : W) : Inv cfg (next cfg s (.yswap w)) := by
  simp only [next]
  split
  · rename_i x ended hpc
    split
    · exact h.abort _
    · rename_i r hr
      obtain ⟨hst, hhome, hexec, hat, hunder⟩ := yields h hpc
      obtain ⟨hne, hl⟩ := local_yswap h hst hat hunder hr ⟨home x, if ended then .exited else .body⟩
      rw [switchTo_eq (h.ctx r) hexec (hst.trans hhome.symm) hne]
      -- the fiber saves itself, and is the thread's own or an idle fiber
      have hgo : ∀ b : Sched.State W E (FiberId W) C, b.mTasks = s.base.mTasks →
          (∀ v, (b.worker v).task = (s.base.worker v).task) → Inv cfg { s with
            base := b
            fib := Function.update s.fib x { s.fib x with
              mCtx := ⟨home x, if ended then .exited else .body⟩, last := if ended then .exited else .body }
            thread := Function.update s.thread w
              { s.thread w with stack := home r, pc := (s.fib r).last, runningFiber := some r } } := by
        intro b hq ht
        refine h.wrote rfl ?_ ⟨hq, fun v _ => ht v, fun e he => by rwa [ht w] at he⟩ (fun f hf => hf) (h.static x) rfl
          ?_
        · cases x with
          | main u => exact hunder.elim
          | idle u =>
            refine Or.inr ⟨rfl, (h.loose u).1, (h.loose u).2.1, ?_⟩
            cases ended with
            | false => exact Or.inr (Or.inl rfl)
            | true => exact Or.inr (Or.inr rfl)
          | sched | task n => exact Or.inl (has_iff.1 hat).1
        · rw [ht w]
          exact hl
      split
      · exact hgo s.base rfl (fun _ => rfl)
      · by_cases hidle : (s.base.worker w).pc = .idle
        · simp only [if_pos hidle]
          refine hgo _ rfl (fun v => ?_)
          rw [task_goto]
          exact task_idleTo s.base _ _ v
        · simp only [if_neg hidle]
          exact hgo _ rfl (task_idleTo s.base _ _)
  · exact h

/-! ## Around `run()` -/

theorem inv_prologue (h : Inv cfg s) {w : W} (hg : guard cfg s (.prologue w)) : Inv cfg (next cfg s (.prologue w)) := by
  obtain ⟨-, hpc⟩ := hg
  simp only [next]
  split_ifs with hunborn
  · have hl := h.stands w
    simp only [Stands, hunborn] at hl
    obtain ⟨hroot, hst, hno⟩ := hl
    have hrunner : runner cfg w = .main w := if_neg hroot
    refine h.wrote (f := .main w) rfl (Or.inl rfl) (BaseKeeps.refl _ _) (fun f hf => hf) ⟨rfl, rfl⟩ rfl
      ⟨(h.local w).1, (stands_run (p := .main) rfl).2 ⟨⟨?_, rfl, fun hn => absurd hn hroot⟩, ?_, ?_, hno.frame⟩⟩
    · rw [hrunner]
    · rw [hrunner]
      exact hst
    · rw [hrunner]
  · obtain ⟨⟨hpc, -⟩, hcode⟩ := hpc.resolve_left hunborn
    obtain ⟨f, hst, hrun, hat, hunder⟩ := inMain_of_pc h hpc (by simp [Pc.InMainFunc])
    -- only `m_schedulerFiber` runs `run()`
    have hsched : f = .sched := by
      unfold State.code at hcode
      rw [hst] at hcode
      obtain ⟨g, hg, hcb⟩ := Option.bind_eq_some_iff.1 hcode
      have hgf : g = f := by
        cases f with
        | main u => exact hunder.elim
        | idle u => exact (h.loose u).1 g hg
        | sched | task n => exact live_self (has_iff.1 hat).2.1 g hg
      have hruns := (h.static g).2
      rw [hcb] at hruns
      rw [← hgf]
      cases g with
      | sched => rfl
      | main u | idle u | task n => simp [Runs] at hruns
    subst hsched
    obtain ⟨hroot, hs, hmain, hno, hback⟩ := hunder
    have hrunner : runner cfg w = .sched := if_pos hroot
    refine h.went rfl (BaseKeeps.refl _ _) (fun f hf => hf) ⟨(h.local w).1, (stands_run (p := .main) rfl).2
      ⟨⟨?_, hmain, fun _ => ⟨hback, hat.imp fun _ hy => hy.1⟩⟩, ?_, ?_, hno⟩⟩
    · rw [hrunner]
      exact hs
    · rw [hrunner]
      exact hst
    · rw [hrunner]
      exact hrun

theorem inv_leave (h : Inv cfg s) {w : W} (hg : guard cfg s (.leave w)) : Inv cfg (next cfg s (.leave w)) := by
  obtain ⟨⟨hpc, -⟩, -⟩ := hg
  obtain ⟨hin, hst, hrun, hno⟩ := (stands_run hpc).1 (h.stands w)
  obtain ⟨refs, dead, hdrop⟩ := dropAny_eq s (s.thread w).idleFiber
  simp only [next, hdrop]
  by_cases hroot : cfg.root = some w
  · -- the caller thread, on the stack of `m_schedulerFiber`
    have hrunner : runner cfg w = .sched := if_pos hroot
    have hs := hin.scheduler
    rw [hrunner] at hst hs hrun
    obtain ⟨hback, hsched⟩ := hin.below hroot
    obtain ⟨hown, hstate, hself⟩ := has_iff.1 hsched
    have hst : (s.thread w).stack = .fiber .sched := hst
    rw [hst]
    unfold State.endCb
    simp only [State.setThread, Function.update_self]
    split
    · rename_i hnone
      rw [hself] at hnone
      cases hnone
    · rename_i x hx
      obtain rfl : FiberId.sched = x := Option.some_inj.1 (hself.symm.trans hx)
      refine h.wrote (f := .sched) (b := s.base) (t := { s.thread w with idleFiber := none, pc := .setTerm })
        (x := { s.fib .sched with mCb := none }) (r := refs) (d := dead) ?_ (Or.inl hown) (BaseKeeps.refl _ _)
        (fun f hf => hf) ⟨(h.static _).1, Or.inl rfl⟩ (h.ctx .sched) ⟨by simp, ?_⟩
      · simp [hst]
      · refine (stands_main (show _ = Pc.setTerm from rfl) (by simp [Pc.InMainFunc])).2
          ⟨.sched, hst, hrun, ?_, hroot, hs, hin.main, hno.frame, hback.update (by simp)⟩
        exact Has.self hown ⟨⟨hstate, hself⟩, fun _ => rfl⟩
  · have hrunner : runner cfg w = .main w := if_neg hroot
    rw [hrunner] at hst
    have hst : (s.thread w).stack = .native w := hst
    rw [hst]
    refine h.went (b := s.base) (t := { s.thread w with idleFiber := none, pc := .gone }) (r := refs) (d := dead) ?_
      (BaseKeeps.refl _ _) (fun f hf => hf) ⟨by simp, hno⟩
    simp [hst]

/-- The state in `m_schedulerFiber->resume()`, before its switch. -/
def runSched (s : State W E C) : State W E C := s.setFiber .sched { s.fib .sched with mState := .running }

/-- **The switch of `m_schedulerFiber->resume()`** in `stop()`. -/
theorem swap_stop (h : Inv cfg s) {w : W} (hpc : (s.thread w).pc = .native) :
    (runSched s).swapIn w .sched .stopBack = { runSched s with
      fib := Function.update (Function.update (runSched s).fib (.main w)
        { (runSched s).fib (.main w) with mCtx := ⟨home (.main w), .stopBack⟩, last := .stopBack }) .sched
        { (runSched s).fib .sched with resumer := some ⟨home (.main w), .stopBack⟩, started := true }
      thread := Function.update (runSched s).thread w { (runSched s).thread w with
        stack := home .sched, pc := ((runSched s).fib .sched).last, runningFiber := some .sched } } := by
  have hl := h.stands w
  simp only [Stands, hpc] at hl
  obtain ⟨-, hst, hmain, -⟩ := hl
  have hpartner : (runSched s).partner w .sched = some (.main w) := by
    simp only [runSched, State.partner, State.setFiber, Function.update_self, (h.static .sched).1]
    exact hmain
  have hexec : (runSched s).exec w = some (.main w) := by
    simp only [runSched, State.exec, State.setFiber, hst]
    exact hmain
  refine swapIn_eq ?_ hpartner hexec hst (by simp)
  simp only [runSched, State.setFiber, Function.update_self]
  exact h.ctx .sched

theorem inv_stopResume (h : Inv cfg s) {e : E} (hg : guard cfg s (.stopResume e)) :
    Inv cfg (next cfg s (.stopResume e)) := by
  obtain ⟨-, hnative⟩ := hg
  simp only [next]
  split
  · rename_i hroot
    have hbase : Sched.next cfg s.base (.stopResume e) = s.base.stopTo e .swap := by
      simp only [Sched.next, hroot]
    rw [hbase]
    exact h.stood rfl rfl (fun _ => rfl)
  · rename_i w hroot
    have hpc := hnative w hroot
    have hl := h.stands w
    simp only [Stands, hpc] at hl
    obtain ⟨-, hst, hmain, hs, hno, hsched⟩ := hl
    split_ifs with hready
    · have harmed := (has_iff.1 hsched).2.armed hready
      rw [show s.setFiber .sched { s.fib .sched with mState := .running } = runSched s from rfl, swap_stop h hpc]
      have hc : Ctx (runSched s).fib := h.ctx.update (h.ctx .sched)
      have hstatic : Static (runSched s).fib := by
        refine h.static.update ?_
        exact h.static .sched
      refine h.moved (w := w) rfl (keeps_of_moves (BaseMoves.of rfl rfl fun _ he => he)) (fun f hf => hf) ?_ ?_ ?_
        ⟨(h.local w).1, ?_⟩
      · refine (hstatic.update ?_).update ?_
        · exact hstatic (.main w)
        · exact hstatic .sched
      · refine (hc.update rfl).update ?_
        exact hc .sched
      · intro f
        by_cases hfs : f = .sched
        · rw [hfs]
          exact Or.inr (Or.inl hroot)
        · by_cases hfm : f = .main w
          · rw [hfm]
            exact Or.inr (Or.inl rfl)
          · left
            simp only [runSched, State.setFiber, Function.update_of_ne hfs, Function.update_of_ne hfm]
      · have hlast : ((runSched s).fib .sched).last = (s.fib .sched).last := by
          simp [runSched]
        have hmain' : (s.fib .sched).last.InMainFunc := by
          rcases harmed.2 with ⟨hl, -⟩ | ⟨hl, -⟩ <;> simp [show (s.fib .sched).last = _ from hl, Pc.InMainFunc]
        rw [hlast]
        refine (stands_main rfl hmain').2 ⟨.sched, rfl, rfl, Has.self hroot ?_, hroot, hs, hmain, hno.frame, ?_⟩
        · simp only [runSched, State.setFiber, Function.update_self]
          refine ⟨harmed.live, fun hpc => ?_⟩
          rcases harmed.2 with ⟨hl, -⟩ | ⟨hl, -⟩ <;> cases hl.symm.trans hpc
        · refine (Has.self (o := own cfg s.mMutex) rfl ?_).update (by simp)
          rfl
    · exact h.abort _

theorem inv_stopBack (h : Inv cfg s) {e : E} (hg : guard cfg s (.stopBack e)) : Inv cfg (next cfg s (.stopBack e)) := by
  obtain ⟨-, hback⟩ := hg
  simp only [next]
  split
  · exact h
  · rename_i w hroot
    have hl := h.stands w
    simp only [Stands, hback w hroot] at hl
    exact h.went (w := w) rfl ⟨rfl, fun _ _ => rfl, fun _ he => he⟩ (fun f hf => hf) ⟨(h.local w).1, hl⟩

theorem inv_destroy (h : Inv cfg s) (e : E) : Inv cfg (next cfg s (.destroy e)) := by
  have hty := h.typed
  have htyped : ∀ refs dead, Typed { s with refs := refs, dead := dead, destroyed := true } :=
    fun _ _ => ⟨hty.queue, hty.tasks, hty.cbs, hty.timers, hty.users, hty.mutex⟩
  simp only [next]
  cases mSchedulerFiber cfg s with
  | none => exact ⟨h.static, h.ctx, htyped _ _, h.owned⟩
  | some f => exact ⟨h.static, h.ctx, htyped _ _, h.owned⟩

/-! ## Every step -/

/-- **Every step keeps the invariant**, those of idle fibers that timers have queued included. -/
theorem inv_next (h : Inv cfg s) {a : Act W E C} (hg : guard cfg s a) : Inv cfg (next cfg s a) := by
  cases a with
  | base a => exact inv_base h hg
  | newFiber c => exact inv_newFiber h c
  | share f | release f => exact h.users (h.typed.users f hg) _ _ _
  | getRunning w => exact inv_getRunning h hg
  | fire e i => exact inv_fire h e i
  | prologue w => exact inv_prologue h hg
  | enter w => exact inv_enter h hg
  | top w => exact inv_top h hg
  | dispatch w => exact inv_dispatch h hg
  | make w => exact inv_make h hg
  | lock w => exact inv_lock h hg
  | check w => exact inv_check h hg
  | set w k => exact inv_set h hg
  | swap w k => exact inv_swap h hg
  | unlock w => exact inv_unlock h hg
  | reset w => exact inv_reset h hg
  | idleInc w => exact inv_idleInc h hg
  | idleDec w => exact inv_idleDec h hg
  | leave w => exact inv_leave h hg
  | entry w => exact inv_entry h hg
  | sleep w => exact inv_sleep h hg
  | yield w =>
    obtain ⟨n, hpc, -⟩ := user_task h hg
    exact inv_yieldRunning h hpc
  | ret w =>
    obtain ⟨n, hpc, -⟩ := user_task h hg
    exact inv_endCb h hpc
  | idle w => exact inv_idle h hg
  | setTerm w => exact inv_setTerm h hg
  | dropSelf w => exact inv_dropSelf h hg
  | last w => exact inv_last h hg
  | yswap w => exact inv_yswap h w
  | stopResume e => exact inv_stopResume h hg
  | stopBack e => exact inv_stopBack h hg
  | destroy e => exact inv_destroy h e

theorem inv_initial (cfg : Sylar.Config W E) : Inv cfg (initial C cfg) := by
  refine ⟨(Fibers.inv_initial cfg).static, fun f => ((Fibers.inv_initial cfg).coherent f).ctx, ?_, ?_, ?_⟩
  · refine ⟨by simp [initial, Sched.initial], by simp [initial, Sched.initial], ?_, by simp [initial],
      fun f hf => absurd hf (Nat.lt_irrefl 0), fun n hn => absurd rfl hn⟩
    intro w f hf
    simp only [initial] at hf
    split at hf <;> cases hf
  · intro w
    have hno : NoTask (view (own cfg (initial C cfg).mMutex) (initial C cfg).fib w) :=
      noTask_iff.2 (fun n => by simp [own, Fibers.own, initial])
    by_cases hroot : cfg.root = some w
    · have hth : (initial C cfg).thread w =
          ⟨.native w, .native, some (.main w), some (.main w), some .sched, none, none, 0⟩ := if_pos hroot
      rw [hth]
      exact ⟨by simp, hroot, rfl, rfl, rfl, hno, has_iff.2 ⟨hroot, Or.inl ⟨rfl, rfl, rfl⟩⟩⟩
    · have hth : (initial C cfg).thread w = ⟨.native w, .unborn, none, none, none, none, none, 0⟩ := if_neg hroot
      rw [hth]
      exact ⟨by simp, hroot, rfl, hno⟩
  · intro f _
    cases f with
    | task n => exact Or.inl ⟨rfl, rfl, rfl⟩
    | idle u => exact ⟨by simp [initial, Fiber.make], by simp [initial, Fiber.make], Or.inl rfl⟩
    | main u | sched => trivial

/-- **The invariant holds in every reachable state**, whatever timers fire. -/
theorem inv_reach (h : (system C cfg).Reach Always s) : Inv cfg s := by
  apply h.inv
  · rintro s rfl
    exact inv_initial cfg
  · intro s a hs he _
    exact inv_next hs he.2

end Sylar.Fibers.Isolated
