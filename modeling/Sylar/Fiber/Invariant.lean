import Sylar.Lib.Ownership
import Sylar.Fiber.Machine

/-!
# The invariant of the fibers

A task fiber belongs to the worker that holds its mutex, a main or idle fiber to the thread it was made for, and
`m_schedulerFiber` to the caller thread (`own`). The invariant says of each thread, from its position alone, what its
own fibers are like (`Local`), and of a task fiber whose mutex is free that it rests (`Rest`).

- `Sync`: where the scheduler's model has a thread, and its idle fiber, is where the fibers' model has them;
- `Inv`: the local invariants, that the references in the queue, the timers and the locals are to task fibers
  (`Typed`), that the constant members of a fiber fit its name (`Static`), and that every context holds the latest
  continuation of its own fiber (`Coherent`);
- `exec_eq_running`: what follows for `_running_fiber`;
- `user_task`: user code runs in task fibers.
-/

set_option linter.unusedSectionVars false

namespace Sylar.Fibers

open Trans Ownership

variable {W E C : Type} [DecidableEq W] [DecidableEq E] {cfg : Sylar.Config W E}

/-! ## Owners -/

/-- The stack of a fiber's code. -/
def home : FiberId W → Stack W
  | .main w => .native w
  | f => .fiber f

/-- The thread that may touch a fiber's state and context. -/
def own (cfg : Sylar.Config W E) (mMutex : FiberId W → Option W) : FiberId W → Option W
  | .main w | .idle w => some w
  | .sched => cfg.root
  | .task n => mMutex (.task n)

/-- The fiber in which a worker's `run()` executes. -/
def runner (cfg : Sylar.Config W E) (w : W) : FiberId W := if cfg.root = some w then .sched else .main w

theorem own_runner (cfg : Sylar.Config W E) (mMutex : FiberId W → Option W) (w : W) :
    own cfg mMutex (runner cfg w) = some w := by
  unfold runner
  split
  · rename_i h
    exact h
  · rfl

theorem runner_ne_task (cfg : Sylar.Config W E) (w : W) (n : Nat) : runner cfg w ≠ .task n := by
  unfold runner
  split <;> simp

theorem runner_ne_idle (cfg : Sylar.Config W E) (w v : W) : runner cfg w ≠ .idle v := by
  unfold runner
  split <;> simp

/-! ## What a fiber is like -/

/-- A fiber that no thread executes or is about to: never started, suspended in its callback, or at its end. -/
def Rest (f : FiberId W) (x : Fiber W C) : Prop :=
  match x.mState with
  | .ready => x.last = .entry ∧ x.self = none ∧ x.started = false ∨ x.last = .body ∧ x.self = some f
  | .running => False
  | .term => x.last = .exited ∧ x.self = none

/-- A fiber in `resume()`, before the switch. -/
def Armed (f : FiberId W) (x : Fiber W C) : Prop :=
  x.mState = .running ∧ (x.last = .entry ∧ x.self = none ∨ x.last = .body ∧ x.self = some f)

/-- A fiber whose code stands at a position of `MainFunc`. -/
def Live (f : FiberId W) (x : Fiber W C) : Pc W → Prop
  | .entry => x.mState = .running ∧ x.self = none
  | .body | .setTerm => x.mState = .running ∧ x.self = some f
  | .dropSelf => x.mState = .term ∧ x.self = some f
  | .last => x.mState = .term ∧ x.self = none ∧ x.rawPtr = some f
  | .yield g false => g = f ∧ x.mState = .ready ∧ x.self = some f
  | .yield g true => g = f ∧ x.mState = .term ∧ x.self = none
  | _ => False

/-- A fiber that has resumed another one, and is suspended at `pc`. -/
def Waits (pc : Pc W) (x : Fiber W C) : Prop := x.mState = .running ∧ x.last = pc

theorem Armed.live {f : FiberId W} {x : Fiber W C} (h : Armed f x) : Live f x x.last := by
  obtain ⟨hs, ⟨hl, hself⟩ | ⟨hl, hself⟩⟩ := h
  · rw [hl]
    exact ⟨hs, hself⟩
  · rw [hl]
    exact ⟨hs, hself⟩

theorem Rest.armed {f : FiberId W} {x : Fiber W C} (h : Rest f x) (hr : x.mState = .ready) :
    Armed f { x with mState := .running } := by
  simp only [Rest, hr] at h
  rcases h with ⟨hl, hself, -⟩ | ⟨hl, hself⟩
  · exact ⟨rfl, Or.inl ⟨hl, hself⟩⟩
  · exact ⟨rfl, Or.inr ⟨hl, hself⟩⟩

/-! ## What a thread is like -/

/-- The fibers that a thread owns. -/
abbrev View (W C : Type) := FiberId W → Option (Fiber W C)

/-- The thread owns `f`, which is as `P` says. -/
def Has (v : View W C) (f : FiberId W) (P : Fiber W C → Prop) : Prop := ∃ x, v f = some x ∧ P x

/-- The thread holds the mutex of no task fiber. -/
def NoTask (v : View W C) : Prop := ∀ n, v (.task n) = none

/-- The thread holds the mutex of no task fiber but `g`. -/
def OnlyTask (v : View W C) (g : FiberId W) : Prop := ∀ n, v (.task n) ≠ none → .task n = g

/-- What holds from the prologue of `run()` to its end. -/
structure InRun (cfg : Sylar.Config W E) (w : W) (t : Thread W) (v : View W C) : Prop where
  scheduler : t.schedulerFiber = some (runner cfg w)
  main : t.mainFiber = some (.main w)
  below : cfg.root = some w → Has v (.main w) (Waits .stopBack) ∧
    Has v .sched fun x => x.self = some .sched ∧ x.resumer = some ⟨.native w, .stopBack⟩

/-- The idle fiber, if `run()` has one. -/
def IdleIs (w : W) (t : Thread W) (v : View W C) (P : Fiber W C → Prop) : Prop :=
  ∀ i, t.idleFiber = some i → i = .idle w ∧ Has v (.idle w) P

/-- The fiber of the task at hand, whose mutex the worker holds. -/
def Holds (x : Sched.Worker (FiberId W) C) (t : Thread W) (v : View W C) (P : FiberId W → Fiber W C → Prop) : Prop :=
  ∃ n, t.target x .task = some (.task n) ∧ Has v (.task n) (P (.task n)) ∧ OnlyTask v (.task n)

/-- A worker in `run()`. -/
def AtRun (w : W) (x : Sched.Worker (FiberId W) C) (t : Thread W) (v : View W C) : RunPc → Prop
  | .main => NoTask v ∧ IdleIs w t v (Rest (.idle w)) ∧
      (x.pc = .idleInc → t.idleFiber = some (.idle w) ∧ Has v (.idle w) fun y => y.mState = .ready)
  | .make => NoTask v ∧ IdleIs w t v (Rest (.idle w)) ∧ (x.task.bind fun e => e.task.fiber) = none
  | .lock | .back .idle _ => NoTask v ∧ IdleIs w t v (Rest (.idle w))
  | .check | .unlock | .back .task _ => Holds x t v Rest ∧ IdleIs w t v (Rest (.idle w))
  | .set .task => Holds x t v (fun f y => Rest f y ∧ y.mState = .ready) ∧ IdleIs w t v (Rest (.idle w))
  | .swap .task => Holds x t v Armed ∧ IdleIs w t v (Rest (.idle w))
  | .set .idle =>
    NoTask v ∧ t.idleFiber = some (.idle w) ∧ Has v (.idle w) fun y => Rest (.idle w) y ∧ y.mState = .ready
  | .swap .idle => NoTask v ∧ t.idleFiber = some (.idle w) ∧ Has v (.idle w) (Armed (.idle w))

/-- The worker's `run()` has resumed `f` in this iteration and waits. -/
def Resumed (cfg : Sylar.Config W E) (w : W) (t : Thread W) (v : View W C) (k : Branch) (f : FiberId W) : Prop :=
  Has v (runner cfg w) (Waits (.run (.back k t.iter))) ∧
    Has v f fun x => x.resumer = some ⟨home (runner cfg w), .run (.back k t.iter)⟩

/-- Who waits below a thread that executes the code of `f`. -/
def Under (cfg : Sylar.Config W E) (w : W) (x : Sched.Worker (FiberId W) C) (t : Thread W) (v : View W C) :
    FiberId W → Prop
  | .main _ => False
  | .sched => cfg.root = some w ∧ t.schedulerFiber = some .sched ∧ t.mainFiber = some (.main w) ∧ t.idleFiber = none ∧
      NoTask v ∧ Has v (.main w) (Waits .stopBack) ∧ Has v .sched fun x => x.resumer = some ⟨.native w, .stopBack⟩
  | .idle u => u = w ∧ InRun cfg w t v ∧ t.idleFiber = some (.idle w) ∧ NoTask v ∧ Resumed cfg w t v .idle (.idle w)
  | .task n => InRun cfg w t v ∧ t.target x .task = some (.task n) ∧ OnlyTask v (.task n) ∧
      IdleIs w t v (Rest (.idle w)) ∧ Resumed cfg w t v .task (.task n)

/-- A thread in `MainFunc`. -/
def InMain (cfg : Sylar.Config W E) (w : W) (x : Sched.Worker (FiberId W) C) (t : Thread W) (v : View W C) (pc : Pc W) :
    Prop :=
  ∃ f, t.stack = .fiber f ∧ t.runningFiber = some f ∧ Has v f (fun y => Live f y pc) ∧ Under cfg w x t v f

/-- **The local invariant.** -/
def Local (cfg : Sylar.Config W E) (w : W) (l : Sched.Worker (FiberId W) C × Thread W) (v : View W C) : Prop :=
  match l.2.pc with
  | .unborn => cfg.root ≠ some w ∧ l.2.stack = .native w ∧ l.2.runningFiber = none ∧ l.2.mainFiber = none ∧
      l.2.idleFiber = none ∧ NoTask v
  | .native | .stopBack => cfg.root = some w ∧ l.2.stack = .native w ∧ l.2.runningFiber = some (.main w) ∧
      l.2.mainFiber = some (.main w) ∧ l.2.schedulerFiber = some .sched ∧ l.2.idleFiber = none ∧ NoTask v ∧
      Has v .sched (Rest .sched) ∧ Has v (.main w) fun x => x.mState = .running
  | .gone => l.2.stack = .native w ∧ l.2.runningFiber = some (.main w) ∧ l.2.mainFiber = some (.main w) ∧ NoTask v
  | .run p => InRun cfg w l.2 v ∧ l.2.stack = home (runner cfg w) ∧ l.2.runningFiber = some (runner cfg w) ∧
      Has v (runner cfg w) (fun x => x.mState = .running) ∧ AtRun w l.1 l.2 v p
  | .exited => False
  | pc => InMain cfg w l.1 l.2 v pc

/-! ## Where the scheduler has a thread -/

/-- The idle fiber, which is `TERM` exactly where the scheduler's model has it so. -/
def IdleSync (w : W) (x : Sched.Worker (FiberId W) C) (t : Thread W) (v : View W C) : Prop :=
  t.idleFiber = some (.idle w) ∧ Has v (.idle w) fun y => y.mState = .term ↔ x.idlePos = .term

/-- The position in `idle()`, where the idle fiber's code stands at a position of `MainFunc`. -/
def IdleAt (cfg : Sylar.Config W E) (pos : Sched.IdlePos) : Pc W → Prop
  | .setTerm => pos = .out
  | .dropSelf | .last | .yield _ true => pos = .term
  | .yield _ false => pos = .yield ∨ pos = .sleep ∧ cfg.idle = .hooked
  | _ => pos ≠ .term

/-- The scheduler's position of the caller thread, where the code of `m_schedulerFiber` is outside `run()`. -/
def SchedAt (pc : Sched.Pc) : Pc W → Prop
  | .entry | .body => pc = .start
  | .setTerm | .dropSelf | .last | .yield _ true => pc = .done
  | _ => False

/-- The scheduler's position of a worker in `run()`. -/
def RunAt (w : W) (x : Sched.Worker (FiberId W) C) (t : Thread W) (v : View W C) : RunPc → Prop
  | .main => x.pc ≠ .unborn ∧ x.pc ≠ .exec ∧ x.pc ≠ .idle ∧ (x.pc = .done → x.idlePos = .term) ∧
      (x.pc ≠ .start → IdleSync w x t v)
  | .set .idle | .swap .idle => x.pc = .idle ∧ IdleSync w x t v
  | .back .idle _ => x.pc = .idleDec ∧ IdleSync w x t v
  | _ => x.pc = .exec ∧ IdleSync w x t v

/-- Where the scheduler has a thread in `MainFunc`. -/
def MainSync (cfg : Sylar.Config W E) (w : W) (x : Sched.Worker (FiberId W) C) (t : Thread W) (v : View W C)
    (pc : Pc W) : Prop :=
  match t.stack with
  | .fiber (.task _) => x.pc = .exec ∧ IdleSync w x t v
  | .fiber (.idle _) => x.pc = .idle ∧ IdleAt cfg x.idlePos pc
  | .fiber .sched => SchedAt x.pc pc
  | _ => False

/-- **The two positions of a thread** fit. -/
def Sync (cfg : Sylar.Config W E) (w : W) (l : Sched.Worker (FiberId W) C × Thread W) (v : View W C) : Prop :=
  match l.2.pc with
  | .unborn => l.1.pc = .unborn ∨ l.1.pc = .start
  | .native => l.1.pc = .unborn ∧ Has v .sched (fun y => y.mState = .ready ∧ y.started = false) ∨
      l.1.pc = .done ∧ Has v .sched fun y => y.mState = .term
  | .stopBack => l.1.pc = .done ∧ Has v .sched fun y => y.mState = .term
  | .gone => l.1.pc = .done
  | .run p => RunAt w l.1 l.2 v p
  | pc => MainSync cfg w l.1 l.2 v pc

/-- What is known of a fiber that nobody owns. -/
def Free (f : FiberId W) (x : Fiber W C) : Prop := ∀ n, f = .task n → Rest f x

/-! ## The rest of the invariant -/

/-- What a fiber named `f` may run. -/
def Runs : FiberId W → Option (Cb C) → Prop
  | .main _, cb => cb = none
  | .sched, cb => cb = none ∨ cb = some .run
  | .idle _, cb => cb = none ∨ cb = some .idle
  | .task _, cb => cb = none ∨ ∃ c, cb = some (.user c)

/-- `run_in_scheduler`. -/
def inScheduler : FiberId W → Bool
  | .idle _ | .task _ => true
  | _ => false

/-- The members that the constructor sets. -/
def Static (fib : FiberId W → Fiber W C) : Prop :=
  ∀ f, (fib f).mYieldToSchedulerFiber = inScheduler f ∧ Runs f (fib f).mCb

/-- The context holds the latest continuation of its own fiber, or the entry of `MainFunc`. -/
structure Saved (f : FiberId W) (x : Fiber W C) : Prop where
  ctx : x.mCtx = ⟨home f, x.last⟩
  fresh : x.started = false → x.last = .entry ∧ ∀ w, f ≠ .main w
  started : x.resumer ≠ none → x.started = true

theorem Saved.make (f : FiberId W) (hf : ∀ w, f ≠ .main w) (cb : Option (Cb C)) (b : Bool) :
    Saved f (Fiber.make f cb b) := by
  refine ⟨?_, fun _ => ⟨rfl, hf⟩, fun hr => absurd rfl hr⟩
  cases f with
  | main w => exact absurd rfl (hf w)
  | _ => rfl

theorem Saved.main (w : W) : Saved (.main w) (Fiber.main w : Fiber W C) := ⟨rfl, by simp [Fiber.main], fun _ => rfl⟩

/-- A fiber that runs is suspended at `pc`. -/
theorem Saved.leave {f : FiberId W} {x : Fiber W C} (hs : x.started = true) (pc : Pc W) :
    Saved f { x with mCtx := ⟨home f, pc⟩, last := pc } :=
  ⟨rfl, fun hn => (Bool.false_ne_true (hn.symm.trans hs)).elim, fun _ => hs⟩

/-- A fiber is resumed. -/
theorem Saved.resume {f : FiberId W} {x : Fiber W C} (h : Saved f x) (c : Cont W) :
    Saved f { x with resumer := some c, started := true } := ⟨h.ctx, by simp, fun _ => rfl⟩

/-- Every context is as it should be. -/
def Coherent (fib : FiberId W → Fiber W C) : Prop := ∀ f, Saved f (fib f)

/-- A task fiber that has been constructed. -/
def Made (n : Nat) (f : FiberId W) : Prop := ∃ m, f = .task m ∧ m < n

theorem Made.mono {n n' : Nat} {f : FiberId W} (h : Made n f) (hn : n ≤ n') : Made n' f := by
  obtain ⟨m, rfl, hm⟩ := h
  exact ⟨m, rfl, by omega⟩

/-- Who is referred to. -/
structure Typed (s : State W E C) : Prop where
  queue : ∀ e ∈ s.base.mTasks, ∀ f ∈ e.task.fiber, Made s.nextId f
  tasks : ∀ w, ∀ e ∈ (s.base.worker w).task, ∀ f ∈ e.task.fiber, Made s.nextId f
  cbs : ∀ w, ∀ f ∈ (s.thread w).cbFiber, Made s.nextId f
  timers : ∀ f ∈ s.timers, Made s.nextId f ∨ ∃ w, f = .idle w
  users : ∀ f, 0 < s.userRefs f → Made s.nextId f
  mutex : ∀ n, s.mMutex (.task n) ≠ none → n < s.nextId

/-- What is known of a thread. -/
def Known (cfg : Sylar.Config W E) (w : W) (l : Sched.Worker (FiberId W) C × Thread W) (v : View W C) : Prop :=
  Local cfg w l v ∧ Sync cfg w l v

/-- Every thread is as its position says, and every task fiber whose mutex is free rests. -/
def Owned (cfg : Sylar.Config W E) (s : State W E C) : Prop :=
  Ownership.Inv (Known cfg) Free (own cfg s.mMutex) s.fib fun w => (s.base.worker w, s.thread w)

/-- **The invariant.** -/
structure Inv (cfg : Sylar.Config W E) (s : State W E C) : Prop where
  static : Static s.fib
  coherent : Coherent s.fib
  typed : Typed s
  owned : Owned cfg s

/-! ## Reading it -/

section Read

variable {o : FiberId W → Option W} {fib : FiberId W → Fiber W C} {w : W} {f : FiberId W} {P : Fiber W C → Prop}

theorem has_iff : Has (view o fib w) f P ↔ o f = some w ∧ P (fib f) := by
  constructor
  · rintro ⟨x, hx, hp⟩
    obtain ⟨ho, rfl⟩ := own_of_view hx
    exact ⟨ho, hp⟩
  · rintro ⟨ho, hp⟩
    exact ⟨fib f, view_of_own ho, hp⟩

theorem noTask_iff : NoTask (view o fib w) ↔ ∀ n, o (.task n) ≠ some w := by
  constructor
  · intro h n hn
    have hv := h n
    rw [view_of_own hn] at hv
    cases hv
  · intro h n
    exact view_of_not_own (h n)

theorem onlyTask_iff {g : FiberId W} : OnlyTask (view o fib w) g ↔ ∀ n, o (.task n) = some w → .task n = g := by
  constructor
  · intro h n hn
    exact h n (by rw [view_of_own hn]; simp)
  · intro h n hn
    apply h
    by_contra hno
    exact hn (view_of_not_own hno)

theorem Has.imp {v : View W C} {Q : Fiber W C → Prop} (h : Has v f P) (hPQ : ∀ x, P x → Q x) : Has v f Q := by
  obtain ⟨x, hx, hp⟩ := h
  exact ⟨x, hx, hPQ x hp⟩

/-! What is known of a thread's cells after some of them have changed. -/

variable {fib' : FiberId W → Fiber W C}

theorem Has.frame (h : Has (view o fib w) f P) (hp : P (fib f) → P (fib' f)) : Has (view o fib' w) f P := by
  rw [has_iff] at h ⊢
  exact ⟨h.1, hp h.2⟩

theorem NoTask.frame (h : NoTask (view o fib w)) : NoTask (view o fib' w) := by
  rw [noTask_iff] at h ⊢
  exact h

theorem OnlyTask.frame {g : FiberId W} (h : OnlyTask (view o fib w) g) : OnlyTask (view o fib' w) g := by
  rw [onlyTask_iff] at h ⊢
  exact h

theorem InRun.frame {t : Thread W} (h : InRun cfg w t (view o fib w))
    (hmain : cfg.root = some w → Waits .stopBack (fib (.main w)) → Waits .stopBack (fib' (.main w)))
    (hsched : (fib' .sched).self = (fib .sched).self ∧ (fib' .sched).resumer = (fib .sched).resumer) :
    InRun cfg w t (view o fib' w) := by
  refine ⟨h.scheduler, h.main, fun hroot => ?_⟩
  obtain ⟨hm, hs⟩ := h.below hroot
  refine ⟨hm.frame (hmain hroot), hs.frame ?_⟩
  rw [hsched.1, hsched.2]
  exact id

theorem IdleIs.frame {t : Thread W} (h : IdleIs w t (view o fib w) P) (hp : fib' (.idle w) = fib (.idle w)) :
    IdleIs w t (view o fib' w) P := by
  intro i hi
  obtain ⟨hi', hhas⟩ := h i hi
  exact ⟨hi', hhas.frame (by rw [hp]; exact id)⟩

theorem IdleSync.frame {x : Sched.Worker (FiberId W) C} {t : Thread W} (h : IdleSync w x t (view o fib w))
    (hp : (fib' (.idle w)).mState = (fib (.idle w)).mState) : IdleSync w x t (view o fib' w) := by
  refine ⟨h.1, h.2.frame ?_⟩
  rw [hp]
  exact id

theorem Resumed.frame {t : Thread W} {k : Branch} (h : Resumed cfg w t (view o fib w) k f)
    (hr : fib' (runner cfg w) = fib (runner cfg w)) (hf : (fib' f).resumer = (fib f).resumer) :
    Resumed cfg w t (view o fib' w) k f := by
  refine ⟨h.1.frame (by rw [hr]; exact id), h.2.frame ?_⟩
  rw [hf]
  exact id

variable {g : FiberId W} {x : Fiber W C}

theorem Has.update (h : Has (view o fib w) f P) (hne : f ≠ g) : Has (view o (Function.update fib g x) w) f P :=
  h.frame (by rw [Function.update_of_ne hne]; exact id)

theorem Has.self (ho : o g = some w) (hp : P x) : Has (view o (Function.update fib g x) w) g P :=
  has_iff.2 ⟨ho, by rw [Function.update_self]; exact hp⟩

theorem InRun.update {t : Thread W} (h : InRun cfg w t (view o fib w)) (hm : g ≠ .main w) (hs : g ≠ .sched) :
    InRun cfg w t (view o (Function.update fib g x) w) := by
  refine h.frame ?_ ?_
  · rw [Function.update_of_ne hm.symm]
    exact fun _ hw => hw
  · rw [Function.update_of_ne hs.symm]
    exact ⟨rfl, rfl⟩

theorem IdleSync.update {y : Sched.Worker (FiberId W) C} {t : Thread W} (h : IdleSync w y t (view o fib w))
    (hne : g ≠ .idle w) : IdleSync w y t (view o (Function.update fib g x) w) :=
  h.frame (by rw [Function.update_of_ne hne.symm])

theorem IdleIs.update {t : Thread W} (h : IdleIs w t (view o fib w) P) (hne : g ≠ .idle w) :
    IdleIs w t (view o (Function.update fib g x) w) P :=
  h.frame (Function.update_of_ne hne.symm _ _)

end Read

section Consequences

variable {s : State W E C}

theorem Inv.local (h : Inv cfg s) (w : W) :
    Local cfg w (s.base.worker w, s.thread w) (view (own cfg s.mMutex) s.fib w) := (h.owned.local' w).1

theorem Inv.sync (h : Inv cfg s) (w : W) :
    Sync cfg w (s.base.worker w, s.thread w) (view (own cfg s.mMutex) s.fib w) := (h.owned.local' w).2

/-- **`_running_fiber`** is the fiber whose code the thread executes. -/
theorem exec_eq_running (h : Inv cfg s) (w : W) : s.exec w = (s.thread w).runningFiber := by
  have hl := h.local w
  unfold Local at hl
  unfold State.exec
  split at hl
  · obtain ⟨-, hst, hrun, hmain, -⟩ := hl
    rw [hst, hrun]
    exact hmain
  · obtain ⟨-, hst, hrun, hmain, -⟩ := hl
    rw [hst, hrun]
    exact hmain
  · obtain ⟨-, hst, hrun, hmain, -⟩ := hl
    rw [hst, hrun]
    exact hmain
  · obtain ⟨hst, hrun, hmain, -⟩ := hl
    rw [hst, hrun]
    exact hmain
  · obtain ⟨hin, hst, hrun, -⟩ := hl
    simp only at hst hrun
    rw [hst, hrun]
    unfold runner
    split_ifs
    · rfl
    · exact hin.main
  · cases hl
  · obtain ⟨f, hst, hrun, -⟩ := hl
    simp only at hst hrun
    rw [hst, hrun]

/-- A thread executes a fiber that it owns. -/
theorem own_exec (h : Inv cfg s) {w : W} {f : FiberId W} (he : s.exec w = some f) : own cfg s.mMutex f = some w := by
  rw [exec_eq_running h] at he
  have hl := h.local w
  unfold Local at hl
  split at hl
  · rw [hl.2.2.1] at he
    cases he
  · rw [hl.2.2.1] at he
    cases he
    rfl
  · rw [hl.2.2.1] at he
    cases he
    rfl
  · rw [hl.2.1] at he
    cases he
    rfl
  · rw [hl.2.2.1] at he
    cases he
    exact own_runner ..
  · cases hl
  · obtain ⟨g, -, hrun, hhas, -⟩ := hl
    rw [hrun] at he
    cases he
    exact (has_iff.1 hhas).1

/-- A thread executes a fiber on that fiber's stack. -/
theorem stack_of_exec (h : Inv cfg s) {w : W} {f : FiberId W} (he : s.exec w = some f) :
    (s.thread w).stack = home f := by
  have hr := exec_eq_running h w
  rw [he] at hr
  have hl := h.local w
  unfold Local at hl
  split at hl
  · rw [hl.2.2.1] at hr
    cases hr
  · rw [hl.2.2.1] at hr
    cases hr
    exact hl.2.1
  · rw [hl.2.2.1] at hr
    cases hr
    exact hl.2.1
  · rw [hl.2.1] at hr
    cases hr
    exact hl.1
  · rw [hl.2.2.1] at hr
    cases hr
    exact hl.2.1
  · cases hl
  · obtain ⟨g, hst, hrun, -, hunder⟩ := hl
    rw [hrun] at hr
    cases hr
    cases f with
    | main u => cases hunder
    | sched | idle u | task n => exact hst

/-- What a thread executes has been started. -/
theorem exec_started (h : Inv cfg s) {w : W} {f : FiberId W} (he : s.exec w = some f) : (s.fib f).started = true := by
  have hmain : ∀ v, (s.fib (.main v)).started = true := by
    intro v
    by_contra hn
    exact ((h.coherent (.main v)).fresh (Bool.eq_false_iff.2 hn)).2 v rfl
  have hres : ∀ g c, (s.fib g).resumer = some c → (s.fib g).started = true := by
    intro g c hg
    apply (h.coherent g).started
    rw [hg]
    simp
  have hr := exec_eq_running h w
  rw [he] at hr
  have hl := h.local w
  unfold Local at hl
  split at hl
  · rw [hl.2.2.1] at hr
    cases hr
  · rw [hl.2.2.1] at hr
    cases hr
    exact hmain w
  · rw [hl.2.2.1] at hr
    cases hr
    exact hmain w
  · rw [hl.2.1] at hr
    cases hr
    exact hmain w
  · rw [hl.2.2.1] at hr
    cases hr
    unfold runner
    split_ifs with hroot
    · exact hres _ _ (has_iff.1 (hl.1.below hroot).2).2.2
    · exact hmain w
  · cases hl
  · obtain ⟨g, hst, hrun, -, hunder⟩ := hl
    rw [hrun] at hr
    cases hr
    cases f with
    | main u => cases hunder
    | sched => exact hres _ _ (has_iff.1 hunder.2.2.2.2.2.2).2
    | idle u =>
      obtain ⟨rfl, -, -, -, -, hhas⟩ := hunder
      exact hres _ _ (has_iff.1 hhas).2
    | task n => exact hres _ _ (has_iff.1 hunder.2.2.2.2.2).2

/-- A thread in `m_cb()`. -/
theorem body_inMain (h : Inv cfg s) {w : W} (hpc : (s.thread w).pc = .body) :
    InMain cfg w (s.base.worker w) (s.thread w) (view (own cfg s.mMutex) s.fib w) .body := by
  have hl := h.local w
  simp only [Local, hpc] at hl
  exact hl

/-- The code of a fiber is its own callback. -/
theorem code_of_body (h : Inv cfg s) {w : W} (hpc : (s.thread w).pc = .body) {f : FiberId W}
    (hst : (s.thread w).stack = .fiber f) : s.code w = (s.fib f).mCb := by
  obtain ⟨g, hst', -, hhas, -⟩ := body_inMain h hpc
  rw [hst] at hst'
  cases hst'
  have hself : (s.fib f).self = some f := (has_iff.1 hhas).2.2
  unfold State.code
  rw [hst]
  simp only [hself, Option.bind_some]

/-- **User code runs in task fibers.** -/
theorem user_task (h : Inv cfg s) {w : W} (hu : s.inUser w = true) :
    ∃ n, (s.thread w).pc = .body ∧ (s.thread w).stack = .fiber (.task n) ∧ (s.thread w).runningFiber = some (.task n) ∧
      s.target w .task = some (.task n) := by
  unfold State.inUser at hu
  simp only [Bool.and_eq_true, beq_iff_eq] at hu
  obtain ⟨⟨hpc, -⟩, hcode⟩ := hu
  obtain ⟨f, hst, hrun, hhas, hunder⟩ := body_inMain h hpc
  rw [code_of_body h hpc hst] at hcode
  have hruns := (h.static f).2
  cases f with
  | main u => cases hunder
  | sched => rcases hruns with hcb | hcb <;> rw [hcb] at hcode <;> cases hcode
  | idle u => rcases hruns with hcb | hcb <;> rw [hcb] at hcode <;> cases hcode
  | task n => exact ⟨n, hpc, hst, hrun, hunder.2.1⟩

/-- The fiber of the task at hand is a task fiber. -/
theorem target_made (h : Typed s) {w : W} {g : FiberId W} (hg : s.target w .task = some g) : Made s.nextId g := by
  unfold State.target Thread.target at hg
  rcases Option.or_eq_some_iff.1 hg with hg | ⟨-, hg⟩
  · obtain ⟨e, he, hf⟩ := Option.bind_eq_some_iff.1 hg
    exact h.tasks w e he g hf
  · exact h.cbs w g hg

theorem running_made (h : Inv cfg s) {w : W} (hu : s.inUser w = true) {f : FiberId W}
    (hf : (s.thread w).runningFiber = some f) : Made s.nextId f := by
  obtain ⟨n, -, -, hrun, htarget⟩ := user_task h hu
  rw [hrun] at hf
  cases hf
  exact target_made h.typed htarget

end Consequences

end Sylar.Fibers
