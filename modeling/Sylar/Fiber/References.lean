import Sylar.Lib.Counting
import Sylar.Lib.RefCount
import Sylar.Fiber.Execution
import Sylar.Scheduler.Tasks

/-!
# References to fibers

The `shared_ptr`s to a fiber that the public constructor has built: those in `m_tasks`, in the locals `task`, `cb_fiber`
and `idle_fiber` of each `run()`, in `m_schedulerFiber`, in the closures of timers, in user code, and `runningFiber` on
the fiber's own stack (`owners`). Main fibers belong to their threads and are left out.

- `Life`: the account of the references, in the terms of `RefCount`;
- `owners_target`, `owners_exec`, `gone_of_ownerless`: who has an owner, and what a fiber without one is like;
- `Life.moved`: the rule for the steps that move no reference (`Quiet`), and those steps.
-/

set_option linter.unusedSectionVars false

namespace Sylar.Fibers

open Trans Ownership

variable {W E C : Type} [DecidableEq W] [DecidableEq E] {cfg : Sylar.Config W E} {s s' : State W E C}

/-! ## Owners -/

/-- The number of references to `f` in a pointer. -/
def ref (o : Option (FiberId W)) (f : FiberId W) : Nat := if o = some f then 1 else 0

@[simp] theorem ref_none (f : FiberId W) : ref none f = 0 := if_neg (by simp)

theorem ref_some (g f : FiberId W) : ref (some g) f = RefCount.one g f := by
  unfold ref RefCount.one
  by_cases hf : f = g
  · rw [if_pos hf, hf, if_pos rfl]
  · rw [if_neg hf, if_neg (fun hn => hf (Option.some_inj.1 hn).symm)]

/-- The references in `m_tasks`. -/
def queued (b : Sched.State W E (FiberId W) C) (f : FiberId W) : Nat :=
  (b.mTasks.filterMap fun e => e.task.fiber).count f

/-- The references in the locals of one `run()`. -/
def held (l : Sched.Worker (FiberId W) C × Thread W) (f : FiberId W) : Nat :=
  ref (l.1.task.bind fun e => e.task.fiber) f + ref l.2.cbFiber f + ref l.2.idleFiber f

/-- The locals of a thread. -/
def State.locals (s : State W E C) (w : W) : Sched.Worker (FiberId W) C × Thread W := (s.base.worker w, s.thread w)

/-- **The owners of a fiber.** -/
def owners [Fintype W] (cfg : Sylar.Config W E) (s : State W E C) (f : FiberId W) : Nat :=
  queued s.base f + ∑ w, held (s.locals w) f + ref (mSchedulerFiber cfg s) f + s.timers.count f + s.userRefs f +
    ref (s.fib f).self f

/-- The fibers of the public constructor. -/
def NotMain (f : FiberId W) : Prop := ∀ w, f ≠ .main w

@[simp] theorem notMain_task (n : Nat) : NotMain (.task n : FiberId W) := fun w => by simp

@[simp] theorem notMain_idle (w : W) : NotMain (.idle w) := fun v => by simp

/-- Not constructed yet. -/
def Unmade (s : State W E C) : FiberId W → Prop
  | .task n => s.nextId ≤ n
  | .idle w => (s.base.worker w).Outside
  | _ => False

/-- Nothing of the fiber's code is left to run, or none of it was run. -/
def Gone (x : Fiber W C) : Prop := x.started = false ∨ x.mState = .term

/-- Where `cb_fiber` is alive. -/
def CbOk (l : Sched.Worker (FiberId W) C × Thread W) : Prop :=
  l.2.cbFiber ≠ none → (l.1.task.bind fun e => e.task.fiber) = none ∧
    (l.1.pc = .exec ∧ l.2.pc ≠ .run .make ∨ l.1.pc = .decr ∨ l.1.pc = .reset)

/-- The scheduler is destroyed only outside `run()` and `stop()` of the caller thread. -/
def Ended (cfg : Sylar.Config W E) (s : State W E C) : Prop :=
  s.destroyed = true → ∀ w ∈ cfg.root, (s.thread w).pc = .native

/-- **The account.** -/
structure Life [Fintype W] (cfg : Sylar.Config W E) (s : State W E C) : Prop where
  sound : RefCount.Sound NotMain (Unmade s) (fun f => Gone (s.fib f)) s.refs (owners cfg s) s.dead
  cb : ∀ w, CbOk (s.locals w)

section Account

variable [Fintype W]

/-! ## Who has an owner -/

theorem held_le (cfg : Sylar.Config W E) (s : State W E C) (w : W) (f : FiberId W) :
    held (s.locals w) f ≤ owners cfg s f := by
  have hle : held (s.locals w) f ≤ ∑ v, held (s.locals v) f :=
    Finset.single_le_sum (f := fun v => held (s.locals v) f) (fun _ _ => Nat.zero_le _) (Finset.mem_univ w)
  unfold owners
  omega

/-- What a branch of `run()` is about is held. -/
theorem owners_target {w : W} {k : Branch} {f : FiberId W} (ht : s.target w k = some f) : 0 < owners cfg s f := by
  have hle := held_le cfg s w f
  have hpos : 0 < held (s.locals w) f := by
    unfold held
    unfold State.target Thread.target at ht
    cases k with
    | task =>
      rcases Option.or_eq_some_iff.1 ht with ht | ⟨-, ht⟩
      · have hone : ref ((s.locals w).1.task.bind fun e => e.task.fiber) f = 1 := if_pos ht
        omega
      · have hone : ref (s.locals w).2.cbFiber f = 1 := if_pos ht
        omega
    | idle =>
      have hone : ref (s.locals w).2.idleFiber f = 1 := if_pos ht
      omega
  omega

/-- The scheduler holds `m_schedulerFiber`. -/
theorem owners_sched (hroot : cfg.root.isSome = true) (hd : s.destroyed = false) : 0 < owners cfg s .sched := by
  have hone : ref (mSchedulerFiber cfg s) .sched = 1 := if_pos (if_pos ⟨hroot, hd⟩)
  unfold owners
  omega

theorem Ended.alive (h : Ended cfg s) {w : W} (hroot : cfg.root = some w) (hpc : (s.thread w).pc ≠ .native) :
    s.destroyed = false := by
  by_contra hd
  exact hpc (h (Bool.eq_true_of_not_eq_false hd) w hroot)

/-- What a thread executes is held by who has resumed it. -/
theorem owners_exec (h : Inv cfg s) (hend : Ended cfg s) {w : W} {f : FiberId W} (he : s.exec w = some f)
    (hf : NotMain f) : 0 < owners cfg s f := by
  rw [exec_eq_running h] at he
  have hl := h.local w
  unfold Local at hl
  split at hl
  · rw [hl.2.2.1] at he
    cases he
  · rw [hl.2.2.1] at he
    cases he
    exact absurd rfl (hf w)
  · rw [hl.2.2.1] at he
    cases he
    exact absurd rfl (hf w)
  · rw [hl.2.1] at he
    cases he
    exact absurd rfl (hf w)
  · rename_i p hpc
    rw [hl.2.2.1] at he
    cases he
    by_cases hroot : cfg.root = some w
    · rw [show runner cfg w = .sched from if_pos hroot]
      refine owners_sched (by rw [hroot]; rfl) (hend.alive hroot ?_)
      rw [show (s.thread w).pc = .run p from hpc]
      simp
    · exact absurd (if_neg hroot) (hf w)
  · cases hl
  · rename_i hnative _ _ _ _
    obtain ⟨g, -, hrun, -, hunder⟩ := hl
    rw [hrun] at he
    cases he
    cases f with
    | main u => exact absurd rfl (hf u)
    | sched => exact owners_sched (by rw [hunder.1]; rfl) (hend.alive hunder.1 hnative)
    | idle u =>
      obtain ⟨rfl, -, hidle, -⟩ := hunder
      exact owners_target (k := .idle) hidle
    | task n => exact owners_target (k := .task) hunder.2.1

/-- A task fiber without an owner has nothing left to run. -/
theorem gone_of_ownerless (h : Inv cfg s) {n : Nat} (ho : owners cfg s (.task n) = 0) : Gone (s.fib (.task n)) := by
  cases hm : s.mMutex (.task n) with
  | some w =>
    have hpos : 0 < owners cfg s (.task n) := owners_target (holder_cases h hm).1
    omega
  | none =>
    have hrest : Rest (.task n) (s.fib (.task n)) := h.owned.free (.task n) hm n rfl
    unfold Rest at hrest
    split at hrest
    · rcases hrest with ⟨-, -, hstarted⟩ | ⟨-, hself⟩
      · exact Or.inl hstarted
      · have hone : ref (s.fib (.task n)).self (.task n) = 1 := if_pos hself
        unfold owners at ho
        omega
    · cases hrest
    · rename_i hterm
      exact Or.inr hterm

/-! ## Who holds what after a step -/

/-- The references in the locals after one thread has moved. -/
theorem sum_held {w : W} (h : ∀ v, v ≠ w → s'.locals v = s.locals v) (f : FiberId W) :
    (∑ v, held (s'.locals v) f) + held (s.locals w) f = (∑ v, held (s.locals v) f) + held (s'.locals w) f := by
  have hfun : s'.locals = Function.update s.locals w (s'.locals w) := by
    funext v
    by_cases hv : v = w
    · rw [hv, Function.update_self]
    · rw [Function.update_of_ne hv, h v hv]
  have hsum := Counting.sum_update (fun l => held l f) s.locals w (s'.locals w)
  rw [← hfun] at hsum
  exact hsum

/-- A step that moves no reference. -/
structure Quiet (s s' : State W E C) : Prop where
  queue : s'.base.mTasks = s.base.mTasks
  held : ∀ w f, held (s'.locals w) f = held (s.locals w) f
  timers : s'.timers = s.timers
  users : s'.userRefs = s.userRefs
  destroyed : s'.destroyed = s.destroyed
  self : ∀ f, NotMain f → (s'.fib f).self = (s.fib f).self

theorem Quiet.owners (h : Quiet s s') {f : FiberId W} (hf : NotMain f) : owners cfg s' f = owners cfg s f := by
  unfold Fibers.owners queued mSchedulerFiber
  rw [h.queue, h.timers, h.users, h.self f hf, h.destroyed]
  simp only [h.held]

theorem CbOk.move {x x' : Sched.Worker (FiberId W) C} {t t' : Thread W} (h : CbOk (x, t))
    (hc : t'.cbFiber = t.cbFiber) (hx : x'.task = x.task) (hpc : x'.pc = x.pc) (hm : t'.pc ≠ .run .make) :
    CbOk (x', t') := by
  intro hcb
  obtain ⟨hnone, hpos⟩ := h (fun hn => hcb (hc.trans hn))
  simp only [hx, hpc]
  refine ⟨hnone, ?_⟩
  rcases hpos with hpos | hpos
  · exact Or.inl ⟨hpos.1, hm⟩
  · exact Or.inr hpos

/-- Outside the branch of a callback there is no `cb_fiber`. -/
theorem CbOk.eq_none {x : Sched.Worker (FiberId W) C} {t : Thread W} (h : CbOk (x, t))
    (hx : x.pc = .exec → t.pc = .run .make) (hd : x.pc ≠ .decr) (hr : x.pc ≠ .reset) : t.cbFiber = none := by
  by_contra hcb
  rcases (h hcb).2 with ⟨hpc, hm⟩ | hpc | hpc
  · exact hm (hx hpc)
  · exact hd hpc
  · exact hr hpc

theorem CbOk.of_none {l : Sched.Worker (FiberId W) C × Thread W} (h : l.2.cbFiber = none) : CbOk l :=
  fun hcb => absurd h hcb

/-! ## Quiet steps -/

theorem Life.abort (h : Life cfg s) (a : Sched.Assertion) : Life cfg (s.abort a) :=
  ⟨⟨h.sound.count, h.sound.fresh, h.sound.dead⟩, h.cb⟩

/-- **A thread moves**, changes fibers and moves no reference. What it changes in a fiber without an owner does not
bring that fiber to life. -/
theorem Life.moved (h : Life cfg s) {s' : State W E C} {w : W} {b : Sched.State W E (FiberId W) C} {t : Thread W}
    {fib : FiberId W → Fiber W C} {m : FiberId W → Option W}
    (hs : s' = { s with base := b, thread := Function.update s.thread w t, fib := fib, mMutex := m })
    (hb : BaseMoves s.base b w) (hout : (b.worker w).Outside → (s.base.worker w).Outside)
    (hx : (b.worker w).task = (s.base.worker w).task)
    (ht : t.cbFiber = (s.thread w).cbFiber ∧ t.idleFiber = (s.thread w).idleFiber)
    (hself : ∀ f, NotMain f → (fib f).self = (s.fib f).self)
    (hgone : ∀ f, NotMain f → owners cfg s f = 0 → Gone (s.fib f) → Gone (fib f)) (hcb : CbOk (b.worker w, t)) :
    Life cfg s' := by
  subst hs
  have hlocals : ∀ v, v ≠ w → (b.worker v, Function.update s.thread w t v) = s.locals v := by
    intro v hv
    rw [hb.workers v hv, Function.update_of_ne hv]
    rfl
  have hquiet : Quiet s { s with base := b, thread := Function.update s.thread w t, fib := fib, mMutex := m } := by
    refine ⟨hb.queue, ?_, rfl, rfl, rfl, hself⟩
    intro v f
    by_cases hv : v = w
    · subst hv
      simp only [held, State.locals, Function.update_self, hx, ht.1, ht.2]
    · exact congrArg (fun l => held l f) (hlocals v hv)
  refine ⟨h.sound.keep (fun f _ => ⟨rfl, rfl⟩) ?_ (fun _ hf => hquiet.owners hf) hgone, ?_⟩
  · intro f _ hf
    cases f with
    | idle v =>
      have hf : (b.worker v).Outside := hf
      change (s.base.worker v).Outside
      by_cases hv : v = w
      · rw [hv] at hf ⊢
        exact hout hf
      · rwa [hb.workers v hv] at hf
    | _ => exact hf
  · intro v
    by_cases hv : v = w
    · subst hv
      simpa only [State.locals, Function.update_self] using hcb
    · have hcb := h.cb v
      rw [← hlocals v hv] at hcb
      exact hcb

/-- A thread moves, and no fiber changes. -/
theorem Life.went (h : Life cfg s) {s' : State W E C} {w : W} {b : Sched.State W E (FiberId W) C} {t : Thread W}
    {m : FiberId W → Option W} (hs : s' = { s with base := b, thread := Function.update s.thread w t, mMutex := m })
    (hb : BaseMoves s.base b w) (hout : (b.worker w).Outside → (s.base.worker w).Outside)
    (hx : (b.worker w).task = (s.base.worker w).task)
    (ht : t.cbFiber = (s.thread w).cbFiber ∧ t.idleFiber = (s.thread w).idleFiber) (hcb : CbOk (b.worker w, t)) :
    Life cfg s' :=
  h.moved hs hb hout hx ht (fun _ _ => rfl) (fun _ _ _ hg => hg) hcb

theorem not_outside {x : Sched.Worker (FiberId W) C} (h : x.pc ≠ .unborn) (h' : x.pc ≠ .start) : ¬ x.Outside := by
  rintro (hx | hx)
  · exact h hx
  · exact h' hx

/-- A worker moves in the scheduler's positions alone. -/
theorem Life.stood (h : Life cfg s) {s' : State W E C} {w : W} {b : Sched.State W E (FiberId W) C}
    (hs : s' = { s with base := b }) (hb : BaseMoves s.base b w)
    (hout : (b.worker w).Outside → (s.base.worker w).Outside) (hx : (b.worker w).task = (s.base.worker w).task)
    (hcb : CbOk (b.worker w, s.thread w)) : Life cfg s' := by
  refine h.went (t := s.thread w) (m := s.mMutex) ?_ hb hout hx ⟨rfl, rfl⟩ hcb
  rw [hs, Function.update_eq_self]

theorem gone_update {f : FiberId W} {x : Fiber W C} (hf : NotMain f → 0 < owners cfg s f) :
    ∀ g, NotMain g → owners cfg s g = 0 → Gone (s.fib g) → Gone (Function.update s.fib f x g) := by
  intro g hg ho hgone
  have hne : g ≠ f := by
    rintro rfl
    have hpos := hf hg
    omega
  rwa [Function.update_of_ne hne]

theorem self_update {f : FiberId W} {x : Fiber W C} (hx : NotMain f → x.self = (s.fib f).self) :
    ∀ g, NotMain g → (Function.update s.fib f x g).self = (s.fib g).self := by
  intro g hg
  by_cases hgf : g = f
  · subst hgf
    rw [Function.update_self, hx hg]
  · rw [Function.update_of_ne hgf]

/-- The code on a fiber's stack moves, and changes the fiber. -/
theorem Life.inMain (h : Life cfg s) (hi : Inv cfg s) (hend : Ended cfg s) {s' : State W E C} {w : W} {pc : Pc W}
    {f : FiberId W}
    {y : Fiber W C} (hs : s' = (s.setFiber f y).goto w pc) (he : s.exec w = some f) (hpc : pc ≠ .run .make)
    (hy : y.self = (s.fib f).self) : Life cfg s' :=
  h.moved (m := s.mMutex) hs (BaseMoves.refl _ w) id rfl ⟨rfl, rfl⟩ (self_update fun _ => hy)
    (gone_update fun hf => owners_exec hi hend he hf) ((h.cb w).move rfl rfl rfl hpc)

theorem life_callYield (h : Life cfg s) (hi : Inv cfg s) (hend : Ended cfg s) {w : W} {x : FiberId W} {ended : Bool}
    (he : s.exec w = some x) : Life cfg (s.callYield w x ended) := by
  unfold State.callYield
  by_cases hready : (s.fib x).mState = .ready
  · rw [if_pos hready]
    exact h.abort _
  · rw [if_neg hready]
    exact h.inMain hi hend rfl he (by simp) rfl

theorem life_yieldRunning (h : Life cfg s) (hi : Inv cfg s) (hend : Ended cfg s) {w : W} :
    Life cfg (s.yieldRunning w) := by
  unfold State.yieldRunning
  split
  · exact h.abort _
  · rename_i x hx
    exact life_callYield h hi hend ((exec_eq_running hi w).trans hx)

theorem life_endCb (h : Life cfg s) (hi : Inv cfg s) (hend : Ended cfg s) {w : W} (hpc : (s.thread w).pc = .body) :
    Life cfg (s.endCb w) := by
  obtain ⟨f, hst, hrun, -, hlive, -⟩ := (body_inMain hi hpc).facts
  have hself : (s.fib f).self = some f := hlive.2
  unfold State.endCb
  rw [hst]
  dsimp only
  split
  · exact h.abort _
  · rename_i x hx
    obtain rfl : f = x := Option.some_inj.1 (hself.symm.trans hx)
    exact h.inMain hi hend rfl ((exec_eq_running hi w).trans hrun) (by simp) rfl

theorem life_idleTo (h : Life cfg s) {w : W} {pos : Sched.IdlePos} (hcb : (s.thread w).pc ≠ .run .make) :
    Life cfg (s.idleTo w pos) := by
  refine h.stood (w := w) rfl (BaseMoves.idle _ w pos) ?_ ?_ ?_
  · rw [Sched.State.worker_self]
    exact id
  · rw [Sched.State.worker_self]
  · rw [Sched.State.worker_self]
    exact (h.cb w).move rfl rfl rfl hcb

/-! ## The quiet steps of `run()` -/

/-- From one position of `run()` to another. -/
theorem life_dispatch (h : Life cfg s) {w : W} (hg : guard cfg s (.dispatch w)) :
    Life cfg (next cfg s (.dispatch w)) := by
  obtain ⟨-, hpc⟩ := hg
  have hnone : (s.thread w).cbFiber = none := (h.cb w).eq_none (by simp [hpc]) (by simp [hpc]) (by simp [hpc])
  simp only [next]
  split
  · rename_i e he
    have hnext : Sched.next cfg s.base (.dispatch w) = s.base.goto w .exec := by
      simp only [Sched.next, he]
    rw [hnext]
    refine h.went (w := w) rfl (BaseMoves.of rfl rfl fun _ he => he) ?_ ?_ ⟨rfl, rfl⟩ (CbOk.of_none hnone)
    · simp [Sched.Worker.Outside]
    · simp
  · split
    · exact h.abort _
    · refine h.stood (w := w) rfl (BaseMoves.of rfl rfl fun _ he => he) ?_ ?_ (CbOk.of_none hnone)
      · simp only [Sched.State.goto, Sched.State.setWorker, Function.update_self]
        split_ifs <;> exact fun hn => absurd hn (not_outside (by simp) (by simp))
      · simp

theorem life_lock (h : Life cfg s) {w : W} : Life cfg (next cfg s (.lock w)) := by
  simp only [next]
  split
  · exact h.abort _
  · exact h.went (w := w) rfl (BaseMoves.refl _ _) id rfl ⟨rfl, rfl⟩ ((h.cb w).move rfl rfl rfl (by simp))

theorem life_check (h : Life cfg s) {w : W} : Life cfg (next cfg s (.check w)) := by
  simp only [next]
  split
  · exact h.abort _
  · refine h.went (w := w) (m := s.mMutex) rfl (BaseMoves.refl _ _) id rfl ⟨rfl, rfl⟩ ((h.cb w).move rfl rfl rfl ?_)
    split_ifs <;> simp

theorem life_set (h : Life cfg s) {w : W} {k : Branch} : Life cfg (next cfg s (.set w k)) := by
  simp only [next]
  split
  · exact h.abort _
  · rename_i g htarget
    split_ifs
    · exact h.moved (w := w) (m := s.mMutex) rfl (BaseMoves.refl _ _) id rfl ⟨rfl, rfl⟩ (self_update fun _ => rfl)
        (gone_update fun _ => owners_target htarget) ((h.cb w).move rfl rfl rfl (by simp))
    · exact h.abort _

/-- A switch saves in one fiber, and starts one that has an owner. -/
theorem life_swapIn (h : Life cfg s) (hc : Coherent s.fib) {w : W} {r g : FiberId W} {pc : Pc W}
    (hp : s.partner w g = some r) (he : s.exec w = some r) (hst : (s.thread w).stack = home r) (hne : g ≠ r)
    (ho : 0 < owners cfg s g) (hm : (s.fib g).last ≠ .run .make) : Life cfg (s.swapIn w g pc) := by
  rw [swapIn_eq (hc _).ctx hp he hst hne]
  refine h.moved (w := w) (m := s.mMutex) rfl (BaseMoves.refl _ _) id rfl ⟨rfl, rfl⟩ ?_ ?_
    ((h.cb w).move rfl rfl rfl hm)
  · intro f hf
    by_cases hfg : f = g
    · rw [hfg, Function.update_self]
    · rw [Function.update_of_ne hfg]
      exact self_update (f := r) (x := { s.fib r with mCtx := ⟨home r, pc⟩, last := pc }) (fun _ => rfl) f hf
  · intro f hf hz hgone
    have hfg : f ≠ g := by
      rintro rfl
      omega
    rw [Function.update_of_ne hfg]
    by_cases hfr : f = r
    · subst hfr
      rw [Function.update_self]
      exact hgone
    · rwa [Function.update_of_ne hfr]

theorem life_swap (h : Life cfg s) (hi : Inv cfg s) {w : W} {k : Branch} (hg : guard cfg s (.swap w k)) :
    Life cfg (next cfg s (.swap w k)) := by
  obtain ⟨g, htarget, hsch⟩ := target_of_run hi hg.1 (Or.inr (Or.inr (Or.inr (Or.inl rfl)))) (Or.inr (Or.inr rfl))
  obtain ⟨hin, hst, hrun, -, hat⟩ := (local_run hg.1).1 (hi.local w)
  have hpartner : s.partner w g = some (runner cfg w) := by
    unfold State.partner
    rw [(hi.static g).1, hsch, if_pos rfl]
    exact hin.scheduler
  have harmed : g ≠ runner cfg w ∧ Armed g (s.fib g) := by
    cases k with
    | task =>
      obtain ⟨⟨n, htarget', hhas, -⟩, -⟩ := hat
      obtain rfl : g = .task n := Option.some_inj.1 (htarget.symm.trans htarget')
      exact ⟨(runner_ne_task cfg w n).symm, (has_iff.1 hhas).2⟩
    | idle =>
      obtain ⟨-, htarget', hhas⟩ := hat
      obtain rfl : g = .idle w := Option.some_inj.1 (htarget.symm.trans htarget')
      exact ⟨(runner_ne_idle cfg w w).symm, (has_iff.1 hhas).2⟩
  simp only [next, htarget]
  refine life_swapIn h hi.coherent hpartner (exec_runner hi hrun) hst harmed.1 (owners_target htarget) ?_
  rcases harmed.2.2 with ⟨hlast, -⟩ | ⟨hlast, -⟩ <;> rw [hlast] <;> simp

theorem life_unlock (h : Life cfg s) (hi : Inv cfg s) {w : W} (hg : guard cfg s (.unlock w)) :
    Life cfg (next cfg s (.unlock w)) := by
  have hpc : (s.base.worker w).pc = .exec ∧ (s.thread w).pc ≠ .run .make := by
    rcases hg with hg | hg
    · exact ⟨((sync_run hg.1).1 (hi.sync w)).1, by rw [hg.1]; simp⟩
    · exact ⟨((sync_run hg.1).1 (hi.sync w)).1, by rw [hg.1]; simp⟩
  simp only [next]
  split
  · exact h.abort _
  · refine h.went (w := w) rfl (BaseMoves.of rfl rfl fun _ he => he) ?_ ?_ ⟨rfl, rfl⟩ ?_
    · simp [Sched.next, Sched.Worker.Outside]
    · simp [Sched.next]
    · intro hcb
      refine ⟨?_, Or.inr (Or.inl ?_)⟩
      · have hnone := (h.cb w hcb).1
        simpa [Sched.next, State.locals] using hnone
      · simp [Sched.next]

theorem life_idleInc (h : Life cfg s) {w : W} (hg : guard cfg s (.idleInc w)) :
    Life cfg (next cfg s (.idleInc w)) := by
  obtain ⟨-, hpc⟩ := hg
  have hnone : (s.thread w).cbFiber = none := (h.cb w).eq_none (by simp [hpc]) (by simp [hpc]) (by simp [hpc])
  refine h.went (w := w) (m := s.mMutex) rfl (BaseMoves.of rfl rfl fun _ he => he) ?_ ?_ ⟨rfl, rfl⟩ (CbOk.of_none hnone)
  · simp [Sched.next, Sched.Worker.Outside]
  · simp [Sched.next]

theorem life_idleDec (h : Life cfg s) (hi : Inv cfg s) {w : W} (hg : guard cfg s (.idleDec w)) :
    Life cfg (next cfg s (.idleDec w)) := by
  have hpc := ((sync_run hg.1).1 (hi.sync w)).1
  have hnone : (s.thread w).cbFiber = none := (h.cb w).eq_none (by simp [hpc]) (by simp [hpc]) (by simp [hpc])
  refine h.went (w := w) (m := s.mMutex) rfl (BaseMoves.of rfl rfl fun _ he => he) ?_ ?_ ⟨rfl, rfl⟩ (CbOk.of_none hnone)
  · simp [Sched.next, Sched.Worker.Outside]
  · simp [Sched.next]

theorem life_top (h : Life cfg s) (hok : ∀ w, (s.base.worker w).Ok) {w : W} (hg : guard cfg s (.top w)) :
    Life cfg (next cfg s (.top w)) := by
  obtain ⟨-, hpc⟩ := hg
  have hnone : (s.thread w).cbFiber = none := (h.cb w).eq_none (by simp [hpc]) (by simp [hpc]) (by simp [hpc])
  have htask : (s.base.worker w).task = none := by
    have hok := hok w
    simpa only [Sched.Worker.Ok, hpc] using hok
  refine h.went (w := w) (m := s.mMutex) rfl (BaseMoves.of rfl rfl (by simp)) ?_ ?_ ⟨rfl, rfl⟩ (CbOk.of_none hnone)
  · simp [Sched.next, Sched.Worker.Outside]
  · simp [Sched.next, htask]

/-! ## The quiet steps of `MainFunc` and `stop()` -/

theorem life_setTerm (h : Life cfg s) (hi : Inv cfg s) (hend : Ended cfg s) {w : W} (hg : guard cfg s (.setTerm w)) :
    Life cfg (next cfg s (.setTerm w)) := by
  obtain ⟨hm, -⟩ := inMain_of_pc hi hg.1 (by simp [Pc.InMainFunc])
  obtain ⟨f, hst, hrun, -, hlive, -⟩ := hm.facts
  have he := (exec_eq_running hi w).trans hrun
  have hself : (s.fib f).self = some f := hlive.2
  simp only [next]
  rw [hst]
  dsimp only
  split
  · exact h.abort _
  · rename_i x hx
    obtain rfl : f = x := Option.some_inj.1 (hself.symm.trans hx)
    have hset : Life cfg ((s.setFiber f { s.fib f with mState := .term }).goto w .dropSelf) :=
      h.inMain hi hend rfl he (by simp) rfl
    split
    · exact hset
    · rename_i v hv
      obtain ⟨rfl, -⟩ := idler_eq hm hv
      exact life_idleTo hset (by simp)

theorem life_last (h : Life cfg s) (hi : Inv cfg s) (hend : Ended cfg s) {w : W} (hg : guard cfg s (.last w)) :
    Life cfg (next cfg s (.last w)) := by
  obtain ⟨hm, -⟩ := inMain_of_pc hi hg.1 (by simp [Pc.InMainFunc])
  obtain ⟨f, hst, hrun, -, hlive, -⟩ := hm.facts
  simp only [next, hst, hlive.2.2]
  exact life_callYield h hi hend ((exec_eq_running hi w).trans hrun)

/-- Where a thread comes back to is not `make`. -/
theorem last_ne_make (hi : Inv cfg s) {w : W} {f r : FiberId W}
    (hu : Under cfg w (s.base.worker w) (s.thread w) (view (own cfg s.mMutex) s.fib w) f)
    (hr : s.partner w f = some r) : (s.fib r).last ≠ .run .make := by
  unfold State.partner at hr
  rw [(hi.static f).1] at hr
  cases f with
  | main u => cases hu
  | sched =>
    obtain ⟨-, -, hm, -, -, hwaits, -⟩ := hu
    obtain rfl : FiberId.main w = r := Option.some_inj.1 (hm.symm.trans hr)
    rw [(has_iff.1 hwaits).2.2]
    simp
  | idle u =>
    obtain ⟨rfl, hin, -, -, hwaits, -⟩ := hu
    obtain rfl : runner cfg u = r := Option.some_inj.1 (hin.scheduler.symm.trans hr)
    rw [(has_iff.1 hwaits).2.2]
    simp
  | task n =>
    obtain ⟨hin, -, -, -, hwaits, -⟩ := hu
    obtain rfl : runner cfg w = r := Option.some_inj.1 (hin.scheduler.symm.trans hr)
    rw [(has_iff.1 hwaits).2.2]
    simp

theorem life_yswap (h : Life cfg s) (hi : Inv cfg s) (hend : Ended cfg s) {w : W} (hg : guard cfg s (.yswap w)) :
    Life cfg (next cfg s (.yswap w)) := by
  simp only [next]
  split
  · rename_i x ended hpc
    split
    · exact h.abort _
    · rename_i r hr
      obtain ⟨hm, hy⟩ := inMain_of_pc hi hpc (by simp [Pc.InMainFunc])
      obtain ⟨f, hst, hrun, -, hlive, hunder⟩ := hm.facts
      obtain rfl := hlive.yield_eq
      have he : s.exec w = some x := (exec_eq_running hi w).trans hrun
      have hmake := last_ne_make hi hunder hr
      have hself : ∀ pc f, NotMain f →
          (Function.update s.fib x { s.fib x with mCtx := ⟨home x, pc⟩, last := pc } f).self = (s.fib f).self :=
        fun pc => self_update fun _ => rfl
      have hpos : NotMain x → 0 < owners cfg s x := fun hf => owners_exec hi hend he hf
      have hne : r ≠ x := by
        unfold State.partner at hr
        rw [(hi.static x).1] at hr
        exact partner_ne hunder hr
      rw [switchTo_eq (hi.coherent _).ctx he (stack_of_exec hi he) hne]
      unfold State.idler
      rw [hst]
      unfold MainSync at hy
      rw [hst] at hy
      cases x with
      | idle u =>
        obtain rfl : u = w := hunder.1
        dsimp only
        rw [if_pos hy.1]
        refine h.moved (w := u) (m := s.mMutex) rfl (BaseMoves.of rfl (Function.update_idem _ _ _) ?_) ?_ ?_ ⟨rfl, rfl⟩
          (hself _) (gone_update hpos) (CbOk.of_none ?_)
        · simp
        · simp [Sched.Worker.Outside]
        · simp
        · exact (h.cb u).eq_none (by simp [hy.1]) (by simp [hy.1]) (by simp [hy.1])
      | main u => cases hunder
      | sched | task n =>
        exact h.moved (w := w) (m := s.mMutex) rfl (BaseMoves.refl _ _) id rfl ⟨rfl, rfl⟩ (hself _) (gone_update hpos)
          ((h.cb w).move rfl rfl rfl hmake)
  · exact h

end Account

end Sylar.Fibers
