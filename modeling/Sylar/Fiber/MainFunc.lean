import Sylar.Fiber.Resume

/-!
# `MainFunc`, `yield()` and `stop()` keep the invariant

The steps of the code on a fiber's own stack, from the entry of `MainFunc` to the last `yield()`, and those of the
caller thread around `run()`.

- `Inv.inMain`: a step of this code that changes the fiber itself only;
- `inv_yswap`: the switch of `yield()` goes to whoever has resumed the fiber;
- `inv_reach`: the invariant holds in every reachable state, as long as no timer fires that an idle fiber has armed.
-/

set_option linter.unusedSectionVars false

namespace Sylar.Fibers

open Trans Ownership

variable {W E C : Type} [DecidableEq W] [DecidableEq E] {cfg : Sylar.Config W E} {s : State W E C}

/-! ## The code on a fiber's stack -/

/-- Who waits below is not touched by what the fiber does to itself. -/
theorem Under.update {m : FiberId W → Option W} {fib : FiberId W → Fiber W C} {w : W}
    {x x' : Sched.Worker (FiberId W) C} {t : Thread W} {f : FiberId W} {y : Fiber W C} {pc : Pc W}
    (h : Under cfg w x t (view (own cfg m) fib w) f) (hown : own cfg m f = some w)
    (hy : y.resumer = (fib f).resumer) (hx : x'.task = x.task) :
    Under cfg w x' { t with pc := pc } (view (own cfg m) (Function.update fib f y) w) f := by
  have htarget : ∀ k, ({ t with pc := pc } : Thread W).target x' k = t.target x k := by
    intro k
    cases k <;> simp only [Thread.target, hx]
  cases f with
  | main u => cases h
  | sched =>
    obtain ⟨hroot, hs, hm, hi, hno, hmain, hres⟩ := h
    refine ⟨hroot, hs, hm, hi, hno.frame, hmain.update (by simp), Has.self hown ?_⟩
    rw [hy]
    exact (has_iff.1 hres).2
  | idle u =>
    obtain ⟨rfl, hin, hi, hno, hr, hres⟩ := h
    refine ⟨rfl, InRun.thread (t := t) (hin.update (by simp) (by simp)) rfl rfl, hi, hno.frame,
      hr.update (runner_ne_idle cfg u u), Has.self hown ?_⟩
    rw [hy]
    exact (has_iff.1 hres).2
  | task n =>
    obtain ⟨hin, ht, honly, hidle, hr, hres⟩ := h
    refine ⟨InRun.thread (t := t) (hin.update (by simp) (by simp)) rfl rfl, (htarget .task).trans ht, honly.frame,
      hidle.update (by simp), hr.update (runner_ne_task cfg w n), Has.self hown ?_⟩
    rw [hy]
    exact (has_iff.1 hres).2

/-- What a step of the code on a fiber's stack has to keep of the scheduler's positions. -/
def Keeps (cfg : Sylar.Config W E) (x : Sched.Worker (FiberId W) C) (pos : Sched.IdlePos) (pc pc' : Pc W) :
    FiberId W → Prop
  | .main _ => True
  | .sched => SchedAt x.pc pc → SchedAt x.pc pc'
  | .idle _ => IdleAt cfg x.idlePos pc → IdleAt cfg pos pc'
  | .task _ => pos = x.idlePos

/-- **A step of the code on a fiber's stack** that changes the fiber itself only. -/
theorem Inv.inMain (h : Inv cfg s) {s' : State W E C} {w : W} {pc pc' : Pc W} {f : FiberId W} {y : Fiber W C}
    {b : Sched.State W E (FiberId W) C} {refs : FiberId W → Nat} {dead : FiberId W → Bool}
    (hs : s' = { s with
      base := b
      thread := Function.update s.thread w { s.thread w with pc := pc' }
      fib := Function.update s.fib f y, refs := refs, dead := dead })
    (hm : InMain cfg w (s.base.worker w) (s.thread w) (view (own cfg s.mMutex) s.fib w) pc)
    (hy : MainSync cfg w (s.base.worker w) (s.thread w) (view (own cfg s.mMutex) s.fib w) pc)
    (hrun : (s.thread w).runningFiber = some f) (hb : BaseMoves s.base b w)
    (hx : (b.worker w).task = (s.base.worker w).task ∧ (b.worker w).pc = (s.base.worker w).pc)
    (hlive : Live f (s.fib f) pc → Live f y pc') (hkeep : Keeps cfg (s.base.worker w) (b.worker w).idlePos pc pc' f)
    (hstatic : y.mYieldToSchedulerFiber = (s.fib f).mYieldToSchedulerFiber ∧ (y.mCb = (s.fib f).mCb ∨ y.mCb = none))
    (hctx : y.mCtx = (s.fib f).mCtx ∧ y.last = (s.fib f).last)
    (hres : y.resumer = (s.fib f).resumer ∧ y.started = (s.fib f).started) : Inv cfg s' := by
  obtain ⟨g, hst, hrun', hhas, hunder⟩ := hm
  rw [hrun] at hrun'
  cases hrun'
  obtain ⟨hown, hl⟩ := has_iff.1 hhas
  refine h.wrote hs hown hb (fun f hf => hf) ⟨?_, ?_⟩ ?_ (known_of_inMain ?_ ?_)
  · rw [hstatic.1]
    exact (h.static f).1
  · rcases hstatic.2 with hcb | hcb
    · rw [hcb]
      exact (h.static f).2
    · rw [hcb]
      cases f with
      | main u => rfl
      | sched | idle u | task n => exact Or.inl rfl
  · refine ⟨?_, ?_, ?_⟩
    · rw [hctx.1, hctx.2]
      exact (h.coherent f).ctx
    · rw [hctx.2, hres.2]
      exact (h.coherent f).fresh
    · rw [hres.1, hres.2]
      exact (h.coherent f).started
  · exact ⟨f, hst, hrun, Has.self hown (hlive hl), hunder.update hown hres.1 hx.1⟩
  · simp only [MainSync, hst] at hy ⊢
    cases f with
    | main u => cases hunder
    | sched =>
      rw [hx.2]
      exact hkeep hy
    | idle u => exact ⟨hx.2.trans hy.1, hkeep hy.2⟩
    | task n => exact ⟨hx.2.trans hy.1, IdleSync.move (hy.2.update (g := .task n) (by simp)) hkeep rfl⟩

/-- The positions of `MainFunc`. -/
def Pc.InMainFunc (pc : Pc W) : Prop :=
  pc = .entry ∨ pc = .body ∨ pc = .setTerm ∨ pc = .dropSelf ∨ pc = .last ∨ ∃ x b, pc = .yield x b

/-- A thread's position in `MainFunc`. -/
theorem inMain_of_pc (h : Inv cfg s) {w : W} {pc : Pc W} (hpc : (s.thread w).pc = pc) (hmain : pc.InMainFunc) :
    InMain cfg w (s.base.worker w) (s.thread w) (view (own cfg s.mMutex) s.fib w) pc ∧
      MainSync cfg w (s.base.worker w) (s.thread w) (view (own cfg s.mMutex) s.fib w) pc := by
  have hl := h.local w
  have hy := h.sync w
  rcases hmain with rfl | rfl | rfl | rfl | rfl | ⟨x, b, rfl⟩ <;>
    exact ⟨by simpa only [Local, hpc] using hl, by simpa only [Sync, hpc] using hy⟩

/-- What a thread in `MainFunc` executes. -/
theorem InMain.facts {w : W} {pc : Pc W}
    (hm : InMain cfg w (s.base.worker w) (s.thread w) (view (own cfg s.mMutex) s.fib w) pc) :
    ∃ f, (s.thread w).stack = .fiber f ∧ (s.thread w).runningFiber = some f ∧ own cfg s.mMutex f = some w ∧
      Live f (s.fib f) pc ∧ Under cfg w (s.base.worker w) (s.thread w) (view (own cfg s.mMutex) s.fib w) f := by
  obtain ⟨f, hst, hrun, hhas, hunder⟩ := hm
  exact ⟨f, hst, hrun, (has_iff.1 hhas).1, (has_iff.1 hhas).2, hunder⟩

theorem inv_entry (h : Inv cfg s) {w : W} (hg : guard cfg s (.entry w)) : Inv cfg (next cfg s (.entry w)) := by
  obtain ⟨hm, hy⟩ := inMain_of_pc h hg.1 (Or.inl rfl)
  obtain ⟨f, hst, hrun, -, -, -⟩ := hm.facts
  simp only [next, hst, hrun]
  refine h.inMain rfl hm hy hrun (BaseMoves.refl _ _) ⟨rfl, rfl⟩ ?_ ?_ ⟨rfl, Or.inl rfl⟩ ⟨rfl, rfl⟩ ⟨rfl, rfl⟩
  · rintro ⟨hstate, -⟩
    exact ⟨hstate, rfl⟩
  · cases f with
    | main u => trivial
    | sched | idle u => exact id
    | task n => rfl

/-- Whose callback a thread can end or leave: that of a task, or `idle()` at one of the positions `P`. -/
def Ends (s : State W E C) (w : W) (P : Sched.IdlePos → Prop) : Prop :=
  (∃ n, (s.thread w).runningFiber = some (.task n)) ∨
    (∃ u, (s.thread w).runningFiber = some (.idle u)) ∧ P (s.base.worker w).idlePos

theorem Ends.keeps {w : W} {P : Sched.IdlePos → Prop} (h : Ends s w P) {f : FiberId W}
    (hrun : (s.thread w).runningFiber = some f) {pc : Pc W} (hP : ∀ pos, P pos → IdleAt cfg pos pc) :
    Keeps cfg (s.base.worker w) (s.base.worker w).idlePos .body pc f := by
  rcases h with ⟨n, hn⟩ | ⟨⟨u, hu⟩, hpos⟩
  · rw [hrun] at hn
    cases hn
    rfl
  · rw [hrun] at hu
    cases hu
    exact fun _ => hP _ hpos

/-- `m_cb()` returns into `MainFunc`. -/
theorem inv_endCb (h : Inv cfg s) {w : W} (hpc : (s.thread w).pc = .body) (hends : Ends s w (· = .out)) :
    Inv cfg (s.endCb w) := by
  obtain ⟨hm, hy⟩ := inMain_of_pc h hpc (Or.inr (Or.inl rfl))
  obtain ⟨f, hst, hrun, -, hlive, -⟩ := hm.facts
  have hself : (s.fib f).self = some f := hlive.2
  unfold State.endCb
  rw [hst]
  dsimp only
  split
  · exact h.abort _
  · rename_i x hx
    obtain rfl : f = x := Option.some_inj.1 (hself.symm.trans hx)
    exact h.inMain rfl hm hy hrun (BaseMoves.refl _ _) ⟨rfl, rfl⟩ id (hends.keeps hrun fun pos hpos => hpos)
      ⟨rfl, Or.inr rfl⟩ ⟨rfl, rfl⟩ ⟨rfl, rfl⟩

/-- The first half of `yield()`, called in the callback. -/
theorem inv_callYield (h : Inv cfg s) {w : W} (hpc : (s.thread w).pc = .body) {f : FiberId W}
    (hrun : (s.thread w).runningFiber = some f)
    (hends : Ends s w fun pos => pos = .yield ∨ pos = .sleep ∧ cfg.idle = .hooked) :
    Inv cfg (s.callYield w f false) := by
  obtain ⟨hm, hy⟩ := inMain_of_pc h hpc (Or.inr (Or.inl rfl))
  unfold State.callYield
  by_cases hready : (s.fib f).mState = .ready
  · rw [if_pos hready]
    exact h.abort _
  · rw [if_neg hready]
    refine h.inMain rfl hm hy hrun (BaseMoves.refl _ _) ⟨rfl, rfl⟩ ?_ (hends.keeps hrun fun pos hpos => hpos)
      ⟨rfl, Or.inl rfl⟩ ⟨rfl, rfl⟩ ⟨rfl, rfl⟩
    rintro ⟨hstate, hself⟩
    refine ⟨rfl, ?_, hself⟩
    simp [hstate]

theorem inv_yieldRunning (h : Inv cfg s) {w : W} (hpc : (s.thread w).pc = .body)
    (hends : Ends s w fun pos => pos = .yield ∨ pos = .sleep ∧ cfg.idle = .hooked) : Inv cfg (s.yieldRunning w) := by
  unfold State.yieldRunning
  split
  · exact h.abort _
  · rename_i f hf
    exact inv_callYield h hpc hf hends

/-- A timer is armed. -/
theorem Inv.arm (h : Inv cfg s) {f : FiberId W} (hf : Made s.nextId f ∨ ∃ w, f = .idle w) :
    Inv cfg { s.hold f with timers := s.timers ++ [f] } := by
  refine ⟨h.static, h.coherent, h.typed.step (Nat.le_refl _) (fun _ he => Or.inl he) (fun _ _ he => Or.inl he)
    (fun _ _ hf => Or.inl hf) ?_ (fun _ hf => Or.inl hf) (fun _ hn => Or.inl hn), h.owned⟩
  intro g hg
  rcases List.mem_append.1 hg with hg | hg
  · exact Or.inl hg
  · rw [List.mem_singleton.1 hg]
    exact Or.inr hf

theorem inv_sleep (h : Inv cfg s) {w : W} (hg : guard cfg s (.sleep w)) : Inv cfg (next cfg s (.sleep w)) := by
  simp only [next, State.addTimer]
  split
  · exact h.abort _
  · rename_i f hf
    exact h.arm (Or.inl (running_made h hg hf))

theorem inv_yield (h : Inv cfg s) {w : W} (hg : guard cfg s (.yield w)) : Inv cfg (next cfg s (.yield w)) := by
  obtain ⟨n, hpc, -, hrun, -⟩ := user_task h hg
  exact inv_yieldRunning h hpc (Or.inl ⟨n, hrun⟩)

theorem inv_ret (h : Inv cfg s) {w : W} (hg : guard cfg s (.ret w)) : Inv cfg (next cfg s (.ret w)) := by
  obtain ⟨n, hpc, -, hrun, -⟩ := user_task h hg
  exact inv_endCb h hpc (Or.inl ⟨n, hrun⟩)

/-- An idle fiber is executed by its own worker. -/
theorem idler_eq {w v : W} {pc : Pc W}
    (hm : InMain cfg w (s.base.worker w) (s.thread w) (view (own cfg s.mMutex) s.fib w) pc)
    (hv : s.idler w = some v) : v = w ∧ (s.thread w).runningFiber = some (.idle w) := by
  obtain ⟨f, hst, hrun, -, -, hunder⟩ := hm.facts
  obtain rfl : f = .idle v := eq_idle_of_idler hst hv
  have hu : v = w := hunder.1
  rw [← hu] at hrun ⊢
  exact ⟨rfl, hrun⟩

/-- The position in `idle()` concerns the scheduler's model only. -/
theorem BaseMoves.idle (b : Sched.State W E (FiberId W) C) (w : W) (pos : Sched.IdlePos) :
    BaseMoves b (b.setWorker w { b.worker w with idlePos := pos }) w :=
  BaseMoves.of rfl rfl (fun _ he => he)

/-- `idle()` goes on. -/
theorem inv_idleTo (h : Inv cfg s) {w : W} (hpc : (s.thread w).pc = .body)
    (hrun : (s.thread w).runningFiber = some (.idle w)) {pos : Sched.IdlePos} (hpos : pos ≠ .term) :
    Inv cfg (s.idleTo w pos) := by
  obtain ⟨hm, hy⟩ := inMain_of_pc h hpc (Or.inr (Or.inl rfl))
  obtain ⟨f, hst, hrun', -, -, -⟩ := hm.facts
  rw [hrun] at hrun'
  cases hrun'
  refine h.stood rfl (BaseMoves.idle _ w pos) ?_
  rw [Sched.State.worker_self]
  refine ⟨(h.local w).worker (fun hx => hx) (Or.inl rfl), ?_⟩
  simp only [MainSync, hst] at hy
  simp only [Sync, MainSync, hpc, hst]
  exact ⟨hy.1, hpos⟩

theorem inv_idle (h : Inv cfg s) {w : W} (hg : guard cfg s (.idle w)) : Inv cfg (next cfg s (.idle w)) := by
  obtain ⟨⟨hpc, -⟩, -⟩ := hg
  have hm := body_inMain h hpc
  simp only [next]
  split
  · exact h
  · rename_i v hv
    obtain ⟨rfl, hrun⟩ := idler_eq hm hv
    split
    · refine inv_idleTo h hpc hrun ?_
      split_ifs <;> simp
    · rename_i hpos
      split_ifs with hhooked
      · simp only [State.addTimer, hrun]
        exact inv_yieldRunning (h.arm (Or.inr ⟨v, rfl⟩)) hpc (Or.inr ⟨⟨v, hrun⟩, Or.inr ⟨hpos, hhooked⟩⟩)
      · exact inv_idleTo h hpc hrun (by simp)
    · rename_i hpos
      exact inv_yieldRunning h hpc (Or.inr ⟨⟨v, hrun⟩, Or.inl hpos⟩)
    · rename_i hpos
      exact inv_endCb h hpc (Or.inr ⟨⟨v, hrun⟩, hpos⟩)
    · exact h

theorem inv_setTerm (h : Inv cfg s) {w : W} (hg : guard cfg s (.setTerm w)) : Inv cfg (next cfg s (.setTerm w)) := by
  obtain ⟨hm, hy⟩ := inMain_of_pc h hg.1 (by simp [Pc.InMainFunc])
  obtain ⟨f, hst, hrun, -, hlive, hunder⟩ := hm.facts
  have hself : (s.fib f).self = some f := hlive.2
  have hterm : Live f (s.fib f) .setTerm → Live f { s.fib f with mState := .term } .dropSelf := by
    rintro ⟨-, hself⟩
    exact ⟨rfl, hself⟩
  simp only [next]
  rw [hst]
  dsimp only
  split
  · exact h.abort _
  · rename_i x hx
    obtain rfl : f = x := Option.some_inj.1 (hself.symm.trans hx)
    unfold State.idler
    rw [hst]
    cases f with
    | idle u =>
      obtain rfl : u = w := hunder.1
      refine h.inMain rfl hm hy hrun (BaseMoves.idle _ u .term) ?_ hterm ?_ ⟨rfl, Or.inl rfl⟩ ⟨rfl, rfl⟩ ⟨rfl, rfl⟩
      · simp
      · intro _
        simp [IdleAt]
    | sched =>
      exact h.inMain rfl hm hy hrun (BaseMoves.refl _ _) ⟨rfl, rfl⟩ hterm id ⟨rfl, Or.inl rfl⟩ ⟨rfl, rfl⟩ ⟨rfl, rfl⟩
    | task n =>
      exact h.inMain rfl hm hy hrun (BaseMoves.refl _ _) ⟨rfl, rfl⟩ hterm rfl ⟨rfl, Or.inl rfl⟩ ⟨rfl, rfl⟩ ⟨rfl, rfl⟩
    | main u => cases hunder

theorem inv_dropSelf (h : Inv cfg s) {w : W} (hg : guard cfg s (.dropSelf w)) : Inv cfg (next cfg s (.dropSelf w)) := by
  obtain ⟨hm, hy⟩ := inMain_of_pc h hg.1 (by simp [Pc.InMainFunc])
  obtain ⟨f, hst, hrun, -, hlive, -⟩ := hm.facts
  have hself : (s.fib f).self = some f := hlive.2
  simp only [next, hst]
  have hdrop : Live f (s.fib f) .dropSelf → Live f { s.fib f with rawPtr := some f, self := none } .last := by
    rintro ⟨hstate, -⟩
    exact ⟨hstate, rfl, rfl⟩
  rw [hself]
  refine h.inMain rfl hm hy hrun (BaseMoves.refl _ _) ⟨rfl, rfl⟩ hdrop ?_ ⟨rfl, Or.inl rfl⟩ ⟨rfl, rfl⟩ ⟨rfl, rfl⟩
  cases f with
  | main u => trivial
  | sched | idle u => exact id
  | task n => rfl

theorem inv_last (h : Inv cfg s) {w : W} (hg : guard cfg s (.last w)) : Inv cfg (next cfg s (.last w)) := by
  obtain ⟨hm, hy⟩ := inMain_of_pc h hg.1 (by simp [Pc.InMainFunc])
  obtain ⟨f, hst, hrun, -, hlive, -⟩ := hm.facts
  simp only [next, hst, hlive.2.2]
  unfold State.callYield
  by_cases hready : (s.fib f).mState = .ready
  · rw [if_pos hready]
    exact h.abort _
  · rw [if_neg hready]
    refine h.inMain rfl hm hy hrun (BaseMoves.refl _ _) ⟨rfl, rfl⟩ ?_ ?_ ⟨rfl, Or.inl rfl⟩ ⟨rfl, rfl⟩ ⟨rfl, rfl⟩
    · rintro ⟨hstate, hself, -⟩
      refine ⟨rfl, ?_, hself⟩
      simp [hstate]
    · cases f with
      | main u => trivial
      | sched | idle u => exact id
      | task n => rfl

/-- A fiber that has switched away in `yield()`. -/
theorem Live.rest {f g : FiberId W} {x : Fiber W C} {ended : Bool} (h : Live f x (.yield g ended)) (c : Cont W) :
    Rest f { x with mCtx := c, last := if ended then .exited else .body } := by
  cases ended with
  | false =>
    obtain ⟨-, hstate, hself⟩ := h
    simp only [Rest, hstate]
    exact Or.inr ⟨rfl, hself⟩
  | true =>
    obtain ⟨-, hstate, hself⟩ := h
    simp only [Rest, hstate]
    exact ⟨rfl, hself⟩

theorem Live.yield_eq {f g : FiberId W} {x : Fiber W C} {ended : Bool} (h : Live f x (.yield g ended)) : g = f := by
  cases ended with
  | false => exact h.1
  | true => exact h.1

/-- What the switch of `yield()` does to the scheduler's position. -/
def Yields (x x' : Sched.Worker (FiberId W) C) : FiberId W → Prop
  | .idle _ => x'.pc = .idleDec ∧ x'.idlePos = afterYield x.idlePos
  | _ => x'.pc = x.pc ∧ x'.idlePos = x.idlePos

/-- **The thread behind the switch of `yield()`** stands where the fiber was resumed. -/
theorem known_yswap {m : FiberId W → Option W} {fib : FiberId W → Fiber W C} {w : W}
    {x x' : Sched.Worker (FiberId W) C} {t : Thread W} {f g : FiberId W} {ended : Bool} (hst : t.stack = .fiber f)
    (hown : own cfg m f = some w) (hu : Under cfg w x t (view (own cfg m) fib w) f)
    (hl : Live f (fib f) (.yield g ended)) (hy : MainSync cfg w x t (view (own cfg m) fib w) (.yield g ended))
    (hx : x'.task = x.task) (hx' : Yields x x' f) (c : Cont W) {r : FiberId W}
    (hr : (if inScheduler f then t.schedulerFiber else t.mainFiber) = some r) :
    Known cfg w (x', { t with stack := home r, pc := (fib r).last, runningFiber := some r })
      (view (own cfg m)
        (Function.update fib f { fib f with mCtx := c, last := if ended then .exited else .body }) w) := by
  have hrest := hl.rest c
  unfold MainSync at hy
  rw [hst] at hy
  cases f with
  | main u => cases hu
  | sched =>
    obtain ⟨hroot, hs, hm, hi, hno, hmain, -⟩ := hu
    obtain rfl : FiberId.main w = r := Option.some_inj.1 (hm.symm.trans hr)
    obtain ⟨-, hstate, hlast⟩ := has_iff.1 hmain
    rw [hlast]
    refine ⟨⟨hroot, rfl, rfl, hm, hs, hi, hno.frame, Has.self hown hrest,
      (hmain.update (g := .sched) (by simp)).imp fun _ hy => hy.1⟩, ?_⟩
    -- `run()` is left before the scheduler fiber ends
    cases ended with
    | false => exact hy.elim
    | true => exact ⟨hx'.1.trans hy, Has.self hown hl.2.1⟩
  | idle u =>
    obtain ⟨rfl, hin, hi, hno, hr', -⟩ := hu
    obtain rfl : runner cfg u = r := Option.some_inj.1 (hin.scheduler.symm.trans hr)
    obtain ⟨-, hstate, hlast⟩ := has_iff.1 hr'
    rw [hlast]
    refine ⟨(local_run (p := .back .idle t.iter) rfl).2
      ⟨InRun.thread (t := t) (hin.update (by simp) (by simp)) rfl rfl, rfl, rfl,
      (hr'.update (runner_ne_idle cfg u u)).imp fun _ hy => hy.1, hno.frame, ?_⟩, ?_⟩
    · intro i hi'
      obtain rfl : FiberId.idle u = i := Option.some_inj.1 (hi.symm.trans hi')
      exact ⟨rfl, Has.self hown hrest⟩
    · refine (sync_run (p := .back .idle t.iter) rfl).2 ⟨hx'.1, hi, Has.self hown ?_⟩
      rw [hx'.2]
      obtain ⟨-, hpos⟩ := hy
      cases ended with
      | false =>
        obtain ⟨-, hready, -⟩ := hl
        rcases hpos with hpos | ⟨hpos, -⟩ <;> simp [hready, hpos, afterYield]
      | true =>
        obtain ⟨-, hterm, -⟩ := hl
        simp only [IdleAt] at hpos
        simp [hterm, hpos, afterYield]
  | task n =>
    obtain ⟨hin, ht, honly, hidle, hr', -⟩ := hu
    obtain rfl : runner cfg w = r := Option.some_inj.1 (hin.scheduler.symm.trans hr)
    obtain ⟨-, hstate, hlast⟩ := has_iff.1 hr'
    rw [hlast]
    refine ⟨(local_run (p := .back .task t.iter) rfl).2
      ⟨InRun.thread (t := t) (hin.update (by simp) (by simp)) rfl rfl, rfl, rfl,
      (hr'.update (runner_ne_task cfg w n)).imp fun _ hy => hy.1, ⟨n, ?_, Has.self hown hrest, honly.frame⟩, ?_⟩,
      (sync_run (p := .back .task t.iter) rfl).2
        ⟨hx'.1.trans hy.1, IdleSync.move (hy.2.update (g := .task n) (by simp)) hx'.2 rfl⟩⟩
    · simp only [Thread.target, hx] at ht ⊢
      exact ht
    · exact hidle.update (by simp)

/-- Nobody yields to itself. -/
theorem partner_ne {v : View W C} {w : W} {x : Sched.Worker (FiberId W) C} {t : Thread W} {f r : FiberId W}
    (hu : Under cfg w x t v f) (hr : (if inScheduler f then t.schedulerFiber else t.mainFiber) = some r) : r ≠ f := by
  cases f with
  | main u => cases hu
  | sched =>
    obtain ⟨-, -, hm, -⟩ := hu
    obtain rfl : FiberId.main w = r := Option.some_inj.1 (hm.symm.trans hr)
    simp
  | idle u =>
    obtain ⟨-, hin, -⟩ := hu
    obtain rfl : runner cfg w = r := Option.some_inj.1 (hin.scheduler.symm.trans hr)
    exact runner_ne_idle cfg w u
  | task n =>
    obtain ⟨hin, -⟩ := hu
    obtain rfl : runner cfg w = r := Option.some_inj.1 (hin.scheduler.symm.trans hr)
    exact runner_ne_task cfg w n

theorem inv_yswap (h : Inv cfg s) {w : W} (hg : guard cfg s (.yswap w)) : Inv cfg (next cfg s (.yswap w)) := by
  simp only [next]
  split
  · rename_i x ended hpc
    split
    · exact h.abort _
    · rename_i r hr
      obtain ⟨hm, hy⟩ := inMain_of_pc h hpc (by simp [Pc.InMainFunc])
      obtain ⟨f, hst, hrun, hown, hlive, hunder⟩ := hm.facts
      have hx := hlive.yield_eq
      subst hx
      have he : s.exec w = some x := (exec_eq_running h w).trans hrun
      unfold State.partner at hr
      rw [(h.static x).1] at hr
      have hsaved : ∀ pc, Coherent (Function.update s.fib x { s.fib x with mCtx := ⟨home x, pc⟩, last := pc }) :=
        fun pc => h.coherent.update (.leave (exec_started h he) pc)
      have hcell : ∀ y f, own cfg s.mMutex f ≠ some w → Function.update s.fib x y f = s.fib f :=
        fun y f hf => Function.update_of_ne (by rintro rfl; exact hf hown) _ _
      have hgo := fun (x' : Sched.Worker (FiberId W) C) (hx' : x'.task = (s.base.worker w).task) hyields =>
        known_yswap hst hown hunder hlive hy hx' hyields ⟨home x, if ended then .exited else .body⟩ hr
      rw [switchTo_eq (h.coherent _).ctx he (stack_of_exec h he) (partner_ne hunder hr)]
      unfold State.idler
      rw [hst]
      unfold MainSync at hy
      rw [hst] at hy
      cases x with
      | idle u =>
        obtain rfl : u = w := hunder.1
        dsimp only
        rw [if_pos hy.1]
        refine h.moved rfl (BaseMoves.of rfl (Function.update_idem _ _ _) ?_) (fun f hf => hf)
          (h.static.update (h.static _)) (hsaved _) (hcell _) (hgo _ ?_ ⟨?_, ?_⟩)
        all_goals simp
      | main u => cases hunder
      | sched | task n =>
        exact h.moved rfl (BaseMoves.refl _ _) (fun f hf => hf) (h.static.update (h.static _)) (hsaved _) (hcell _)
          (hgo _ rfl ⟨rfl, rfl⟩)
  · exact h

/-! ## Around `run()` -/

theorem inv_prologue (h : Inv cfg s) {w : W} (hg : guard cfg s (.prologue w)) : Inv cfg (next cfg s (.prologue w)) := by
  obtain ⟨hstart, hpc⟩ := hg
  have hx : (s.base.worker w).pc = .idleInc → False := by
    intro hidle
    rw [hstart] at hidle
    cases hidle
  have hpos : ∀ t v, RunAt w (s.base.worker w) t v .main := by
    intro t v
    simp only [RunAt, hstart]
    exact ⟨by simp, by simp, by simp, by simp, fun hn => absurd rfl hn⟩
  simp only [next]
  split_ifs with hunborn
  · have hl := h.local w
    simp only [Local, hunborn] at hl
    obtain ⟨hroot, hst, -, -, hidle, hno⟩ := hl
    have hrunner : runner cfg w = .main w := if_neg hroot
    refine h.wrote (f := .main w) rfl rfl (BaseMoves.refl _ _) (fun f hf => hf) ⟨rfl, rfl⟩ (.main w)
      ⟨(local_run (p := .main) rfl).2 ?_, (sync_run (p := .main) rfl).2 (hpos _ _)⟩
    rw [hrunner]
    refine ⟨⟨?_, rfl, fun hn => absurd hn hroot⟩, hst, rfl, Has.self rfl rfl, hno.frame, ?_, fun hn => (hx hn).elim⟩
    · rw [hrunner]
    · intro i hi
      rw [show _ = (s.thread w).idleFiber from rfl, hidle] at hi
      cases hi
  · obtain ⟨⟨hpc, -⟩, hcode⟩ := hpc.resolve_left hunborn
    obtain ⟨f, hst, hrun, hown, hlive, hunder⟩ := (body_inMain h hpc).facts
    rw [code_of_body h hpc hst] at hcode
    have hruns := (h.static f).2
    cases f with
    | main u => cases hunder
    | idle u => rcases hruns with hcb | hcb <;> rw [hcb] at hcode <;> cases hcode
    | task n => rcases hruns with hcb | ⟨c, hcb⟩ <;> rw [hcb] at hcode <;> cases hcode
    | sched =>
      obtain ⟨hroot, hs, hmain, hidle, hno, hwaits, hres⟩ := hunder
      have hrunner : runner cfg w = .sched := if_pos hroot
      refine h.went rfl (BaseMoves.refl _ _) (fun f hf => hf)
        ⟨(local_run (p := .main) rfl).2 ?_, (sync_run (p := .main) rfl).2 (hpos _ _)⟩
      rw [hrunner]
      refine ⟨⟨?_, hmain, fun _ => ⟨hwaits, has_iff.2 ⟨hown, hlive.2, (has_iff.1 hres).2⟩⟩⟩, hst, hrun,
        has_iff.2 ⟨hown, hlive.1⟩, hno, ?_, fun hn => (hx hn).elim⟩
      · rw [hrunner]
        exact hs
      · intro i hi
        rw [show _ = (s.thread w).idleFiber from rfl, hidle] at hi
        cases hi

theorem inv_leave (h : Inv cfg s) {w : W} (hg : guard cfg s (.leave w)) : Inv cfg (next cfg s (.leave w)) := by
  obtain ⟨⟨hpc, -⟩, hdone⟩ := hg
  obtain ⟨hin, hst, hrun, hr, hno, -, -⟩ := (local_run hpc).1 (h.local w)
  obtain ⟨refs, dead, hdrop⟩ := dropAny_eq s (s.thread w).idleFiber
  simp only [next, hdrop]
  by_cases hroot : cfg.root = some w
  · -- the caller thread, on the stack of `m_schedulerFiber`
    have hrunner : runner cfg w = .sched := if_pos hroot
    have hs := hin.scheduler
    rw [hrunner] at hst hrun hr hs
    obtain ⟨hwaits, hsched⟩ := hin.below hroot
    obtain ⟨hown, hself, hres⟩ := has_iff.1 hsched
    have hst : (s.thread w).stack = .fiber .sched := hst
    rw [hst]
    unfold State.endCb
    simp only [State.setThread, Function.update_self]
    split
    · rename_i hnone
      rw [hself] at hnone
      cases hnone
    · rename_i x hx
      obtain rfl : FiberId.sched = x := Option.some_inj.1 (hself.symm.trans hx)
      refine h.wrote (f := .sched) (b := s.base) (t := { s.thread w with idleFiber := none, pc := .setTerm })
        (x := { s.fib .sched with mCb := none }) (r := refs) (d := dead) ?_ hown (BaseMoves.refl _ _) (fun f hf => hf)
        ⟨(h.static _).1, Or.inl rfl⟩
        ⟨(h.coherent .sched).ctx, (h.coherent .sched).fresh, (h.coherent .sched).started⟩
        (known_of_inMain ⟨.sched, hst, hrun, ?_, hroot, hs, hin.main, rfl, hno.frame, ?_, ?_⟩ ?_)
      · simp [hst]
      · exact Has.self hown ⟨(has_iff.1 hr).2, hself⟩
      · exact hwaits.update (by simp)
      · exact Has.self hown hres
      · simp only [MainSync, hst]
        exact hdone
  · have hrunner : runner cfg w = .main w := if_neg hroot
    rw [hrunner] at hst hrun hr
    have hst : (s.thread w).stack = .native w := hst
    rw [hst]
    refine h.went (b := s.base) (t := { s.thread w with idleFiber := none, pc := .gone }) (r := refs) (d := dead) ?_
      (BaseMoves.refl _ _) (fun f hf => hf) ⟨⟨hst, hrun, hin.main, hno⟩, hdone⟩
    simp [hst]

theorem inv_stopResume (h : Inv cfg s) {e : E} (hg : guard cfg s (.stopResume e)) :
    Inv cfg (next cfg s (.stopResume e)) := by
  obtain ⟨-, hnative⟩ := hg
  simp only [next]
  split
  · rename_i hroot
    have hbase : Sched.next cfg s.base (.stopResume e) = s.base.stopTo e .swap := by
      simp only [Sched.next, hroot]
    rw [hbase]
    exact ⟨h.static, h.coherent, h.typed.same (fun _ he => he) (fun _ _ he => Or.inl he) (fun _ _ hf => hf) rfl rfl rfl
      rfl, h.owned⟩
  · rename_i w hroot
    have hpc := hnative w hroot
    have hl := h.local w
    simp only [Local, hpc] at hl
    obtain ⟨-, hst, hrun, hmain, hs, hidle, hno, hsched, hm⟩ := hl
    have hy := h.sync w
    simp only [Sync, hpc] at hy
    split_ifs with hready
    · have harmed := (has_iff.1 hsched).2.armed hready
      have hc : Coherent (s.setFiber .sched { s.fib .sched with mState := .running }).fib :=
        h.coherent.update ⟨(h.coherent .sched).ctx, (h.coherent .sched).fresh, (h.coherent .sched).started⟩
      have hpartner : (s.setFiber .sched { s.fib .sched with mState := .running }).partner w .sched =
          some (.main w) := by
        simp only [State.partner, State.setFiber, Function.update_self, (h.static .sched).1]
        exact hmain
      have hexec : (s.setFiber .sched { s.fib .sched with mState := .running }).exec w = some (.main w) := by
        simp only [State.exec, State.setFiber, hst]
        exact hmain
      rw [swapIn_eq (hc _).ctx hpartner hexec hst (by simp)]
      refine h.moved (w := w) rfl (BaseMoves.of rfl rfl fun _ he => he) (fun f hf => hf) ?_ ?_ ?_
        (known_of_inMain ?_ ?_)
      · refine ((h.static.update ?_).update ?_).update ?_
        · exact h.static .sched
        · exact h.static (.main w)
        · simp only [State.setFiber, Function.update_self]
          exact h.static .sched
      · refine (hc.update (.leave ?_ _)).update ((hc .sched).resume _)
        exact exec_started h (exec_eq_running h w ▸ hrun)
      · intro f hf
        have hfs : f ≠ .sched := by rintro rfl; exact hf hroot
        have hfm : f ≠ .main w := by rintro rfl; exact hf rfl
        simp only [State.setFiber, Function.update_of_ne hfs, Function.update_of_ne hfm]
      · refine ⟨.sched, rfl, rfl, Has.self hroot ?_, hroot, hs, hmain, hidle, hno.frame, ?_, Has.self hroot rfl⟩
        · simp only [State.setFiber, Function.update_self]
          exact harmed.live
        · refine (Has.self (o := own cfg s.mMutex) rfl ?_).update (by simp)
          simp only [State.setFiber]
          exact ⟨(has_iff.1 hm).2, rfl⟩
      · simp only [MainSync, home, State.setFiber, Function.update_self]
        rcases harmed.2 with ⟨hlast, -⟩ | ⟨hlast, -⟩
        · rw [show (s.fib .sched).last = .entry from hlast]
          simp [SchedAt]
        · rw [show (s.fib .sched).last = .body from hlast]
          simp [SchedAt]
    · exact h.abort _

theorem inv_stopBack (h : Inv cfg s) {e : E} (hg : guard cfg s (.stopBack e)) : Inv cfg (next cfg s (.stopBack e)) := by
  obtain ⟨-, hback⟩ := hg
  simp only [next]
  split
  · exact h
  · rename_i w hroot
    have hl := h.local w
    have hy := h.sync w
    simp only [Local, hback w hroot] at hl
    simp only [Sync, hback w hroot] at hy
    exact h.went (w := w) rfl ⟨rfl, fun _ _ => rfl, fun _ he => he⟩ (fun f hf => hf) ⟨hl, Or.inr hy⟩

theorem inv_destroy (h : Inv cfg s) (e : E) : Inv cfg (next cfg s (.destroy e)) := by
  have hty := h.typed
  have htyped : ∀ refs dead, Typed { s with refs := refs, dead := dead, destroyed := true } :=
    fun _ _ => ⟨hty.queue, hty.tasks, hty.cbs, hty.timers, hty.users, hty.mutex⟩
  simp only [next]
  cases mSchedulerFiber cfg s with
  | none => exact ⟨h.static, h.coherent, htyped _ _, h.owned⟩
  | some f => exact ⟨h.static, h.coherent, htyped _ _, h.owned⟩

/-! ## Every step -/

/-- **Every step keeps the invariant**, but for a timer of an idle fiber. -/
theorem inv_next (h : Inv cfg s) {a : Act W E C} (hg : guard cfg s a) (hp : NoIdleTimer s a) :
    Inv cfg (next cfg s a) := by
  cases a with
  | base a => exact inv_base h hg
  | newFiber c => exact inv_newFiber h c
  | share f | release f => exact h.users (h.typed.users f hg) _ _ _
  | getRunning w => exact inv_getRunning h hg
  | fire e i => exact inv_fire h hp
  | prologue w => exact inv_prologue h hg
  | enter w => exact inv_enter h hg
  | top w => exact inv_top h hg
  | dispatch w => exact inv_dispatch h hg
  | make w => exact inv_make h hg
  | lock w => exact inv_lock h hg
  | check w => exact inv_check h hg
  | set w k => exact inv_set h hg
  | swap w k => exact inv_swap h hg
  | unlock w => exact inv_unlock h hg
  | reset w => exact inv_reset h hg
  | idleInc w => exact inv_idleInc h hg
  | idleDec w => exact inv_idleDec h hg
  | leave w => exact inv_leave h hg
  | entry w => exact inv_entry h hg
  | sleep w => exact inv_sleep h hg
  | yield w => exact inv_yield h hg
  | ret w => exact inv_ret h hg
  | idle w => exact inv_idle h hg
  | setTerm w => exact inv_setTerm h hg
  | dropSelf w => exact inv_dropSelf h hg
  | last w => exact inv_last h hg
  | yswap w => exact inv_yswap h hg
  | stopResume e => exact inv_stopResume h hg
  | stopBack e => exact inv_stopBack h hg
  | destroy e => exact inv_destroy h e

theorem inv_initial (cfg : Sylar.Config W E) : Inv cfg (initial C cfg) := by
  refine ⟨?_, ?_, ?_, ?_, ?_⟩
  · intro f
    cases f with
    | main w => exact ⟨rfl, rfl⟩
    | sched | idle w => exact ⟨rfl, Or.inr rfl⟩
    | task n => exact ⟨rfl, Or.inl rfl⟩
  · intro f
    cases f with
    | main w => exact .main w
    | sched | idle w | task n => exact .make _ (by simp) _ _
  · refine ⟨by simp [initial, Sched.initial], by simp [initial, Sched.initial], ?_, by simp [initial],
      fun f hf => absurd hf (Nat.lt_irrefl 0), fun n hn => absurd rfl hn⟩
    intro w f hf
    simp only [initial] at hf
    split at hf <;> cases hf
  · intro w
    have hno : NoTask (view (own cfg (initial C cfg).mMutex) (initial C cfg).fib w) :=
      noTask_iff.2 (fun n => by simp [own, initial])
    by_cases hroot : cfg.root = some w
    · have hth : (initial C cfg).thread w =
          ⟨.native w, .native, some (.main w), some (.main w), some .sched, none, none, 0⟩ := if_pos hroot
      rw [hth]
      exact ⟨⟨hroot, rfl, rfl, rfl, rfl, rfl, hno, has_iff.2 ⟨hroot, Or.inl ⟨rfl, rfl, rfl⟩⟩, has_iff.2 ⟨rfl, rfl⟩⟩,
        Or.inl ⟨rfl, has_iff.2 ⟨hroot, rfl, rfl⟩⟩⟩
    · have hth : (initial C cfg).thread w = ⟨.native w, .unborn, none, none, none, none, none, 0⟩ := if_neg hroot
      rw [hth]
      exact ⟨⟨hroot, rfl, rfl, rfl, rfl, hno⟩, Or.inl rfl⟩
  · rintro f - n rfl
    exact Or.inl ⟨rfl, rfl, rfl⟩

/-- **The invariant holds in every reachable state**, as long as no timer fires that an idle fiber has armed. -/
theorem inv_reach (h : (system C cfg).Reach NoIdleTimer s) : Inv cfg s := by
  apply h.inv
  · rintro s rfl
    exact inv_initial cfg
  · intro s a hs he hp
    exact inv_next hs he.2 hp

/-! ## `sleep` as a plain delay -/

section Plain

@[simp] theorem timers_dropAny (s : State W E C) (o : Option (FiberId W)) : (s.dropAny o).timers = s.timers := by
  cases o <;> rfl

@[simp] theorem timers_swapIn (s : State W E C) (w : W) (g : FiberId W) (pc : Pc W) :
    (s.swapIn w g pc).timers = s.timers := by
  unfold State.swapIn
  split <;> rfl

@[simp] theorem timers_callYield (s : State W E C) (w : W) (x : FiberId W) (ended : Bool) :
    (s.callYield w x ended).timers = s.timers := by
  unfold State.callYield
  split <;> rfl

@[simp] theorem timers_yieldRunning (s : State W E C) (w : W) : (s.yieldRunning w).timers = s.timers := by
  unfold State.yieldRunning
  split
  · rfl
  · exact timers_callYield ..

@[simp] theorem timers_endCb (s : State W E C) (w : W) : (s.endCb w).timers = s.timers := by
  unfold State.endCb
  split
  · rfl
  · split <;> rfl

/-- Who can be in a new timer: the running fiber of a thread that sleeps. -/
theorem timers_next {a : Act W E C} {f : FiberId W} (hf : f ∈ (next cfg s a).timers) :
    f ∈ s.timers ∨ ∃ w, (s.thread w).runningFiber = some f ∧
      (a = .sleep w ∨ a = .idle w ∧ cfg.idle = .hooked) := by
  have hsleep : ∀ w, f ∈ (s.addTimer w).timers → f ∈ s.timers ∨ (s.thread w).runningFiber = some f := by
    intro w hf
    unfold State.addTimer at hf
    split at hf
    · exact Or.inl hf
    · rename_i x hx
      rcases List.mem_append.1 hf with hf | hf
      · exact Or.inl hf
      · rw [List.mem_singleton.1 hf]
        exact Or.inr hx
  cases a with
  | sleep w =>
    rcases hsleep w hf with hf | hf
    · exact Or.inl hf
    · exact Or.inr ⟨w, hf, Or.inl rfl⟩
  | idle w =>
    simp only [next] at hf
    split at hf
    · exact Or.inl hf
    · split at hf
      · exact Or.inl hf
      · split_ifs at hf with hhooked
        · rw [timers_yieldRunning] at hf
          rcases hsleep w hf with hf | hf
          · exact Or.inl hf
          · exact Or.inr ⟨w, hf, Or.inr ⟨rfl, hhooked⟩⟩
        · exact Or.inl hf
      · rw [timers_yieldRunning] at hf
        exact Or.inl hf
      · rw [timers_endCb] at hf
        exact Or.inl hf
      · exact Or.inl hf
  | fire e i =>
    simp only [next] at hf
    split at hf
    · exact Or.inl hf
    · exact Or.inl (List.mem_of_mem_eraseIdx hf)
  | yield w =>
    simp only [next, timers_yieldRunning] at hf
    exact Or.inl hf
  | base a | getRunning w | prologue w | lock w | check w | entry w | unlock w =>
    simp only [next] at hf
    split at hf <;> exact Or.inl hf
  | dispatch w | set w k | dropSelf w | setTerm w | last w | yswap w | stopResume e | stopBack e | leave w =>
    left
    revert hf
    simp only [next, State.switchTo]
    repeat' split
    all_goals simp
  | swap w k =>
    simp only [next] at hf
    split at hf
    · exact Or.inl hf
    · rw [timers_swapIn] at hf
      exact Or.inl hf
  | reset w =>
    left
    simpa only [next, State.setThread, timers_dropAny] using hf
  | newFiber c | share f' | release f' | enter w | top w | make w | idleInc w | idleDec w | ret w | destroy e =>
    left
    simpa [next] using hf

/-- Where `sleep` is a plain delay, only task fibers are in the closures of timers. -/
def TimersTask (s : State W E C) : Prop := ∀ f ∈ s.timers, ∃ n, f = .task n

theorem TimersTask.noIdleTimer (h : TimersTask s) (a : Act W E C) : NoIdleTimer s a := by
  unfold NoIdleTimer
  split
  · split
    · rename_i v hv
      obtain ⟨n, hn⟩ := h _ (List.mem_of_getElem? hv)
      cases hn
    · trivial
  · trivial

theorem timersTask_next (hplain : cfg.idle = .plain) (h : Inv cfg s) (ht : TimersTask s) {a : Act W E C}
    (hg : guard cfg s a) : TimersTask (next cfg s a) := by
  intro f hf
  rcases timers_next hf with hf | ⟨w, hrun, rfl | ⟨-, hhooked⟩⟩
  · exact ht f hf
  · obtain ⟨n, hn, -⟩ := running_made h hg hrun
    exact ⟨n, hn⟩
  · rw [hplain] at hhooked
    cases hhooked

/-- Where `sleep` is a plain delay, no idle fiber arms a timer. -/
theorem reach_noIdleTimer (hplain : cfg.idle = .plain) (h : (system C cfg).Reach Always s) :
    (system C cfg).Reach NoIdleTimer s := by
  have h' : (system C cfg).Reach NoIdleTimer s ∧ TimersTask s := by
    apply h.inv
    · rintro s rfl
      exact ⟨.start rfl, by simp [TimersTask, initial]⟩
    · rintro s a ⟨hr, ht⟩ he -
      exact ⟨hr.step he (ht.noIdleTimer a), timersTask_next hplain (inv_reach hr) ht he.2⟩
  exact h'.1

end Plain

end Sylar.Fibers
