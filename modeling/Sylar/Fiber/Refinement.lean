import Sylar.Fiber.MainFunc

/-!
# The fibers refine the scheduler

In a run of the fibers the scheduler's part of the state (`State.base`) goes through a run of `Sylar.Scheduler.Machine`,
in which a worker in `exec` handles its task and a worker in `idle` is inside `idle_fiber->resume()`. No pointer is null
where it is used, and the assertion of `yield()` holds.

- `image`: the scheduler's step that a step of the fibers is, if it is one;
- `refines_step`, `refinement`: the simulation, in which `sleep` is a plain delay or the hooked one;
- `replayed`: a run of the fibers is a run of the scheduler.
-/

set_option linter.unusedSectionVars false

namespace Sylar.Fibers

open Trans Ownership

variable {W E C : Type} [DecidableEq W] [DecidableEq E] {cfg : Sylar.Config W E} {s : State W E C}

/-- The scheduler's step. -/
def image (cfg : Sylar.Config W E) (s : State W E C) : Act W E C → Option (Sched.Act W E (FiberId W) C)
  | .base a => some a
  | .fire e i => s.timers[i]?.map fun f => .scheduleLock (.inr e) (.fiber (some f)) (-1)
  | .enter w => some (.enter w)
  | .top w => some (.top w)
  | .dispatch w => some (.dispatch w)
  | .unlock w => some (.finish w)
  | .reset w => some (.reset w)
  | .idleInc w => some (.idleInc w)
  | .idleDec w => some (.idleDec w)
  | .stopResume e => some (.stopResume e)
  | .stopBack e => some (.stopBack e)
  | .idle w =>
    match (s.base.worker w).idlePos with
    | .test => some (.idleTest w)
    | .sleep => if cfg.idle = .hooked then none else some (.idleSleep w)
    | _ => none
  | .setTerm w => if (s.thread w).stack = .fiber (.idle w) then some (.idleOut w) else none
  | .yswap w =>
    if (s.thread w).stack = .fiber (.idle w) then
      match (s.base.worker w).idlePos with
      | .sleep => some (.idleSleep w)
      | .yield => some (.idleYield w)
      | _ => some (.idleEnd w)
    else none
  | _ => none

/-- The scheduler has made the step, or none. -/
def Matches (cfg : Sylar.Config W E) (b b' : Sched.State W E (FiberId W) C) :
    Option (Sched.Act W E (FiberId W) C) → Prop
  | some a => Sched.guard cfg b a ∧ b' = Sched.next cfg b a
  | none => b' = b

/-! ## The parts of a step -/

/-- The fiber at hand in a branch of `run()`. -/
theorem target_of_run (h : Inv cfg s) {w : W} {p : RunPc} {k : Branch} (hpc : (s.thread w).pc = .run p)
    (hp : p = .check ∨ p = .unlock ∨ p = .set k ∨ p = .swap k ∨ ∃ n, p = .back .task n)
    (hk : k = .task ∨ p = .set k ∨ p = .swap k) : ∃ g, s.target w k = some g ∧ inScheduler g = true := by
  obtain ⟨-, -, -, -, hat⟩ := (local_run hpc).1 (h.local w)
  cases k with
  | task =>
    have hholds : ∃ P, Holds (s.base.worker w) (s.thread w) (view (own cfg s.mMutex) s.fib w) P := by
      rcases hp with rfl | rfl | rfl | rfl | ⟨n, rfl⟩ <;> exact ⟨_, hat.1⟩
    obtain ⟨P, n, htarget, -⟩ := hholds
    exact ⟨_, htarget, rfl⟩
  | idle =>
    rcases hk with hk | rfl | rfl
    · cases hk
    · exact ⟨_, hat.2.1, rfl⟩
    · exact ⟨_, hat.2.1, rfl⟩

/-- The callback's return does not touch the scheduler. -/
theorem base_endCb (h : Inv cfg s) {w : W} (hpc : (s.thread w).pc = .body) : (s.endCb w).base = s.base := by
  obtain ⟨f, hst, -, -, hlive, -⟩ := (body_inMain h hpc).facts
  unfold State.endCb
  simp only [hst, hlive.2]
  rfl

theorem base_callYield {w : W} {x : FiberId W} {ended : Bool} (hready : (s.fib x).mState ≠ .ready) :
    (s.callYield w x ended).base = s.base := by
  unfold State.callYield
  rw [if_neg hready]
  rfl

/-- `getRunningFiber()->yield()` and `addTimer` find a running fiber. -/
theorem base_yieldRunning (h : Inv cfg s) {w : W} (hpc : (s.thread w).pc = .body) :
    (s.yieldRunning w).base = s.base ∧ (s.addTimer w).base = s.base ∧
      ((s.addTimer w).yieldRunning w).base = s.base := by
  obtain ⟨f, hst, hrun, -, hlive, -⟩ := (body_inMain h hpc).facts
  have hready : (s.fib f).mState ≠ .ready := by
    rw [hlive.1]
    simp
  unfold State.yieldRunning State.addTimer
  simp only [hrun, State.hold]
  refine ⟨base_callYield hready, trivial, base_callYield ?_⟩
  exact hready

/-- A thread that has its `_scheduler_fiber` can switch. -/
theorem base_swapIn (h : Inv cfg s) {w : W} {p : RunPc} (hpc : (s.thread w).pc = .run p) {g : FiberId W}
    (hg : inScheduler g = true) (pc : Pc W) : (s.swapIn w g pc).base = s.base := by
  obtain ⟨hin, -⟩ := (local_run hpc).1 (h.local w)
  have hpartner : s.partner w g = some (runner cfg w) := by
    unfold State.partner
    rw [(h.static g).1, hg, if_pos rfl]
    exact hin.scheduler
  unfold State.swapIn
  rw [hpartner]
  rfl

/-! ## The steps -/

theorem matches_idle (hbase : cfg.idle ≠ .token) (h : Inv cfg s) {w : W} (hg : guard cfg s (.idle w)) :
    Matches cfg s.base (next cfg s (.idle w)).base (image cfg s (.idle w)) := by
  obtain ⟨⟨hpc, -⟩, -, hidler⟩ := hg
  obtain ⟨hm, hy⟩ := inMain_of_pc h hpc (Or.inr (Or.inl rfl))
  obtain ⟨v, hv⟩ := Option.ne_none_iff_exists'.1 hidler
  obtain ⟨rfl, hrun⟩ := idler_eq hm hv
  have hst : (s.thread v).stack = .fiber (.idle v) := stack_of_exec h ((exec_eq_running h v).trans hrun)
  simp only [MainSync, hst] at hy
  simp only [next, image, hv]
  cases hpos : (s.base.worker v).idlePos with
  | test => exact ⟨⟨hbase, hy.1, hpos⟩, rfl⟩
  | sleep =>
    dsimp only
    split_ifs with hhooked
    · exact (base_yieldRunning h hpc).2.2
    · refine ⟨⟨hbase, hy.1, hpos⟩, ?_⟩
      simp only [Sched.next, if_neg hhooked]
      rfl
  | yield => exact (base_yieldRunning h hpc).1
  | out => exact base_endCb h hpc
  | term => rfl

theorem matches_setTerm (hbase : cfg.idle ≠ .token) (h : Inv cfg s) {w : W} (hg : guard cfg s (.setTerm w)) :
    Matches cfg s.base (next cfg s (.setTerm w)).base (image cfg s (.setTerm w)) := by
  obtain ⟨hm, hy⟩ := inMain_of_pc h hg.1 (by simp [Pc.InMainFunc])
  obtain ⟨f, hst, hrun, -, hlive, hunder⟩ := hm.facts
  simp only [MainSync, hst] at hy
  simp only [next, image, State.idler, hst, hlive.2]
  cases f with
  | main u => cases hunder
  | sched | task n => rfl
  | idle u =>
    obtain rfl : u = w := hunder.1
    rw [if_pos rfl]
    exact ⟨⟨hbase, hy⟩, rfl⟩

theorem matches_yswap (hbase : cfg.idle ≠ .token) (h : Inv cfg s) {w : W} (hg : guard cfg s (.yswap w)) :
    Matches cfg s.base (next cfg s (.yswap w)).base (image cfg s (.yswap w)) := by
  simp only [guard] at hg
  split at hg
  · rename_i x ended hpc
    obtain ⟨hm, hy⟩ := inMain_of_pc h hpc (by simp [Pc.InMainFunc])
    obtain ⟨f, hst, hrun, -, hlive, hunder⟩ := hm.facts
    obtain rfl := hlive.yield_eq
    simp only [MainSync, hst] at hy
    simp only [next, image, hpc, State.partner, (h.static x).1, State.idler, hst]
    cases x with
    | main u => cases hunder
    | sched =>
      simp only [inScheduler, hunder.2.2.1]
      rfl
    | task n =>
      simp only [inScheduler, hunder.1.scheduler]
      rfl
    | idle u =>
      obtain ⟨rfl, hin, -⟩ := hunder
      obtain ⟨hidle, hpos⟩ := hy
      simp only [inScheduler, hin.scheduler, if_pos, hidle]
      have hcases : ended = false ∧ ((s.base.worker u).idlePos = .yield ∨
          (s.base.worker u).idlePos = .sleep ∧ cfg.idle = .hooked) ∨ (s.base.worker u).idlePos = .term := by
        cases ended with
        | false => exact Or.inl ⟨rfl, hpos⟩
        | true => exact Or.inr hpos
      rcases hcases with ⟨rfl, hyield | ⟨hsleep, hhooked⟩⟩ | hterm
      · rw [hyield]
        refine ⟨⟨hbase, hidle, hyield⟩, ?_⟩
        simp [Sched.next, afterYield, State.switchTo]
      · rw [hsleep]
        refine ⟨⟨hbase, hidle, hsleep⟩, ?_⟩
        simp [Sched.next, hhooked, afterYield, State.switchTo]
      · rw [hterm]
        refine ⟨⟨hbase, hidle, hterm⟩, ?_⟩
        simp [Sched.next, afterYield, State.switchTo, hterm]
  · exact hg.elim

theorem matches_dispatch (h : Inv cfg s) {w : W} (hg : guard cfg s (.dispatch w)) :
    Matches cfg s.base (next cfg s (.dispatch w)).base (image cfg s (.dispatch w)) := by
  obtain ⟨hi, hhas⟩ := h.idle hg (by simp)
  have hterm := (has_iff.1 hhas).2
  refine ⟨hg.2, ?_⟩
  simp only [next]
  cases htask : (s.base.worker w).task with
  | some e => rfl
  | none =>
    simp only [hi, Sched.next, htask]
    by_cases hx : (s.base.worker w).idlePos = .term
    · rw [if_pos hx, if_pos (hterm.2 hx)]
    · rw [if_neg hx, if_neg (fun hn => hx (hterm.1 hn))]

theorem matches_stopResume (h : Inv cfg s) {e : E} (hg : guard cfg s (.stopResume e)) :
    Matches cfg s.base (next cfg s (.stopResume e)).base (image cfg s (.stopResume e)) := by
  obtain ⟨hstop, hnative⟩ := hg
  refine ⟨hstop, ?_⟩
  simp only [next]
  cases hroot : cfg.root with
  | none => rfl
  | some w =>
    have hy := h.sync w
    simp only [Sync, hnative w hroot] at hy
    simp only [Sched.next, hroot]
    rcases hy with ⟨hpc, hready⟩ | ⟨hpc, hterm⟩
    · rw [if_pos (has_iff.1 hready).2.1, if_pos hpc]
    · rw [if_neg, if_neg]
      · rfl
      · rw [hpc]
        simp
      · rw [(has_iff.1 hterm).2]
        simp

/-- **Every step of the fibers is a step of the scheduler**, or none of its business. -/
theorem refines_step (hbase : cfg.idle ≠ .token) (h : Inv cfg s) {a : Act W E C} (hg : guard cfg s a) :
    Matches cfg s.base (next cfg s a).base (image cfg s a) := by
  cases a with
  | base a =>
    refine ⟨hg.1, ?_⟩
    simp only [next]
    split <;> rfl
  | fire e i =>
    obtain ⟨hstop, hwake, hi⟩ := hg
    simp only [next, image, List.getElem?_eq_getElem hi]
    exact ⟨⟨hstop, hwake⟩, rfl⟩
  | newFiber c | share f | release f => rfl
  | getRunning w =>
    obtain ⟨n, -, -, hrun, -⟩ := user_task h hg
    simp only [next, image, hrun]
    rfl
  | prologue w =>
    simp only [next, image]
    split_ifs <;> rfl
  | enter w | top w | idleInc w => exact ⟨hg.2, rfl⟩
  | reset w =>
    refine ⟨hg.2, ?_⟩
    simp only [next]
  | dispatch w => exact matches_dispatch h hg
  | make w => rfl
  | lock w =>
    obtain ⟨-, g, hg, -⟩ := hg
    simp only [next, image, show s.target w .task = some g from hg]
    rfl
  | check w =>
    obtain ⟨g, hg, -⟩ := target_of_run h hg.1 (k := .task) (Or.inl rfl) (Or.inl rfl)
    simp only [next, image, hg]
    rfl
  | set w k =>
    obtain ⟨g, htarget, -⟩ := target_of_run h hg.1 (Or.inr (Or.inr (Or.inl rfl))) (Or.inr (Or.inl rfl))
    have hready : (s.fib g).mState = .ready := by
      obtain ⟨-, -, -, -, hat⟩ := (local_run hg.1).1 (h.local w)
      cases k with
      | task =>
        obtain ⟨⟨n, htarget', hhas, -⟩, -⟩ := hat
        obtain rfl : g = .task n := Option.some_inj.1 (htarget.symm.trans htarget')
        exact (has_iff.1 hhas).2.2
      | idle =>
        obtain ⟨-, htarget', hhas⟩ := hat
        obtain rfl : g = .idle w := Option.some_inj.1 (htarget.symm.trans htarget')
        exact (has_iff.1 hhas).2.2
    simp only [next, image, htarget, if_pos hready]
    rfl
  | swap w k =>
    obtain ⟨g, htarget, hsch⟩ := target_of_run h hg.1 (Or.inr (Or.inr (Or.inr (Or.inl rfl)))) (Or.inr (Or.inr rfl))
    simp only [next, image, htarget]
    exact base_swapIn h hg.1 hsch _
  | unlock w =>
    have htarget : ∃ g, s.target w .task = some g := by
      rcases hg with hg | hg
      · obtain ⟨g, hg, -⟩ := target_of_run h hg.1 (k := .task) (Or.inr (Or.inl rfl)) (Or.inl rfl)
        exact ⟨g, hg⟩
      · obtain ⟨g, hg, -⟩ := target_of_run h hg.1 (k := .task) (Or.inr (Or.inr (Or.inr (Or.inr ⟨_, rfl⟩)))) (Or.inl rfl)
        exact ⟨g, hg⟩
    obtain ⟨g, htarget⟩ := htarget
    simp only [next, image, htarget]
    refine ⟨?_, rfl⟩
    rcases hg with hg | hg
    · exact ⟨((sync_run hg.1).1 (h.sync w)).1, hg.2⟩
    · exact ⟨((sync_run hg.1).1 (h.sync w)).1, hg.2⟩
  | idleDec w => exact ⟨((sync_run hg.1).1 (h.sync w)).1, rfl⟩
  | leave w =>
    have hstack : (s.thread w).stack = .native w ∨ (s.thread w).stack = .fiber .sched ∧ cfg.root = some w := by
      obtain ⟨-, hst, -⟩ := (local_run hg.1.1).1 (h.local w)
      rw [hst]
      unfold runner
      split_ifs with hroot
      · exact Or.inr ⟨rfl, hroot⟩
      · exact Or.inl rfl
    simp only [next, image]
    rcases hstack with hst | ⟨hst, hroot⟩
    · rw [hst]
      exact base_dropAny s _
    · obtain ⟨hin, -⟩ := (local_run hg.1.1).1 (h.local w)
      have hself := (has_iff.1 (hin.below hroot).2).2.1
      rw [hst]
      simp only [State.endCb, State.setThread, Function.update_self, fib_dropAny, hself]
      exact base_dropAny s _
  | entry w =>
    obtain ⟨hm, -⟩ := inMain_of_pc h hg.1 (Or.inl rfl)
    obtain ⟨f, hst, hrun, -⟩ := hm.facts
    simp only [next, image, hst, hrun]
    rfl
  | sleep w =>
    obtain ⟨n, hpc, -⟩ := user_task h hg
    exact (base_yieldRunning h hpc).2.1
  | yield w =>
    obtain ⟨n, hpc, -⟩ := user_task h hg
    exact (base_yieldRunning h hpc).1
  | ret w =>
    obtain ⟨n, hpc, -⟩ := user_task h hg
    exact base_endCb h hpc
  | idle w => exact matches_idle hbase h hg
  | setTerm w => exact matches_setTerm hbase h hg
  | dropSelf w =>
    obtain ⟨hm, -⟩ := inMain_of_pc h hg.1 (by simp [Pc.InMainFunc])
    obtain ⟨f, hst, -⟩ := hm.facts
    simp only [next, image, hst]
    exact base_dropAny s _
  | last w =>
    obtain ⟨hm, -⟩ := inMain_of_pc h hg.1 (by simp [Pc.InMainFunc])
    obtain ⟨f, hst, -, -, hlive, -⟩ := hm.facts
    simp only [next, image, hst, hlive.2.2]
    refine base_callYield ?_
    rw [hlive.1]
    simp
  | yswap w => exact matches_yswap hbase h hg
  | stopResume e => exact matches_stopResume h hg
  | stopBack e =>
    obtain ⟨hstop, -⟩ := hg
    obtain ⟨w, hroot, -⟩ := hstop.2
    refine ⟨hstop, ?_⟩
    simp only [next, show cfg.root = some w from hroot]
  | destroy e =>
    simp only [next, image]
    exact base_dropAny s _

/-- **The fibers refine the scheduler.** -/
def refinement (C : Type) (cfg : Sylar.Config W E) (hbase : cfg.idle ≠ .token) :
    Simulation (system C cfg) NoIdleTimer (Sched.system (FiberId W) C cfg) Always where
  abs s := s.base
  acts s a := (image cfg s a).toList
  init := by
    rintro s rfl
    rfl
  step := by
    intro s a hr he hp
    have hstep := refines_step hbase (inv_reach hr) he.2
    change System.Steps _ _ s.base (image cfg s a).toList (next cfg s a).base
    cases himage : image cfg s a with
    | none =>
      rw [himage] at hstep
      rw [show (next cfg s a).base = s.base from hstep]
      exact .nil _
    | some b =>
      rw [himage] at hstep
      rw [hstep.2]
      exact .cons ⟨he.1.1, hstep.1⟩ trivial (.nil _)

theorem reach_base (hbase : cfg.idle ≠ .token) (h : (system C cfg).Reach NoIdleTimer s) :
    (Sched.system (FiberId W) C cfg).Reach Always s.base := (refinement C cfg hbase).reach h

/-- **A run of the fibers is a run of the scheduler.** What user code, contexts, stacks, thread-local pointers and
counted references do in between leaves the scheduler's part of the state alone, and every other step is one of the
scheduler's, possible where it happens: a step that its worker takes itself, or that the fiber it resumes takes. -/
theorem replayed (hbase : cfg.idle ≠ .token) {s₀ t : State W E C} {as : List (Act W E C)} (h₀ : (system C cfg).init s₀)
    (h : (system C cfg).Steps NoIdleTimer s₀ as t) :
    (Sched.system (FiberId W) C cfg).init s₀.base ∧
      (Sched.system (FiberId W) C cfg).Steps Always s₀.base ((refinement C cfg hbase).trace s₀ as) t.base :=
  ⟨(refinement C cfg hbase).init s₀ h₀, (refinement C cfg hbase).steps (.start h₀) h⟩

/-- A worker fetches a task, whose fiber yields, and goes back to its loop. -/
def yieldRun (w : Fin 2) (e a : Fin 3) : List (Act (Fin 2) (Fin 3) Nat) :=
  [.base (.start e), .newFiber 7, .base (.scheduleLock (.inr a) (.fiber (some (.task 0))) (-1)),
    .base (.wakeUp (.inr a)), .prologue w, .enter w, .top w, .base (.scan w), .base (.tickle w), .dispatch w, .lock w,
    .check w, .set w .task, .swap w .task, .entry w, .yield w, .yswap w, .unlock w]

theorem replayed_duo : ∃ t : State (Fin 2) (Fin 3) Nat,
    (Sched.system (FiberId (Fin 2)) Nat (Sched.duo .plain)).Steps Always (Sched.initial _ _ _ _)
      [.start 0, .scheduleLock (.inr 1) (.fiber (some (.task 0))) (-1), .wakeUp (.inr 1), .enter 0, .top 0, .scan 0,
        .tickle 0, .dispatch 0, .finish 0] t.base := by
  have h : (System.exec (system Nat (Sched.duo .plain)) NoIdleTimer (initial Nat (Sched.duo .plain))
      (yieldRun 0 0 1)).isSome = true := by
    decide
  exact ⟨_, (replayed (show (Sched.duo .plain).idle ≠ .token by decide) rfl (System.steps_exec h)).2⟩

end Sylar.Fibers
