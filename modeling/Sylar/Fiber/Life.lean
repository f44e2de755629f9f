import Sylar.Fiber.Isolation
import Sylar.Fiber.Execution

/-!
# The life of a task fiber

A task or callback fiber is entered once, returns once and ends once, however often it is queued, in every run, idle
fibers that their timers have queued included (`Sylar.Fiber.Isolation`).

- `Turn`: the steps that change a task fiber, and how; `turn_of_next`: there are no others;
- `stack_next`: who comes to execute a task fiber does so by the switch of its `resume()`;
- `runs_once`: the callback's one run, and what is left of a fiber that is `TERM`.
-/

set_option linter.unusedSectionVars false

namespace Sylar.Fibers.Isolated

open Trans Ownership

variable {W E C : Type} [DecidableEq W] [DecidableEq E] {cfg : Sylar.Config W E} {s : State W E C}

/-! ## What a step does to a task fiber -/

/-- The thread executes on the stack of `f`. -/
def On (s : State W E C) (w : W) (f : FiberId W) : Prop := (s.thread w).stack = .fiber f

instance (s : State W E C) (w : W) (f : FiberId W) : Decidable (On s w f) := inferInstanceAs (Decidable (_ = _))

/-- **The steps that change the task fiber `f`**, each with the state it needs and the fiber behind it. -/
inductive Turn (s : State W E C) (f : FiberId W) : Act W E C → Fiber W C → Prop
  | set (w : W) : (s.fib f).mState = .ready → Turn s f (.set w .task) { s.fib f with mState := .running }
  | swap (w : W) (c : Cont W) : (s.fib f).mState = .running →
      Turn s f (.swap w .task) { s.fib f with resumer := some c, started := true }
  | entry (w : W) : On s w f → (s.fib f).mState = .running → (s.fib f).self = none →
      Turn s f (.entry w) { s.fib f with self := some f }
  | yield (w : W) : On s w f → s.inUser w = true → (s.fib f).mState = .running → (s.fib f).self = some f →
      Turn s f (.yield w) { s.fib f with mState := .ready }
  | ret (w : W) (c : C) : On s w f → s.inUser w = true → (s.fib f).mState = .running → (s.fib f).self = some f →
      (s.fib f).mCb = some (.user c) → Turn s f (.ret w) { s.fib f with mCb := none }
  | setTerm (w : W) : On s w f → (s.fib f).mState = .running → (s.fib f).self = some f → (s.fib f).mCb = none →
      Turn s f (.setTerm w) { s.fib f with mState := .term }
  | dropSelf (w : W) : On s w f → (s.fib f).mState = .term →
      Turn s f (.dropSelf w) { s.fib f with rawPtr := some f, self := none }
  | yswap (w : W) (c : Cont W) (pc : Pc W) : On s w f →
      (s.fib f).mState = .ready ∧ (s.fib f).self = some f ∨ (s.fib f).mState = .term →
      Turn s f (.yswap w) { s.fib f with mCtx := c, last := pc }

/-- A thread on a task fiber's stack, in `MainFunc`. -/
theorem on_code (h : Inv cfg s) {w : W} {n : Nat} (hon : On s w (.task n)) {pc : Pc W} (hpc : (s.thread w).pc = pc)
    (hmain : pc.InMainFunc) : (s.thread w).runningFiber = some (.task n) ∧
      own cfg s.mMutex (.task n) = some w ∧ Code (.task n) (s.fib (.task n)) pc := by
  obtain ⟨f, hst, hrun, hat, -⟩ := inMain_of_pc h hpc hmain
  obtain rfl : FiberId.task n = f := Stack.fiber.inj (hon.symm.trans hst)
  exact ⟨hrun, has_iff.1 hat⟩

/-- User code of a thread is the callback of the fiber whose stack it is on. -/
theorem user_cb (h : Inv cfg s) {w : W} (hu : s.inUser w = true) :
    ∃ n c, On s w (.task n) ∧ (s.thread w).runningFiber = some (.task n) ∧
      (s.fib (.task n)).mState = .running ∧ (s.fib (.task n)).self = some (.task n) ∧
      (s.fib (.task n)).mCb = some (.user c) := by
  obtain ⟨n, hpc, hon, hrun, -⟩ := user_task h hu
  obtain ⟨-, -, ⟨hstate, hself⟩, -⟩ := on_code h hon hpc (by simp [Pc.InMainFunc])
  unfold State.inUser State.code at hu
  rw [hon] at hu
  simp only [hself, Option.bind_some] at hu
  cases hcb : (s.fib (.task n)).mCb with
  | none => simp [hcb] at hu
  | some cb =>
    cases cb with
    | user c => exact ⟨n, c, hon, hrun, hstate, hself, hcb⟩
    | run | idle => simp [hcb] at hu

/-- The first half of `x->yield()` changes the state of `x`, unless the assertion fails. -/
theorem fib_callYield (s : State W E C) (w : W) (x : FiberId W) (ended : Bool) :
    (s.callYield w x ended).fib = s.fib ∨ (s.fib x).mState ≠ .ready ∧ (s.callYield w x ended).fib =
      Function.update s.fib x { s.fib x with mState := if (s.fib x).mState = .term then .term else .ready } := by
  unfold State.callYield
  split
  · exact Or.inl rfl
  · rename_i hne
    exact Or.inr ⟨hne, rfl⟩

/-- `runningFiber->m_cb = nullptr`, on a stack whose `MainFunc` names its own fiber. -/
theorem fib_endCb {w : W} {f : FiberId W} (hst : (s.thread w).stack = .fiber f) (hself : ∀ g ∈ (s.fib f).self, g = f) :
    (s.endCb w).fib = s.fib ∨ (s.endCb w).fib = Function.update s.fib f { s.fib f with mCb := none } := by
  unfold State.endCb
  rw [hst]
  dsimp only
  split
  · exact Or.inl rfl
  · rename_i x hx
    obtain rfl := hself x hx
    exact Or.inr rfl

/-- Another fiber is changed. -/
theorem other_of_update {fib fib' : FiberId W → Fiber W C} {f g : FiberId W} {x : Fiber W C}
    (h : fib' = fib ∨ fib' = Function.update fib g x) (hne : f ≠ g) : fib' f = fib f := by
  rcases h with h | h
  · rw [h]
  · rw [h, Function.update_of_ne hne]

/-- Whom a fiber yields to: the fiber of the thread that `run()` runs in, or its main fiber. It is in a `resume()`. -/
theorem partner_under (h : Inv cfg s) {w : W} {f r : FiberId W}
    (hunder : Under cfg w (s.base.worker w).task (s.thread w) (view (own cfg s.mMutex) s.fib w) f)
    (hr : s.partner w f = some r) :
    r = runner cfg w ∧ (∃ k n, (s.fib r).last = .run (.back k n)) ∨ r = .main w ∧ (s.fib r).last = .stopBack := by
  unfold State.partner at hr
  rw [(h.static f).1] at hr
  cases f with
  | main u => exact hunder.elim
  | sched =>
    obtain ⟨-, -, hm, -, hback⟩ := hunder
    obtain rfl : FiberId.main w = r := Option.some_inj.1 (hm.symm.trans hr)
    exact Or.inr ⟨rfl, (has_iff.1 hback).2⟩
  | idle u =>
    obtain ⟨hin, -, k, n, hback, -⟩ := hunder
    obtain rfl : runner cfg w = r := Option.some_inj.1 (hin.scheduler.symm.trans hr)
    exact Or.inl ⟨rfl, k, n, (has_iff.1 hback).2⟩
  | task m =>
    obtain ⟨hin, -, -, n, hback⟩ := hunder
    obtain rfl : runner cfg w = r := Option.some_inj.1 (hin.scheduler.symm.trans hr)
    exact Or.inl ⟨rfl, .task, n, (has_iff.1 hback).2⟩

/-- **The switch of a `yield()`**: the fiber saves itself, and the thread goes on in `run()` or in `stop()`. -/
theorem yswap_eq (h : Inv cfg s) {w : W} {x : FiberId W} {ended : Bool} (hpc : (s.thread w).pc = .yield x ended) :
    (s.thread w).stack = .fiber x ∧ ((next cfg s (.yswap w)).fib = s.fib ∧ (next cfg s (.yswap w)).thread = s.thread ∨
      ∃ r c pc,
        (r = runner cfg w ∧ (∃ k n, (s.fib r).last = .run (.back k n)) ∨ r = .main w ∧ (s.fib r).last = .stopBack) ∧
        (next cfg s (.yswap w)).fib = Function.update s.fib x { s.fib x with mCtx := c, last := pc } ∧
        (next cfg s (.yswap w)).thread = Function.update s.thread w
          { s.thread w with stack := home r, pc := (s.fib r).last, runningFiber := some r }) := by
  obtain ⟨hst, hhome, hexec, hat, hunder⟩ := yields h hpc
  refine ⟨hst, ?_⟩
  simp only [next, hpc]
  split
  · exact Or.inl ⟨rfl, rfl⟩
  · rename_i r hr
    obtain ⟨hne, -⟩ := local_yswap h hst hat hunder hr ⟨home x, .body⟩
    rw [switchTo_eq (h.ctx r) hexec (hst.trans hhome.symm) hne]
    refine Or.inr ⟨r, ⟨home x, if ended then .exited else .body⟩, if ended then .exited else .body,
      partner_under h hunder hr, ?_⟩
    split
    · exact ⟨rfl, rfl⟩
    · dsimp only
      split <;> exact ⟨rfl, rfl⟩

/-- A step that writes one fiber, if any. -/
theorem turn_of_update {a : Act W E C} {n : Nat} {fib' : FiberId W → Fiber W C} {f : FiberId W} {x : Fiber W C}
    (h : fib' = s.fib ∨ fib' = Function.update s.fib f x) (hturn : f = .task n → x = s.fib f ∨ Turn s f a x) :
    fib' (.task n) = s.fib (.task n) ∨ Turn s (.task n) a (fib' (.task n)) := by
  rcases h with h | h
  · left
    rw [h]
  · rw [h]
    by_cases hf : f = .task n
    · subst hf
      rw [Function.update_self]
      exact hturn rfl
    · left
      rw [Function.update_of_ne (Ne.symm hf)]

theorem turn_set (h : Inv cfg s) {w : W} {k : Branch} (hg : guard cfg s (.set w k)) (n : Nat) :
    (next cfg s (.set w k)).fib (.task n) = s.fib (.task n) ∨
      Turn s (.task n) (.set w k) ((next cfg s (.set w k)).fib (.task n)) := by
  simp only [next]
  split
  · exact Or.inl rfl
  · rename_i g htarget
    split_ifs with hready
    · refine turn_of_update (Or.inr rfl) ?_
      rintro rfl
      cases k with
      | task => exact Or.inr (Turn.set w hready)
      | idle => cases (h.local w).1 _ htarget
    · exact Or.inl rfl

/-- **The switch of a `resume()` in `run()`**: the thread's own fiber saves itself, and the thread goes on where the
fiber at hand, a task fiber that is `RUNNING` or an idle fiber, was suspended. -/
theorem swap_eq (h : Inv cfg s) {w : W} {k : Branch} (hg : guard cfg s (.swap w k)) :
    ((next cfg s (.swap w k)).fib = s.fib ∧ (next cfg s (.swap w k)).thread = s.thread) ∨
      ∃ g c x, s.target w k = some g ∧
        ((∃ n, g = .task n ∧ k = .task ∧ (s.fib g).mState = .running) ∨ ∃ u, g = .idle u) ∧
        (next cfg s (.swap w k)).fib = Function.update (Function.update s.fib (runner cfg w) x) g
          { s.fib g with resumer := some c, started := true } ∧
        (next cfg s (.swap w k)).thread = Function.update s.thread w
          { s.thread w with stack := home g, pc := (s.fib g).last, runningFiber := some g } := by
  obtain ⟨hpc, -⟩ := hg
  obtain ⟨hin, hst, hrun, hat⟩ := (stands_run hpc).1 (h.stands w)
  simp only [next]
  split
  · exact Or.inl ⟨rfl, rfl⟩
  · rename_i g htarget
    right
    have hgoal : (∃ n, g = .task n ∧ k = .task ∧ (s.fib g).mState = .running) ∨ ∃ u, g = .idle u := by
      cases k with
      | task =>
        rcases holds_target hat htarget with ⟨n, hn, -, harmed, -⟩ | ⟨hidle, -⟩
        · exact Or.inl ⟨n, hn, rfl, harmed.1⟩
        · exact Or.inr hidle
      | idle => exact Or.inr ⟨w, (h.local w).1 g htarget⟩
    have hsch : inScheduler g = true := by
      rcases hgoal with ⟨n, rfl, -⟩ | ⟨u, rfl⟩ <;> rfl
    have hne : g ≠ runner cfg w := by
      rcases hgoal with ⟨n, rfl, -⟩ | ⟨u, rfl⟩
      · exact (runner_ne_task cfg w n).symm
      · exact (runner_ne_idle cfg w u).symm
    rw [swapIn_eq (h.ctx g) (partner_run h hin hsch) (exec_runner hin hst) hst hne]
    exact ⟨g, _, _, htarget, hgoal, rfl, rfl⟩

theorem turn_swap (h : Inv cfg s) {w : W} {k : Branch} (hg : guard cfg s (.swap w k)) (n : Nat) :
    (next cfg s (.swap w k)).fib (.task n) = s.fib (.task n) ∨
      Turn s (.task n) (.swap w k) ((next cfg s (.swap w k)).fib (.task n)) := by
  rcases swap_eq h hg with ⟨hfib, -⟩ | ⟨g, c, x, -, hgoal, hfib, -⟩
  · left
    rw [hfib]
  · rw [hfib]
    by_cases hgn : g = .task n
    · subst hgn
      rcases hgoal with ⟨m, -, rfl, hstate⟩ | ⟨u, hu⟩
      · right
        rw [Function.update_self]
        exact Turn.swap w c hstate
      · cases hu
    · left
      rw [Function.update_of_ne (Ne.symm hgn), Function.update_of_ne (runner_ne_task cfg w n).symm]

/-- Behind `run()` it is `MainFunc` of `m_schedulerFiber` that clears its `m_cb`. -/
theorem fib_leave (h : Inv cfg s) {w : W} (hg : guard cfg s (.leave w)) (n : Nat) :
    (next cfg s (.leave w)).fib (.task n) = s.fib (.task n) := by
  obtain ⟨⟨hpc, -⟩, -⟩ := hg
  obtain ⟨hin, hst, -, -⟩ := (stands_run hpc).1 (h.stands w)
  simp only [next]
  split
  · simp
  · rename_i f hf
    have hsched : f = .sched ∧ cfg.root = some w := by
      unfold runner at hst
      split_ifs at hst with hroot
      · exact ⟨Stack.fiber.inj (hf.symm.trans hst), hroot⟩
      · cases hf.symm.trans hst
    obtain ⟨rfl, hroot⟩ := hsched
    have hself : (s.fib .sched).self = some .sched := (has_iff.1 (hin.below hroot).2).2.2
    have hend := fib_endCb (s := (s.dropAny (s.thread w).idleFiber).setThread w { s.thread w with idleFiber := none })
      (w := w) (f := .sched) (by simp [hf]) (by simp [hself])
    have hother := other_of_update hend (f := .task n) (by simp)
    simpa using hother

/-- A step of `idle()` writes the idle fiber. -/
theorem fib_idle (h : Inv cfg s) {w : W} (hg : guard cfg s (.idle w)) (n : Nat) :
    (next cfg s (.idle w)).fib (.task n) = s.fib (.task n) := by
  obtain ⟨⟨hpc, -⟩, -, -⟩ := hg
  obtain ⟨f, hst, hrun, hself, -⟩ := (inMain_of_pc h hpc (by simp [Pc.InMainFunc])).facts h
  simp only [next]
  split
  · rfl
  · rename_i v hv
    obtain rfl := eq_idle_of_idler hst hv
    have hyield : ∀ s' : State W E C, s'.fib = s.fib → (s'.thread w).runningFiber = some (.idle v) →
        (s'.yieldRunning w).fib (.task n) = s.fib (.task n) := by
      intro s' hfib hrun'
      unfold State.yieldRunning
      rw [hrun', ← hfib]
      apply other_of_update (g := .idle v)
      · exact (fib_callYield s' w (.idle v) false).imp id And.right
      · simp
    split
    · rfl
    · split_ifs
      · refine hyield _ (fib_addTimer s w) ?_
        simp only [State.addTimer, hrun]
        exact hrun
      · rfl
    · exact hyield s rfl hrun
    · exact other_of_update (fib_endCb hst hself) (by simp)
    · rfl

theorem turn_setTerm (h : Inv cfg s) {w : W} (hg : guard cfg s (.setTerm w)) (n : Nat) :
    (next cfg s (.setTerm w)).fib (.task n) = s.fib (.task n) ∨
      Turn s (.task n) (.setTerm w) ((next cfg s (.setTerm w)).fib (.task n)) := by
  obtain ⟨hpc, -⟩ := hg
  obtain ⟨f, hst, hrun, hself, -⟩ := (inMain_of_pc h hpc (by simp [Pc.InMainFunc])).facts h
  have hfib : (next cfg s (.setTerm w)).fib = s.fib ∨
      (next cfg s (.setTerm w)).fib = Function.update s.fib f { s.fib f with mState := .term } := by
    simp only [next]
    rw [hst]
    dsimp only
    split
    · exact Or.inl rfl
    · rename_i x hx
      obtain rfl := hself x hx
      right
      split <;> rfl
  refine turn_of_update hfib ?_
  rintro rfl
  obtain ⟨-, -, ⟨hstate, hself'⟩, hcb⟩ := on_code h hst hpc (by simp [Pc.InMainFunc])
  exact Or.inr (Turn.setTerm w hst hstate hself' (hcb rfl))

/-- The last `yield()` leaves `TERM` as it is. -/
theorem fib_last (h : Inv cfg s) {w : W} (hg : guard cfg s (.last w)) (n : Nat) :
    (next cfg s (.last w)).fib (.task n) = s.fib (.task n) := by
  obtain ⟨hpc, -⟩ := hg
  obtain ⟨f, hst, hrun, -, hraw, -⟩ := (inMain_of_pc h hpc (by simp [Pc.InMainFunc])).facts h
  simp only [next, hst]
  split
  · rfl
  · rename_i x hx
    obtain rfl := hraw rfl x hx
    rcases fib_callYield s w x true with hfib | ⟨-, hfib⟩
    · rw [hfib]
    · rw [hfib]
      by_cases hf : x = .task n
      · subst hf
        obtain ⟨-, -, ⟨hstate, -⟩, -⟩ := on_code h hst hpc (by simp [Pc.InMainFunc])
        rw [Function.update_self]
        cases hx : s.fib (.task n) with
        | mk mState _ _ _ _ _ _ _ _ =>
          rw [hx] at hstate
          have hterm : mState = .term := hstate
          simp [hterm]
      · rw [Function.update_of_ne (Ne.symm hf)]

theorem turn_yswap (h : Inv cfg s) {w : W} {x : FiberId W} {ended : Bool} (hpc : (s.thread w).pc = .yield x ended)
    (n : Nat) : (next cfg s (.yswap w)).fib (.task n) = s.fib (.task n) ∨
      Turn s (.task n) (.yswap w) ((next cfg s (.yswap w)).fib (.task n)) := by
  obtain ⟨hst, ⟨hfib, -⟩ | ⟨r, c, pc, -, hfib, -⟩⟩ := yswap_eq h hpc
  · left
    rw [hfib]
  · refine turn_of_update (Or.inr hfib) ?_
    rintro rfl
    obtain ⟨-, -, hlive, -⟩ := on_code h hst hpc (by simp [Pc.InMainFunc])
    have hstate : (s.fib (.task n)).mState = .ready ∧ (s.fib (.task n)).self = some (.task n) ∨
        (s.fib (.task n)).mState = .term := by
      cases ended with
      | false => exact Or.inl hlive.2
      | true => exact Or.inr hlive.2.1
    exact Or.inr (Turn.yswap w c pc hst hstate)

/-- **A task fiber changes by its turns only.** -/
theorem turn_of_next (h : Inv cfg s) {a : Act W E C} (hg : guard cfg s a) {n : Nat} (hn : n < s.nextId) :
    (next cfg s a).fib (.task n) = s.fib (.task n) ∨ Turn s (.task n) a ((next cfg s a).fib (.task n)) := by
  have hnew : FiberId.task n ≠ (.task s.nextId : FiberId W) := by
    intro he
    cases he
    omega
  cases a with
  | base a | fire e i | getRunning w =>
    left
    simp only [next]
    split <;> rfl
  | share f | release f | top w | idleInc w | idleDec w => exact Or.inl rfl
  | newFiber c => exact Or.inl (Function.update_of_ne hnew _ _)
  | make w => exact Or.inl (Function.update_of_ne hnew _ _)
  | prologue w =>
    left
    simp only [next]
    split
    · simp
    · rfl
  | enter w =>
    left
    simp [next]
  | dispatch w =>
    left
    simp only [next]
    split
    · rfl
    · split <;> rfl
  | lock w | check w | unlock w | stopBack e =>
    left
    simp only [next]
    split <;> rfl
  | reset w | destroy e =>
    left
    simp [next]
  | set w k => exact turn_set h hg n
  | swap w k => exact turn_swap h hg n
  | leave w => exact Or.inl (fib_leave h hg n)
  | entry w =>
    obtain ⟨hpc, -⟩ := hg
    obtain ⟨f, hst, hrun, -⟩ := (inMain_of_pc h hpc (by simp [Pc.InMainFunc])).facts h
    simp only [next, hst, hrun]
    refine turn_of_update (Or.inr rfl) ?_
    rintro rfl
    obtain ⟨-, -, ⟨hstate, hself⟩, -⟩ := on_code h hst hpc (by simp [Pc.InMainFunc])
    exact Or.inr (Turn.entry w hst hstate hself)
  | sleep w =>
    left
    simp only [next, fib_addTimer]
  | yield w =>
    obtain ⟨m, c, hon, hrun, hstate, hself, -⟩ := user_cb h hg
    simp only [next, State.yieldRunning, hrun]
    refine turn_of_update ((fib_callYield s w (.task m) false).imp id And.right) ?_
    intro hm
    cases hm
    right
    simpa [hstate] using Turn.yield w hon hg hstate hself
  | ret w =>
    obtain ⟨m, c, hon, hrun, hstate, hself, hcb⟩ := user_cb h hg
    simp only [next]
    refine turn_of_update (fib_endCb hon (by simp [hself])) ?_
    intro hm
    cases hm
    exact Or.inr (Turn.ret w c hon hg hstate hself hcb)
  | idle w => exact Or.inl (fib_idle h hg n)
  | setTerm w => exact turn_setTerm h hg n
  | dropSelf w =>
    obtain ⟨hpc, -⟩ := hg
    obtain ⟨f, hst, hrun, hself, -⟩ := (inMain_of_pc h hpc (by simp [Pc.InMainFunc])).facts h
    simp only [next, hst]
    refine turn_of_update (f := f) (x := { s.fib f with rawPtr := (s.fib f).self, self := none })
      (Or.inr (by simp)) ?_
    rintro rfl
    obtain ⟨-, -, ⟨hstate, hself'⟩, -⟩ := on_code h hst hpc (by simp [Pc.InMainFunc])
    right
    simpa [hself'] using Turn.dropSelf w hst hstate
  | last w => exact Or.inl (fib_last h hg n)
  | yswap w =>
    simp only [guard] at hg
    split at hg
    · rename_i hpc
      exact turn_yswap h hpc n
    · exact hg.elim
  | stopResume e =>
    left
    obtain ⟨-, hnative⟩ := hg
    simp only [next]
    split
    · rfl
    · rename_i w hroot
      split_ifs
      · rw [show s.setFiber .sched { s.fib .sched with mState := .running } = runSched s from rfl,
          swap_stop h (hnative w hroot)]
        simp [runSched]
      · rfl

/-! ## Who executes a task fiber -/

/-- Where a thread executes, with its thread-local pointers. -/
def face (t : Thread W) : Stack W × Option (FiberId W) × Option (FiberId W) × Option (FiberId W) :=
  (t.stack, t.runningFiber, t.mainFiber, t.schedulerFiber)

/-- A move that stays on the stack. -/
theorem face_move {s' : State W E C} {w : W} {t : Thread W} (hs : s'.thread = Function.update s.thread w t)
    (ht : face t = face (s.thread w)) (v : W) : face (s'.thread v) = face (s.thread v) := by
  rw [hs]
  by_cases hv : v = w
  · rw [hv, Function.update_self, ht]
  · rw [Function.update_of_ne hv]

theorem face_callYield (s : State W E C) (w : W) (x : FiberId W) (ended : Bool) (v : W) :
    face ((s.callYield w x ended).thread v) = face (s.thread v) := by
  unfold State.callYield
  split
  · rfl
  · refine face_move (w := w) rfl ?_ v
    rfl

theorem face_yieldRunning (s : State W E C) (w v : W) :
    face ((s.yieldRunning w).thread v) = face (s.thread v) := by
  unfold State.yieldRunning
  split
  · rfl
  · exact face_callYield s w _ false v

theorem face_endCb (s : State W E C) (w v : W) : face ((s.endCb w).thread v) = face (s.thread v) := by
  unfold State.endCb
  split
  · rfl
  · split
    · rfl
    · refine face_move (w := w) rfl ?_ v
      rfl

/-- **Only a switch changes the stack that a thread executes on**, and only a switch or the prologue of `run()` its
thread-local pointers. -/
theorem face_next {a : Act W E C} (ha : ¬ a.switches) (hp : ∀ w, a ≠ .prologue w) (v : W) :
    face ((next cfg s a).thread v) = face (s.thread v) := by
  cases a with
  | base a | fire e i | getRunning w =>
    simp only [next]
    split <;> rfl
  | newFiber c | share f | release f => rfl
  | prologue w => exact absurd rfl (hp w)
  | enter w | top w | make w | idleInc w | idleDec w =>
    refine face_move (w := w) rfl ?_ v
    rfl
  | dispatch w =>
    simp only [next]
    split
    · refine face_move (w := w) rfl ?_ v
      rfl
    · split <;> rfl
  | lock w | check w | unlock w =>
    simp only [next]
    split
    · rfl
    · refine face_move (w := w) rfl ?_ v
      rfl
  | stopBack e =>
    simp only [next]
    split
    · rfl
    · rename_i w _
      refine face_move (w := w) rfl ?_ v
      rfl
  | set w k =>
    simp only [next]
    split
    · rfl
    · split
      · refine face_move (w := w) rfl ?_ v
        rfl
      · rfl
  | reset w =>
    refine face_move (s := s) (w := w) (congrArg (Function.update · w _) (thread_dropAny s (s.target w .task))) ?_ v
    rfl
  | leave w =>
    have hs : ∀ u, face (((s.dropAny (s.thread w).idleFiber).setThread w
        { s.thread w with idleFiber := none }).thread u) = face (s.thread u) := by
      intro u
      refine face_move (s := s) (w := w)
        (congrArg (Function.update · w _) (thread_dropAny s (s.thread w).idleFiber)) ?_ u
      rfl
    simp only [next]
    split
    · refine (face_move (w := w) rfl ?_ v).trans (hs v)
      rfl
    · exact (face_endCb _ w v).trans (hs v)
  | entry w =>
    simp only [next]
    split
    · refine face_move (w := w) rfl ?_ v
      rfl
    · rfl
  | sleep w => simp only [next, thread_addTimer]
  | yield w => exact face_yieldRunning s w v
  | ret w => exact face_endCb s w v
  | idle w =>
    simp only [next]
    split
    · rfl
    · split
      · rfl
      · split
        · exact (face_yieldRunning _ w v).trans (by rw [thread_addTimer])
        · rfl
      · exact face_yieldRunning s w v
      · exact face_endCb s w v
      · rfl
  | setTerm w =>
    simp only [next]
    split
    · rfl
    · split
      · rfl
      · split <;> (refine face_move (w := w) rfl ?_ v; rfl)
  | dropSelf w =>
    simp only [next]
    split
    · rfl
    · refine face_move (s := s) (w := w) (t := { s.thread w with pc := .last }) ?_ rfl v
      simp only [State.goto, State.setThread, State.setFiber, thread_dropAny]
  | last w =>
    simp only [next]
    split
    · rfl
    · split
      · rfl
      · exact face_callYield s w _ true v
  | destroy e => simp [next]
  | swap w k | yswap w | stopResume e => exact absurd trivial ha

theorem stack_next {a : Act W E C} (ha : ¬ a.switches) (v : W) :
    ((next cfg s a).thread v).stack = (s.thread v).stack := by
  by_cases hp : ∀ w, a ≠ .prologue w
  · exact congrArg Prod.fst (face_next ha hp v)
  · cases a with
    | prologue w =>
      have hstack : ∀ {s' : State W E C} {t : Thread W}, s'.thread = Function.update s.thread w t →
          t.stack = (s.thread w).stack → (s'.thread v).stack = (s.thread v).stack := by
        intro s' t hs ht
        rw [hs]
        by_cases hv : v = w
        · rw [hv, Function.update_self, ht]
        · rw [Function.update_of_ne hv]
      simp only [next]
      split <;> exact hstack rfl rfl
    | _ => exact absurd (fun w => by simp) hp

/-- **Who comes to execute a task fiber** does so by the switch of its `resume()`. -/
theorem on_next (h : Inv cfg s) {a : Act W E C} (hg : guard cfg s a) {v : W} {n : Nat}
    (hon : On (next cfg s a) v (.task n)) :
    On s v (.task n) ∨ a = .swap v .task ∧ s.target v .task = some (.task n) ∧
      (s.fib (.task n)).mState = .running := by
  by_cases ha : a.switches
  · cases a with
    | swap w k =>
      unfold On at hon
      rcases swap_eq h hg with ⟨-, hthread⟩ | ⟨g, c, x, htarget, hgoal, -, hthread⟩
      · rw [hthread] at hon
        exact Or.inl hon
      · rw [hthread] at hon
        by_cases hv : v = w
        · subst hv
          rw [Function.update_self] at hon
          rcases hgoal with ⟨m, rfl, rfl, hstate⟩ | ⟨u, rfl⟩
          · obtain rfl : m = n := FiberId.task.inj (Stack.fiber.inj hon)
            exact Or.inr ⟨rfl, htarget, hstate⟩
          · cases hon
        · rw [Function.update_of_ne hv] at hon
          exact Or.inl hon
    | yswap w =>
      left
      simp only [guard] at hg
      split at hg
      · rename_i x ended hpc
        unfold On at hon
        obtain ⟨-, ⟨-, hthread⟩ | ⟨r, c, pc, hr, -, hthread⟩⟩ := yswap_eq h hpc
        · rw [hthread] at hon
          exact hon
        · rw [hthread] at hon
          by_cases hv : v = w
          · -- the thread goes back into `run()` or `stop()`
            rw [hv, Function.update_self] at hon
            rcases hr with ⟨rfl, -⟩ | ⟨rfl, -⟩
            · cases hrunner : runner cfg w with
              | task m => exact absurd hrunner (runner_ne_task cfg w m)
              | main u | sched | idle u =>
                rw [hrunner] at hon
                cases hon
            · cases hon
          · rwa [Function.update_of_ne hv] at hon
      · exact hg.elim
    | stopResume e =>
      left
      unfold On at hon ⊢
      simp only [next] at hon
      split at hon
      · exact hon
      · rename_i w hroot
        split_ifs at hon with hready
        · rw [show s.setFiber .sched { s.fib .sched with mState := .running } = runSched s from rfl,
            swap_stop h (hg.2 w hroot)] at hon
          dsimp only [runSched] at hon
          by_cases hv : v = w
          · rw [hv, Function.update_self] at hon
            cases hon
          · rwa [Function.update_of_ne hv] at hon
        · exact hon
    | _ => exact ha.elim
  · left
    unfold On at hon ⊢
    rwa [stack_next ha] at hon

/-! ## Construction -/

@[simp] theorem nextId_dropAny (s : State W E C) (o : Option (FiberId W)) : (s.dropAny o).nextId = s.nextId := by
  cases o <;> rfl

theorem nextId_swapIn (s : State W E C) (w : W) (g : FiberId W) (pc : Pc W) : (s.swapIn w g pc).nextId = s.nextId := by
  unfold State.swapIn
  split <;> rfl

theorem nextId_callYield (s : State W E C) (w : W) (x : FiberId W) (ended : Bool) :
    (s.callYield w x ended).nextId = s.nextId := by
  unfold State.callYield
  split <;> rfl

theorem nextId_yieldRunning (s : State W E C) (w : W) : (s.yieldRunning w).nextId = s.nextId := by
  unfold State.yieldRunning
  split
  · rfl
  · exact nextId_callYield s w _ false

theorem nextId_addTimer (s : State W E C) (w : W) : (s.addTimer w).nextId = s.nextId := by
  unfold State.addTimer
  split <;> rfl

theorem nextId_endCb (s : State W E C) (w : W) : (s.endCb w).nextId = s.nextId := by
  unfold State.endCb
  split
  · rfl
  · split <;> rfl

/-- A fiber as the public constructor makes it, with a callback. -/
def New (x : Fiber W C) : Prop := x.mState = .ready ∧ x.self = none ∧ x.mCb ≠ none

/-- **The task fibers are constructed one after the other**, each with a callback. -/
theorem nextId_next (h : Inv cfg s) {a : Act W E C} (hg : guard cfg s a) :
    (next cfg s a).nextId = s.nextId ∨
      (next cfg s a).nextId = s.nextId + 1 ∧ ∃ cb, cb ≠ none ∧
        (next cfg s a).fib (.task s.nextId) = Fiber.make (.task s.nextId) cb true := by
  cases a with
  | newFiber c =>
    right
    refine ⟨rfl, some (.user c), by simp, ?_⟩
    simp [next]
  | make w =>
    right
    obtain ⟨hpc, -⟩ := hg
    obtain ⟨-, -, -, -, -, hcb⟩ := (stands_run hpc).1 (h.stands w)
    refine ⟨rfl, _, ?_, Function.update_self ..⟩
    simpa using hcb
  | share f | release f | enter w | top w | idleInc w | idleDec w => exact Or.inl rfl
  | base a | fire e i | getRunning w | prologue w | lock w | check w | unlock w | stopBack e | entry w =>
    left
    simp only [next]
    split <;> rfl
  | dispatch w | set w k =>
    left
    simp only [next]
    repeat' split
    all_goals rfl
  | reset w | destroy e =>
    left
    simp [next]
  | leave w =>
    left
    simp only [next]
    split
    · simp
    · rw [nextId_endCb]
      simp
  | sleep w => exact Or.inl (nextId_addTimer s w)
  | yield w => exact Or.inl (nextId_yieldRunning s w)
  | ret w => exact Or.inl (nextId_endCb s w)
  | idle w =>
    left
    simp only [next]
    split
    · rfl
    · split
      · rfl
      · split
        · exact (nextId_yieldRunning _ w).trans (nextId_addTimer s w)
        · rfl
      · exact nextId_yieldRunning s w
      · exact nextId_endCb s w
      · rfl
  | setTerm w =>
    left
    simp only [next]
    repeat' split
    all_goals rfl
  | dropSelf w =>
    left
    simp only [next]
    split
    · rfl
    · simp
  | last w =>
    left
    simp only [next]
    split
    · rfl
    · split
      · rfl
      · exact nextId_callYield s w _ true
  | yswap w =>
    left
    simp only [next, State.switchTo]
    repeat' split
    all_goals rfl
  | swap w k =>
    left
    simp only [next]
    split
    · rfl
    · exact nextId_swapIn s w _ _
  | stopResume e =>
    left
    simp only [next]
    split
    · rfl
    · split
      · exact nextId_swapIn _ _ _ _
      · rfl

/-! ## The one run of the callback -/

/-- The step enters the callback of the task fiber `n`. -/
def enters (n : Nat) (s : State W E C) : Act W E C → Bool
  | .entry w => decide (On s w (.task n))
  | _ => false

/-- The step is the return of the callback of the task fiber `n`. -/
def returns (n : Nat) (s : State W E C) : Act W E C → Bool
  | .ret w => decide (On s w (.task n))
  | _ => false

/-- `MainFunc` has been entered: it names its fiber, or has ended. -/
def Entered (n : Nat) (s : State W E C) : Prop :=
  n < s.nextId ∧ ((s.fib (.task n)).self ≠ none ∨ (s.fib (.task n)).mState = .term)

/-- The callback has returned: `m_cb` is null. -/
def Returned (n : Nat) (s : State W E C) : Prop := n < s.nextId ∧ (s.fib (.task n)).mCb = none

/-- A thread in `MainFunc` on a task fiber's stack, which is constructed. -/
theorem on_made (h : Inv cfg s) {w : W} {n : Nat} (hon : On s w (.task n)) {pc : Pc W} (hpc : (s.thread w).pc = pc)
    (hmain : pc.InMainFunc) : n < s.nextId := by
  obtain ⟨-, hown, -⟩ := on_code h hon hpc hmain
  have hm : s.mMutex (.task n) = some w := hown
  exact h.typed.mutex n (by rw [hm]; simp)

/-- A step before the construction, or the construction itself. -/
theorem fresh_next (h : Inv cfg s) {a : Act W E C} (hg : guard cfg s a) {n : Nat} (hn : ¬ n < s.nextId)
    (hn' : n < (next cfg s a).nextId) : New ((next cfg s a).fib (.task n)) := by
  rcases nextId_next h hg with hid | ⟨hid, cb, hcb, hnew⟩
  · rw [hid] at hn'
    exact absurd hn' hn
  · have hne : n = s.nextId := by omega
    rw [hne, hnew]
    exact ⟨rfl, rfl, hcb⟩

theorem made_mono (h : Inv cfg s) {a : Act W E C} (hg : guard cfg s a) {n : Nat} (hn : n < s.nextId) :
    n < (next cfg s a).nextId := by
  rcases nextId_next h hg with hid | ⟨hid, -⟩ <;> omega

/-- `MainFunc` is entered by the step `entry`, and once. -/
theorem entered_next (h : Inv cfg s) {a : Act W E C} (hg : guard cfg s a) (n : Nat) :
    (enters n s a = true → ¬ Entered n s ∧ Entered n (next cfg s a)) ∧
      (enters n s a = false → (Entered n (next cfg s a) ↔ Entered n s)) := by
  constructor
  · intro ha
    cases a with
    | entry w =>
      have hon : On s w (.task n) := of_decide_eq_true ha
      obtain ⟨hrun, -, ⟨hstate, hself⟩, -⟩ := on_code h hon hg.1 (by simp [Pc.InMainFunc])
      have hn := on_made h hon hg.1 (by simp [Pc.InMainFunc])
      refine ⟨?_, made_mono h hg hn, Or.inl ?_⟩
      · rintro ⟨-, hne | hterm⟩
        · exact hne hself
        · rw [hstate] at hterm
          cases hterm
      · simp only [next, show (s.thread w).stack = _ from hon, hrun]
        simp
    | _ => cases ha
  · intro ha
    by_cases hn : n < s.nextId
    · have hn' := made_mono h hg hn
      have hiff : (s.fib (.task n)).self ≠ none ∨ (s.fib (.task n)).mState = .term ↔
          ((next cfg s a).fib (.task n)).self ≠ none ∨ ((next cfg s a).fib (.task n)).mState = .term := by
        rcases turn_of_next h hg hn with hsame | hturn
        · rw [hsame]
        · generalize (next cfg s a).fib (.task n) = x at hturn ⊢
          cases hturn with
          | set w hstate => simp [hstate]
          | swap w c hstate => rfl
          | entry w hon => exact absurd ha (by simp [enters, hon])
          | yield w hon hu hstate hself => simp [hself]
          | ret w c hon hu hstate hself hcb => rfl
          | setTerm w hon hstate hself hcb => simp [hself]
          | dropSelf w hon hstate => simp [hstate]
          | yswap w c pc hon hstate => rfl
      exact ⟨fun hen => ⟨hn, hiff.2 hen.2⟩, fun hen => ⟨hn', hiff.1 hen.2⟩⟩
    · constructor
      · rintro ⟨hn', hen⟩
        obtain ⟨hstate, hself, -⟩ := fresh_next h hg hn hn'
        rcases hen with hne | hterm
        · exact absurd hself hne
        · rw [hstate] at hterm
          cases hterm
      · rintro ⟨hn', -⟩
        exact absurd hn' hn

/-- `m_cb` is cleared by the return of the callback. -/
theorem returned_next (h : Inv cfg s) {a : Act W E C} (hg : guard cfg s a) (n : Nat) :
    (returns n s a = true → ¬ Returned n s ∧ Returned n (next cfg s a)) ∧
      (returns n s a = false → (Returned n (next cfg s a) ↔ Returned n s)) := by
  constructor
  · intro ha
    cases a with
    | ret w =>
      have hon : On s w (.task n) := of_decide_eq_true ha
      obtain ⟨m, c, hon', -, -, hself, hcb⟩ := user_cb h hg
      obtain rfl : m = n := FiberId.task.inj (Stack.fiber.inj (hon'.symm.trans hon))
      obtain ⟨k, hpc, -⟩ := user_task h hg
      refine ⟨?_, made_mono h hg (on_made h hon hpc (by simp [Pc.InMainFunc])), ?_⟩
      · rintro ⟨-, hnone⟩
        rw [hcb] at hnone
        cases hnone
      · simp only [next, State.endCb, show (s.thread w).stack = _ from hon, hself]
        simp
    | _ => cases ha
  · intro ha
    by_cases hn : n < s.nextId
    · have hn' := made_mono h hg hn
      have hsame : ((next cfg s a).fib (.task n)).mCb = (s.fib (.task n)).mCb := by
        rcases turn_of_next h hg hn with hsame | hturn
        · rw [hsame]
        · generalize (next cfg s a).fib (.task n) = x at hturn ⊢
          cases hturn with
          | ret w c hon => exact absurd ha (by simp [returns, hon])
          | _ => rfl
      exact ⟨fun hr => ⟨hn, hsame ▸ hr.2⟩, fun hr => ⟨hn', hsame.trans hr.2⟩⟩
    · constructor
      · rintro ⟨hn', hr⟩
        exact absurd hr (fresh_next h hg hn hn').2.2
      · rintro ⟨hn', -⟩
        exact absurd hn' hn

/-- **A fiber is `TERM` only behind its callback.** -/
theorem term_returned (h : (system C cfg).Reach Always s) :
    ∀ n, n < s.nextId → (s.fib (.task n)).mState = .term → (s.fib (.task n)).mCb = none := by
  apply h.inv_of (I := fun s => ∀ n, n < s.nextId → (s.fib (.task n)).mState = .term → (s.fib (.task n)).mCb = none)
  · rintro s rfl n hn
    cases hn
  · intro s a hr ih he _ n hn' hterm
    have hi := inv_reach hr
    have hn' : n < (next cfg s a).nextId := hn'
    have hterm : ((next cfg s a).fib (.task n)).mState = .term := hterm
    change ((next cfg s a).fib (.task n)).mCb = none
    by_cases hn : n < s.nextId
    · rcases turn_of_next hi he.2 hn with hsame | hturn
      · rw [hsame] at hterm ⊢
        exact ih n hn hterm
      · generalize (next cfg s a).fib (.task n) = x at hterm hturn
        cases hturn with
        | setTerm w hon hstate hself hcb => exact hcb
        | set | yield => cases hterm
        | swap w c hstate | entry w hon hstate hself => cases hstate.symm.trans hterm
        | ret w c hon hu hstate hself hcb => rfl
        | dropSelf w hon hstate => exact ih n hn hstate
        | yswap w c pc hon hstate => exact ih n hn hterm
    · cases (fresh_next hi he.2 hn hn').1.symm.trans hterm

/-- The changes of `m_state` in one life. -/
def Moves : FiberState → FiberState → Prop
  | .ready, .running | .running, .ready | .running, .term => True
  | _, _ => False

/-- The state of a task fiber moves on, or stays. -/
theorem moves_next (h : Inv cfg s) {a : Act W E C} (hg : guard cfg s a) {n : Nat} (hn : n < s.nextId) :
    ((next cfg s a).fib (.task n)).mState = (s.fib (.task n)).mState ∨
      Moves (s.fib (.task n)).mState ((next cfg s a).fib (.task n)).mState := by
  rcases turn_of_next h hg hn with hsame | hturn
  · left
    rw [hsame]
  · generalize (next cfg s a).fib (.task n) = x at hturn ⊢
    cases hturn with
    | set w hstate => simp [hstate, Moves]
    | yield w hon hu hstate => simp [hstate, Moves]
    | setTerm w hon hstate => simp [hstate, Moves]
    | _ => exact Or.inl rfl

/-- `TERM` is set where `m_cb` is null. -/
theorem cb_of_term (h : Inv cfg s) {a : Act W E C} (hg : guard cfg s a) {n : Nat} (hn : n < s.nextId)
    (hs : (s.fib (.task n)).mState ≠ .term) (hs' : ((next cfg s a).fib (.task n)).mState = .term) :
    (s.fib (.task n)).mCb = none := by
  rcases turn_of_next h hg hn with hsame | hturn
  · rw [hsame] at hs'
    exact absurd hs' hs
  · generalize (next cfg s a).fib (.task n) = x at hturn hs'
    cases hturn with
    | setTerm w hon hstate hself hcb => exact hcb
    | set | yield => cases hs'
    | _ => exact absurd hs' hs

/-- **What is left of a fiber that is `TERM`**: the end of its own `MainFunc`; nobody else comes to execute it. -/
theorem term_next (h : Inv cfg s) {a : Act W E C} (hg : guard cfg s a) {n : Nat} (hn : n < s.nextId)
    (hterm : (s.fib (.task n)).mState = .term) :
    ((next cfg s a).fib (.task n) = s.fib (.task n) ∨
      ∃ w, On s w (.task n) ∧ (a = .dropSelf w ∨ a = .yswap w)) ∧
      ∀ w, On (next cfg s a) w (.task n) → On s w (.task n) := by
  constructor
  · rcases turn_of_next h hg hn with hsame | hturn
    · exact Or.inl hsame
    · right
      generalize (next cfg s a).fib (.task n) = x at hturn
      cases hturn with
      | dropSelf w hon => exact ⟨w, hon, Or.inl rfl⟩
      | yswap w c pc hon => exact ⟨w, hon, Or.inr rfl⟩
      | set w hstate | swap w c hstate => cases hterm.symm.trans hstate
      | entry w hon hstate => cases hterm.symm.trans hstate
      | yield w hon hu hstate | ret w c hon hu hstate | setTerm w hon hstate => cases hterm.symm.trans hstate
  · intro w hon
    rcases on_next h hg hon with hon | ⟨-, -, hstate⟩
    · exact hon
    · cases hterm.symm.trans hstate

/-- **A fiber's callback runs once.** In every run, timers of idle fibers included, of a task or callback fiber:
its state moves from `READY` to `RUNNING` and from there to `READY` or `TERM`; its callback is entered at most once;
`m_cb` is cleared at the callback's return, and `TERM` set behind that; so where it is `TERM` its callback was entered
once and has returned once, an entry of the queue for it is skipped, and nobody but the thread at the end of its
`MainFunc` changes or executes it; and nobody comes back behind its last `yield()`. -/
theorem runs_once {s₀ : State W E C} {as : List (Act W E C)} (h₀ : (system C cfg).init s₀)
    (h : (system C cfg).Steps Always s₀ as s) {n : Nat} (hn : n < s.nextId) :
    (∀ a, (system C cfg).enabled s a → ((next cfg s a).fib (.task n)).mState = (s.fib (.task n)).mState ∨
      Moves (s.fib (.task n)).mState ((next cfg s a).fib (.task n)).mState) ∧
    (system C cfg).tally (enters n) s₀ as ≤ 1 ∧
    (∀ a, (system C cfg).enabled s a → ((next cfg s a).fib (.task n)).mCb ≠ (s.fib (.task n)).mCb →
      returns n s a = true ∧ ((next cfg s a).fib (.task n)).mCb = none) ∧
    (∀ a, (system C cfg).enabled s a → (s.fib (.task n)).mState ≠ .term →
      ((next cfg s a).fib (.task n)).mState = .term → (s.fib (.task n)).mCb = none) ∧
    ((s.fib (.task n)).mState = .term →
      ((s.fib (.task n)).mCb = none ∧ (system C cfg).tally (enters n) s₀ as = 1 ∧
        (system C cfg).tally (returns n) s₀ as = 1) ∧
      (∀ w, (system C cfg).enabled s (.check w) → s.target w .task = some (.task n) →
        ((next cfg s (.check w)).thread w).pc = .run .unlock) ∧
      ∀ a, (system C cfg).enabled s a →
        ((next cfg s a).fib (.task n) = s.fib (.task n) ∨
          ∃ w, On s w (.task n) ∧ (a = .dropSelf w ∨ a = .yswap w)) ∧
        ∀ w, On (next cfg s a) w (.task n) → On s w (.task n)) ∧
    ∀ w, On s w (.task n) → (s.thread w).pc ≠ .exited := by
  have hreach : (system C cfg).Reach Always s := (System.Reach.start h₀).steps h
  have hinv := inv_reach hreach
  have hfresh : ∀ m, ¬ m < s₀.nextId := by
    have h₀ : s₀ = initial C cfg := h₀
    subst h₀
    exact fun m hm => absurd hm (Nat.not_lt_zero m)
  have henter := (System.Steps.tally_phase (p := enters n) (q := Entered n)
    (fun s a hr he _ => entered_next (inv_reach hr) he.2 n) (.start h₀) h).2 (fun hen => hfresh n hen.1)
  have hreturn := (System.Steps.tally_phase (p := returns n) (q := Returned n)
    (fun s a hr he _ => returned_next (inv_reach hr) he.2 n) (.start h₀) h).2 (fun hen => hfresh n hen.1)
  refine ⟨fun a he => moves_next hinv he.2 hn, ?_, ?_, fun a he => cb_of_term hinv he.2 hn, ?_, ?_⟩
  · rcases henter with ⟨-, hone⟩ | ⟨-, hzero⟩ <;> omega
  · intro a he hne
    have hret : returns n s a = true := by
      by_contra hno
      rcases turn_of_next hinv he.2 hn with hsame | hturn
      · exact hne (by rw [hsame])
      · generalize (next cfg s a).fib (.task n) = x at hturn hne
        cases hturn with
        | ret w c hon => exact hno (decide_eq_true hon)
        | _ => exact hne rfl
    exact ⟨hret, ((returned_next hinv he.2 n).1 hret).2.2⟩
  · intro hterm
    have hcb := term_returned hreach n hn hterm
    refine ⟨⟨hcb, ?_, ?_⟩, ?_, fun a he => term_next hinv he.2 hn hterm⟩
    · rcases henter with ⟨-, hone⟩ | ⟨hno, -⟩
      · exact hone
      · exact absurd ⟨hn, Or.inr hterm⟩ hno
    · rcases hreturn with ⟨-, hone⟩ | ⟨hno, -⟩
      · exact hone
      · exact absurd ⟨hn, hcb⟩ hno
    · intro w _ htarget
      simp only [next, htarget, if_pos hterm]
      simp
  · intro w hon hpc
    have hl := hinv.stands w
    simp only [Stands, hpc] at hl
    obtain ⟨⟨u, hu⟩, -⟩ := hl
    cases hu.symm.trans hon

/-- A fiber is queued twice; worker `w` runs its callback to the end, and then finds the second entry. -/
def twiceRun (w : Fin 2) (e a : Fin 3) : List (Act (Fin 2) (Fin 3) Nat) :=
  [.base (.start e), .newFiber 7, .base (.scheduleLock (.inr a) (.fiber (some (.task 0))) (-1)),
    .base (.wakeUp (.inr a)), .base (.scheduleLock (.inr a) (.fiber (some (.task 0))) (-1)), .base (.wakeUp (.inr a)),
    .prologue w, .enter w, .top w, .base (.scan w), .base (.tickle w), .dispatch w, .lock w, .check w, .set w .task,
    .swap w .task, .entry w, .ret w, .setTerm w, .dropSelf w, .last w, .yswap w, .unlock w, .base (.decr w), .reset w,
    .top w, .base (.scan w), .base (.tickle w), .dispatch w, .lock w]

theorem runs_once_twice : ∃ s : State (Fin 2) (Fin 3) Nat,
    (system Nat (Sched.duo .hooked)).Steps Always (initial Nat (Sched.duo .hooked)) (twiceRun 0 0 1) s ∧
    (s.fib (.task 0)).mState = .term ∧
    (system Nat (Sched.duo .hooked)).tally (returns 0) (initial Nat (Sched.duo .hooked)) (twiceRun 0 0 1) = 1 ∧
    ((next (Sched.duo .hooked) s (.check 0)).thread 0).pc = .run .unlock := by
  have h : (System.exec (system Nat (Sched.duo .hooked)) Always (initial Nat (Sched.duo .hooked))
      (twiceRun 0 0 1)).any (fun s => decide (0 < s.nextId ∧ (s.fib (.task 0)).mState = .term ∧
        (system Nat (Sched.duo .hooked)).enabled s (.check 0) ∧ s.target 0 .task = some (.task 0))) = true := by
    decide +kernel
  obtain ⟨s, hsteps, hs⟩ := System.exists_exec h
  obtain ⟨hn, hterm, hen, htarget⟩ := of_decide_eq_true hs
  have honce := (runs_once rfl hsteps hn).2.2.2.2.1 hterm
  exact ⟨s, hsteps, hterm, honce.1.2.2, honce.2.1 0 hen htarget⟩

end Sylar.Fibers.Isolated
