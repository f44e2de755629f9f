import Sylar.Fiber.Life
import Sylar.Fiber.Lifetime

/-!
# Fibers that nobody refers to

`MainFunc` holds its own fiber in the local `runningFiber` from its first line until `m_cb` has returned. So a fiber to
which nobody else refers any more is destroyed if it was never started or is at its end, and is never destroyed if it
is suspended in its callback: nobody can queue it, resume it or drop it.

- `counted`, `counts_next`: the one fiber whose count a step changes;
- `buried_reach`: a fiber without references has been destroyed;
- `Abandoned`: nobody but its own code refers to a fiber; `abandoned_next`: what is abandoned stays as it is;
- `leaked`: which abandoned fibers are alive, and that they stay so.
-/

set_option linter.unusedSectionVars false

namespace Sylar.Fibers

open Trans Ownership

variable {W E C : Type} [DecidableEq W] [DecidableEq E] {cfg : Sylar.Config W E} {s s' : State W E C}

/-! ## Counts -/

/-- The count of a fiber, and whether it has been destroyed. -/
def counts (s : State W E C) (f : FiberId W) : Nat × Bool := (s.refs f, s.dead f)

/-- The fiber whose count a step can change. -/
def counted (s : State W E C) : Act W E C → Option (FiberId W)
  | .base (.scheduleLock _ (.fiber f) _) => f
  | .share f | .release f => some f
  | .getRunning w | .entry w | .sleep w | .idle w => (s.thread w).runningFiber
  | .newFiber _ | .make _ => some (.task s.nextId)
  | .prologue w => some (.main w)
  | .enter w => some (.idle w)
  | .reset w => s.target w .task
  | .leave w => (s.thread w).idleFiber
  | .dropSelf w =>
    match (s.thread w).stack with
    | .fiber f => (s.fib f).self
    | .native _ => none
  | .destroy _ => some .sched
  | _ => none

/-- At most the count of `o` has changed, a fiber that was left without references has been destroyed, and a new fiber
has one. -/
structure Counts (s s' : State W E C) (o : Option (FiberId W)) (f : FiberId W) : Prop where
  other : o ≠ some f → counts s' f = counts s f
  buries : counts s' f = counts s f ∨ s'.refs f ≠ 0 ∨ s'.dead f = true
  made : s'.nextId = s.nextId ∨ s'.refs (.task s.nextId) = 1

variable {o : Option (FiberId W)} {f g : FiberId W}

theorem Counts.same (h : counts s' f = counts s f) (hn : s'.nextId = s.nextId) : Counts s s' o f :=
  ⟨fun _ => h, Or.inl h, Or.inl hn⟩

/-- What follows a change of the counts leaves them alone. -/
theorem Counts.after {s'' : State W E C} (h : Counts s s' o f) (hsame : counts s'' f = counts s' f)
    (hn : s''.nextId = s.nextId) : Counts s s'' o f := by
  obtain ⟨hrefs, hdead⟩ := Prod.mk.inj hsame
  refine ⟨fun hne => hsame.trans (h.other hne), ?_, Or.inl hn⟩
  rw [hsame, hrefs, hdead]
  exact h.buries

theorem counts_callYield (s : State W E C) (w : W) (x : FiberId W) (ended : Bool) (f : FiberId W) :
    counts (s.callYield w x ended) f = counts s f := by
  unfold State.callYield
  split <;> rfl

theorem counts_yieldRunning (s : State W E C) (w : W) (f : FiberId W) :
    counts (s.yieldRunning w) f = counts s f := by
  unfold State.yieldRunning
  split
  · rfl
  · exact counts_callYield ..

theorem counts_endCb (s : State W E C) (w : W) (f : FiberId W) : counts (s.endCb w) f = counts s f := by
  unfold State.endCb
  split
  · rfl
  · split <;> rfl

theorem counts_swapIn (s : State W E C) (w : W) (g : FiberId W) (pc : Pc W) (f : FiberId W) :
    counts (s.swapIn w g pc) f = counts s f := by
  unfold State.swapIn
  split <;> rfl

/-- A count is raised. -/
theorem counts_hold (s : State W E C) (g f : FiberId W) : Counts s (s.hold g) (some g) f := by
  by_cases hf : f = g
  · subst hf
    refine ⟨fun hne => absurd rfl hne, Or.inr (Or.inl ?_), Or.inl rfl⟩
    simp
  · exact .same (by simp [counts, hf]) rfl

/-- A new fiber has one reference. -/
theorem counts_construct (s : State W E C) (g f : FiberId W) (x : Fiber W C) :
    Counts s (s.construct g x) (some g) f := by
  by_cases hf : f = g
  · subst hf
    refine ⟨fun hne => absurd rfl hne, Or.inr (Or.inl ?_), Or.inl rfl⟩
    simp
  · exact .same (by simp [counts, hf]) rfl

theorem counts_newTask (s : State W E C) (cb : Option (Cb C)) (f : FiberId W) :
    Counts s (s.newTask cb) (some (.task s.nextId)) f := by
  have hnew := counts_construct s (.task s.nextId) f (.make (.task s.nextId) cb true)
  exact ⟨hnew.other, hnew.buries, Or.inr (by simp)⟩

/-- The last reference that is dropped destroys the fiber. -/
theorem counts_dropAny (s : State W E C) (o : Option (FiberId W)) (f : FiberId W) : Counts s (s.dropAny o) o f := by
  cases o with
  | none => exact .same rfl rfl
  | some g =>
    by_cases hf : f = g
    · subst hf
      refine ⟨fun hne => absurd rfl hne, ?_, Or.inl rfl⟩
      by_cases hone : s.refs f = 1
      · exact Or.inr (Or.inr (by simp [State.dropAny, hone]))
      · by_cases hzero : s.refs f = 0
        · exact Or.inl (by simp [counts, State.dropAny, hzero])
        · refine Or.inr (Or.inl ?_)
          simp only [State.dropAny, State.drop, Function.update_self]
          omega
    · refine .same ?_ rfl
      simp only [counts, State.dropAny, State.drop, Function.update_of_ne hf]
      split <;> simp [hf]

theorem counts_addTimer (s : State W E C) (w : W) (f : FiberId W) :
    Counts s (s.addTimer w) (s.thread w).runningFiber f := by
  unfold State.addTimer
  split
  · exact .same rfl rfl
  · rename_i g hg
    rw [hg]
    exact (counts_hold s g f).after rfl rfl

open Isolated in
/-- **A step changes at most the count of one fiber.** -/
theorem counts_next (cfg : Sylar.Config W E) (s : State W E C) (a : Act W E C) (f : FiberId W) :
    Counts s (next cfg s a) (counted s a) f := by
  cases a with
  | base a =>
    cases a with
    | scheduleLock t fc thr =>
      cases fc with
      | fiber o =>
        cases o with
        | none => exact .same rfl rfl
        | some g => exact (counts_hold s g f).after rfl rfl
      | fiberPtr o => cases o <;> exact .same rfl rfl
      | callback c | callbackPtr c => exact .same rfl rfl
    | _ => exact .same rfl rfl
  | share g => exact (counts_hold s g f).after rfl rfl
  | release g => exact (counts_dropAny s (some g) f).after rfl rfl
  | getRunning w =>
    simp only [next, counted]
    split
    · exact .same rfl rfl
    · rename_i g hg
      rw [hg]
      exact (counts_hold s g f).after rfl rfl
  | newFiber c =>
    have hnew := counts_newTask s (some (.user c)) f
    exact ⟨hnew.other, hnew.buries, hnew.made⟩
  | make w =>
    have hnew := counts_newTask s (((s.base.worker w).task.bind fun e => e.task.callback).map .user) f
    exact ⟨hnew.other, hnew.buries, hnew.made⟩
  | fire e i | dispatch w | lock w | check w | set w k | unlock w | last w | stopBack e | setTerm w | yswap w =>
    refine .same ?_ ?_
    all_goals simp only [next]
    all_goals repeat' split
    all_goals first | rfl | exact counts_callYield .. | exact nextId_callYield ..
  | prologue w =>
    simp only [next]
    split
    · exact (counts_construct s (.main w) f (.main w)).after rfl rfl
    · exact .same rfl rfl
  | enter w => exact (counts_construct s (.idle w) f (.make (.idle w) (some .idle) true)).after rfl rfl
  | top w | idleInc w | idleDec w => exact .same rfl rfl
  | swap w k =>
    simp only [next]
    split
    · exact .same rfl rfl
    · exact .same (counts_swapIn ..) (nextId_swapIn ..)
  | reset w => exact (counts_dropAny s (s.target w .task) f).after rfl (by simp [next])
  | leave w =>
    have hdrop := counts_dropAny s (s.thread w).idleFiber f
    simp only [next]
    split
    · exact hdrop.after rfl (by simp)
    · exact hdrop.after (counts_endCb ..) ((nextId_endCb ..).trans (by simp))
  | entry w =>
    simp only [next]
    split
    · rename_i g x hst hx
      simp only [counted, hx]
      exact (counts_hold s x f).after rfl rfl
    · exact .same rfl rfl
  | sleep w => exact counts_addTimer s w f
  | yield w => exact .same (counts_yieldRunning ..) (nextId_yieldRunning ..)
  | ret w => exact .same (counts_endCb ..) (nextId_endCb ..)
  | idle w =>
    simp only [next]
    split
    · exact .same rfl rfl
    · split
      · exact .same rfl rfl
      · split
        · exact (counts_addTimer s w f).after (counts_yieldRunning ..)
            ((nextId_yieldRunning ..).trans (nextId_addTimer ..))
        · exact .same rfl rfl
      · exact .same (counts_yieldRunning ..) (nextId_yieldRunning ..)
      · exact .same (counts_endCb ..) (nextId_endCb ..)
      · exact .same rfl rfl
  | dropSelf w =>
    cases hst : (s.thread w).stack with
    | native v => exact .same (by simp only [next, hst]; rfl) (by simp only [next, hst]; rfl)
    | fiber g =>
      simp only [next, counted, hst]
      exact (counts_dropAny s (s.fib g).self f).after rfl (by simp)
  | stopResume e =>
    simp only [next]
    split
    · exact .same rfl rfl
    · split
      · exact .same (counts_swapIn ..) (nextId_swapIn ..)
      · exact .same rfl rfl
  | destroy e =>
    have hsched : counted s (.destroy e : Act W E C) = some .sched := rfl
    unfold next
    by_cases hm : mSchedulerFiber cfg s = some .sched
    · rw [hsched, hm]
      exact (counts_dropAny s (some .sched) f).after rfl rfl
    · have hm : mSchedulerFiber cfg s = none := by
        unfold mSchedulerFiber at hm ⊢
        split_ifs at hm ⊢
        · exact absurd rfl hm
        · rfl
      rw [hm]
      exact .same rfl rfl

/-! ## Burials -/

variable [Fintype W]

/-- **A task fiber without references has been destroyed.** -/
theorem buried_reach (h : (system C cfg).Reach Always s) {n : Nat} (hn : n < s.nextId)
    (hrefs : s.refs (.task n) = 0) : s.dead (.task n) = true := by
  induction h using System.Reach.induct with
  | start s h₀ =>
    rw [show s = initial C cfg from h₀] at hn
    cases hn
  | step s a hr he hp ih =>
    have hcounts := counts_next cfg s a (.task n)
    change n < (next cfg s a).nextId at hn
    change (next cfg s a).refs (.task n) = 0 at hrefs
    change (next cfg s a).dead (.task n) = true
    by_cases hmade : n < s.nextId
    · rcases hcounts.buries with hsame | hne | hdead
      · obtain ⟨hr', hd'⟩ := Prod.mk.inj hsame
        rw [hd']
        exact ih hmade (hr'.symm.trans hrefs)
      · exact absurd hrefs hne
      · exact hdead
    · -- the step constructs the fiber
      rcases Isolated.nextId_next (Isolated.inv_reach hr) he.2 with hid | ⟨hid, -⟩
      · omega
      · obtain rfl : n = s.nextId := by omega
        rcases hcounts.made with hid' | hone <;> omega

/-! ## Abandoned fibers -/

/-- Nobody refers to the task fiber `n`, apart from the local `runningFiber` of `MainFunc` on the fiber's own stack. -/
structure Abandoned (cfg : Sylar.Config W E) (s : State W E C) (n : Nat) : Prop where
  made : n < s.nextId
  alone : owners cfg s (.task n) = ref (s.fib (.task n)).self (.task n)

variable {n : Nat}

theorem Abandoned.outside (h : Abandoned cfg s n) :
    s.userRefs (.task n) = 0 ∧ s.timers.count (.task n) = 0 ∧ ∀ w, held (s.locals w) (.task n) = 0 := by
  have halone := h.alone
  unfold owners at halone
  refine ⟨by omega, by omega, fun w => ?_⟩
  have hle : held (s.locals w) (.task n) ≤ ∑ v, held (s.locals v) (.task n) :=
    Finset.single_le_sum (f := fun v => held (s.locals v) (.task n)) (fun _ _ => Nat.zero_le _) (Finset.mem_univ w)
  omega

/-- No `run()` has it at hand. -/
theorem Abandoned.target_ne (h : Abandoned cfg s n) (w : W) (k : Branch) : s.target w k ≠ some (.task n) := by
  intro ht
  have hzero := h.outside.2.2 w
  unfold held ref at hzero
  unfold State.target Thread.target at ht
  cases k with
  | task =>
    rcases Option.or_eq_some_iff.1 ht with ht | ⟨-, ht⟩
    · rw [if_pos (show ((s.locals w).1.task.bind fun e => e.task.fiber) = some (.task n) from ht)] at hzero
      omega
    · rw [if_pos (show (s.locals w).2.cbFiber = some (.task n) from ht)] at hzero
      omega
  | idle =>
    rw [if_pos (show (s.locals w).2.idleFiber = some (.task n) from ht)] at hzero
    omega

/-- No thread holds its mutex, so it rests. -/
theorem Abandoned.rest (h : Abandoned cfg s n) (hi : Inv cfg s) : Rest (.task n) (s.fib (.task n)) := by
  cases hm : s.mMutex (.task n) with
  | none => exact hi.owned.free (.task n) hm n rfl
  | some w => exact absurd (holder_cases hi hm).1 (h.target_ne w .task)

/-- No thread executes it. -/
theorem Abandoned.exec_ne (h : Abandoned cfg s n) (hi : Inv cfg s) (w : W) : s.exec w ≠ some (.task n) := fun he =>
  h.target_ne w .task (holder_cases hi (own_exec hi he)).1

theorem Abandoned.running_ne (h : Abandoned cfg s n) (hi : Inv cfg s) (w : W) :
    (s.thread w).runningFiber ≠ some (.task n) := fun hr => h.exec_ne hi w ((exec_eq_running hi w).trans hr)

theorem Abandoned.stack_ne (h : Abandoned cfg s n) (hi : Inv cfg s) (w : W) :
    (s.thread w).stack ≠ .fiber (.task n) := by
  intro hst
  refine h.exec_ne hi w ?_
  unfold State.exec
  rw [hst]

/-- **No step counts it**: who could copy or drop a reference would hold one. -/
theorem Abandoned.uncounted (h : Abandoned cfg s n) (hi : Inv cfg s) {a : Act W E C} (hg : guard cfg s a) :
    counted s a ≠ some (.task n) := by
  intro hc
  have huser := h.outside.1
  have hid : (.task s.nextId : FiberId W) ≠ .task n := by
    have hmade := h.made
    simp only [ne_eq, FiberId.task.injEq]
    omega
  cases a with
  | base a =>
    cases a with
    | scheduleLock t fc thr =>
      cases fc with
      | fiber o =>
        obtain rfl : o = some (.task n) := hc
        have hpass := hg.2.2
        cases t with
        | inl w =>
          rcases hpass with hpos | hr
          · omega
          · exact h.running_ne hi w hr
        | inr e =>
          have hpos : 0 < s.userRefs (.task n) := hpass
          omega
      | _ => cases hc
    | _ => cases hc
  | share f | release f =>
    obtain rfl := Option.some_inj.1 hc
    have hpos : 0 < s.userRefs (.task n) := hg
    omega
  | getRunning w | entry w | sleep w | idle w => exact h.running_ne hi w hc
  | newFiber c | make w => exact hid (Option.some_inj.1 hc)
  | reset w => exact h.target_ne w .task hc
  | leave w => exact h.target_ne w .idle hc
  | dropSelf w =>
    -- `MainFunc` drops the fiber whose stack it runs on
    obtain ⟨hm, -⟩ := inMain_of_pc hi hg.1 (by simp [Pc.InMainFunc])
    obtain ⟨f, hst, -, -, hlive, -⟩ := hm.facts
    simp only [counted, hst] at hc
    have hself : (s.fib f).self = some f := hlive.2
    have hf : f = .task n := Option.some_inj.1 (hself.symm.trans hc)
    exact h.stack_ne hi w (by rw [hst, hf])
  | _ => cases hc

/-- **What is abandoned stays as it is.** -/
theorem abandoned_next (hbase : cfg.idle ≠ .token) (hr : (system C cfg).Reach NoIdleTimer s) (h : Abandoned cfg s n)
    {a : Act W E C} (he : (system C cfg).enabled s a) (hp : NoIdleTimer s a) :
    Abandoned cfg (next cfg s a) n ∧ (next cfg s a).fib (.task n) = s.fib (.task n) ∧
      (next cfg s a).dead (.task n) = s.dead (.task n) := by
  have hi := inv_reach hr
  have hi' : Inv cfg (next cfg s a) := inv_reach (hr.step he hp)
  have hiso := Isolated.inv_reach (hr.mono fun _ _ _ => trivial)
  have hmade := Isolated.made_mono hiso he.2 h.made
  obtain ⟨hrefs, hdead⟩ := Prod.mk.inj ((counts_next cfg s a (.task n)).other (h.uncounted hi he.2))
  -- the counts are the numbers of owners, on either side
  have hcount := (life_reach hbase hr).1.sound.count (.task n) (by simp)
  have hcount' : (next cfg s a).refs (.task n) = owners cfg (next cfg s a) (.task n) :=
    (life_reach hbase (hr.step he hp)).1.sound.count (.task n) (by simp)
  have hstays : ((next cfg s a).fib (.task n)).self = (s.fib (.task n)).self → Abandoned cfg (next cfg s a) n := by
    intro hself
    refine ⟨hmade, ?_⟩
    rw [hself, ← h.alone, ← hcount, ← hcount', hrefs]
  have hrest := h.rest hi
  rcases Isolated.turn_of_next hiso he.2 h.made with hfib | hturn
  · exact ⟨hstays (by rw [hfib]), hfib, hdead⟩
  · exfalso
    generalize hx : (next cfg s a).fib (.task n) = x at hstays hturn
    cases hturn with
    | set w hready =>
      -- who is not at hand is not set `RUNNING`
      have hrest' := (hstays rfl).rest hi'
      unfold Rest at hrest'
      rw [hx] at hrest'
      exact hrest'
    | swap w c hrunning =>
      unfold Rest at hrest
      rw [hrunning] at hrest
      exact hrest
    | entry w hon | yield w hon | ret w c hon | setTerm w hon | dropSelf w hon | yswap w c pc hon =>
      exact h.stack_ne hi w hon

/-- **A fiber that nobody refers to** is destroyed if it was never started or is `TERM`, and leaks if it is suspended in
its callback. Either way it stays so for ever: it is never resumed, and a suspended one is never destroyed, however the
run goes on. -/
theorem leaked (hbase : cfg.idle ≠ .token) (hr : (system C cfg).Reach NoIdleTimer s) {n : Nat}
    (h : Abandoned cfg s n) :
    (s.dead (.task n) = false ↔ (s.fib (.task n)).started = true ∧ (s.fib (.task n)).mState = .ready) ∧
      ∀ as t, (system C cfg).Steps NoIdleTimer s as t → Abandoned cfg t n ∧ (∀ w, t.exec w ≠ some (.task n)) ∧
        t.fib (.task n) = s.fib (.task n) ∧ t.dead (.task n) = s.dead (.task n) := by
  have hi := inv_reach hr
  have hsound := (life_reach hbase hr).1.sound
  constructor
  · have hrest := h.rest hi
    have halone : s.refs (.task n) = ref (s.fib (.task n)).self (.task n) :=
      (hsound.count (.task n) (by simp)).trans h.alone
    constructor
    · intro halive
      have hself : (s.fib (.task n)).self = some (.task n) := by
        by_contra hne
        rw [show ref (s.fib (.task n)).self (.task n) = 0 from if_neg hne] at halone
        rw [buried_reach (hr.mono fun _ _ _ => trivial) h.made halone] at halive
        cases halive
      unfold Rest at hrest
      cases hstate : (s.fib (.task n)).mState with
      | ready =>
        simp only [hstate, hself] at hrest
        obtain ⟨-, hnone, -⟩ | ⟨hbody, -⟩ := hrest
        · cases hnone
        · refine ⟨?_, rfl⟩
          -- what was never started stands at its entry
          by_contra hfresh
          have hentry := ((hi.coherent (.task n)).fresh (Bool.eq_false_iff.2 hfresh)).1
          rw [hbody] at hentry
          cases hentry
      | running => simp [hstate] at hrest
      | term => simp [hstate, hself] at hrest
    · rintro ⟨hstarted, hready⟩
      cases hdead : s.dead (.task n) with
      | false => rfl
      | true =>
        rcases (hsound.dead (.task n) (by simp) hdead).2 with hfresh | hterm
        · rw [hstarted] at hfresh
          cases hfresh
        · rw [hready] at hterm
          cases hterm
  · intro as t hs
    have hkept := System.Reach.stable (p := fun u => Abandoned cfg u n ∧ u.fib (.task n) = s.fib (.task n) ∧
      u.dead (.task n) = s.dead (.task n)) ?_ hr ⟨h, rfl, rfl⟩ hs
    · obtain ⟨hab, hfib, hdead⟩ := hkept
      have hu := inv_reach (hr.steps hs)
      exact ⟨hab, hab.exec_ne hu, hfib, hdead⟩
    · rintro u a hu ⟨hab, hfib, hdead⟩ he hp
      obtain ⟨hab', hfib', hdead'⟩ := abandoned_next hbase hu hab he hp
      exact ⟨hab', hfib'.trans hfib, hdead'.trans hdead⟩

/-- The fiber of `taskRun` yields, and user code drops its references. -/
def dropRun (w : Fin 2) : List (Act (Fin 2) (Fin 3) Nat) :=
  [.yield w, .yswap w, .unlock w, .base (.decr w), .reset w, .release (.task 0), .release (.task 0)]

theorem leaked_duo : ∃ s : State (Fin 2) (Fin 3) Nat, Abandoned (Sched.duo .plain) s 0 ∧ s.dead (.task 0) = false ∧
    ∀ as t, (system Nat (Sched.duo .plain)).Steps NoIdleTimer s as t → t.dead (.task 0) = false := by
  have h : (System.exec (system Nat (Sched.duo .plain)) NoIdleTimer (initial Nat (Sched.duo .plain))
      (taskRun 0 0 1 ++ dropRun 0)).any (fun s => decide (0 < s.nextId ∧
        owners (Sched.duo .plain) s (.task 0) = ref (s.fib (.task 0)).self (.task 0) ∧
        (s.fib (.task 0)).started = true ∧ (s.fib (.task 0)).mState = .ready)) = true := by
    decide +kernel
  obtain ⟨s, hsteps, hs⟩ := System.exists_exec h
  obtain ⟨hmade, halone, hleak⟩ := of_decide_eq_true hs
  have hleaked := leaked (by decide) ⟨_, _, rfl, hsteps⟩ ⟨hmade, halone⟩
  have halive := hleaked.1.2 hleak
  exact ⟨s, ⟨hmade, halone⟩, halive, fun as t ht => (hleaked.2 as t ht).2.2.2.trans halive⟩

end Sylar.Fibers
