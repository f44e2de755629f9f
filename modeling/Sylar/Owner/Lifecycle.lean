import Sylar.Owner.Pointers

/-!
# The life cycle of a scheduler

The thread constructs a scheduler, calls `start()`, any number of times `scheduleLock()`, and `stop()`, while the
workers run in any order. `Sched.next` has the assertion of `stop()` on the running scheduler in terms of
`Config.owner`; here `_scheduler` is a variable, and `Inv.newest` says that it is the scheduler itself in the thread
that constructed it.

- `Phase`: where the scheduler is after a part of the calls; `phase_next`: every step keeps it;
- `own_next`: no step of the thread itself fails with a caller thread;
- `lifecycle_legal`: with `use_caller` no assertion fails, and without it the one in `stop()` does.
-/

set_option linter.unusedSectionVars false

namespace Sylar

open Trans

namespace Sched

variable {W E F C : Type} [DecidableEq W] [DecidableEq E] {cfg : Config W E}

/-- A thread in `stop()` in front of `resume()`, or of what comes instead. -/
def Early : StopPc W → Prop
  | .check | .set | .assertion | .tickle | .resume => True
  | _ => False

/-- A thread gets in front of `resume()` by a call of `stop()`. -/
theorem early_next {s : State W E F C} {a : Act W E F C} (hg : guard cfg s a) {e : E}
    (h : Early ((next cfg s a).stop e)) : a = .stopCall e ∨ Early (s.stop e) := by
  by_cases ha : stopper a = some e
  · cases a with
    | stopCall e' =>
      obtain rfl : e' = e := Option.some_inj.1 ha
      exact Or.inl rfl
    | stopCheck e' | stopSet e' | stopAssert e' | stopTickle e' | stopResume e' =>
      obtain rfl : e' = e := Option.some_inj.1 ha
      right
      simp only [guard] at hg
      rw [hg]
      trivial
    | stopBack e' | stopSwap e' =>
      obtain rfl : e' = e := Option.some_inj.1 ha
      simp [next, Early] at h
    | stopEnd e' =>
      obtain rfl : e' = e := Option.some_inj.1 ha
      simp [next, Early] at h
    | stopJoin e' =>
      obtain rfl : e' = e := Option.some_inj.1 ha
      simp only [next] at h
      split at h
      · simp [Early] at h
      · exact Or.inr h
    | _ => cases ha
  · rw [stop_next s ha] at h
    exact Or.inr h

/-- `m_pool` is filled by `start()`. -/
theorem pool_next {s : State W E F C} {a : Act W E F C} (ha : ∀ e, a ≠ .start e) (hs : s.mPool = []) :
    (next cfg s a).mPool = [] := by
  cases a with
  | start e => exact absurd rfl (ha e)
  | stopSwap e => rfl
  | _ =>
    simp only [next, State.push]
    repeat' split
    all_goals exact hs

/-- The steps that can fail an assertion. -/
theorem aborted_cases {s : State W E F C} (hs : s.aborted = none) (hne : ∀ e ∈ s.mTasks, e.task.nonEmpty = true)
    (a : Act W E F C) : (next cfg s a).aborted = none ∨ ∃ e, a = .start e ∨ a = .stopAssert e ∨ a = .stopResume e := by
  have hscan : (next cfg s a).aborted ≠ some .nonEmptyTask := aborted_next hne hs
  cases a with
  | start e => exact Or.inr ⟨e, Or.inl rfl⟩
  | stopAssert e => exact Or.inr ⟨e, Or.inr (Or.inl rfl)⟩
  | stopResume e => exact Or.inr ⟨e, Or.inr (Or.inr rfl)⟩
  | scan w =>
    left
    simp only [next] at hscan ⊢
    split
    · exact hs
    · rename_i b hb
      rw [hb] at hscan
      split
      · exact hs
      · rename_i hempty
        simp [hempty] at hscan
  | _ =>
    left
    simp only [next, State.push]
    repeat' split
    all_goals exact hs

end Sched

namespace Owner

open Fibers

variable {E C : Type} [DecidableEq E] {o : E}

/-! ## The calls -/

/-- The calls behind the constructor. -/
inductive Call (C : Type) where
  | start
  | scheduleLock (callback : C) (thread : Int)
  | stop

section Calls

variable {W : Type} [DecidableEq W]

/-- The call that a step of `o` begins. -/
def call (o : E) : Fibers.Act W E C → Option (Call C)
  | .base (.start e) => if e = o then some .start else none
  | .base (.scheduleLock (.inr e) (.callback (some c)) thr) => if e = o then some (.scheduleLock c thr) else none
  | .base (.stopCall e) => if e = o then some .stop else none
  | _ => none

/-- Only `o` starts and stops the scheduler, nobody destroys it, and what `o` schedules are callbacks. -/
def Alone (o : E) : Fibers.Act W E C → Prop
  | .base (.start e) | .base (.stopCall e) => e = o
  | .base (.scheduleLock (.inr e) fc _) => e = o → ∃ c, fc = .callback (some c)
  | .destroy _ => False
  | _ => True

/-- The calls in their order. -/
def program (cbs : List (C × Int)) : List (Call C) := .start :: cbs.map (fun c => .scheduleLock c.1 c.2) ++ [.stop]

theorem start_first {cbs : List (C × Int)} {cs : List (Call C)} (h : cs ++ [.start] <+: program cbs) : cs = [] := by
  cases cs with
  | nil => rfl
  | cons c cs =>
    unfold program at h
    rw [List.cons_append, List.cons_append, List.cons_prefix_cons] at h
    have hmem := h.2.subset (List.mem_append_right cs (List.mem_singleton.2 rfl))
    simp at hmem

theorem stop_once {cbs : List (C × Int)} {cs : List (Call C)} (h : cs ++ [.stop] <+: program cbs) : .stop ∉ cs := by
  unfold program at h
  have hno : (.stop : Call C) ∉ .start :: cbs.map (fun c => .scheduleLock c.1 c.2) := by simp
  rcases List.prefix_concat_iff.1 h with heq | hpre
  · rw [List.append_cancel_right heq]
    exact hno
  · exact absurd (hpre.subset (List.mem_append_right cs (List.mem_singleton.2 rfl))) hno

/-! ## Where the calls have got to -/

/-- The state after the calls `cs` of the owner, whose worker is `w`. -/
structure Phase (cs : List (Call C)) (o : E) (w : W) (s : Fibers.State W E C) : Prop where
  pool : .start ∉ cs → s.base.mPool = []
  others : ∀ e, e ≠ o → s.base.stop e = .out
  out : .stop ∉ cs → s.base.stop o = .out
  ready : .stop ∉ cs ∨ Sched.Early (s.base.stop o) →
    (s.thread w).pc = .native ∧ (s.fib .sched).mState = .ready

variable {cfg : Sylar.Config W E} {s : Fibers.State W E C} {a : Fibers.Act W E C} {w : W} {cs : List (Call C)}

/-- `m_schedulerFiber` is left alone outside `resume()`. -/
theorem ready_next (h : Isolated.Inv cfg s) (hg : Fibers.guard cfg s a) (hroot : cfg.root = some w)
    (hpc : (s.thread w).pc = .native) (hready : (s.fib .sched).mState = .ready) (ha : ∀ e, a ≠ .stopResume e) :
    ((Fibers.next cfg s a).thread w).pc = .native ∧ ((Fibers.next cfg s a).fib .sched).mState = .ready := by
  refine ⟨by rw [Isolated.native_next hg hpc ha]; exact hpc, ?_⟩
  -- the thread does not execute `m_schedulerFiber`
  have hoff : ∀ v pc, Isolated.On s v .sched → (s.thread v).pc = pc → pc.InMainFunc → False := by
    intro v pc hon hv hmain
    obtain ⟨hroot', -⟩ := Isolated.sched_live h hon hv hmain
    obtain rfl : w = v := Option.some_inj.1 (hroot.symm.trans hroot')
    rw [hpc] at hv
    subst hv
    simp [Pc.InMainFunc] at hmain
  by_cases ht : Isolated.Touches s a
  · cases a with
    | base a =>
      simp only [Fibers.next]
      split <;> exact hready
    | stopResume e => exact absurd rfl (ha e)
    | stopBack e => cases (hg.2 w hroot).symm.trans hpc
    | destroy e => simpa [Fibers.next] using hready
    | entry v | setTerm v | dropSelf v => exact (hoff v _ ht hg.1 (by simp [Pc.InMainFunc])).elim
    | _ => exact ht.elim
  · rw [(Isolated.same_next h hg ht).state]
    exact hready

/-- A thread that makes a step of `stop()` outside it calls it. -/
theorem stopCall_of_out {b : Sched.State W E (FiberId W) C} {a : Sched.Act W E (FiberId W) C}
    (hg : Sched.guard cfg b a) {e : E} (hout : b.stop e = .out) (ha : Sched.stopper a = some e) : a = .stopCall e := by
  rcases Sched.stop_of_stopper hg ha with ⟨hcall, -⟩ | ⟨-, hwait⟩ | ⟨hne, -⟩
  · exact hcall
  · cases hout.symm.trans hwait
  · exact absurd hout hne

theorem phase_base {a : Sched.Act W E (FiberId W) C} (h : Isolated.Inv cfg s) (hg : Fibers.guard cfg s (.base a))
    (hroot : cfg.root = some w) (ha : Alone o (.base a : Fibers.Act W E C)) {cbs : List (C × Int)}
    (hcs : cs ++ (call o (.base a)).toList <+: program cbs) (hp : Phase cs o w s) :
    Phase (cs ++ (call o (.base a)).toList) o w (Fibers.next cfg s (.base a)) := by
  have hbase : (Fibers.next cfg s (.base a)).base = Sched.next cfg s.base a := by
    simp only [Fibers.next]
    split <;> rfl
  refine ⟨?_, ?_, ?_, ?_⟩
  · intro hno
    rw [hbase]
    apply Sched.pool_next
    · rintro e rfl
      obtain rfl : e = o := ha
      simp [call] at hno
    · exact hp.pool fun hmem => hno (List.mem_append_left _ hmem)
  · intro e he
    rw [hbase, Sched.stop_next _ ?_]
    · exact hp.others e he
    · intro hstop
      have hcall := stopCall_of_out hg.1 (hp.others e he) hstop
      subst hcall
      exact he ha
  · intro hno
    have hout := hp.out fun hmem => hno (List.mem_append_left _ hmem)
    rw [hbase, Sched.stop_next _ ?_]
    · exact hout
    · intro hstop
      have hcall := stopCall_of_out hg.1 hout hstop
      subst hcall
      simp [call] at hno
  · intro hearly
    have hbefore : .stop ∉ cs ∨ Sched.Early (s.base.stop o) := by
      rcases hearly with hno | hearly
      · exact Or.inl fun hmem => hno (List.mem_append_left _ hmem)
      · rw [hbase] at hearly
        rcases Sched.early_next hg.1 hearly with rfl | hearly
        · left
          simp only [call, if_true, Option.toList] at hcs
          exact stop_once hcs
        · exact Or.inr hearly
    obtain ⟨hpc, hready⟩ := hp.ready hbefore
    exact ready_next h hg hroot hpc hready (by simp)

/-- The owner's `resume()` finds `m_schedulerFiber` `READY`. -/
theorem resume_owner (hg : Fibers.guard cfg s (.stopResume o)) (hp : Phase cs o w s) :
    (s.thread w).pc = .native ∧ (s.fib .sched).mState = .ready := by
  apply hp.ready
  right
  rw [show s.base.stop o = .resume from hg.1]
  trivial

/-- Nobody but the owner is in `stop()`. -/
theorem Phase.stopper (hp : Phase cs o w s) {e : E} (he : s.base.stop e ≠ .out) : e = o := by
  by_contra hne
  exact he (hp.others e hne)

/-- **Every step keeps the phase.** -/
theorem phase_next (h : Isolated.Inv cfg s) (hg : Fibers.guard cfg s a) (hroot : cfg.root = some w) (ha : Alone o a)
    {cbs : List (C × Int)} (hcs : cs ++ (call o a).toList <+: program cbs) (hp : Phase cs o w s) :
    Phase (cs ++ (call o a).toList) o w (Fibers.next cfg s a) := by
  cases a with
  | base a => exact phase_base h hg hroot ha hcs hp
  | destroy e => exact ha.elim
  | stopResume e =>
    obtain rfl : e = o := hp.stopper (by rw [show s.base.stop e = .resume from hg.1]; simp)
    have hready := (resume_owner hg hp).2
    have hstop : (Fibers.next cfg s (.stopResume e)).base.stop = Function.update s.base.stop e .wait := by
      simp only [Fibers.next, hroot, if_pos hready]
    have hpool : (Fibers.next cfg s (.stopResume e)).base.mPool = s.base.mPool := by
      simp only [Fibers.next, hroot, if_pos hready]
      rfl
    rw [show call e (.stopResume e : Fibers.Act W E C) = none from rfl, Option.toList, List.append_nil]
    refine ⟨fun hno => hpool.trans (hp.pool hno), ?_, ?_, ?_⟩
    · intro e' he'
      rw [hstop, Function.update_of_ne he']
      exact hp.others e' he'
    · intro hno
      cases (hp.out hno).symm.trans hg.1
    · rintro (hno | hearly)
      · cases (hp.out hno).symm.trans hg.1
      · rw [hstop, Function.update_self] at hearly
        exact hearly.elim
  | stopBack e =>
    have hwait : s.base.stop e = .wait := hg.1.1
    obtain rfl : e = o := hp.stopper (by rw [hwait]; simp)
    have hstop : (Fibers.next cfg s (.stopBack e)).base.stop = Function.update s.base.stop e .swap := by
      simp only [Fibers.next, hroot]
      rfl
    have hpool : (Fibers.next cfg s (.stopBack e)).base.mPool = s.base.mPool := by
      simp only [Fibers.next, hroot]
      rfl
    rw [show call e (.stopBack e : Fibers.Act W E C) = none from rfl, Option.toList, List.append_nil]
    refine ⟨fun hno => hpool.trans (hp.pool hno), ?_, ?_, ?_⟩
    · intro e' he'
      rw [hstop, Function.update_of_ne he']
      exact hp.others e' he'
    · intro hno
      cases (hp.out hno).symm.trans hwait
    · rintro (hno | hearly)
      · cases (hp.out hno).symm.trans hwait
      · rw [hstop, Function.update_self] at hearly
        exact hearly.elim
  | _ =>
    obtain ⟨hstop, hpool⟩ := Isolated.stop_next h hg (by simp) (by simp)
    simp only [call, Option.toList, List.append_nil]
    refine ⟨fun hno => hpool.trans (hp.pool hno), ?_, ?_, ?_⟩
    · rw [hstop]
      exact hp.others
    · rw [hstop]
      exact hp.out
    · rw [hstop]
      intro hearly
      obtain ⟨hpc, hready⟩ := hp.ready hearly
      exact ready_next h hg hroot hpc hready (by simp)

/-! ## The assertions -/

/-- **No step of the owner fails an assertion**, with a caller thread. -/
theorem own_next (h : Isolated.Inv cfg s) (hg : Fibers.guard cfg s a) (hroot : cfg.root = some w) (ha : Alone o a)
    (howner : cfg.owner = o) {cbs : List (C × Int)} (hcs : cs ++ (call o a).toList <+: program cbs)
    (hp : Phase cs o w s) (hs : s.base.aborted = none) (hmover : mover a = some (.inr o)) :
    (Fibers.next cfg s a).base.aborted = none := by
  cases a with
  | base a =>
    have hbase : (Fibers.next cfg s (.base a)).base = Sched.next cfg s.base a := by
      simp only [Fibers.next]
      split <;> rfl
    rw [hbase]
    rcases Sched.aborted_cases hs (fun e he => (h.typed.queue e he).1) a with hok | ⟨e, rfl | rfl | rfl⟩
    · exact hok
    · obtain rfl : e = o := Sum.inr_injective (Option.some_inj.1 hmover)
      simp only [call, if_true, Option.toList] at hcs
      have hempty : s.base.mPool = [] := by
        apply hp.pool
        rw [start_first hcs]
        simp
      simp only [Sched.next, hempty]
      split <;> simpa using hs
    · obtain rfl : e = o := Sum.inr_injective (Option.some_inj.1 hmover)
      simp only [Sched.next]
      rw [if_pos]
      · exact hs
      · rw [hroot, howner]
        simp
    · exact hg.2.elim
  | fire e i =>
    simp only [Fibers.next, Sched.next, Sched.State.push]
    split
    · exact hs
    · split <;> exact hs
  | stopResume e =>
    obtain rfl : e = o := Sum.inr_injective (Option.some_inj.1 hmover)
    obtain ⟨hpc, hready⟩ := resume_owner hg hp
    simp only [Fibers.next, hroot, if_pos hready]
    exact hs
  | stopBack e =>
    simp only [Fibers.next, hroot]
    exact hs
  | destroy e => exact ha.elim
  | _ => cases hmover

/-- The steps of `start()` and `stop()` with an assertion are the owner's. -/
theorem owner_of_image {b : Sched.Act W E (FiberId W) C} (hg : Fibers.guard cfg s a) (ha : Alone o a)
    (hp : Phase cs o w s) (himage : image cfg s a = some b)
    (hb : ∃ e, b = .start e ∨ b = .stopAssert e ∨ b = .stopResume e) : mover a = some (.inr o) := by
  obtain ⟨e, hb⟩ := hb
  cases a with
  | base a =>
    obtain rfl : a = b := Option.some_inj.1 himage
    rcases hb with rfl | rfl | rfl
    · obtain rfl : e = o := ha
      rfl
    · obtain rfl : e = o := hp.stopper (by rw [show s.base.stop e = .assertion from hg.1]; simp)
      rfl
    · exact hg.2.elim
  | stopResume e' =>
    obtain rfl : e' = o := hp.stopper (by rw [show s.base.stop e' = .resume from hg.1]; simp)
    rfl
  | fire e' i =>
    obtain ⟨f, -, rfl⟩ := Option.map_eq_some_iff.1 himage
    rcases hb with hb | hb | hb <;> cases hb
  | idle v | setTerm v | yswap v =>
    simp only [image] at himage
    repeat' split at himage
    all_goals
      cases himage
      try rcases hb with hb | hb | hb <;> cases hb
  | _ => cases himage <;> (rcases hb with hb | hb | hb <;> cases hb)

/-- **No step at all fails an assertion**, where the `idle()` of the base class does not yield. -/
theorem plain_next (hplain : cfg.idle = .plain) (hr : (Fibers.system C cfg).Reach Always s)
    (hg : Fibers.guard cfg s a) (ha : Alone o a) (hp : Phase cs o w s) (hs : s.base.aborted = none)
    (hother : mover a ≠ some (.inr o)) : (Fibers.next cfg s a).base.aborted = none := by
  have hbase : cfg.idle ≠ .token := by
    rw [hplain]
    simp
  have hinv := Isolated.inv_reach hr
  have hstep := refines_step hbase (Fibers.inv_reach (reach_noIdleTimer hplain hr)) hg
  cases himage : image cfg s a with
  | none =>
    rw [himage] at hstep
    rw [show (Fibers.next cfg s a).base = s.base from hstep]
    exact hs
  | some b =>
    rw [himage] at hstep
    rw [hstep.2]
    rcases Sched.aborted_cases hs (fun e he => (hinv.typed.queue e he).1) b with hok | ⟨e, hb⟩
    · exact hok
    · exact absurd (owner_of_image hg ha hp himage ⟨e, hb⟩) hother

end Calls

/-! ## Runs -/

/-- The calls in a run of a scheduler with `n` threads. -/
def calls (o : E) (n : Nat) (as : List (Act E C)) : List (Call C) :=
  as.filterMap fun
    | .construct _ _ => none
    | .step a => call o (a n)

/-- A step of the newest scheduler, on which only `o` calls. -/
def Cycle (o : E) (s : State E C) : Act E C → Prop
  | .construct _ _ => False
  | .step a => ∀ g ∈ s.schedulers.head?, Alone o (a g.n)

/-- No assertion has failed. -/
def Sound (s : State E C) : Prop := s.failed = false ∧ ∀ g ∈ s.schedulers.head?, g.state.base.aborted = none

/-- **The life cycle is legal.** The constructor's assertion holds. Then, while the thread calls `start()`, schedules
the callbacks `cbs` and calls `stop()`, and the workers run in any order, none of its own steps fails an assertion; with
a plain `idle()` no step of anybody does. -/
def Legal (o : E) (s : State E C) (n : Nat) (cfg : Sylar.Config (Fin n) E) (cbs : List (C × Int)) : Prop :=
  Sound (next s (.construct n cfg)) ∧
    ∀ as a t, (system C o).Steps (Cycle o) (next s (.construct n cfg)) as t → (system C o).enabled t (.step a) →
      Cycle o t (.step a) → calls o n (as ++ [.step a]) <+: program cbs →
      mover (a n) = some (.inr o) ∨ cfg.idle = .plain → Sound (next t (.step a))

variable {s t : State E C} {n : Nat} {cfg : Sylar.Config (Fin n) E}

theorem threads_pos {W : Type} (cfg : Sylar.Config W E) : 0 < threads cfg := by
  unfold threads
  cases hroot : cfg.root with
  | none =>
    have hpool := List.length_pos_iff.2 (cfg.worker hroot)
    omega
  | some w => simp

/-- The constructor passes its assertion where no scheduler is running. -/
theorem construct_eq (hnone : s.tls.scheduler = none) :
    next s (.construct n cfg) = { s with
      tls := s.tls.construct s.schedulers.length cfg.root.isSome
      schedulers := ⟨s.schedulers.length, n, cfg, Fibers.initial C cfg⟩ :: s.schedulers } := by
  simp only [next, if_pos (And.intro (threads_pos cfg) hnone)]

theorem calls_snoc (as : List (Act E C)) (a : ∀ n, Fibers.Act (Fin n) E C) :
    calls o n (as ++ [.step a]) = calls o n as ++ (call o (a n)).toList := by
  simp only [calls, List.filterMap_append]
  cases hcall : call o (a n) <;> simp [hcall]

/-- A step of the scheduler at the head. -/
theorem next_step {i : Nat} {st : Fibers.State (Fin n) E C} {gens : List (Gen E C)}
    (hs : s.schedulers = ⟨i, n, cfg, st⟩ :: gens) (a : ∀ n, Fibers.Act (Fin n) E C) :
    (next s (.step a)).schedulers = ⟨i, n, cfg, Fibers.next cfg st (a n)⟩ :: gens ∧
      (next s (.step a)).failed = s.failed := by
  simp only [next, hs]
  exact ⟨rfl, trivial⟩

theorem enabled_step {i : Nat} {st : Fibers.State (Fin n) E C} {gens : List (Gen E C)}
    (hs : s.schedulers = ⟨i, n, cfg, st⟩ :: gens) {a : ∀ n, Fibers.Act (Fin n) E C} :
    (system C o).enabled s (.step a) ↔
      s.failed = false ∧ (Fibers.system C cfg).enabled st (a n) ∧ byOwner o (a n) := by
  simp only [system, guard, hs]

/-- The run behind the constructor is one of the new scheduler. -/
theorem cycle_steps {i : Nat} {gens : List (Gen E C)} {st₀ : Fibers.State (Fin n) E C} {as : List (Act E C)}
    (hs : s.schedulers = ⟨i, n, cfg, st₀⟩ :: gens) (hr : (Fibers.system C cfg).Reach Always st₀)
    (hd : st₀.destroyed = false) (cbs : List (C × Int))
    (hp : ∀ w, cfg.root = some w → cfg.owner = o → Phase [] o w st₀)
    (h : (system C o).Steps (Cycle o) s as t) :
    ∃ st, t.schedulers = ⟨i, n, cfg, st⟩ :: gens ∧ (Fibers.system C cfg).Reach Always st ∧ st.destroyed = false ∧
      ∀ w, cfg.root = some w → cfg.owner = o → calls o n as <+: program cbs → Phase (calls o n as) o w st := by
  apply System.Steps.history (I := fun as t => ∃ st, t.schedulers = ⟨i, n, cfg, st⟩ :: gens ∧
    (Fibers.system C cfg).Reach Always st ∧ st.destroyed = false ∧
      ∀ w, cfg.root = some w → cfg.owner = o → calls o n as <+: program cbs → Phase (calls o n as) o w st)
    ?_ h [] ?_
  · rintro bs u a ⟨st, hu, hst, hd, hphase⟩ he hc
    cases a with
    | construct n cfg => exact hc.elim
    | step a =>
      have halone : Alone o (a n) := hc _ (by rw [hu]; rfl)
      have hen := (enabled_step hu).1 he
      refine ⟨Fibers.next cfg st (a n), (next_step hu a).1, hst.step hen.2.1 trivial, ?_, ?_⟩
      · rw [destroyed_next]
        · exact hd
        · intro e ha
          rw [ha] at halone
          exact halone
      · intro w hroot howner hcs
        rw [calls_snoc] at hcs ⊢
        refine phase_next (Isolated.inv_reach hst) hen.2.1.2 hroot halone hcs (hphase w hroot howner ?_)
        exact (List.prefix_append _ _).trans hcs
  · exact ⟨st₀, hs, hr, hd, fun w hroot howner _ => hp w hroot howner⟩

/-- Before the first call. -/
theorem phase_initial {W : Type} [DecidableEq W] {cfg : Sylar.Config W E} {w : W} (hroot : cfg.root = some w) :
    Phase [] o w (Fibers.initial C cfg) := by
  refine ⟨fun _ => rfl, fun _ _ => rfl, fun _ => rfl, fun _ => ⟨?_, rfl⟩⟩
  rw [initial_thread hroot]

theorem legal_of_caller (howner : cfg.owner = o) (hf : s.failed = false) (hnone : s.tls.scheduler = none)
    (hroot : cfg.root.isSome = true) (cbs : List (C × Int)) : Legal o s n cfg cbs := by
  obtain ⟨w, hroot⟩ := Option.isSome_iff_exists.1 hroot
  unfold Legal
  rw [construct_eq hnone]
  refine ⟨⟨hf, ?_⟩, ?_⟩
  · intro g hg
    obtain rfl := Option.some_inj.1 hg
    rfl
  · intro as a t h he hc hcs hwho
    rw [calls_snoc] at hcs
    obtain ⟨st, ht, hst, -, hphase⟩ := cycle_steps rfl (.start rfl) rfl cbs
      (fun w hroot _ => phase_initial hroot) h
    have hp := hphase w hroot howner ((List.prefix_append _ _).trans hcs)
    have hen := (enabled_step ht).1 he
    have halone : Alone o (a n) := hc _ (by rw [ht]; rfl)
    obtain ⟨hnext, hfailed⟩ := next_step ht a
    refine ⟨hfailed.trans hen.1, ?_⟩
    rw [hnext]
    intro g hg
    obtain rfl := Option.some_inj.1 hg
    obtain ⟨⟨habort, -⟩, hguard⟩ := hen.2.1
    by_cases hmover : mover (a n) = some (.inr o)
    · exact own_next (Isolated.inv_reach hst) hguard hroot halone howner hcs hp habort hmover
    · exact plain_next (hwho.resolve_left hmover) hst hguard halone hp habort hmover

/-! ## Without a caller thread -/

/-- The newest scheduler, with the owner at `pc` in `stop()`. -/
structure At (o : E) (i : Nat) (cfg : Sylar.Config (Fin n) E) (gens : List (Gen E C)) (pc : Sched.StopPc (Fin n))
    (s : State E C) (st : Fibers.State (Fin n) E C) : Prop where
  schedulers : s.schedulers = ⟨i, n, cfg, st⟩ :: gens
  failed : s.failed = false
  aborted : st.base.aborted = none
  usable : st.destroyed = false
  stop : st.base.stop o = pc
  wake : st.base.wake (.inr o) = none
  mStopping : pc = .out ∨ pc = .check ∨ pc = .set → st.base.mStopping = false

/-- A step of the scheduler's. -/
theorem At.can {i : Nat} {gens : List (Gen E C)} {pc : Sched.StopPc (Fin n)} {st : Fibers.State (Fin n) E C}
    (h : At o i cfg gens pc s st) (b : ∀ n, Sched.Act (Fin n) E (FiberId (Fin n)) C)
    (hg : Sched.guard cfg st.base (b n)) (hb : baseGuard st (b n)) (ha : Alone o (.base (b n) : Fibers.Act _ E C)) :
    (system C o).enabled s (.step fun n => .base (b n)) ∧ Cycle o s (.step fun n => .base (b n)) ∧
      ∃ st', (next s (.step fun n => .base (b n))).schedulers = ⟨i, n, cfg, st'⟩ :: gens ∧
        (next s (.step fun n => .base (b n))).failed = false ∧ st'.destroyed = false ∧
        st'.base = Sched.next cfg st.base (b n) := by
  obtain ⟨hnext, hfailed⟩ := next_step h.schedulers fun n => .base (b n)
  refine ⟨(enabled_step h.schedulers).2 ⟨h.failed, ⟨⟨h.aborted, h.usable⟩, hg, hb⟩, trivial⟩, ?_, ?_⟩
  · intro g hg
    rw [h.schedulers] at hg
    obtain rfl := Option.some_inj.1 hg
    exact ha
  · refine ⟨_, hnext, hfailed.trans h.failed, (destroyed_next (by simp)).trans h.usable, ?_⟩
    simp only [Fibers.next]
    split <;> rfl

/-- The owner moves in its calls. -/
theorem At.go {i : Nat} {gens : List (Gen E C)} {pc : Sched.StopPc (Fin n)} {st : Fibers.State (Fin n) E C}
    (h : At o i cfg gens pc s st) (pc' : Sched.StopPc (Fin n)) (b : ∀ n, Sched.Act (Fin n) E (FiberId (Fin n)) C)
    (hg : Sched.guard cfg st.base (b n)) (hb : baseGuard st (b n)) (ha : Alone o (.base (b n) : Fibers.Act _ E C))
    (haborted : (Sched.next cfg st.base (b n)).aborted = none) (hstop : (Sched.next cfg st.base (b n)).stop o = pc')
    (hwake : (Sched.next cfg st.base (b n)).wake (.inr o) = none)
    (hmStopping : pc' = .out ∨ pc' = .check ∨ pc' = .set → (Sched.next cfg st.base (b n)).mStopping = false) :
    ∃ u st', (system C o).Steps (Cycle o) s [.step fun n => .base (b n)] u ∧ At o i cfg gens pc' u st' := by
  obtain ⟨he, hc, st', hs, hf, hd, hbase⟩ := h.can b hg hb ha
  refine ⟨_, st', .cons he hc (.nil _), hs, hf, ?_, hd, ?_, ?_, ?_⟩ <;> rw [hbase]
  · exact haborted
  · exact hstop
  · exact hwake
  · exact hmStopping

/-- The owner schedules a callback. -/
def scheduleSteps (o : E) (c : C × Int) : List (Act E C) :=
  [.step fun _ => .base (.scheduleLock (.inr o) (.callback (some c.1)) c.2), .step fun _ => .base (.wakeUp (.inr o))]

theorem At.schedule {i : Nat} {gens : List (Gen E C)} {st : Fibers.State (Fin n) E C}
    (h : At o i cfg gens .out s st) (c : C × Int) :
    ∃ u st', (system C o).Steps (Cycle o) s (scheduleSteps o c) u ∧ At o i cfg gens .out u st' := by
  obtain ⟨he, hc, st₁, hs₁, hf₁, hd₁, hb₁⟩ := h.can (fun _ => .scheduleLock (.inr o) (.callback (some c.1)) c.2)
    ⟨h.stop, h.wake⟩ ⟨trivial, trivial⟩ (fun _ => ⟨c.1, rfl⟩)
  have hpush : st₁.base = { st.base with
      mTasks := st.base.mTasks ++ [⟨st.base.accepted.length, c.2, some c.1, none⟩]
      accepted := st.base.accepted ++ [⟨st.base.accepted.length, c.2, some c.1, none⟩]
      wake := Function.update st.base.wake (.inr o) (some st.base.mTasks.isEmpty) } := hb₁
  have hwake : st₁.base.wake (.inr o) = some st.base.mTasks.isEmpty := by
    rw [hpush]
    exact Function.update_self ..
  -- the step `wakeUp` needs no `wake = none`
  obtain ⟨hnext, hfailed⟩ := next_step hs₁ fun _ => .base (.wakeUp (.inr o))
  refine ⟨_, _, .cons he hc (.cons ((enabled_step hs₁).2 ⟨hf₁, ⟨⟨?_, hd₁⟩, ?_, trivial⟩, trivial⟩) ?_ (.nil _)),
    ⟨hnext, hfailed.trans hf₁, ?_, ?_, ?_, ?_, ?_⟩⟩
  · rw [hpush]
    exact h.aborted
  · change st₁.base.wake (.inr o) ≠ none
    rw [hwake]
    simp
  · intro g hg
    trivial
  · simp only [Fibers.next, Sched.next, hpush]
    exact h.aborted
  · exact hd₁
  · simp only [Fibers.next, Sched.next, hpush]
    exact h.stop
  · simp [Fibers.next, Sched.next]
  · intro hpc
    simp only [Fibers.next, Sched.next, hpush]
    exact h.mStopping hpc

theorem At.scheduleAll {i : Nat} {gens : List (Gen E C)} : ∀ {s : State E C} {st : Fibers.State (Fin n) E C}
    (_ : At o i cfg gens .out s st) (cbs : List (C × Int)),
    ∃ u st', (system C o).Steps (Cycle o) s (cbs.flatMap (scheduleSteps o)) u ∧ At o i cfg gens .out u st'
  | s, st, h, [] => ⟨s, st, .nil s, h⟩
  | s, st, h, c :: cbs => by
    obtain ⟨u, st₁, hu, h₁⟩ := h.schedule c
    obtain ⟨v, st₂, hv, h₂⟩ := h₁.scheduleAll cbs
    exact ⟨v, st₂, hu.append hv, h₂⟩

/-- The owner calls `stop()`, up to the assertion. -/
def stopSteps (o : E) : List (Act E C) :=
  [.step fun _ => .base (.stopCall o), .step fun _ => .base (.stopCheck o), .step fun _ => .base (.stopSet o)]

theorem At.toStop {i : Nat} {gens : List (Gen E C)} {st : Fibers.State (Fin n) E C} (h : At o i cfg gens .out s st) :
    ∃ u st', (system C o).Steps (Cycle o) s (stopSteps o) u ∧ At o i cfg gens .assertion u st' := by
  obtain ⟨u₁, st₁, hu₁, h₁⟩ := h.go .check (fun _ => .stopCall o) ⟨h.stop, h.wake⟩ trivial rfl h.aborted
    (Function.update_self ..) h.wake fun _ => h.mStopping (Or.inl rfl)
  have hset : Sched.next cfg st₁.base (.stopCheck o) = st₁.base.stopTo o .set := by
    have hno : st₁.base.stopping = false := by
      simp [Sched.State.stopping, h₁.mStopping (Or.inr (Or.inl rfl))]
    simp [Sched.next, hno]
  obtain ⟨u₂, st₂, hu₂, h₂⟩ := h₁.go .set (fun _ => .stopCheck o) h₁.stop trivial trivial
    (by rw [hset]; exact h₁.aborted) (by rw [hset]; exact Function.update_self ..) (by rw [hset]; exact h₁.wake)
    (fun _ => by rw [hset]; exact h₁.mStopping (Or.inr (Or.inl rfl)))
  obtain ⟨u₃, st₃, hu₃, h₃⟩ := h₂.go .assertion (fun _ => .stopSet o) h₂.stop trivial trivial h₂.aborted
    (Function.update_self ..) h₂.wake (by simp)
  exact ⟨u₃, st₃, (hu₁.append hu₂).append hu₃, h₃⟩

/-- The calls up to the assertion of `stop()`. -/
def callSteps (o : E) (cbs : List (C × Int)) : List (Act E C) :=
  [.step fun _ => .base (.start o)] ++ cbs.flatMap (scheduleSteps o) ++ stopSteps o

theorem calls_callSteps (o : E) (n : Nat) (cbs : List (C × Int)) : calls o n (callSteps o cbs) = program cbs := by
  have hcbs : ∀ cbs : List (C × Int), calls o n (cbs.flatMap (scheduleSteps o)) =
      cbs.map fun c => .scheduleLock c.1 c.2 := by
    intro cbs
    induction cbs with
    | nil => rfl
    | cons c cbs ih =>
      rw [List.flatMap_cons, List.map_cons, ← ih]
      simp [calls, scheduleSteps, call]
  have happend : ∀ as bs : List (Act E C), calls o n (as ++ bs) = calls o n as ++ calls o n bs :=
    fun as bs => List.filterMap_append
  unfold callSteps program
  rw [happend, happend, hcbs]
  simp [calls, stopSteps, call]

/-- **Without a caller thread `stop()` fails its assertion**, in the first run of the calls: the constructor has made
the scheduler the running one. -/
theorem not_legal (howner : cfg.owner = o) (hf : s.failed = false) (hnone : s.tls.scheduler = none)
    (hroot : cfg.root = none) (cbs : List (C × Int)) : ¬ Legal o s n cfg cbs := by
  rintro ⟨-, hlegal⟩
  rw [construct_eq hnone] at hlegal
  have hat : At o s.schedulers.length cfg s.schedulers .out { s with
      tls := s.tls.construct s.schedulers.length cfg.root.isSome
      schedulers := ⟨s.schedulers.length, n, cfg, Fibers.initial C cfg⟩ :: s.schedulers } (Fibers.initial C cfg) :=
    ⟨rfl, hf, rfl, rfl, rfl, rfl, fun _ => rfl⟩
  obtain ⟨u₁, st₁, hu₁, h₁⟩ := hat.go .out (fun _ => .start o) ⟨rfl, rfl⟩ trivial rfl rfl rfl rfl fun _ => rfl
  obtain ⟨u₂, st₂, hu₂, h₂⟩ := h₁.scheduleAll cbs
  obtain ⟨u₃, st₃, hu₃, h₃⟩ := h₂.toStop
  obtain ⟨he₃, hc₃, st₄, hs₄, -, -, hb₄⟩ := h₃.can (fun _ => .stopAssert o) h₃.stop trivial trivial
  have hcalls : calls o n (callSteps o cbs ++ [.step fun _ => .base (.stopAssert o)]) <+: program cbs := by
    rw [calls_snoc, calls_callSteps]
    simp [call]
  have hsound := (hlegal _ _ u₃ ((hu₁.append hu₂).append hu₃) he₃ hc₃ hcalls (Or.inl rfl)).2 _ (by rw [hs₄]; rfl)
  have hfails : (Sched.next cfg st₃.base (.stopAssert o)).aborted = some .runningScheduler := by
    simp [Sched.next, hroot, howner]
  rw [show (Gen.mk s.schedulers.length n cfg st₄).state.base = st₄.base from rfl, hb₄, hfails] at hsound
  cases hsound

/-- **The life cycle of a scheduler is legal exactly with `use_caller`**, for any number of threads and any callbacks: a
thread without a running scheduler constructs one, calls `start()`, schedules the callbacks and calls `stop()`, and none
of the assertions that these execute fails, in any run of the workers. In such a run `_scheduler` is the new scheduler
throughout, and so is what `stop()` compares with `this`. -/
theorem lifecycle_legal (hr : (system C o).Reach Always s) (he : (system C o).enabled s (.construct n cfg))
    (hnone : s.tls.scheduler = none) (cbs : List (C × Int)) :
    (Legal o s n cfg cbs ↔ cfg.root.isSome = true) ∧
      ∀ as t, (system C o).Steps (Cycle o) (next s (.construct n cfg)) as t →
        t.tls.scheduler = some s.schedulers.length := by
  have hstep := hr.step he trivial
  obtain ⟨hf, -, howner⟩ := he
  constructor
  · constructor
    · intro hlegal
      cases hroot : cfg.root with
      | none => exact absurd hlegal (not_legal howner hf hnone hroot cbs)
      | some w => rfl
    · exact fun hroot => legal_of_caller howner hf hnone hroot cbs
  · intro as t h
    have hreach : (system C o).Reach Always t := hstep.steps (h.mono fun _ _ _ => trivial)
    rw [construct_eq hnone] at h
    obtain ⟨st, ht, -, hd, -⟩ := cycle_steps rfl (.start rfl) rfl cbs
      (fun w hroot _ => phase_initial hroot) h
    rw [(inv_reach hreach).newest ht]
    exact if_neg (by rw [hd]; simp)

theorem lifecycle_legal_solo :
    Legal 0 (⟨.fresh, [], false⟩ : State (Fin 1) Nat) 1 (solo .hooked) [(7, -1), (8, 10)] := by
  have he : (system Nat 0).enabled ⟨.fresh, [], false⟩ (.construct 1 (solo .hooked)) := ⟨rfl, trivial, rfl⟩
  exact (lifecycle_legal (.start ⟨rfl, rfl, Or.inl rfl⟩) he rfl _).1.2 rfl

/-- A scheduler with one thread besides the one that constructs it. -/
def pooled (idle : IdleMode) : Sylar.Config (Fin 1) (Fin 1) where
  __ := solo idle
  root := none
  pool := [(solo idle).owner]
  mem_pool w := by simp [Subsingleton.elim w (solo idle).owner]
  worker := by simp

/-- Constructor, `start()` and `stop()` with `use_caller = false`: the assertion of `stop()` fails. -/
theorem stop_fails : ¬ Legal 0 (⟨.fresh, [], false⟩ : State (Fin 1) Nat) 1 (pooled .plain) [] :=
  not_legal rfl rfl rfl rfl []

end Owner

end Sylar
