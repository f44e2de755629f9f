import Sylar.Scheduler.Shutdown

/-!
# What a `stop()` call has waited for

A thread in `stop()` holds in its local `vec` what it still has to join. The other workers have left `run()`, if it was
this call that took the threads out of `m_pool` (`Awaits`).

- `absent_next`: a worker that has left `run()` stays away; `awaits_next`: the step lemma for the calls;
- `stopped_next`: a call ends at `if (stopping()) return` or behind its joins;
- `stop_joined`: where no call ends early, no worker is left in `run()` when one returns; `stop_early`: the two ways to
  end early;
- `fetchable_next`: a queued task that a worker will still look at stays one; `stranded_next`: a task that nobody will
  look at stays in the queue;
- `none_stranded`: which tasks a `stop()` call leaves behind, and `stranded_late`: one scheduled after the workers have
  left.
-/

namespace Sylar.Sched

open Trans

variable {W E F C : Type} [DecidableEq W] [DecidableEq E] {cfg : Config W E}

/-- The worker has left `run()`; or, next to a worker on the calling thread, `start()` was never called. -/
def Absent (cfg : Config W E) (w : W) (x : Worker F C) : Prop :=
  x.pc = .done ∨ (cfg.root.isSome = true ∧ cfg.root ≠ some w) ∧ x.pc = .unborn

/-- A `stop()` call that finds `m_pool` empty finds no worker left in `run()`. -/
def Joins (cfg : Config W E) (s : State W E F C) : Act W E F C → Prop
  | .stopSwap _ => s.mPool = [] → ∀ w, Absent cfg w (s.worker w)
  | _ => True

omit [DecidableEq W] [DecidableEq E] in
theorem Absent.done {w : W} {x : Worker F C} (h : Absent cfg w x) (hroot : cfg.root = none ∨ cfg.root = some w) :
    x.pc = .done := by
  rcases h with h | ⟨⟨hsome, hne⟩, -⟩
  · exact h
  · rcases hroot with hroot | hroot
    · simp [hroot] at hsome
    · exact absurd hroot hne

theorem mStopping_next {s : State W E F C} (a : Act W E F C) (h : s.mStopping = true) :
    (next cfg s a).mStopping = true := by
  cases a with
  | stopSet e => rfl
  | _ =>
    simp only [next, State.push]
    repeat' split
    all_goals exact h

/-- Once `m_stopping` is set, `start()` creates no thread, and who is away stays away. -/
theorem absent_next {s : State W E F C} {a : Act W E F C} (hg : guard cfg s a) (hstop : s.mStopping = true) {w : W}
    (h : Absent cfg w (s.worker w)) : Absent cfg w ((next cfg s a).worker w) := by
  have hset : ∀ v (x : Worker F C), ¬ Absent cfg v (s.worker v) ∨ x.pc = (s.worker v).pc →
      Absent cfg w (Function.update s.worker v x w) := by
    intro v x hx
    rcases eq_or_ne w v with rfl | hne
    · rw [Function.update_self]
      have hpc := hx.resolve_left (fun hn => hn h)
      simpa only [Absent, hpc] using h
    · rwa [Function.update_of_ne hne]
  have hpc : ∀ v p, (s.worker v).pc = p → p ≠ .done → p ≠ .unborn → ¬ Absent cfg v (s.worker v) := by
    rintro v p rfl hd hu (hx | ⟨-, hx⟩)
    · exact hd hx
    · exact hu hx
  cases a with
  | scheduleLock t fc thr => simp only [next, State.push]; split <;> exact h
  | start e => simp only [next, hstop, if_true]; exact h
  | scan v =>
    have hv := hpc v .scan hg (by simp) (by simp)
    simp only [next]
    split
    · exact hset v _ (Or.inl hv)
    · split_ifs
      · exact hset v _ (Or.inl hv)
      · exact h
  | dispatch v =>
    have hv := hpc v .dispatch hg (by simp) (by simp)
    simp only [next]
    split
    · exact hset v _ (Or.inl hv)
    · split_ifs <;> exact hset v _ (Or.inl hv)
  | idleSleep v =>
    have hv := hpc v .idle hg.2.1 (by simp) (by simp)
    simp only [next]
    split_ifs <;> exact hset v _ (Or.inl hv)
  | enter v | top v | tickle v | decr v | reset v | idleInc v | idleDec v =>
    exact hset v _ (Or.inl (hpc v _ hg (by simp) (by simp)))
  | finish v => exact hset v _ (Or.inl (hpc v _ hg.1 (by simp) (by simp)))
  | idleTest v | idleYield v | idleOut v | idleEnd v | idleTake v k ends =>
    exact hset v _ (Or.inl (hpc v _ hg.2.1 (by simp) (by simp)))
  | idleMoved v pos => exact hset v _ (Or.inr rfl)
  | stopResume e =>
    simp only [next]
    split
    · exact h
    · rename_i v hroot
      split_ifs with hu
      · refine hset v _ (Or.inl ?_)
        rintro (hd | ⟨⟨-, hne⟩, -⟩)
        · rw [hu] at hd
          cases hd
        · exact hne hroot
      · exact h
  | stopCheck e | stopAssert e => simp only [next]; split_ifs <;> exact h
  | stopJoin e => simp only [next]; split <;> exact h
  | wakeUp t | stopCall e | stopSet e | stopTickle e | stopBack e | stopSwap e | stopEnd e => exact h

/-! ## The calls -/

/-- What is behind a thread in `stop()`: `m_stopping = true`, the end of the caller thread's `run()`, and the end of
every `run()` that is not still to be joined. -/
def Awaits (cfg : Config W E) (s : State W E F C) : StopPc W → Prop
  | .out | .check | .set => True
  | .assertion | .tickle | .resume | .wait => s.mStopping = true
  | .swap => s.mStopping = true ∧ ∀ w ∈ cfg.root, Absent cfg w (s.worker w)
  | .join vec => s.mStopping = true ∧ ∀ w, Absent cfg w (s.worker w) ∨ w ∈ vec

/-- The other threads' steps. -/
theorem Awaits.keep {s : State W E F C} {a : Act W E F C} (hg : guard cfg s a) {pc : StopPc W} (h : Awaits cfg s pc) :
    Awaits cfg (next cfg s a) pc := by
  cases pc with
  | out | check | set => trivial
  | assertion | tickle | resume | wait => exact mStopping_next a h
  | swap => exact ⟨mStopping_next a h.1, fun w hw => absent_next hg h.1 (h.2 w hw)⟩
  | join vec => exact ⟨mStopping_next a h.1, fun w => (h.2 w).imp_left (absent_next hg h.1)⟩

/-- What `m_pool` holds: nothing, or every thread that `start()` creates. -/
theorem mPool_next {s : State W E F C} (a : Act W E F C) (h : s.mPool = [] ∨ s.mPool = cfg.pool) :
    (next cfg s a).mPool = [] ∨ (next cfg s a).mPool = cfg.pool := by
  cases a with
  | start e =>
    simp only [next]
    split_ifs
    · exact h
    · exact h
    · exact Or.inr rfl
  | stopSwap e => exact Or.inl rfl
  | _ =>
    simp only [next, State.push]
    repeat' split
    all_goals exact h

theorem awaits_next {s : State W E F C} {a : Act W E F C} (hg : guard cfg s a) (hj : Joins cfg s a)
    (hpool : s.mPool = [] ∨ s.mPool = cfg.pool) (hs : ∀ e, Awaits cfg s (s.stop e)) :
    ∀ e, Awaits cfg (next cfg s a) ((next cfg s a).stop e) := by
  have hfix : (next cfg s a).stop = s.stop → ∀ e, Awaits cfg (next cfg s a) ((next cfg s a).stop e) := by
    intro hstop e
    rw [hstop]
    exact (hs e).keep hg
  have hto : ∀ e pc, (next cfg s a).stop = Function.update s.stop e pc → Awaits cfg (next cfg s a) pc →
      ∀ e, Awaits cfg (next cfg s a) ((next cfg s a).stop e) := by
    intro e pc hstop hpc e'
    rw [hstop]
    rcases eq_or_ne e' e with rfl | hne
    · rwa [Function.update_self]
    · rw [Function.update_of_ne hne]
      exact (hs e').keep hg
  have hat : ∀ e pc, s.stop e = pc → Awaits cfg (next cfg s a) pc := by
    rintro e pc rfl
    exact (hs e).keep hg
  cases a with
  | stopCall e => exact hto e .check rfl trivial
  | stopCheck e =>
    by_cases hend : s.stopping = true
    · exact hto e .out (by simp [next, hend]) trivial
    · exact hto e .set (by simp [next, hend]) trivial
  | stopSet e => exact hto e .assertion rfl rfl
  | stopAssert e =>
    by_cases howner : (cfg.root.isSome = true ↔ e = cfg.owner)
    · exact hto e .tickle (by simp [next, howner]) (hat e .assertion hg)
    · exact hfix (by simp only [next, if_neg howner, State.abort])
  | stopTickle e => exact hto e .resume rfl (hat e .tickle hg)
  | stopResume e =>
    have he := hat e .resume hg
    cases hroot : cfg.root with
    | none => exact hto e .swap (by simp [next, hroot]) ⟨he, by simp [hroot]⟩
    | some w =>
      by_cases hu : (s.worker w).pc = .unborn
      · exact hto e .wait (by simp [next, hroot, hu]) he
      · exact hfix (by simp [next, hroot, hu])
  | stopBack e =>
    refine hto e .swap rfl ⟨hat e .wait hg.1, ?_⟩
    intro w hw
    obtain ⟨v, hv, hdone⟩ := hg.2
    obtain rfl : v = w := Option.some_inj.1 (hv.symm.trans hw)
    exact Or.inl hdone
  | stopSwap e =>
    obtain ⟨hstop, hroot⟩ := hat e .swap hg
    refine hto e (.join s.mPool) rfl ⟨hstop, ?_⟩
    intro w
    rcases hpool with hnil | hall
    · exact Or.inl (hj hnil w)
    · by_cases hw : cfg.root = some w
      · exact Or.inl (hroot w hw)
      · exact Or.inr (hall ▸ (cfg.mem_pool w).2 hw)
  | stopJoin e =>
    -- the thread at the head of `vec` has left `run()`
    have hjoin : mayJoin s e = true := hg
    unfold mayJoin at hjoin
    split at hjoin
    · rename_i w vec hvec
      obtain ⟨hstop, hrest⟩ := hat e _ hvec
      have hdone : (s.worker w).pc = .done := by simpa using hjoin
      refine hto e (.join vec) (by simp [next, hvec]) ⟨hstop, ?_⟩
      intro v
      rcases hrest v with hv | hv
      · exact Or.inl hv
      · rcases List.mem_cons.1 hv with rfl | hv
        · exact Or.inl (Or.inl (by simpa [next, hvec] using hdone))
        · exact Or.inr hv
    · cases hjoin
  | stopEnd e => exact hto e .out rfl trivial
  | _ =>
    apply hfix
    simp only [next, State.push]
    repeat' split
    all_goals rfl

/-- Where a `stop()` call can come to its end. -/
theorem stopped_next {s : State W E F C} {a : Act W E F C} {e : E} (h : (next cfg s a).stopped e = true) :
    s.stopped e = true ∨ (a = .stopCheck e ∧ s.stopping = true) ∨ a = .stopEnd e := by
  have hup : ∀ e', Function.update s.stopped e' true e = true → s.stopped e = true ∨ e = e' := by
    intro e' he
    rcases eq_or_ne e e' with rfl | hne
    · exact Or.inr rfl
    · rw [Function.update_of_ne hne] at he
      exact Or.inl he
  cases a with
  | stopCheck e' =>
    simp only [next] at h
    split_ifs at h with hs
    · rcases hup e' h with he | rfl
      · exact Or.inl he
      · exact Or.inr (Or.inl ⟨rfl, hs⟩)
    · exact Or.inl h
  | stopEnd e' =>
    rcases hup e' h with he | rfl
    · exact Or.inl he
    · exact Or.inr (Or.inr rfl)
  | _ =>
    simp only [next, State.push] at h
    repeat' split at h
    all_goals exact Or.inl h

/-- The calls in a run in which none of them ends behind the swap of an empty pool. -/
theorem awaits_reach {P : State W E F C → Act W E F C → Prop} (hP : ∀ s a, P s a → Joins cfg s a) {s : State W E F C}
    (h : (system F C cfg).Reach P s) : ∀ e, Awaits cfg s (s.stop e) := by
  have hinv : (s.mPool = [] ∨ s.mPool = cfg.pool) ∧ ∀ e, Awaits cfg s (s.stop e) := by
    apply h.inv (I := fun s => (s.mPool = [] ∨ s.mPool = cfg.pool) ∧ ∀ e, Awaits cfg s (s.stop e))
    · rintro s rfl
      exact ⟨Or.inl rfl, fun _ => trivial⟩
    · rintro s a ⟨hpool, hs⟩ hen hp
      exact ⟨mPool_next a hpool, awaits_next hen.2 (hP s a hp) hpool hs⟩
  exact hinv.2

/-! ## `stop()` without a caller thread -/

/-- No `stop()` call ends early: one that finds `stopping()` true, or `m_pool` empty, finds no worker left in `run()`.
-/
def NoEarlyEnd (s : State W E F C) : Act W E F C → Prop
  | .stopCheck _ => s.stopping = true → ∀ w, (s.worker w).pc = .done
  | .stopSwap _ => s.mPool = [] → ∀ w, (s.worker w).pc = .done
  | _ => True

omit [DecidableEq W] [DecidableEq E] in
theorem NoEarlyEnd.joins {s : State W E F C} {a : Act W E F C} (h : NoEarlyEnd s a) : Joins cfg s a := by
  cases a with
  | stopSwap e => exact fun hnil w => Or.inl (h hnil w)
  | _ => trivial

/-- Where the condition fails, the call at hand can return at once, with a worker in `run()`. -/
theorem early_end {s : State W E F C} {a : Act W E F C} (hen : (system F C cfg).enabled s a) (hn : ¬ NoEarlyEnd s a) :
    ∃ as t, (system F C cfg).Steps Always s (a :: as) t ∧ ∃ e, t.stopped e = true ∧ ∃ w, (t.worker w).pc ≠ .done := by
  cases a with
  | stopCheck e =>
    obtain ⟨hs, w, hw⟩ : s.stopping = true ∧ ∃ w, (s.worker w).pc ≠ .done := by simpa [NoEarlyEnd] using hn
    refine ⟨[], _, .cons hen trivial (.nil _), e, ?_, w, ?_⟩
    · simp [system, next, hs]
    · simpa [system, next, hs] using hw
  | stopSwap e =>
    obtain ⟨hnil, w, hw⟩ : s.mPool = [] ∧ ∃ w, (s.worker w).pc ≠ .done := by simpa [NoEarlyEnd] using hn
    have hend : (system F C cfg).enabled (next cfg s (.stopSwap e)) (.stopEnd e) :=
      ⟨hen.1, by simp [guard, next, hnil]⟩
    refine ⟨[.stopEnd e], _, .cons hen trivial (.cons hend trivial (.nil _)), e, ?_, w, hw⟩
    simp [system, next]
  | _ => exact absurd trivial hn

/-- **When `stop()` returns only after the workers.** In a run in which no call ends early no worker is left in `run()`
once a call has returned; and a step at which a call does end early can be followed by its return with a worker in
`run()`. -/
theorem stop_joined (cfg : Config W E) (hroot : cfg.root = none) :
    (∀ s : State W E F C, (system F C cfg).Reach NoEarlyEnd s → ∀ e, s.stopped e = true →
      ∀ w, (s.worker w).pc = .done) ∧
    ∀ (s : State W E F C) (a : Act W E F C), (system F C cfg).enabled s a → ¬ NoEarlyEnd s a →
      ∃ as t, (system F C cfg).Steps Always s (a :: as) t ∧ ∃ e, t.stopped e = true ∧ ∃ w, (t.worker w).pc ≠ .done := by
  refine ⟨?_, fun s a hen hn => early_end hen hn⟩
  intro s h
  have hinv : ∀ e, s.stopped e = true → s.mStopping = true ∧ ∀ w, (s.worker w).pc = .done := by
    induction h using System.Reach.induct with
    | start s hs =>
      have hs : s = initial W E F C := hs
      subst hs
      simp [initial]
    | step s a hr hen hp ih =>
      intro e he
      have hkeep : s.mStopping = true → (∀ w, (s.worker w).pc = .done) →
          (next cfg s a).mStopping = true ∧ ∀ w, ((next cfg s a).worker w).pc = .done := fun hstop hw =>
        ⟨mStopping_next a hstop, fun w => (absent_next hen.2 hstop (Or.inl (hw w))).done (Or.inl hroot)⟩
      rcases stopped_next he with hold | ⟨rfl, hs⟩ | rfl
      · exact hkeep (ih e hold).1 (ih e hold).2
      · exact hkeep (stopping_iff.1 hs).1 (hp hs)
      · -- nothing is left to join
        have hat := awaits_reach (fun _ _ h => h.joins) hr e
        rw [show s.stop e = .join [] from hen.2] at hat
        exact hkeep hat.1 fun w => ((hat.2 w).resolve_right List.not_mem_nil).done (Or.inl hroot)
  exact fun e he => (hinv e he).2

/-- Thread `a` is about to join, and worker `w` has left `run()`. -/
def leftRun (w : Fin 2) (e a : Fin 3) : List (Act (Fin 2) (Fin 3) Nat Nat) :=
  [.start e, .stopCall a, .stopCheck a, .stopSet a, .stopAssert a, .stopTickle a, .stopResume a, .stopSwap a] ++
    .enter w :: leaveRun w

/-- The call of thread `a` ends as it should. -/
def joinRun (w v : Fin 2) (e a : Fin 3) : List (Act (Fin 2) (Fin 3) Nat Nat) :=
  leftRun w e a ++ .enter v :: leaveRun v ++ [.stopJoin a, .stopJoin a, .stopEnd a]

instance (s : State (Fin 2) E F C) (a : Act (Fin 2) E F C) : Decidable (NoEarlyEnd s a) := by
  refine decidable_of_iff ((match a with
    | .stopCheck _ => !s.stopping || decide (∀ w, (s.worker w).pc = .done)
    | .stopSwap _ => !s.mPool.isEmpty || decide (∀ w, (s.worker w).pc = .done)
    | _ => true) = true) ?_
  cases a <;> simp [NoEarlyEnd, imp_iff_not_or]

theorem stop_joined_duo : ∃ s : State (Fin 2) (Fin 3) Nat Nat, s.stopped 1 = true ∧ ∀ w, (s.worker w).pc = .done := by
  have h : (System.exec (system Nat Nat (duo .plain)) NoEarlyEnd (initial _ _ _ _) (joinRun 0 1 0 1)).isSome =
      true := by
    decide
  exact ⟨_, rfl, (stop_joined (duo .plain) rfl).1 _ (System.reach_exec rfl h) 1 rfl⟩

/-- Two ways for the call of thread `2` to return while that of thread `1` is in progress and no worker has begun:
`stopping()` is true; a task is queued, and `m_pool` is empty. -/
theorem stop_early : ∃ s t : State (Fin 2) (Fin 3) Nat Nat,
    ((system Nat Nat (duo .plain)).Reach Always s ∧ s.stopped 2 = true ∧ ∀ w, (s.worker w).pc = .start) ∧
    (system Nat Nat (duo .plain)).Reach Always t ∧ t.stopped 2 = true ∧ ∀ w, (t.worker w).pc = .start := by
  have hs : (System.exec (system Nat Nat (duo .plain)) Always (initial _ _ _ _)
      [.start 0, .stopCall 1, .stopCheck 1, .stopSet 1, .stopCall 2, .stopCheck 2]).isSome = true := by
    decide
  have ht : (System.exec (system Nat Nat (duo .plain)) Always (initial _ _ _ _) (stopRun 0 1 ++
      [.stopCall 2, .stopCheck 2, .stopSet 2, .stopAssert 2, .stopTickle 2, .stopResume 2, .stopSwap 2,
        .stopEnd 2])).isSome = true := by
    decide
  exact ⟨_, _, ⟨System.reach_exec rfl hs, rfl, by decide +revert⟩, System.reach_exec rfl ht, rfl, by decide +revert⟩

/-! ## Late tasks -/

/-- A scan of the queue is ahead of the worker. The caller thread's worker begins in `stop()`. -/
def Scans (cfg : Config W E) (w : W) (x : Worker F C) : Prop :=
  match x.pc with
  | .unborn => cfg.root = some w
  | .done => False
  | .tickle | .dispatch => x.task ≠ none ∨ x.idlePos ≠ .term
  | _ => True

/-- The worker may take a task for the thread `thr`. -/
def Takes (cfg : Config W E) (w : W) (thr : Int) : Prop := thr = -1 ∨ thr = cfg.tid w

/-- A task for the thread `thr` is still looked at: no worker has left its idle loop yet, or one that may take it has a
scan ahead. -/
def Fetchable (cfg : Config W E) (s : State W E F C) (thr : Int) : Prop :=
  (∀ w, (s.worker w).over = false) ∨ ∃ w, Takes cfg w thr ∧ Scans cfg w (s.worker w)

/-- Every non-empty task is scheduled before any `stop()` call has returned and while it is still looked at. -/
def Timely (cfg : Config W E) (s : State W E F C) : Act W E F C → Prop
  | .scheduleLock _ fc thr =>
    (ScheduleTask.make fc thr).nonEmpty = true → (∀ e, s.stopped e = false) ∧ Fetchable cfg s thr
  | .stopSwap _ => s.mPool = [] → ∀ w, Absent cfg w (s.worker w)
  | _ => True

omit [DecidableEq W] [DecidableEq E] in
theorem Timely.joins {s : State W E F C} {a : Act W E F C} (h : Timely cfg s a) : Joins cfg s a := by
  cases a with
  | stopSwap e => exact h
  | _ => trivial

omit [DecidableEq W] [DecidableEq E] in
theorem takes_iff {w : W} {e : Entry F C} : Takes cfg w e.task.thread ↔ e.skipped (cfg.tid w) = false :=
  Entry.skipped_eq_false.symm

omit [DecidableEq W] [DecidableEq E] in
theorem Absent.not_scans {w : W} {x : Worker F C} (h : Absent cfg w x) : ¬ Scans cfg w x := by
  rcases h with h | ⟨⟨-, hne⟩, h⟩
  · simp [Scans, h]
  · simpa [Scans, h] using hne

/-- A worker gives up its last scan only by a scan that takes nothing. -/
theorem scans_next (hidle : cfg.idle = .plain) {s : State W E F C} {a : Act W E F C} (hg : guard cfg s a) {w : W}
    (h : Scans cfg w (s.worker w)) :
    Scans cfg w ((next cfg s a).worker w) ∨ a = .scan w ∧ (scan (cfg.tid w) s.mTasks).task = none := by
  have hset : ∀ v (x : Worker F C), (v = w → Scans cfg w x) → Scans cfg w (Function.update s.worker v x w) := by
    intro v x hx
    rcases eq_or_ne w v with rfl | hne
    · rw [Function.update_self]
      exact hx rfl
    · rwa [Function.update_of_ne hne]
  cases a with
  | scheduleLock t fc thr => simp only [next, State.push]; split <;> exact Or.inl h
  | start e =>
    left
    simp only [next]
    split_ifs
    · exact h
    · exact h
    · dsimp only
      split_ifs
      · simp [Scans]
      · exact h
  | scan v =>
    rcases eq_or_ne v w with rfl | hne
    · cases he : (scan (cfg.tid v) s.mTasks).task with
      | none => exact Or.inr ⟨rfl, rfl⟩
      | some e =>
        left
        simp only [next, he]
        split_ifs
        · exact hset v _ (fun _ => by simp [Scans])
        · exact h
    · left
      simp only [next]
      split
      · exact hset v _ (fun hv => absurd hv hne)
      · split_ifs
        · exact hset v _ (fun hv => absurd hv hne)
        · exact h
  | tickle v =>
    refine Or.inl (hset v _ ?_)
    rintro rfl
    simpa [Scans, show (s.worker v).pc = .tickle from hg] using h
  | dispatch v =>
    left
    simp only [next]
    split
    · exact hset v _ (fun _ => by simp [Scans])
    · rename_i hnone
      split_ifs with hterm
      · refine hset v _ ?_
        rintro rfl
        simp [Scans, show (s.worker v).pc = .dispatch from hg, hnone, hterm] at h
      · exact hset v _ (fun _ => by simp [Scans])
  | idleSleep v =>
    left
    simp only [next, hidle, reduceCtorEq, if_false]
    exact hset v _ (fun _ => by simp [Scans, hg.2.1])
  | enter v | top v | finish v | decr v | reset v | idleInc v | idleDec v =>
    exact Or.inl (hset v _ (fun _ => by simp [Scans]))
  | idleTest v | idleYield v | idleOut v | idleEnd v | idleTake v k ends =>
    exact Or.inl (hset v _ (fun _ => by simp [Scans, hg.2.1]))
  | idleMoved v pos =>
    have hhooked : cfg.idle = .hooked := hg
    rw [hidle] at hhooked
    cases hhooked
  | stopResume e =>
    left
    simp only [next]
    split
    · exact h
    · split_ifs
      · exact hset _ _ (fun _ => by simp [Scans])
      · exact h
  | stopCheck e | stopAssert e => simp only [next]; split_ifs <;> exact Or.inl h
  | stopJoin e => simp only [next]; split <;> exact Or.inl h
  | wakeUp t | stopCall e | stopSet e | stopTickle e | stopBack e | stopSwap e | stopEnd e => exact Or.inl h

/-- Once `m_stopping` is set, a worker that has its last scan behind it does not come back to one. -/
theorem not_scans_next {s : State W E F C} {a : Act W E F C} (hg : guard cfg s a) (hidle : cfg.idle = .plain)
    (hstop : s.mStopping = true) {w : W} (h : ¬ Scans cfg w (s.worker w)) :
    ¬ Scans cfg w ((next cfg s a).worker w) := by
  have hset : ∀ v (x : Worker F C), (v = w → ¬ Scans cfg w x) → ¬ Scans cfg w (Function.update s.worker v x w) := by
    intro v x hx
    rcases eq_or_ne w v with rfl | hne
    · rw [Function.update_self]
      exact hx rfl
    · rwa [Function.update_of_ne hne]
  have hat : ∀ v p, (s.worker v).pc = p → (∀ x : Worker F C, x.pc = p → Scans cfg v x) → v ≠ w := by
    rintro v p hpc hp rfl
    exact h (hp _ hpc)
  cases a with
  | scheduleLock t fc thr => simp only [next, State.push]; split <;> exact h
  | start e => simp only [next, hstop, if_true]; exact h
  | tickle v =>
    refine hset v _ ?_
    rintro rfl
    simpa [Scans, show (s.worker v).pc = .tickle from hg] using h
  | dispatch v =>
    have hx : v = w → (s.worker v).task = none ∧ (s.worker v).idlePos = .term := by
      rintro rfl
      simpa [Scans, show (s.worker v).pc = .dispatch from hg] using h
    simp only [next]
    split
    · rename_i htask
      exact hset v _ (fun hv => by simp [(hx hv).1] at htask)
    · split_ifs with hterm
      · exact hset v _ (fun _ => by simp [Scans])
      · exact hset v _ (fun hv => absurd (hx hv).2 hterm)
  | scan v =>
    have hne := hat v .scan hg (fun x hx => by simp [Scans, hx])
    simp only [next]
    split
    · exact hset v _ (fun hv => absurd hv hne)
    · split_ifs
      · exact hset v _ (fun hv => absurd hv hne)
      · exact h
  | idleSleep v =>
    have hne := hat v .idle hg.2.1 (fun x hx => by simp [Scans, hx])
    simp only [next]
    split_ifs <;> exact hset v _ (fun hv => absurd hv hne)
  | enter v | top v | decr v | reset v | idleInc v | idleDec v =>
    exact hset v _ (fun hv => absurd hv (hat v _ hg (fun x hx => by simp [Scans, hx])))
  | finish v => exact hset v _ (fun hv => absurd hv (hat v _ hg.1 (fun x hx => by simp [Scans, hx])))
  | idleTest v | idleYield v | idleOut v | idleEnd v | idleTake v k ends =>
    exact hset v _ (fun hv => absurd hv (hat v _ hg.2.1 (fun x hx => by simp [Scans, hx])))
  | idleMoved v pos =>
    have hhooked : cfg.idle = .hooked := hg
    rw [hidle] at hhooked
    cases hhooked
  | stopResume e =>
    simp only [next]
    split
    · exact h
    · rename_i v hroot
      split_ifs with hu
      · refine hset v _ ?_
        rintro rfl
        exact absurd (show Scans cfg v (s.worker v) by simpa [Scans, hu] using hroot) h
      · exact h
  | stopCheck e | stopAssert e => simp only [next]; split_ifs <;> exact h
  | stopJoin e => simp only [next]; split <;> exact h
  | wakeUp t | stopCall e | stopSet e | stopTickle e | stopBack e | stopSwap e | stopEnd e => exact h

/-- **A queued task stays one that is looked at.** -/
theorem fetchable_next (hidle : cfg.idle = .plain) {s : State W E F C} {a : Act W E F C} (hg : guard cfg s a)
    {e : Entry F C} (he : e ∈ s.mTasks) (h : Fetchable cfg s e.task.thread) :
    Fetchable cfg (next cfg s a) e.task.thread := by
  rcases h with h | ⟨w, htakes, hscans⟩
  · have hn : s.stopping = false := by
      have hne : s.mTasks ≠ [] := List.ne_nil_of_mem he
      simp [State.stopping, hne]
    exact Or.inl (over_next hidle hg hn h)
  · rcases scans_next hidle hg hscans with hs | ⟨-, hnone⟩
    · exact Or.inr ⟨w, htakes, hs⟩
    · have hskip := (scan_none hnone).2 e he
      rw [takes_iff.1 htakes] at hskip
      cases hskip

/-- A task that nobody with a scan ahead may take stays in the queue. -/
theorem stays_next {s : State W E F C} {a : Act W E F C} (hg : guard cfg s a) {e : Entry F C} (he : e ∈ s.mTasks)
    (h : ∀ w, Takes cfg w e.task.thread → ¬ Scans cfg w (s.worker w)) : e ∈ (next cfg s a).mTasks := by
  rcases queued_next cfg a he with hstay | ⟨w, ⟨rfl, htakes⟩, -⟩
  · exact hstay
  · exact absurd (show Scans cfg w (s.worker w) by simp [Scans, show (s.worker w).pc = .scan from hg])
      (h w (takes_iff.2 htakes))

/-- Before `m_stopping` is set no worker leaves its idle loop. -/
theorem over_of_running (hidle : cfg.idle = .plain) {P : State W E F C → Act W E F C → Prop} {s : State W E F C}
    (h : (system F C cfg).Reach P s) : s.mStopping = false → ∀ w, (s.worker w).over = false := by
  induction h using System.Reach.induct with
  | start s hs =>
    have hs : s = initial W E F C := hs
    subst hs
    exact fun _ _ => rfl
  | step s a _ hen _ ih =>
    intro hn
    have hold : s.mStopping = false := by
      by_contra hstop
      rw [show ((system F C cfg).next s a).mStopping = true from mStopping_next a (by simpa using hstop)] at hn
      cases hn
    exact over_next hidle hen.2 (by simp [State.stopping, hold]) (ih hold)

omit [DecidableEq W] [DecidableEq E] in
/-- There is a worker, so that someone has left `run()` once everybody has. -/
theorem exists_done {s : State W E F C} (h : ∀ w, Absent cfg w (s.worker w)) : ∃ w, (s.worker w).pc = .done := by
  cases hroot : cfg.root with
  | none =>
    obtain ⟨w, -⟩ := List.exists_mem_of_ne_nil _ (cfg.worker hroot)
    exact ⟨w, (h w).done (Or.inl hroot)⟩
  | some w => exact ⟨w, (h w).done (Or.inr hroot)⟩

omit [DecidableEq W] [DecidableEq E] in
@[simp] theorem make_thread (fc : FiberOrCallback F C) (thr : Int) : (ScheduleTask.make fc thr).thread = thr := by
  cases fc <;> rfl

/-- The queue in a run in which every task is scheduled in time. -/
theorem fetchable_reach (hidle : cfg.idle = .plain) {s : State W E F C} (h : (system F C cfg).Reach (Timely cfg) s) :
    ∀ e ∈ s.mTasks, Fetchable cfg s e.task.thread := by
  induction h using System.Reach.induct with
  | start s hs =>
    have hs : s = initial W E F C := hs
    subst hs
    exact fun e he => absurd he List.not_mem_nil
  | step s a _ hen hp ih =>
    intro e he
    rcases mem_next he with hold | ⟨t, fc, thr, rfl, htask, hne⟩
    · exact fetchable_next hidle hen.2 hold (ih e hold)
    · rw [htask] at hne ⊢
      have hf := (hp hne).2
      rw [make_thread]
      simp only [system, next, State.push, if_pos hne]
      exact hf

variable [Fintype W]

/-- A `stop()` call that has nothing left to join leaves nothing behind. -/
theorem stopping_of_joined (hidle : cfg.idle = .plain) {s : State W E F C} (h : (system F C cfg).Reach (Timely cfg) s)
    {e : E} (he : s.stop e = .join []) : s.stopping = true := by
  have hat := awaits_reach (fun _ _ h => h.joins) h e
  rw [he] at hat
  have habsent : ∀ w, Absent cfg w (s.worker w) := fun w => (hat.2 w).resolve_right List.not_mem_nil
  refine stopping_iff.2 ⟨hat.1, ?_, ?_⟩
  · refine List.eq_nil_iff_forall_not_mem.2 (fun b hb => ?_)
    rcases fetchable_reach hidle h b hb with hover | ⟨w, -, hscans⟩
    · obtain ⟨w, hw⟩ := exists_done habsent
      have hwo := hover w
      simp [Worker.over, hw] at hwo
    · exact (habsent w).not_scans hscans
  · rw [active_eq_count h]
    by_contra hpos
    obtain ⟨w, hbusy⟩ := Counting.exists_of_count_pos (Nat.pos_of_ne_zero hpos)
    have hok := ok_reach h w
    rcases habsent w with hw | ⟨-, hw⟩
    · simp [Worker.busy, Worker.Ok, hw] at hbusy hok
      simp [hok] at hbusy
    · simp [Worker.busy, Worker.Ok, hw] at hbusy hok
      simp [hok] at hbusy

/-- **Every run** in which every task is scheduled in time: once a `stop()` call has returned, `stopping()` is true. -/
theorem stopping_of_stopped (hidle : cfg.idle = .plain) {s : State W E F C}
    (h : (system F C cfg).Reach (Timely cfg) s) : ∀ e, s.stopped e = true → s.stopping = true := by
  induction h using System.Reach.induct with
  | start s hs =>
    have hs : s = initial W E F C := hs
    subst hs
    simp [initial]
  | step s a hr hen hp ih =>
    intro e he
    rcases stopped_next he with hold | ⟨rfl, hs⟩ | rfl
    · refine stopping_keep ?_ (ih e hold)
      rintro t fc thr rfl
      by_contra hne
      have hno := (hp (by simpa using hne)).1 e
      rw [hno] at hold
      cases hold
    · exact stopping_keep (by simp) hs
    · exact stopping_keep (by simp) (stopping_of_joined hidle hr hen.2)

omit [Fintype W] in
/-- **A task that is not looked at any more** stays in `m_tasks` to the end of every run. -/
theorem stays_steps (hidle : cfg.idle = .plain) {s u : State W E F C} {as : List (Act W E F C)}
    {task : ScheduleTask F C} (hstop : s.mStopping = true) (hmem : ∃ b ∈ s.mTasks, b.task = task)
    (hno : ∀ w, Takes cfg w task.thread → ¬ Scans cfg w (s.worker w)) (h : (system F C cfg).Steps Always s as u) :
    ∃ b ∈ u.mTasks, b.task = task := by
  have hstay := h.inv (I := fun u => u.mStopping = true ∧ (∃ b ∈ u.mTasks, b.task = task) ∧
    ∀ w, Takes cfg w task.thread → ¬ Scans cfg w (u.worker w)) ?_ ⟨hstop, hmem, hno⟩
  · exact hstay.2.1
  · rintro u a ⟨hu, ⟨b, hb, htask⟩, hw⟩ hen -
    refine ⟨mStopping_next a hu, ⟨b, stays_next hen.2 hb ?_, htask⟩, fun w ht => ?_⟩
    · rw [htask]
      exact hw
    · exact not_scans_next hen.2 hidle hu (hw w ht)

/-- **Which tasks a `stop()` call leaves behind.** In a run in which every task is scheduled in time, `m_tasks` is empty
once a `stop()` call has returned, and every accepted task has been fetched. A task that is scheduled when it is not
looked at any more stays in `m_tasks` whatever happens. -/
theorem none_stranded (cfg : Config W E) (hidle : cfg.idle = .plain) :
    (∀ s : State W E F C, (system F C cfg).Reach (Timely cfg) s → ∀ e, s.stopped e = true →
      s.mTasks = [] ∧ ∀ b ∈ s.accepted, b ∈ s.fetched) ∧
    ∀ (s : State W E F C) t fc thr, (system F C cfg).Reach Always s → guard cfg s (.scheduleLock t fc thr) →
      (ScheduleTask.make fc thr : ScheduleTask F C).nonEmpty = true → ¬ Fetchable cfg s thr →
      ∀ as u, (system F C cfg).Steps Always s (.scheduleLock t fc thr :: as) u →
        ∃ b ∈ u.mTasks, b.task = .make fc thr := by
  constructor
  · intro s h e he
    have hq := (stopping_iff.1 (stopping_of_stopped hidle h e he)).2.1
    refine ⟨hq, fun b hb => ?_⟩
    rcases Ledger.queued_or_fetched ((toLedger F C _ cfg).reach h) b hb with hqueue | hf
    · exact absurd (show b ∈ s.mTasks from hqueue) (by simp [hq])
    · exact hf
  · intro s t fc thr hr hg hne hlate as u hsteps
    -- somebody has left its idle loop, so that `m_stopping` is set
    have hstop : s.mStopping = true := by
      by_contra hn
      exact hlate (Or.inl (over_of_running hidle hr (by simpa using hn)))
    cases hsteps with
    | cons hen _ hsteps =>
      apply stays_steps hidle ?_ ?_ ?_ hsteps
      all_goals simp only [system, next, State.push, if_pos hne]
      · exact hstop
      · exact ⟨_, List.mem_append_right _ (List.mem_singleton.2 rfl), rfl⟩
      · rw [make_thread]
        exact fun w ht hs => hlate (Or.inr ⟨w, ht, hs⟩)

instance (cfg : Config W E) (w : W) (x : Worker F C) : Decidable (Absent cfg w x) := inferInstanceAs (Decidable (_ ∨ _))

instance (cfg : Config W E) (w : W) (x : Worker F C) : Decidable (Scans cfg w x) := by
  unfold Scans
  cases x.pc <;> dsimp only <;> infer_instance

instance (cfg : Config W E) (s : State W E F C) (thr : Int) : Decidable (Fetchable cfg s thr) :=
  inferInstanceAs (Decidable (_ ∨ ∃ w, (thr = -1 ∨ thr = cfg.tid w) ∧ Scans cfg w (s.worker w)))

instance [Fintype E] (cfg : Config W E) (s : State W E F C) (a : Act W E F C) : Decidable (Timely cfg s a) := by
  refine decidable_of_iff ((match a with
    | .scheduleLock _ fc thr =>
      !(ScheduleTask.make fc thr).nonEmpty || decide (∀ e, s.stopped e = false) && decide (Fetchable cfg s thr)
    | .stopSwap _ => !s.mPool.isEmpty || decide (∀ w, Absent cfg w (s.worker w))
    | _ => true) = true) ?_
  cases a <;> simp [Timely, imp_iff_not_or]

/-- A task is scheduled while worker `1` still has a scan ahead. -/
theorem none_stranded_duo : ∃ s : State (Fin 2) (Fin 3) Nat Nat, (s.stopped 1, s.accepted.length) = (true, 1) ∧
    s.mTasks = [] ∧ ∀ b ∈ s.accepted, b ∈ s.fetched := by
  have h : (System.exec (system Nat Nat (duo .plain)) (Timely (duo .plain)) (initial _ _ _ _) (leftRun 0 0 1 ++
      [.scheduleLock (.inr 2) (.callback (some 3)) (-1), .wakeUp (.inr 2), .enter 1, .top 1, .scan 1, .tickle 1,
        .dispatch 1, .finish 1, .decr 1, .reset 1] ++ leaveRun 1 ++ [.stopJoin 1, .stopJoin 1, .stopEnd 1])).isSome =
      true := by
    decide
  exact ⟨_, rfl, (none_stranded (duo .plain) rfl).1 _ (System.reach_exec rfl h) 1 rfl⟩

/-- Both workers have left `run()` when thread `2` schedules a task: it is accepted, and the `stop()` call returns. -/
theorem stranded_late : ∃ s : State (Fin 2) (Fin 3) Nat Nat, (system Nat Nat (duo .plain)).Reach Always s ∧
    s.stopped 1 = true ∧ s.mTasks.length = 1 ∧ s.fetched = [] := by
  have h : (System.exec (system Nat Nat (duo .plain)) Always (initial _ _ _ _)
      (leftRun 0 0 1 ++ .enter 1 :: leaveRun 1 ++ [.scheduleLock (.inr 2) (.callback (some 3)) (-1),
        .wakeUp (.inr 2), .stopJoin 1, .stopJoin 1, .stopEnd 1])).isSome = true := by
    decide
  exact ⟨_, System.reach_exec rfl h, rfl, rfl, rfl⟩

end Sylar.Sched
