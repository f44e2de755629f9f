import Sylar.Ledger
import Sylar.Scheduler.Machine

/-!
# The scheduler keeps the ledger

A worker's local `task` is empty up to the scan and after `task.reset()`, and full while the task is handled
(`Worker.Ok`, `ok_reach`). With that every step of the scheduler is at most one operation of the ledger (`toLedger`):
`scheduleLock` accepts, a scan that takes something fetches, `task.reset()` after the handling finishes.

- `tasks_conserved`: the tasks passed to `scheduleLock` are those queued, those held and those finished, each once;
- `fifo`: a task is fetched before every later one that only its takers could take.
-/

namespace Sylar.Sched

open Trans

variable {W E F C : Type} [DecidableEq W] [DecidableEq E] {cfg : Config W E}

/-- Where `run()` has a task, and where it has none. -/
def Worker.Ok (x : Worker F C) : Prop :=
  match x.pc with
  | .tickle | .dispatch => True
  | .exec | .decr | .reset => x.task ≠ none
  | _ => x.task = none

/-- A property of all workers after one of them has moved. -/
theorem update_all {p : Worker F C → Prop} {g : W → Worker F C} (h : ∀ w, p (g w)) (w : W) {x : Worker F C} (hx : p x) :
    ∀ v, p (Function.update g w x v) := by
  intro v
  rcases eq_or_ne v w with rfl | hv
  · rw [Function.update_self]; exact hx
  · rw [Function.update_of_ne hv]; exact h v

/-- A step of a worker keeps the position of its task. -/
theorem ok_next {s : State W E F C} {a : Act W E F C} (hok : ∀ w, (s.worker w).Ok) (hg : guard cfg s a) :
    ∀ w, ((next cfg s a).worker w).Ok := by
  cases a with
  | scheduleLock t fc thr => simp only [next, State.push]; split <;> exact hok
  | wakeUp t => exact hok
  | start e =>
    intro w
    have hw := hok w
    simp only [next]
    split_ifs with h₁ h₂
    · exact hw
    · exact hw
    · dsimp only
      split_ifs with h₃
      · simpa [Worker.Ok, h₃.2] using hw
      · exact hw
  | enter w => exact update_all hok w (by simpa [Worker.Ok, show _ = _ from hg] using hok w)
  | top w => exact update_all hok w rfl
  | scan w =>
    simp only [next]
    split
    · exact update_all hok w trivial
    · split_ifs
      · exact update_all hok w trivial
      · exact hok
  | tickle w => exact update_all hok w trivial
  | dispatch w =>
    simp only [next]
    split
    · rename_i e he
      exact update_all hok w (by simp [Worker.Ok, he])
    · rename_i he
      split_ifs
      · exact update_all hok w (by simp [Worker.Ok, he])
      · exact update_all hok w (by simp [Worker.Ok, he])
  | finish w => exact update_all hok w (by simpa [Worker.Ok, hg.1] using hok w)
  | decr w => exact update_all hok w (by simpa [Worker.Ok, show _ = _ from hg] using hok w)
  | reset w => exact update_all hok w rfl
  | idleInc w => exact update_all hok w (by simpa [Worker.Ok, show _ = _ from hg] using hok w)
  | idleTest w => exact update_all hok w (by simpa [Worker.Ok, hg.2.1] using hok w)
  | idleSleep w =>
    simp only [next]
    split_ifs <;> exact update_all hok w (by simpa [Worker.Ok, hg.2.1] using hok w)
  | idleYield w => exact update_all hok w (by simpa [Worker.Ok, hg.2.1] using hok w)
  | idleOut w => exact update_all hok w (by simpa [Worker.Ok, hg.2.1] using hok w)
  | idleEnd w => exact update_all hok w (by simpa [Worker.Ok, hg.2.1] using hok w)
  | idleMoved w pos => exact update_all hok w (hok w)
  | idleTake w k ends => exact update_all hok w (by simpa [Worker.Ok, hg.2.1] using hok w)
  | idleDec w => exact update_all hok w (by simpa [Worker.Ok, show _ = _ from hg] using hok w)
  | stopCall e => exact hok
  | stopCheck e => simp only [next]; split_ifs <;> exact hok
  | stopSet e => exact hok
  | stopAssert e => simp only [next]; split_ifs <;> exact hok
  | stopTickle e => exact hok
  | stopResume e =>
    simp only [next]
    split
    · exact hok
    · rename_i w _
      split_ifs with hw
      · exact update_all hok w (by simpa [Worker.Ok, hw] using hok w)
      · exact hok
  | stopBack e => exact hok
  | stopSwap e => exact hok
  | stopJoin e => simp only [next]; split <;> exact hok
  | stopEnd e => exact hok

theorem ok_reach {P : State W E F C → Act W E F C → Prop} {s : State W E F C} (h : (system F C cfg).Reach P s) :
    ∀ w, (s.worker w).Ok := by
  induction h using System.Reach.induct with
  | start s hs => subst hs; exact fun _ => rfl
  | step s a _ hg _ ih => exact ok_next ih hg.2

/-- The worker has not entered its loop. -/
def Worker.Outside (x : Worker F C) : Prop := x.pc = .unborn ∨ x.pc = .start

/-- Nobody comes back to where it has not entered its loop. -/
theorem outside_next {s : State W E F C} {a : Act W E F C} (hg : guard cfg s a) {v : W}
    (hv : ((next cfg s a).worker v).Outside) : (s.worker v).Outside := by
  have hset : ∀ w (x : Worker F C), (x.Outside → (s.worker w).Outside) → (Function.update s.worker w x v).Outside →
      (s.worker v).Outside := by
    intro w x hx hv
    rcases eq_or_ne v w with rfl | hne
    · rw [Function.update_self] at hv
      exact hx hv
    · rwa [Function.update_of_ne hne] at hv
  cases a with
  | scheduleLock t fc thr =>
    simp only [next, State.push] at hv
    split at hv <;> exact hv
  | start e =>
    simp only [next] at hv
    split_ifs at hv
    · exact hv
    · exact hv
    · dsimp only at hv
      split_ifs at hv with hu
      · exact Or.inl hu.2
      · exact hv
  | scan w =>
    simp only [next] at hv
    split at hv
    · exact hset w _ (fun hx => by simp [Worker.Outside] at hx) hv
    · split_ifs at hv
      · exact hset w _ (fun hx => by simp [Worker.Outside] at hx) hv
      · exact hv
  | dispatch w =>
    simp only [next] at hv
    split at hv
    · exact hset w _ (fun hx => by simp [Worker.Outside] at hx) hv
    · split_ifs at hv
      · exact hset w _ (fun hx => by simp [Worker.Outside] at hx) hv
      · exact hset w _ (fun hx => by simp [Worker.Outside] at hx) hv
  | idleSleep w =>
    simp only [next] at hv
    split_ifs at hv
    · exact hset w _ (fun hx => by simp [Worker.Outside] at hx) hv
    · exact hset w _ (fun hx => by exact hx) hv
  | enter w | top w | tickle w | finish w | decr w | reset w | idleInc w | idleYield w | idleEnd w | idleTake w k ends
    | idleDec w => exact hset w _ (fun hx => by simp [Worker.Outside] at hx) hv
  | idleTest w | idleOut w | idleMoved w pos => exact hset w _ (fun hx => by exact hx) hv
  | stopResume e =>
    simp only [next] at hv
    split at hv
    · exact hv
    · rename_i w _
      split_ifs at hv with hu
      · exact hset w _ (fun _ => Or.inl hu) hv
      · exact hv
  | stopCheck e | stopAssert e => simp only [next] at hv; split_ifs at hv <;> exact hv
  | stopJoin e => simp only [next] at hv; split at hv <;> exact hv
  | wakeUp t | stopCall e | stopSet e | stopTickle e | stopBack e | stopSwap e | stopEnd e => exact hv

/-! ## The simulation -/

/-- The ledger of a state. -/
def ledger (s : State W E F C) : Ledger W F C where
  queue := s.mTasks
  held w := (s.worker w).task
  accepted := s.accepted
  fetched := s.fetched
  finished := s.finished

/-- The ledger's operation that a step amounts to, if any. -/
def ledgerOps (cfg : Config W E) (s : State W E F C) : Act W E F C → List (Ledger.Op W F C)
  | .scheduleLock _ fc thr => if (ScheduleTask.make fc thr).nonEmpty then [.accept (.make fc thr)] else []
  | .scan w =>
    match (scan (cfg.tid w) s.mTasks).task with
    | none => []
    | some e => if e.task.nonEmpty then [.fetch w] else []
  | .reset w => [.finish w]
  | _ => []

omit [DecidableEq E] in
theorem held_update (g : W → Worker F C) (w : W) (x : Worker F C) :
    (fun v => (Function.update g w x v).task) = Function.update (fun v => (g v).task) w x.task := by
  funext v
  rcases eq_or_ne v w with rfl | hv
  · simp
  · simp [Function.update_of_ne hv]

omit [DecidableEq E] in
/-- A worker's move that keeps its task keeps the ledger. -/
theorem ledger_setWorker {s : State W E F C} {w : W} {x : Worker F C} (h : x.task = (s.worker w).task) :
    ledger (s.setWorker w x) = ledger s := by
  simp only [ledger, State.setWorker, held_update]
  rw [h, Function.update_eq_self]

/-- The steps that the ledger does not see. -/
theorem ledger_quiet {s : State W E F C} {a : Act W E F C} (hok : ∀ w, (s.worker w).Ok) (hg : guard cfg s a)
    (ha : ledgerOps cfg s a = []) : ledger (next cfg s a) = ledger s := by
  cases a with
  | scheduleLock t fc thr =>
    simp only [ledgerOps] at ha
    split_ifs at ha with hne
    simp only [next, State.push, if_neg hne]
    rfl
  | scan w =>
    have hw := hok w
    simp only [Worker.Ok, show (s.worker w).pc = .scan from hg] at hw
    simp only [next]
    split
    · rename_i he
      exact ledger_setWorker (by rw [hw]; exact he)
    · rename_i e he
      simp only [ledgerOps, he] at ha
      split_ifs at ha with hne
      rw [if_neg hne]
      rfl
  | top w =>
    have hw := hok w
    simp only [Worker.Ok, show (s.worker w).pc = .top from hg] at hw
    exact ledger_setWorker hw.symm
  | start e =>
    simp only [next]
    split_ifs
    · rfl
    · rfl
    · simp only [ledger]
      congr 1
      funext w
      split_ifs <;> rfl
  | dispatch w =>
    simp only [next]
    split
    · exact ledger_setWorker rfl
    · split_ifs <;> exact ledger_setWorker rfl
  | idleSleep w => simp only [next]; split_ifs <;> exact ledger_setWorker rfl
  | stopCheck e => simp only [next]; split_ifs <;> rfl
  | stopAssert e => simp only [next]; split_ifs <;> rfl
  | stopResume e =>
    simp only [next]
    split
    · rfl
    · split_ifs
      · exact ledger_setWorker (s := s) rfl
      · rfl
  | stopJoin e => simp only [next]; split <;> rfl
  | reset w => cases ha
  | enter w | tickle w | finish w | decr w | idleInc w | idleTest w | idleYield w | idleOut w | idleEnd w
    | idleMoved w pos | idleTake w k ends | idleDec w => exact ledger_setWorker (s := s) rfl
  | wakeUp t | stopCall e | stopSet e | stopTickle e | stopBack e | stopSwap e | stopEnd e => rfl

/-- The steps that the ledger sees, each as one of its operations. -/
theorem ledger_op {s : State W E F C} {a : Act W E F C} (hok : ∀ w, (s.worker w).Ok) (hg : guard cfg s a)
    {op : Ledger.Op W F C} (ha : ledgerOps cfg s a = [op]) :
    Ledger.guard cfg.tid (ledger s) op ∧ ledger (next cfg s a) = Ledger.next cfg.tid (ledger s) op := by
  cases a with
  | scheduleLock t fc thr =>
    simp only [ledgerOps] at ha
    split_ifs at ha with hne
    cases ha
    refine ⟨hne, ?_⟩
    simp only [next, State.push, if_pos hne]
    rfl
  | scan w =>
    have hw := hok w
    simp only [Worker.Ok, show (s.worker w).pc = .scan from hg] at hw
    cases he : (scan (cfg.tid w) s.mTasks).task with
    | none => simp [ledgerOps, he] at ha
    | some e =>
      simp only [ledgerOps, he] at ha
      split_ifs at ha with hne
      cases ha
      refine ⟨⟨hw, by simp [ledger, he]⟩, ?_⟩
      simp only [next, he, if_pos hne]
      simp only [ledger, Ledger.next, State.setWorker, held_update, he, Option.toList_some]
  | reset w =>
    have hw := hok w
    simp only [Worker.Ok, show (s.worker w).pc = .reset from hg] at hw
    cases ha
    refine ⟨hw, ?_⟩
    simp only [next, ledger, Ledger.next, State.setWorker, held_update]
  | _ => cases ha

omit [DecidableEq W] [DecidableEq E] in
/-- No step is more than one operation. -/
theorem ledgerOps_cases (cfg : Config W E) (s : State W E F C) (a : Act W E F C) :
    ledgerOps cfg s a = [] ∨ ∃ op, ledgerOps cfg s a = [op] := by
  cases a with
  | scheduleLock t fc thr => simp only [ledgerOps]; split_ifs <;> simp
  | scan w =>
    simp only [ledgerOps]
    split
    · exact Or.inl rfl
    · split_ifs <;> simp
  | reset w => exact Or.inr ⟨_, rfl⟩
  | _ => exact Or.inl rfl

/-- **The scheduler refines the ledger.** -/
def toLedger (F C : Type) (P : State W E F C → Act W E F C → Prop) (cfg : Config W E) :
    Simulation (system F C cfg) P (Ledger.system F C cfg.tid) Always where
  abs := ledger
  acts := ledgerOps cfg
  init s hs := by
    have hs : s = initial W E F C := hs
    subst hs
    rfl
  step s a hr hg _ := by
    rcases ledgerOps_cases cfg s a with ha | ⟨op, ha⟩
    · rw [ha, show ledger ((system F C cfg).next s a) = ledger s from ledger_quiet (ok_reach hr) hg.2 ha]
      exact .nil _
    · obtain ⟨hop, he⟩ := ledger_op (ok_reach hr) hg.2 ha
      rw [ha, show ledger ((system F C cfg).next s a) = _ from he]
      exact .cons hop trivial (.nil _)

/-! ## Conservation -/

/-- The non-empty tasks that the calls of `scheduleLock` in a run have passed. -/
def submitted (as : List (Act W E F C)) : List (ScheduleTask F C) :=
  as.filterMap fun
    | .scheduleLock _ fc thr => if (ScheduleTask.make fc thr).nonEmpty then some (.make fc thr) else none
    | _ => none

theorem accepted_next (s : State W E F C) (a : Act W E F C) :
    (next cfg s a).accepted.map Entry.task = s.accepted.map Entry.task ++ submitted [a] := by
  cases a with
  | scheduleLock t fc thr =>
    simp only [next, State.push, submitted, List.filterMap_cons, List.filterMap_nil]
    split_ifs <;> simp
  | _ =>
    simp only [next, submitted, List.filterMap_cons, List.filterMap_nil, List.append_nil]
    repeat' split
    all_goals rfl

theorem accepted_steps {P : State W E F C → Act W E F C → Prop} {s t : State W E F C} {as : List (Act W E F C)}
    (h : (system F C cfg).Steps P s as t) : t.accepted.map Entry.task = s.accepted.map Entry.task ++ submitted as := by
  induction h with
  | nil s => simp [submitted]
  | @cons s t a as _ _ _ ih =>
    rw [ih, show ((system F C cfg).next s a).accepted.map Entry.task = _ from accepted_next s a, List.append_assoc]
    simp only [submitted, ← List.filterMap_append, List.singleton_append]

/-- The assertion on the fetched task fails at an empty task only. -/
theorem aborted_next {s : State W E F C} {a : Act W E F C} (hne : ∀ e ∈ s.mTasks, e.task.nonEmpty = true)
    (hs : s.aborted = none) : (next cfg s a).aborted ≠ some .nonEmptyTask := by
  cases a with
  | scan w =>
    simp only [next]
    split
    · simp [hs]
    · rename_i e he
      obtain ⟨l₁, l₂, hq, _⟩ := scan_some he
      rw [if_pos (hne e (by rw [hq]; simp))]
      simp [hs]
  | _ =>
    simp only [next, State.push]
    repeat' split
    all_goals simp [hs]

theorem aborted_reach {s : State W E F C} (h : (system F C cfg).Reach Always s) : s.aborted ≠ some .nonEmptyTask := by
  induction h using System.Reach.induct with
  | start s hs =>
    have hs : s = initial W E F C := hs
    subst hs
    simp [initial]
  | step s a hr hg _ _ => exact aborted_next (Ledger.nonEmpty_queue ((toLedger F C Always cfg).reach hr)) hg.1

/-- **No task is lost or handled twice.** At the end of any run the non-empty tasks that were passed to `scheduleLock`
are those in `m_tasks`, those that the workers hold, and those that they have finished; none in `m_tasks` is empty, so
the assertion of the scan has not failed; and a pinned task is held by its thread. -/
theorem tasks_conserved [Fintype W] (cfg : Config W E) {as : List (Act W E F C)} {s : State W E F C}
    (h : (system F C cfg).Steps Always (initial W E F C) as s) :
    (submitted as : Multiset (ScheduleTask F C)) =
        (s.mTasks + ∑ w, Ledger.inHand (s.worker w).task + s.finished : Multiset (Entry F C)).map Entry.task ∧
      (∀ e ∈ s.mTasks, e.task.nonEmpty = true) ∧ s.aborted ≠ some .nonEmptyTask ∧
      ∀ w, ∀ e ∈ (s.worker w).task, e.task.thread ≠ -1 → e.task.thread = cfg.tid w := by
  have hr : (system F C cfg).Reach Always s := ⟨_, as, rfl, h⟩
  have hl := (toLedger F C Always cfg).reach hr
  refine ⟨?_, Ledger.nonEmpty_queue hl, aborted_reach hr,
    fun w e he hne => (Ledger.pinned_held hl w e he).resolve_left hne⟩
  have hsub : s.accepted.map Entry.task = submitted as := accepted_steps h
  rw [← hsub, ← Multiset.map_coe]
  exact congrArg (Multiset.map Entry.task) (Ledger.account hl)

/-- Threads `a` and `b` and a task on worker `w` schedule three tasks, one of them pinned, and an empty one: worker `w`
has finished a task, worker `v` holds one and one is queued. -/
def duoRun (w v : Fin 2) (e a b : Fin 3) : List (Act (Fin 2) (Fin 3) Nat Nat) :=
  [.scheduleLock (.inr a) (.fiber (some 7)) (-1), .wakeUp (.inr a), .scheduleLock (.inr b) (.callbackPtr (some 3)) 11,
    .scheduleLock (.inr a) (.fiber none) (-1), .start e, .enter w, .top w, .scan w, .tickle w, .dispatch w,
    .scheduleLock (.inl w) (.fiberPtr (some 7)) 10, .wakeUp (.inl w), .finish w, .decr w, .reset w, .enter v, .top v,
    .scan v]

theorem tasks_conserved_duo : ∃ s : State (Fin 2) (Fin 3) Nat Nat,
    (s.mTasks.length, (s.worker 1).task.isSome, s.finished.length, (submitted (duoRun 0 1 0 1 2)).length) =
      (1, true, 1, 3) ∧
      (submitted (duoRun 0 1 0 1 2) : Multiset (ScheduleTask Nat Nat)) =
        (s.mTasks + ∑ w, Ledger.inHand (s.worker w).task + s.finished : Multiset (Entry Nat Nat)).map Entry.task := by
  have h : (System.exec (system Nat Nat (duo .plain)) Always (initial _ _ _ _)
      (duoRun 0 1 0 1 2)).isSome = true := by
    decide
  exact ⟨_, rfl, (tasks_conserved (duo .plain) (System.steps_exec h)).1⟩

/-! ## Order -/

/-- **First in, first out.** Tasks are numbered in the order of acceptance. No worker's scan takes a task while an
earlier one that all its takers may take is queued, and the fetches so far happened in that order. -/
theorem fifo (cfg : Config W E) {s : State W E F C} (h : (system F C cfg).Reach Always s) :
    s.accepted.map Entry.seq = List.range s.accepted.length ∧
      (∀ w b, (scan (cfg.tid w) s.mTasks).task = some b → ∀ a ∈ s.mTasks, a.seq < b.seq → ¬a.Covers b) ∧
      ∀ l₁ b l₂, s.fetched = l₁ ++ b :: l₂ → ∀ a ∈ s.accepted, a.seq < b.seq → a.Covers b → a ∈ l₁ := by
  have hl := (toLedger F C Always cfg).reach h
  have hord := Ledger.ordered_reach hl
  exact ⟨hord.numbered, fun w b hb a ha hlt => Ledger.fetch_first hord hb ha hlt, Ledger.fetched_in_order hl⟩

theorem fifo_duo : ∃ s : State (Fin 2) (Fin 3) Nat Nat, s.fetched.map Entry.seq = [0, 1] ∧
    ∀ l₁ b l₂, s.fetched = l₁ ++ b :: l₂ → ∀ a ∈ s.accepted, a.seq < b.seq → a.Covers b → a ∈ l₁ := by
  have h : (System.exec (system Nat Nat (duo .plain)) Always (initial _ _ _ _)
      (duoRun 0 1 0 1 2)).isSome = true := by
    decide
  exact ⟨_, rfl, (fifo (duo .plain) (System.reach_exec rfl h)).2.2⟩

end Sylar.Sched
