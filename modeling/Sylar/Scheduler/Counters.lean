import Sylar.Lib.Counting
import Sylar.Scheduler.Tasks

/-!
# What `m_activeThreadCnt` and `m_idleThreadCnt` count

A worker is counted as active from the section in which it fetches a task up to the decrement after the handling
(`Worker.busy`), and as idle from the increment before `idle_fiber->resume()` up to the decrement behind it
(`Worker.idling`). The counters are the numbers of these workers in every reachable state.

- `active_next`, `idle_next`: the step lemmas; `active_eq_count`, `idle_eq_count`: the run lemmas;
- `active_pos`: `m_activeThreadCnt` is positive while a task runs;
- `Exact`, `exact_reach`: the two together, with what follows from them;
- `hasIdleThreads_iff`: when `hasIdleThreads()`, which reads `m_activeThreadCnt`, tells the truth.
-/

namespace Sylar.Sched

open Trans

variable {W E F C : Type} [DecidableEq W] [DecidableEq E] {cfg : Config W E}

/-- The worker has fetched a task and not yet decremented `m_activeThreadCnt`. -/
def Worker.busy (x : Worker F C) : Bool :=
  match x.pc with
  | .reset => false
  | _ => x.task.isSome

theorem Worker.Ok.busy_eq_false {x : Worker F C} (h : x.Ok) (hpc : x.pc = .start ∨ x.pc = .top ∨ x.pc = .scan) :
    x.busy = false := by
  rcases hpc with hpc | hpc | hpc <;> simp_all [Worker.Ok, Worker.busy]

theorem Worker.Ok.busy_of_exec {x : Worker F C} (h : x.Ok) (hpc : x.pc = .exec ∨ x.pc = .decr) : x.busy = true := by
  rcases hpc with hpc | hpc <;> simp_all [Worker.Ok, Worker.busy, Option.isSome_iff_ne_none]

variable [Fintype W]

omit [DecidableEq E] in
/-- A worker's move that neither begins nor ends its being counted. -/
theorem count_setWorker {s : State W E F C} {w : W} {x : Worker F C} (h : x.busy = (s.worker w).busy) :
    Counting.count Worker.busy (s.setWorker w x).worker = Counting.count Worker.busy s.worker :=
  Counting.sum_update_same (fun y : Worker F C => y.busy.toNat) s.worker (by rw [h])

theorem active_next {s : State W E F C} {a : Act W E F C} (hok : ∀ w, (s.worker w).Ok) (hg : guard cfg s a)
    (hs : s.mActiveThreadCnt = Counting.count Worker.busy s.worker) :
    (next cfg s a).mActiveThreadCnt = Counting.count Worker.busy (next cfg s a).worker := by
  cases a with
  | scheduleLock t fc thr => simp only [next, State.push]; split_ifs <;> exact hs
  | start e =>
    simp only [next]
    split_ifs with h₁ h₂
    · exact hs
    · exact hs
    · rw [hs]
      refine Finset.sum_congr rfl (fun w _ => ?_)
      dsimp only
      split_ifs with hw
      · simp [Worker.busy, hw.2]
      · rfl
  | scan w =>
    have hpc : (s.worker w).pc = .scan := hg
    have hfree := (hok w).busy_eq_false (Or.inr (Or.inr hpc))
    simp only [next]
    split
    · rename_i he
      exact hs.trans (count_setWorker (by rw [hfree]; simp [Worker.busy, he])).symm
    · rename_i e he
      split_ifs
      · -- the fetch: one more worker is counted
        have hc := Counting.count_update Worker.busy s.worker w
          { s.worker w with pc := .tickle, task := some e, tickleMe := (scan (cfg.tid w) s.mTasks).tickleMe }
        rw [hfree] at hc
        simp only [State.setWorker, he, hs]
        simpa [Worker.busy] using hc.symm
      · exact hs
  | decr w =>
    have hpc : (s.worker w).pc = .decr := hg
    have hc := Counting.count_update Worker.busy s.worker w { s.worker w with pc := .reset }
    rw [(hok w).busy_of_exec (Or.inr hpc)] at hc
    change _ + 1 = _ + 0 at hc
    change s.mActiveThreadCnt - 1 = Counting.count Worker.busy (Function.update s.worker w _)
    omega
  | top w =>
    refine hs.trans (count_setWorker ?_).symm
    rw [(hok w).busy_eq_false (Or.inr (Or.inl hg))]
    rfl
  | reset w =>
    refine hs.trans (count_setWorker (s := s) ?_).symm
    simp [Worker.busy, show (s.worker w).pc = .reset from hg]
  | dispatch w =>
    have hpc : (s.worker w).pc = .dispatch := hg
    simp only [next]
    split
    · exact hs.trans (count_setWorker (s := s) (by simp [Worker.busy, hpc])).symm
    · split_ifs <;> exact hs.trans (count_setWorker (s := s) (by simp [Worker.busy, hpc])).symm
  | idleSleep w =>
    simp only [next]
    split_ifs <;> exact hs.trans (count_setWorker (s := s) (by simp [Worker.busy, hg.2.1])).symm
  | stopResume e =>
    simp only [next]
    split
    · exact hs
    · split_ifs with hw
      · exact hs.trans (count_setWorker (s := s) (by simp [Worker.busy, hw])).symm
      · exact hs
  | finish w => exact hs.trans (count_setWorker (s := s) (by simp [Worker.busy, hg.1])).symm
  | enter w | tickle w | idleInc w | idleDec w =>
    exact hs.trans (count_setWorker (s := s) (by simp [Worker.busy, show (s.worker _).pc = _ from hg])).symm
  | idleMoved w pos => exact hs.trans (count_setWorker (x := { s.worker w with idlePos := pos }) rfl).symm
  | idleTest w | idleYield w | idleOut w | idleEnd w | idleTake w k ends =>
    exact hs.trans (count_setWorker (s := s) (by simp [Worker.busy, hg.2.1])).symm
  | stopCheck e => simp only [next]; split_ifs <;> exact hs
  | stopAssert e => simp only [next]; split_ifs <;> exact hs
  | stopJoin e => simp only [next]; split <;> exact hs
  | wakeUp t | stopCall e | stopSet e | stopTickle e | stopBack e | stopSwap e | stopEnd e => exact hs

/-- **`m_activeThreadCnt` is the number of workers with a task.** -/
theorem active_eq_count {P : State W E F C → Act W E F C → Prop} {s : State W E F C} (h : (system F C cfg).Reach P s) :
    s.mActiveThreadCnt = Counting.count Worker.busy s.worker := by
  induction h using System.Reach.induct with
  | start s hs =>
    have hs : s = initial W E F C := hs
    subst hs
    simp [initial, Counting.count, Worker.busy]
  | step s a hr hg _ ih => exact active_next (ok_reach hr) hg.2 ih

/-- While a worker handles a task, `m_activeThreadCnt` is positive. -/
theorem active_pos {P : State W E F C → Act W E F C → Prop} {s : State W E F C} (h : (system F C cfg).Reach P s) {w : W}
    (hw : (s.worker w).pc = .exec) : 0 < s.mActiveThreadCnt := by
  rw [active_eq_count h]
  exact Counting.count_pos ((ok_reach h w).busy_of_exec (Or.inl hw))

omit [Fintype W] in
/-- A queued task stays queued until a worker has fetched it. -/
theorem queued_next (cfg : Config W E) {s : State W E F C} (a : Act W E F C) {e : Entry F C} (he : e ∈ s.mTasks) :
    e ∈ (next cfg s a).mTasks ∨ ∃ w, (a = .scan w ∧ e.skipped (cfg.tid w) = false) ∧
      ((next cfg s a).worker w).busy = true ∧ ((next cfg s a).worker w).task = some e := by
  cases a with
  | scheduleLock t fc thr =>
    left
    simp only [next, State.push]
    split_ifs
    · exact List.mem_append_left _ he
    · exact he
  | scan w =>
    simp only [next]
    split
    · exact Or.inl he
    · rename_i b hb
      obtain ⟨l₁, l₂, hl, -, htakes, hr⟩ := scan_some hb
      split_ifs
      · rcases eq_or_ne e b with rfl | hne
        · exact Or.inr ⟨w, ⟨rfl, htakes⟩, by simp [Worker.busy, hb], by simp [hb]⟩
        · left
          rw [hl] at he
          dsimp only
          rw [hr]
          rcases List.mem_append.1 he with he | he
          · exact List.mem_append_left _ he
          · exact List.mem_append_right _ (List.mem_of_ne_of_mem hne he)
      · exact Or.inl he
  | _ =>
    left
    simp only [next]
    repeat' split
    all_goals exact he

/-! ## Idle workers -/

/-- The worker has incremented `m_idleThreadCnt` and not yet decremented it: it is inside its idle fiber. -/
def Worker.idling (x : Worker F C) : Bool :=
  match x.pc with
  | .idle | .idleDec => true
  | _ => false

omit [DecidableEq E] in
/-- A worker's move that neither enters nor leaves the idle fiber. -/
theorem idling_setWorker {s : State W E F C} {w : W} {x : Worker F C} (h : x.idling = (s.worker w).idling) :
    Counting.count Worker.idling (s.setWorker w x).worker = Counting.count Worker.idling s.worker :=
  Counting.sum_update_same (fun y : Worker F C => y.idling.toNat) s.worker (by rw [h])

theorem idle_next {s : State W E F C} {a : Act W E F C} (hg : guard cfg s a)
    (hs : s.mIdleThreadCnt = Counting.count Worker.idling s.worker) :
    (next cfg s a).mIdleThreadCnt = Counting.count Worker.idling (next cfg s a).worker := by
  cases a with
  | scheduleLock t fc thr => simp only [next, State.push]; split_ifs <;> exact hs
  | start e =>
    simp only [next]
    split_ifs with h₁ h₂
    · exact hs
    · exact hs
    · rw [hs]
      refine Finset.sum_congr rfl (fun w _ => ?_)
      dsimp only
      split_ifs with hw
      · simp [Worker.idling, hw.2]
      · rfl
  | idleInc w =>
    have hpc : (s.worker w).pc = .idleInc := hg
    have hc := Counting.count_update Worker.idling s.worker w { s.worker w with pc := .idle }
    rw [show (s.worker w).idling = false by simp [Worker.idling, hpc]] at hc
    change _ + 0 = _ + 1 at hc
    change s.mIdleThreadCnt + 1 = Counting.count Worker.idling (Function.update s.worker w _)
    omega
  | idleDec w =>
    have hpc : (s.worker w).pc = .idleDec := hg
    have hc := Counting.count_update Worker.idling s.worker w { s.worker w with pc := .top }
    rw [show (s.worker w).idling = true by simp [Worker.idling, hpc]] at hc
    change _ + 1 = _ + 0 at hc
    change s.mIdleThreadCnt - 1 = Counting.count Worker.idling (Function.update s.worker w _)
    omega
  | scan w =>
    have hpc : (s.worker w).pc = .scan := hg
    simp only [next]
    split
    · exact hs.trans (idling_setWorker (s := s) (by simp [Worker.idling, hpc])).symm
    · split_ifs
      · exact hs.trans (idling_setWorker (s := s) (by simp [Worker.idling, hpc])).symm
      · exact hs
  | dispatch w =>
    have hpc : (s.worker w).pc = .dispatch := hg
    simp only [next]
    split
    · exact hs.trans (idling_setWorker (s := s) (by simp [Worker.idling, hpc])).symm
    · split_ifs <;> exact hs.trans (idling_setWorker (s := s) (by simp [Worker.idling, hpc])).symm
  | idleSleep w =>
    simp only [next]
    split_ifs <;> exact hs.trans (idling_setWorker (s := s) (by simp [Worker.idling, hg.2.1])).symm
  | stopResume e =>
    simp only [next]
    split
    · exact hs
    · split_ifs with hw
      · exact hs.trans (idling_setWorker (s := s) (by simp [Worker.idling, hw])).symm
      · exact hs
  | finish w => exact hs.trans (idling_setWorker (s := s) (by simp [Worker.idling, hg.1])).symm
  | enter w | top w | tickle w | decr w | reset w =>
    exact hs.trans (idling_setWorker (s := s) (by simp [Worker.idling, show (s.worker _).pc = _ from hg])).symm
  | idleMoved w pos => exact hs.trans (idling_setWorker (x := { s.worker w with idlePos := pos }) rfl).symm
  | idleTest w | idleOut w | idleYield w | idleEnd w | idleTake w k ends =>
    exact hs.trans (idling_setWorker (s := s) (by simp [Worker.idling, hg.2.1])).symm
  | stopCheck e => simp only [next]; split_ifs <;> exact hs
  | stopAssert e => simp only [next]; split_ifs <;> exact hs
  | stopJoin e => simp only [next]; split <;> exact hs
  | wakeUp t | stopCall e | stopSet e | stopTickle e | stopBack e | stopSwap e | stopEnd e => exact hs

/-- **`m_idleThreadCnt` is the number of workers inside their idle fibers.** -/
theorem idle_eq_count {P : State W E F C → Act W E F C → Prop} {s : State W E F C} (h : (system F C cfg).Reach P s) :
    s.mIdleThreadCnt = Counting.count Worker.idling s.worker := by
  induction h using System.Reach.induct with
  | start s hs =>
    have hs : s = initial W E F C := hs
    subst hs
    simp [initial, Counting.count, Worker.idling]
  | step s a _ hg _ ih => exact idle_next hg.2 ih

/-! ## Both counters -/

/-- **The counters are exact**: each is the number of the workers that it counts. -/
structure Exact (s : State W E F C) : Prop where
  ok : ∀ w, (s.worker w).Ok
  active : s.mActiveThreadCnt = Counting.count Worker.busy s.worker
  idle : s.mIdleThreadCnt = Counting.count Worker.idling s.worker

theorem Exact.next {s : State W E F C} (h : Exact s) {a : Act W E F C} (hg : guard cfg s a) :
    Exact (Sched.next cfg s a) := ⟨ok_next h.ok hg, active_next h.ok hg h.active, idle_next hg h.idle⟩

omit [DecidableEq W] [DecidableEq E] in
/-- A step that changes neither the counters nor whom they count. -/
theorem Exact.same {s s' : State W E F C} (h : Exact s) (hcnt : s'.mActiveThreadCnt = s.mActiveThreadCnt)
    (hidle : s'.mIdleThreadCnt = s.mIdleThreadCnt) (hw : ∀ w, ((s.worker w).Ok → (s'.worker w).Ok) ∧
      (s'.worker w).busy = (s.worker w).busy ∧ (s'.worker w).idling = (s.worker w).idling) : Exact s' := by
  refine ⟨fun w => (hw w).1 (h.ok w), ?_, ?_⟩
  · rw [hcnt, h.active]
    exact Finset.sum_congr rfl fun w _ => by rw [(hw w).2.1]
  · rw [hidle, h.idle]
    exact Finset.sum_congr rfl fun w _ => by rw [(hw w).2.2]

omit [DecidableEq W] [DecidableEq E] in
/-- Nobody is counted twice. -/
theorem Exact.apart {s : State W E F C} (h : Exact s) {w : W} (hb : (s.worker w).busy = true) :
    (s.worker w).idling = false := by
  have hok := h.ok w
  unfold Worker.Ok at hok
  unfold Worker.busy at hb
  unfold Worker.idling
  cases hpc : (s.worker w).pc <;> simp_all

omit [DecidableEq W] [DecidableEq E] in
theorem Exact.sum_le {s : State W E F C} (h : Exact s) :
    s.mActiveThreadCnt + s.mIdleThreadCnt ≤ Fintype.card W := by
  rw [h.active, h.idle]
  exact Counting.count_add_le fun _ hb => h.apart hb

omit [DecidableEq W] [DecidableEq E] in
/-- No decrement happens at zero. -/
theorem Exact.decr_pos {s : State W E F C} (h : Exact s) {w : W} :
    ((s.worker w).pc = .decr → 0 < s.mActiveThreadCnt) ∧ ((s.worker w).pc = .idleDec → 0 < s.mIdleThreadCnt) := by
  constructor
  · intro hpc
    rw [h.active]
    exact Counting.count_pos ((h.ok w).busy_of_exec (Or.inr hpc))
  · intro hpc
    rw [h.idle]
    exact Counting.count_pos (i := w) (by simp [Worker.idling, hpc])

/-- **In every run of the scheduler**, whichever `idle()` it has. -/
theorem exact_reach {P : State W E F C → Act W E F C → Prop} {s : State W E F C} (h : (system F C cfg).Reach P s) :
    Exact s := ⟨ok_reach h, active_eq_count h, idle_eq_count h⟩

omit [DecidableEq W] in
/-- A count is positive exactly if somebody is counted. -/
theorem count_pos_iff {p : Worker F C → Bool} {g : W → Worker F C} :
    0 < Counting.count p g ↔ ∃ w, p (g w) = true :=
  ⟨Counting.exists_of_count_pos, fun ⟨_, hw⟩ => Counting.count_pos hw⟩

/-- **When `hasIdleThreads()` tells the truth**: in the states in which some worker holds a task exactly if some worker
is inside its idle fiber. What the function is to report is whether `m_idleThreadCnt` is positive. -/
theorem hasIdleThreads_iff (cfg : Config W E) {s : State W E F C} (h : (system F C cfg).Reach Always s) :
    ((s.hasIdleThreads = true ↔ ∃ w, (s.worker w).idling = true) ↔
      ((∃ w, (s.worker w).busy = true) ↔ ∃ w, (s.worker w).idling = true)) ∧
    (0 < s.mIdleThreadCnt ↔ ∃ w, (s.worker w).idling = true) := by
  have hactive : s.hasIdleThreads = true ↔ ∃ w, (s.worker w).busy = true := by
    rw [State.hasIdleThreads, decide_eq_true_iff, active_eq_count h]
    exact count_pos_iff
  refine ⟨by rw [hactive], ?_⟩
  rw [idle_eq_count h]
  exact count_pos_iff

/-- Worker `w` enters its idle fiber. -/
def restRun (w : Fin 2) (e : Fin 3) : List (Act (Fin 2) (Fin 3) Nat Nat) :=
  [.start e, .enter w, .top w, .scan w, .tickle w, .dispatch w, .idleInc w]

/-- Worker `w` fetches a task, while the other one has not begun. -/
def fetchRun (w : Fin 2) (e a : Fin 3) : List (Act (Fin 2) (Fin 3) Nat Nat) :=
  [.start e, .scheduleLock (.inr a) (.callback (some 3)) (-1), .wakeUp (.inr a), .enter w, .top w, .scan w]

/-- One worker is idle and the other one has a task. -/
theorem hasIdleThreads_both : ∃ s : State (Fin 2) (Fin 3) Nat Nat,
    (s.worker 0).idling = true ∧ (s.worker 1).busy = true ∧
      (s.hasIdleThreads = true ↔ ∃ w, (s.worker w).idling = true) := by
  have h : (System.exec (system Nat Nat (duo .plain)) Always (initial _ _ _ _)
      (restRun 0 0 ++ (fetchRun 1 0 1).tail)).isSome = true := by
    decide
  exact ⟨_, rfl, rfl, (hasIdleThreads_iff (duo .plain) (System.reach_exec rfl h)).1.2
    ⟨fun _ => ⟨0, rfl⟩, fun _ => ⟨1, rfl⟩⟩⟩

/-- With one idle worker and no task the answer is no; with one task and no idle worker it is yes. -/
theorem hasIdleThreads_wrong : ∃ s t : State (Fin 2) (Fin 3) Nat Nat,
    ((system Nat Nat (duo .plain)).Reach Always s ∧ s.hasIdleThreads = false ∧ (s.worker 0).idling = true) ∧
    (system Nat Nat (duo .plain)).Reach Always t ∧ t.hasIdleThreads = true ∧ ∀ w, (t.worker w).idling = false := by
  have hs : (System.exec (system Nat Nat (duo .plain)) Always (initial _ _ _ _) (restRun 0 0)).isSome = true := by
    decide
  have ht : (System.exec (system Nat Nat (duo .plain)) Always (initial _ _ _ _) (fetchRun 0 0 1)).isSome = true := by
    decide
  exact ⟨_, _, ⟨System.reach_exec rfl hs, rfl, rfl⟩, System.reach_exec rfl ht, rfl, by decide +revert⟩

end Sylar.Sched
