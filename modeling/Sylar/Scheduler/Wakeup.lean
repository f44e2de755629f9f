import Sylar.Scheduler.Machine

/-!
# No wake-up is lost

The protocol of `tickle()`: `scheduleLock` tickles when the queue was empty, a worker tickles when its scan leaves tasks
behind, both after the section. Under a derived class in which a tickle leaves a token and `idle()` is left by taking
tokens only, a queued task always has someone coming for it (`Awake`): a token, a thread about to call `tickle()`, or a
worker on its way to a scan.

- `awake_next`: the step lemma; the scan is where `scan_tickleMe` is needed;
- `no_lost_wakeup`: the run lemma.
-/

namespace Sylar.Sched

open Trans

variable {W E F C : Type} [DecidableEq W] [DecidableEq E] {cfg : Config W E}

/-- The worker runs no task, and has just started, returned from `idle()` or finished a task; the scan is ahead. -/
def Worker.toScan (x : Worker F C) : Bool :=
  match x.pc with
  | .start | .top | .scan | .decr | .reset | .idleDec => true
  | _ => false

/-- The worker has left the section of the scan and is committed to call `tickle()`. -/
def Worker.toTickle (x : Worker F C) : Bool :=
  match x.pc with
  | .tickle => x.tickleMe
  | _ => false

/-- Someone is coming for what is in the queue. -/
def Awake (s : State W E F C) : Prop :=
  0 < s.tokens ∨ (∃ t, s.wake t = some true) ∨ (∃ w, (s.worker w).toTickle = true) ∨ ∃ w, (s.worker w).toScan = true

omit [DecidableEq W] [DecidableEq E] in
/-- A worker on its way to a scan. -/
theorem awake_toScan {s : State W E F C} {w : W} (h : (s.worker w).toScan = true) : Awake s :=
  Or.inr (Or.inr (Or.inr ⟨w, h⟩))

omit [DecidableEq E] in
/-- A worker that was of no use for the queue moves. -/
theorem Awake.setWorker {s : State W E F C} (h : Awake s) {w : W} (h₁ : (s.worker w).toTickle = false)
    (h₂ : (s.worker w).toScan = false) (x : Worker F C) : Awake (s.setWorker w x) := by
  rcases h with h | h | ⟨v, hv⟩ | ⟨v, hv⟩
  · exact Or.inl h
  · exact Or.inr (Or.inl h)
  · have hne : v ≠ w := by rintro rfl; rw [h₁] at hv; cases hv
    exact Or.inr (Or.inr (Or.inl ⟨v, by rw [s.worker_ne hne]; exact hv⟩))
  · have hne : v ≠ w := by rintro rfl; rw [h₂] at hv; cases hv
    exact Or.inr (Or.inr (Or.inr ⟨v, by rw [s.worker_ne hne]; exact hv⟩))

/-- A scan leaves an empty queue, or its worker is committed to `tickle()`. -/
theorem awake_scan {s : State W E F C} {w : W} (hs : s.mTasks ≠ [] → Awake s)
    (hne : (next cfg s (.scan w)).mTasks ≠ []) :
    Awake (next cfg s (.scan w)) := by
  have hrest : (scan (cfg.tid w) s.mTasks).rest ≠ [] → ∀ t : State W E F C,
      t.worker w = { s.worker w with
        pc := .tickle, task := (scan (cfg.tid w) s.mTasks).task, tickleMe := (scan (cfg.tid w) s.mTasks).tickleMe } →
      Awake t := by
    intro hr t ht
    refine Or.inr (Or.inr (Or.inl ⟨w, ?_⟩))
    rw [ht]
    simpa [Worker.toTickle, scan_tickleMe] using hr
  cases he : (scan (cfg.tid w) s.mTasks).task with
  | none =>
    simp only [next, he] at hne ⊢
    apply hrest
    · rw [(scan_none he).1]
      exact hne
    · rw [he, State.worker_self]
  | some e =>
    simp only [next, he] at hne ⊢
    split_ifs at hne ⊢
    · apply hrest
      · exact hne
      · rw [he, State.worker_self]
    · exact hs hne

theorem awake_next (hidle : cfg.idle = .token) {s : State W E F C} {a : Act W E F C} (hg : guard cfg s a)
    (hs : s.mTasks ≠ [] → Awake s) (hne : (next cfg s a).mTasks ≠ []) : Awake (next cfg s a) := by
  cases a with
  | scheduleLock t fc thr =>
    by_cases hq : s.mTasks = []
    · -- the section found the queue empty
      exact Or.inr (Or.inl ⟨t, by simp [next, hq]⟩)
    · rcases hs hq with h | ⟨u, hu⟩ | h | h
      · left; simp only [next, State.push]; split_ifs <;> exact h
      · have hut : u ≠ t := by rintro rfl; rw [hg.2] at hu; cases hu
        exact Or.inr (Or.inl ⟨u, by simp only [next]; rw [Function.update_of_ne hut]; exact hu⟩)
      · right; right; left; simp only [next, State.push]; split_ifs <;> exact h
      · right; right; right; simp only [next, State.push]; split_ifs <;> exact h
  | wakeUp t =>
    rcases hs hne with h | ⟨u, hu⟩ | h | h
    · left
      simp only [next]
      split_ifs <;> omega
    · rcases eq_or_ne u t with rfl | hut
      · left
        simp only [next, hu, if_true]
        omega
      · exact Or.inr (Or.inl ⟨u, by simp only [next]; rw [Function.update_of_ne hut]; exact hu⟩)
    · exact Or.inr (Or.inr (Or.inl h))
    · exact Or.inr (Or.inr (Or.inr h))
  | start e =>
    simp only [next] at hne ⊢
    split_ifs at hne ⊢ with h₁ h₂
    · exact hs hne
    · exact hs hne
    · have hkeep : ∀ v, (s.worker v).toTickle = true ∨ (s.worker v).toScan = true →
          ¬(v ∈ cfg.pool ∧ (s.worker v).pc = .unborn) := by
        rintro v hv ⟨-, hu⟩
        simp [Worker.toTickle, Worker.toScan, hu] at hv
      rcases hs hne with h | h | ⟨v, hv⟩ | ⟨v, hv⟩
      · exact Or.inl h
      · exact Or.inr (Or.inl h)
      · exact Or.inr (Or.inr (Or.inl ⟨v, by dsimp only; rw [if_neg (hkeep v (Or.inl hv))]; exact hv⟩))
      · exact Or.inr (Or.inr (Or.inr ⟨v, by dsimp only; rw [if_neg (hkeep v (Or.inr hv))]; exact hv⟩))
  | scan w => exact awake_scan hs hne
  | tickle w =>
    have hpc : (s.worker w).pc = .tickle := hg
    by_cases ht : (s.worker w).tickleMe = true
    · left
      simp only [next, ht, if_true]
      omega
    · have hw : Awake (s.goto w .dispatch) :=
        (hs hne).setWorker (by simpa [Worker.toTickle, hpc] using ht) (by simp [Worker.toScan, hpc]) _
      rcases hw with h | h | h | h
      · left
        simpa [next, ht] using h
      · exact Or.inr (Or.inl h)
      · exact Or.inr (Or.inr (Or.inl h))
      · exact Or.inr (Or.inr (Or.inr h))
  | dispatch w =>
    have h₁ : (s.worker w).toTickle = false := by simp [Worker.toTickle, show (s.worker w).pc = .dispatch from hg]
    have h₂ : (s.worker w).toScan = false := by simp [Worker.toScan, show (s.worker w).pc = .dispatch from hg]
    simp only [next] at hne ⊢
    split at hne
    · exact (hs hne).setWorker h₁ h₂ _
    · split_ifs at hne ⊢ <;> exact (hs hne).setWorker h₁ h₂ _
  | finish w | decr w | reset w | enter w | top w | idleDec w | idleTake w k ends =>
    exact awake_toScan (w := w) (by simp [next, Worker.toScan])
  | idleInc w =>
    have hpc : (s.worker w).pc = .idleInc := hg
    exact Awake.setWorker (s := s) (hs hne) (by simp [Worker.toTickle, hpc]) (by simp [Worker.toScan, hpc]) _
  | idleTest w | idleSleep w | idleYield w | idleOut w | idleEnd w => exact absurd hidle hg.1
  | idleMoved w pos =>
    have hhooked : cfg.idle = .hooked := hg
    rw [hidle] at hhooked
    cases hhooked
  | stopCheck e => simp only [next] at hne ⊢; split_ifs at hne ⊢ <;> exact hs hne
  | stopAssert e => simp only [next] at hne ⊢; split_ifs at hne ⊢ <;> exact hs hne
  | stopTickle e =>
    rcases hs hne with h | h | h | h
    · left
      simp only [next]
      omega
    · exact Or.inr (Or.inl h)
    · exact Or.inr (Or.inr (Or.inl h))
    · exact Or.inr (Or.inr (Or.inr h))
  | stopResume e =>
    simp only [next] at hne ⊢
    split at hne
    · exact hs hne
    · rename_i w _
      split_ifs at hne ⊢
      · exact awake_toScan (w := w) (by simp [Worker.toScan])
      · exact hs hne
  | stopJoin e => simp only [next] at hne ⊢; split at hne <;> exact hs hne
  | stopCall e | stopSet e | stopBack e | stopSwap e | stopEnd e => exact hs hne

/-- **No wake-up is lost.** Where `m_tasks` is not empty, an untaken token exists, or a thread that has left its section
is committed to call `tickle()`, or a worker without a task has not yet scanned the queue. -/
theorem no_lost_wakeup (cfg : Config W E) (hidle : cfg.idle = .token) {s : State W E F C}
    (h : (system F C cfg).Reach Always s) (hne : s.mTasks ≠ []) :
    0 < s.tokens ∨ ((∃ t, s.wake t = some true) ∨ ∃ w, (s.worker w).pc = .tickle ∧ (s.worker w).tickleMe = true) ∨
      ∃ w, (s.worker w).toScan = true := by
  have hawake : s.mTasks ≠ [] → Awake s := by
    clear hne
    induction h using System.Reach.induct with
    | start s hs =>
      have hs : s = initial W E F C := hs
      subst hs
      exact fun hne => absurd rfl hne
    | step s a _ hg _ ih => exact awake_next hidle hg.2 ih
  rcases hawake hne with h | h | ⟨w, hw⟩ | h
  · exact Or.inl h
  · exact Or.inr (Or.inl (Or.inl h))
  · refine Or.inr (Or.inl (Or.inr ⟨w, ?_⟩))
    unfold Worker.toTickle at hw
    split at hw
    · rename_i hpc
      exact ⟨hpc, hw⟩
    · cases hw
  · exact Or.inr (Or.inr h)

/-- A task pinned to worker `v`, whose token worker `w` took: worker `w` has passed over the task and is about to
tickle. -/
def pinnedRun (w v : Fin 2) (e a : Fin 3) : List (Act (Fin 2) (Fin 3) Nat Nat) :=
  [.start e, .enter w, .top w, .scan w, .tickle w, .dispatch w, .idleInc w, .enter v, .top v, .scan v, .tickle v,
    .dispatch v, .idleInc v, .scheduleLock (.inr a) (.callback (some 3)) (v.val + 10), .wakeUp (.inr a),
    .idleTake w 1 false, .idleDec w, .top w, .scan w]

theorem no_lost_wakeup_pinned : ∃ s : State (Fin 2) (Fin 3) Nat Nat, (s.mTasks.length, s.tokens) = (1, 0) ∧
    (0 < s.tokens ∨ ((∃ t, s.wake t = some true) ∨ ∃ w, (s.worker w).pc = .tickle ∧ (s.worker w).tickleMe = true) ∨
      ∃ w, (s.worker w).toScan = true) := by
  have h : (System.exec (system Nat Nat (duo .token)) Always (initial _ _ _ _)
      (pinnedRun 0 1 0 1)).isSome = true := by
    decide
  exact ⟨_, rfl, no_lost_wakeup (duo .token) rfl (System.reach_exec rfl h) (List.cons_ne_nil _ _)⟩

end Sylar.Sched
