import Sylar.Fiber.Steps

/-!
# The branches of `run()` keep the invariant

The steps of a worker from the fetch of a task to the end of its handling: `cb_fiber` is made, the fiber's mutex is
taken (`inv_lock`: what a free fiber is like becomes what the worker knows of it), `resume()` tests and sets the state
(`inv_set`) and switches (`inv_swap`), and the mutex is given back (`inv_unlock`).

- `switchTo_eq`, `swapIn_eq`: what a switch does where the save goes to the executing fiber.
-/

set_option linter.unusedSectionVars false

namespace Sylar.Fibers

open Trans Ownership

variable {W E C : Type} [DecidableEq W] [DecidableEq E] {cfg : Sylar.Config W E} {s : State W E C}

/-! ## Switches -/

/-- **A switch that saves in the executing fiber**: only that fiber changes, and the thread goes on where the target was
suspended. -/
theorem switchTo_eq {w : W} {r g : FiberId W} (hc : (s.fib g).mCtx = ⟨home g, (s.fib g).last⟩) {pc : Pc W}
    (he : s.exec w = some r) (hst : (s.thread w).stack = home r) (hne : g ≠ r) : s.switchTo w r g pc = { s with
      fib := Function.update s.fib r { s.fib r with mCtx := ⟨home r, pc⟩, last := pc }
      thread := Function.update s.thread w
        { s.thread w with stack := home g, pc := (s.fib g).last, runningFiber := some g } } := by
  have hfib : (fun f => { s.fib f with
      mCtx := if f = r then ⟨(s.thread w).stack, pc⟩ else (s.fib f).mCtx
      last := if s.exec w = some f then pc else (s.fib f).last }) =
      Function.update s.fib r { s.fib r with mCtx := ⟨home r, pc⟩, last := pc } := by
    funext f
    by_cases hf : f = r
    · subst hf
      simp [he, hst]
    · have hno : s.exec w ≠ some f := by
        rw [he]
        exact fun hn => hf (Option.some_inj.1 hn).symm
      rw [Function.update_of_ne hf, if_neg hf, if_neg hno]
  unfold State.switchTo
  simp only [hfib, if_neg hne, hc]

/-- **The switch of `g->resume()`.** -/
theorem swapIn_eq {w : W} {r g : FiberId W} (hc : (s.fib g).mCtx = ⟨home g, (s.fib g).last⟩) {pc : Pc W}
    (hp : s.partner w g = some r) (he : s.exec w = some r) (hst : (s.thread w).stack = home r) (hne : g ≠ r) :
    s.swapIn w g pc = { s with
      fib := Function.update (Function.update s.fib r { s.fib r with mCtx := ⟨home r, pc⟩, last := pc }) g
        { s.fib g with resumer := some ⟨home r, pc⟩, started := true }
      thread := Function.update s.thread w
        { s.thread w with stack := home g, pc := (s.fib g).last, runningFiber := some g } } := by
  unfold State.swapIn
  rw [hp]
  simp only [switchTo_eq hc he hst hne, State.setFiber, Function.update_of_ne hne, hst]

/-- A thread at a position of `MainFunc`. -/
theorem known_of_inMain {w : W} {x : Sched.Worker (FiberId W) C} {t : Thread W} {v : View W C}
    (h : InMain cfg w x t v t.pc) (hy : MainSync cfg w x t v t.pc) : Known cfg w (x, t) v := by
  cases hpc : t.pc with
  | entry | body | setTerm | dropSelf | last =>
    rw [hpc] at h hy
    simp only [Known, Local, Sync, hpc]
    exact ⟨h, hy⟩
  | yield x ended =>
    rw [hpc] at h hy
    simp only [Known, Local, Sync, hpc]
    exact ⟨h, hy⟩
  | _ =>
    rw [hpc] at h
    obtain ⟨f, -, -, ⟨y, -, hlive⟩, -⟩ := h
    exact hlive.elim

/-! ## The mutex -/

section Mutex

variable {m m' : FiberId W → Option W} {fib : FiberId W → Fiber W C} {w : W} {f : FiberId W} {P : Fiber W C → Prop}

/-- Main, scheduler and idle fibers have their owner whatever the mutexes are. -/
theorem Has.mutex (h : Has (view (own cfg m) fib w) f P) (hf : ∀ n, f ≠ .task n) :
    Has (view (own cfg m') fib w) f P := by
  rw [has_iff] at h ⊢
  refine ⟨?_, h.2⟩
  cases f with
  | task n => exact absurd rfl (hf n)
  | _ => exact h.1

theorem InRun.mutex {t : Thread W} (h : InRun cfg w t (view (own cfg m) fib w)) :
    InRun cfg w t (view (own cfg m') fib w) := by
  refine ⟨h.scheduler, h.main, fun hroot => ?_⟩
  obtain ⟨hmain, hsched⟩ := h.below hroot
  exact ⟨hmain.mutex (by simp), hsched.mutex (by simp)⟩

theorem IdleIs.mutex {t : Thread W} (h : IdleIs w t (view (own cfg m) fib w) P) :
    IdleIs w t (view (own cfg m') fib w) P := by
  intro i hi
  obtain ⟨rfl, hhas⟩ := h i hi
  exact ⟨rfl, hhas.mutex (by simp)⟩

theorem IdleSync.mutex {x : Sched.Worker (FiberId W) C} {t : Thread W} (h : IdleSync w x t (view (own cfg m) fib w)) :
    IdleSync w x t (view (own cfg m') fib w) := ⟨h.1, h.2.mutex (by simp)⟩

/-- The thread has taken its first mutex. -/
theorem NoTask.take {o : FiberId W → Option W} (h : NoTask (view o fib w)) (n : Nat) :
    OnlyTask (view (Function.update o (.task n) (some w)) fib w) (.task n) := by
  rw [noTask_iff] at h
  rw [onlyTask_iff]
  intro k hk
  by_cases hkn : k = n
  · rw [hkn]
  · rw [Function.update_of_ne (fun he => hkn (FiberId.task.inj he))] at hk
    exact absurd hk (h k)

/-- The thread has given its only mutex back. -/
theorem OnlyTask.give {o : FiberId W → Option W} {n : Nat} (h : OnlyTask (view o fib w) (.task n)) :
    NoTask (view (Function.update o (.task n) none) fib w) := by
  rw [onlyTask_iff] at h
  rw [noTask_iff]
  intro k hk
  by_cases hkn : k = n
  · rw [hkn, Function.update_self] at hk
    cases hk
  · rw [Function.update_of_ne (fun he => hkn (FiberId.task.inj he))] at hk
    exact hkn (FiberId.task.inj (h k hk))

theorem NoTask.lock (h : NoTask (view (own cfg m) fib w)) (n : Nat) :
    OnlyTask (view (own cfg (Function.update m (.task n) (some w))) fib w) (.task n) := by
  rw [own_update]
  exact h.take n

theorem OnlyTask.unlock {n : Nat} (h : OnlyTask (view (own cfg m) fib w) (.task n)) :
    NoTask (view (own cfg (Function.update m (.task n) none)) fib w) := by
  rw [own_update]
  exact h.give

end Mutex

theorem inv_make (h : Inv cfg s) {w : W} (hg : guard cfg s (.make w)) : Inv cfg (next cfg s (.make w)) := by
  obtain ⟨hpc, -⟩ := hg
  obtain ⟨hin, hst, hrun, hr, hno, hidle, hnone⟩ := (local_run hpc).1 (h.local w)
  obtain ⟨hexec, hsync⟩ := (sync_run hpc).1 (h.sync w)
  have hfree : own cfg s.mMutex (.task s.nextId) = none := by
    by_contra hne
    have hlt := h.typed.mutex s.nextId hne
    omega
  refine ⟨h.static.update ⟨rfl, ?_⟩, h.coherent.update (.make _ (by simp) _ _), ?_, ?_⟩
  · simp only [Fiber.make, Runs]
    cases (s.base.worker w).task.bind fun e => e.task.callback with
    | none => exact Or.inl rfl
    | some c => exact Or.inr ⟨c, rfl⟩
  · refine h.typed.step (Nat.le_succ _) (fun _ he => Or.inl he) (fun _ _ he => Or.inl he) ?_ (fun _ hf => Or.inl hf)
      (fun _ hf => Or.inl hf) ?_
    · intro v f hf
      by_cases hv : v = w
      · simp only [next, State.setThread, hv, Function.update_self, Option.mem_def, Option.some.injEq] at hf
        exact Or.inr ⟨s.nextId, hf.symm, Nat.lt_succ_self _⟩
      · simp only [next, State.setThread, Function.update_of_ne hv] at hf
        exact Or.inl hf
    · intro n hn
      by_cases hnn : n = s.nextId
      · right
        rw [hnn]
        exact Nat.lt_succ_self _
      · simp only [next, Function.update_of_ne (fun he => hnn (FiberId.task.inj he))] at hn
        exact Or.inl hn
  · unfold Owned
    simp only [next, own_update]
    refine Ownership.Inv.acquire h.owned w hfree ?_ ?_
    · intro v hv
      simp [hv]
    · rw [← own_update]
      simp only [State.setThread, Function.update_self]
      refine ⟨(local_run (p := .set .task) rfl).2 ⟨?_, hst, hrun, ?_, ⟨s.nextId, ?_, ?_, ?_⟩, ?_⟩,
        (sync_run (p := .set .task) rfl).2 ⟨hexec, IdleSync.move (hsync.mutex.update (by simp)) rfl rfl⟩⟩
      · exact InRun.thread (t := s.thread w) (hin.mutex.update (by simp) (by simp)) rfl rfl
      · exact (hr.mutex (runner_ne_task cfg w)).update (runner_ne_task cfg w _)
      · change ((s.base.worker w).task.bind fun e => e.task.fiber).or _ = _
        rw [hnone]
        rfl
      · refine Has.self ?_ ⟨Or.inl ⟨rfl, rfl, rfl⟩, rfl⟩
        rw [own_update, Function.update_self]
      · exact (hno.lock s.nextId).frame
      · exact (hidle.mutex).update (by simp)

theorem inv_lock (h : Inv cfg s) {w : W} (hg : guard cfg s (.lock w)) : Inv cfg (next cfg s (.lock w)) := by
  obtain ⟨⟨hpc, -⟩, g, hg, hfree⟩ := hg
  obtain ⟨n, rfl, hn⟩ := target_made h.typed hg
  have hg : s.target w .task = some (.task n) := hg
  have hfree : own cfg s.mMutex (.task n) = none := hfree
  obtain ⟨hin, hst, hrun, hr, hno, hidle⟩ := (local_run hpc).1 (h.local w)
  obtain ⟨hexec, hsync⟩ := (sync_run hpc).1 (h.sync w)
  simp only [next, hg]
  refine ⟨h.static, h.coherent, ?_, ?_⟩
  · refine h.typed.step (Nat.le_refl _) (fun _ he => Or.inl he) (fun _ _ he => Or.inl he) ?_ (fun _ hf => Or.inl hf)
      (fun _ hf => Or.inl hf) ?_
    · intro v f hf
      left
      rw [← cbFiber_update (f := s.thread) (w := w) (t := { s.thread w with pc := .run .check }) rfl v]
      exact hf
    · intro k hk
      by_cases hkn : k = n
      · rw [hkn]
        exact Or.inr hn
      · simp only [Function.update_of_ne (fun he => hkn (FiberId.task.inj he))] at hk
        exact Or.inl hk
  · unfold Owned
    have hcell : s.fib = Function.update s.fib (.task n) (s.fib (.task n)) := (Function.update_eq_self _ _).symm
    simp only [own_update]
    rw [show (State.goto s w (.run .check)).fib = Function.update s.fib (.task n) (s.fib (.task n)) from hcell]
    refine Ownership.Inv.acquire h.owned w hfree ?_ ?_
    · intro v hv
      simp [hv]
    · rw [← own_update, ← hcell]
      simp only [State.goto, State.setThread, Function.update_self]
      refine ⟨(local_run (p := .check) rfl).2 ⟨?_, hst, hrun, ?_, ⟨n, hg, ?_, hno.lock n⟩, ?_⟩,
        (sync_run (p := .check) rfl).2 ⟨hexec, hsync.mutex.move rfl rfl⟩⟩
      · exact InRun.thread (t := s.thread w) hin.mutex rfl rfl
      · exact hr.mutex (runner_ne_task cfg w)
      · refine has_iff.2 ⟨?_, h.owned.free _ hfree n rfl⟩
        rw [own_update, Function.update_self]
      · exact hidle.mutex

theorem inv_check (h : Inv cfg s) {w : W} (hg : guard cfg s (.check w)) : Inv cfg (next cfg s (.check w)) := by
  obtain ⟨hpc, -⟩ := hg
  simp only [next]
  split
  · exact h.abort _
  · rename_i g hg
    refine h.went rfl (BaseMoves.refl _ _) (fun f hf => hf) ?_
    split_ifs with hterm
    · exact (h.known w).run hpc (fun hat => hat) (fun hat => hat)
    · refine (h.known w).run hpc ?_ (fun hat => hat)
      rintro ⟨⟨n, htarget, hhas, honly⟩, hidle⟩
      refine ⟨⟨n, htarget, ?_, honly⟩, hidle⟩
      have hgn : g = .task n := Option.some_inj.1 (hg.symm.trans htarget)
      rw [has_iff] at hhas ⊢
      refine ⟨hhas.1, hhas.2, ?_⟩
      rw [hgn] at hterm
      have hrest := hhas.2
      cases hstate : (s.fib (.task n)).mState with
      | ready => rfl
      | running => simp [Rest, hstate] at hrest
      | term => exact absurd hstate hterm

theorem inv_set (h : Inv cfg s) {w : W} {k : Branch} (hg : guard cfg s (.set w k)) :
    Inv cfg (next cfg s (.set w k)) := by
  obtain ⟨hpc, -⟩ := hg
  obtain ⟨hin, hst, hrun, hr, hat⟩ := (local_run hpc).1 (h.local w)
  have hsync := (sync_run hpc).1 (h.sync w)
  simp only [next]
  split
  · exact h.abort _
  · rename_i g hg
    split_ifs with hready
    · cases k with
      | task =>
        obtain ⟨⟨n, htarget, hhas, honly⟩, hidle⟩ := hat
        have hgn : g = .task n := Option.some_inj.1 (hg.symm.trans htarget)
        subst hgn
        obtain ⟨hown, hrest, -⟩ := has_iff.1 hhas
        refine h.wrote rfl hown (BaseMoves.refl _ _) (fun f hf => hf) (h.static _)
          ⟨(h.coherent _).ctx, (h.coherent _).fresh, (h.coherent _).started⟩ ?_
        refine ⟨(local_run (p := .swap .task) rfl).2
          ⟨?_, hst, hrun, hr.update (runner_ne_task cfg w n), ⟨n, htarget, ?_, honly.frame⟩, ?_⟩,
          (sync_run (p := .swap .task) rfl).2 ⟨hsync.1, IdleSync.move (hsync.2.update (by simp)) rfl rfl⟩⟩
        · exact InRun.thread (t := s.thread w) (hin.update (by simp) (by simp)) rfl rfl
        · exact Has.self hown (hrest.armed hready)
        · exact hidle.update (by simp)
      | idle =>
        obtain ⟨hno, hi, hhas⟩ := hat
        have hgi : g = .idle w := Option.some_inj.1 (hg.symm.trans hi)
        subst hgi
        obtain ⟨hown, hrest, -⟩ := has_iff.1 hhas
        refine h.wrote rfl hown (BaseMoves.refl _ _) (fun f hf => hf) (h.static _)
          ⟨(h.coherent _).ctx, (h.coherent _).fresh, (h.coherent _).started⟩ ?_
        refine ⟨(local_run (p := .swap .idle) rfl).2
          ⟨?_, hst, hrun, hr.update (runner_ne_idle cfg w w), hno.frame, hi, ?_⟩,
          (sync_run (p := .swap .idle) rfl).2 ⟨hsync.1, hi, Has.self hown ?_⟩⟩
        · exact InRun.thread (t := s.thread w) (hin.update (by simp) (by simp)) rfl rfl
        · exact Has.self hown (hrest.armed hready)
        · have hterm := (has_iff.1 hsync.2.2).2
          rw [hready] at hterm
          exact ⟨by simp, fun hn => absurd (hterm.2 hn) (by simp)⟩
    · exact h.abort _

/-- In `run()` the worker executes its runner. -/
theorem exec_runner (h : Inv cfg s) {w : W} (hrun : (s.thread w).runningFiber = some (runner cfg w)) :
    s.exec w = some (runner cfg w) := (exec_eq_running h w).trans hrun

theorem inv_swap (h : Inv cfg s) {w : W} {k : Branch} (hg : guard cfg s (.swap w k)) :
    Inv cfg (next cfg s (.swap w k)) := by
  obtain ⟨hpc, -⟩ := hg
  obtain ⟨hin, hst, hrun, hr, hat⟩ := (local_run hpc).1 (h.local w)
  obtain ⟨hownr, hrstate⟩ := has_iff.1 hr
  have hsync := (sync_run hpc).1 (h.sync w)
  simp only [next]
  split
  · exact h.abort _
  · rename_i g hg
    -- the target is armed, and the worker owns it
    have hgoal : own cfg s.mMutex g = some w ∧ Armed g (s.fib g) ∧ inScheduler g = true ∧ g ≠ runner cfg w := by
      cases k with
      | task =>
        obtain ⟨⟨n, htarget, hhas, -⟩, -⟩ := hat
        rw [Option.some_inj.1 (hg.symm.trans htarget)]
        exact ⟨(has_iff.1 hhas).1, (has_iff.1 hhas).2, rfl, (runner_ne_task cfg w n).symm⟩
      | idle =>
        obtain ⟨-, hi, hhas⟩ := hat
        rw [Option.some_inj.1 (hg.symm.trans hi)]
        exact ⟨(has_iff.1 hhas).1, (has_iff.1 hhas).2, rfl, (runner_ne_idle cfg w w).symm⟩
    obtain ⟨hown, harmed, hsch, hne⟩ := hgoal
    have hpartner : s.partner w g = some (runner cfg w) := by
      unfold State.partner
      rw [(h.static g).1, hsch, if_pos rfl]
      exact hin.scheduler
    rw [swapIn_eq (h.coherent g).ctx hpartner (exec_runner h hrun) hst hne]
    have hfib : ∀ f, f ≠ runner cfg w → f ≠ g → ∀ x y,
        Function.update (Function.update s.fib (runner cfg w) x) g y f = s.fib f := fun f hfr hfg x y => by
      rw [Function.update_of_ne hfg, Function.update_of_ne hfr]
    refine h.moved rfl (BaseMoves.refl _ _) (fun f hf => hf) ((h.static.update ?_).update ?_)
      ((h.coherent.update (.leave (exec_started h (exec_runner h hrun)) _)).update ?_) ?_ (known_of_inMain ?_ ?_)
    · exact h.static (runner cfg w)
    · exact h.static g
    · exact (h.coherent g).resume _
    · intro f hf
      exact hfib f (by rintro rfl; exact hf hownr) (by rintro rfl; exact hf hown) _ _
    · have hlive := harmed.live
      -- what the worker knows of its other fibers is not changed by the save
      have hin' : ∀ x y, x.self = (s.fib (runner cfg w)).self → x.resumer = (s.fib (runner cfg w)).resumer →
          InRun cfg w (s.thread w)
            (view (own cfg s.mMutex) (Function.update (Function.update s.fib (runner cfg w) x) g y) w) := by
        intro x y hself hres
        have hgm : g ≠ .main w ∧ g ≠ .sched := by
          constructor <;> (rintro rfl; cases hsch)
        refine hin.frame ?_ ?_
        · intro hroot
          rw [hfib _ (by simp [runner, hroot]) hgm.1.symm]
          exact id
        · rw [Function.update_of_ne hgm.2.symm]
          by_cases hrs : runner cfg w = .sched
          · rw [hrs] at hself hres ⊢
            rw [Function.update_self]
            exact ⟨hself, hres⟩
          · rw [Function.update_of_ne (Ne.symm hrs)]
            exact ⟨rfl, rfl⟩
      refine ⟨g, ?_, rfl, Has.self hown hlive, ?_⟩
      · cases g with
        | idle u | task n => rfl
        | _ => cases hsch
      · have hresumed : ∀ (t : Thread W), t.iter = (s.thread w).iter → Resumed cfg w t
            (view (own cfg s.mMutex) (Function.update (Function.update s.fib (runner cfg w)
              { s.fib (runner cfg w) with
                mCtx := ⟨home (runner cfg w), .run (.back k (s.thread w).iter)⟩
                last := .run (.back k (s.thread w).iter) }) g
              { s.fib g with
                resumer := some ⟨home (runner cfg w), .run (.back k (s.thread w).iter)⟩, started := true }) w) k g := by
          intro t ht
          refine ⟨?_, Has.self hown (by rw [ht])⟩
          refine (Has.self (o := own cfg s.mMutex) hownr ?_).update hne.symm
          exact ⟨hrstate, by rw [ht]⟩
        cases k with
        | task =>
          obtain ⟨⟨n, htarget, -, honly⟩, hidle⟩ := hat
          have hgn : g = .task n := Option.some_inj.1 (hg.symm.trans htarget)
          subst hgn
          refine ⟨InRun.thread (t := s.thread w) (hin' _ _ rfl rfl) rfl rfl, htarget, honly.frame, ?_, hresumed _ rfl⟩
          exact hidle.frame (hfib _ (runner_ne_idle cfg w w).symm (by simp) _ _)
        | idle =>
          obtain ⟨hno, hi, -⟩ := hat
          have hgi : g = .idle w := Option.some_inj.1 (hg.symm.trans hi)
          subst hgi
          exact ⟨rfl, InRun.thread (t := s.thread w) (hin' _ _ rfl rfl) rfl rfl, hi, hno.frame, hresumed _ rfl⟩
    · cases k with
      | task =>
        obtain ⟨⟨n, htarget, -, -⟩, -⟩ := hat
        have hgn : g = .task n := Option.some_inj.1 (hg.symm.trans htarget)
        subst hgn
        refine ⟨hsync.1, IdleSync.move (hsync.2.frame ?_) rfl rfl⟩
        rw [hfib _ (runner_ne_idle cfg w w).symm (by simp)]
      | idle =>
        obtain ⟨-, hi, hhas⟩ := hat
        have hgi : g = .idle w := Option.some_inj.1 (hg.symm.trans hi)
        subst hgi
        refine ⟨hsync.1, ?_⟩
        have hterm := (has_iff.1 hsync.2.2).2
        rw [harmed.1] at hterm
        rcases harmed.2 with ⟨hlast, -⟩ | ⟨hlast, -⟩
        · rw [hlast]
          exact fun hn => absurd (hterm.2 hn) (by simp)
        · rw [hlast]
          exact fun hn => absurd (hterm.2 hn) (by simp)

theorem inv_unlock (h : Inv cfg s) {w : W} (hg : guard cfg s (.unlock w)) : Inv cfg (next cfg s (.unlock w)) := by
  have hpc := hg
  have hrun : ∃ p, (s.thread w).pc = .run p ∧ (p = .unlock ∨ p = .back .task (s.thread w).iter) := by
    rcases hpc with hpc | hpc
    · exact ⟨_, hpc.1, Or.inl rfl⟩
    · exact ⟨_, hpc.1, Or.inr rfl⟩
  obtain ⟨p, hpc, hp⟩ := hrun
  obtain ⟨hin, hst, hrun, hr, hat⟩ := (local_run hpc).1 (h.local w)
  have hat : Holds (s.base.worker w) (s.thread w) (view (own cfg s.mMutex) s.fib w) Rest ∧
      IdleIs w (s.thread w) (view (own cfg s.mMutex) s.fib w) (Rest (.idle w)) := by
    rcases hp with rfl | rfl
    · exact hat
    · exact hat
  have hsync : RunAt w (s.base.worker w) (s.thread w) (view (own cfg s.mMutex) s.fib w) .unlock := by
    have hsync := (sync_run hpc).1 (h.sync w)
    rcases hp with rfl | rfl
    · exact hsync
    · exact hsync
  obtain ⟨⟨n, htarget, hhas, honly⟩, hidle⟩ := hat
  obtain ⟨hown, hrest⟩ := has_iff.1 hhas
  simp only [next, show s.target w .task = some (.task n) from htarget]
  have hb : BaseMoves s.base (Sched.next cfg s.base (.finish w)) w := BaseMoves.of rfl rfl (fun _ he => he)
  refine ⟨h.static, h.coherent, ?_, ?_⟩
  · refine h.typed.step (Nat.le_refl _) ?_ ?_ ?_ (fun _ hf => Or.inl hf) (fun _ hf => Or.inl hf) ?_
    · intro e he
      dsimp only at he
      rw [hb.queue] at he
      exact Or.inl he
    · intro v e he
      by_cases hv : v = w
      · subst hv
        exact Or.inl (hb.task e he)
      · dsimp only at he
        rw [hb.workers v hv] at he
        exact Or.inl he
    · intro v f hf
      left
      rw [← cbFiber_update (f := s.thread) (w := w) (t := { s.thread w with pc := .run .main }) rfl v]
      exact hf
    · intro m hm
      left
      by_cases hmn : m = n
      · subst hmn
        simp at hm
      · simpa only [Function.update_of_ne (fun he => hmn (FiberId.task.inj he))] using hm
  · unfold Owned
    simp only [own_update]
    refine Ownership.Inv.release h.owned w hown ?_ ?_ ?_
    · exact fun _ _ => hrest
    · intro v hv
      simp only [hb.workers v hv, State.goto, State.setThread, Function.update_of_ne hv]
    · rw [← own_update]
      simp only [State.goto, State.setThread, Function.update_self]
      refine ⟨(local_run (p := .main) rfl).2 ⟨InRun.thread (t := s.thread w) hin.mutex rfl rfl, hst, hrun,
        hr.mutex (runner_ne_task cfg w), honly.unlock, hidle.mutex, ?_⟩, (sync_run (p := .main) rfl).2 ?_⟩
      · intro hx
        simp [Sched.next] at hx
      · simp only [RunAt, Sched.next, Sched.State.goto, Sched.State.setWorker, Function.update_self]
        exact ⟨by simp, by simp, by simp, by simp, fun _ => hsync.2.mutex.move rfl rfl⟩

end Sylar.Fibers
