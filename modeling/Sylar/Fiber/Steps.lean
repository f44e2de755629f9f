import Sylar.Fiber.Invariant

/-!
# Every step keeps the invariant
-/

set_option linter.unusedSectionVars false

namespace Sylar.Fibers

open Trans Ownership

variable {W E C : Type} [DecidableEq W] [DecidableEq E] {cfg : Sylar.Config W E} {s : State W E C}

/-! ## Rules for the parts -/

theorem Static.update {fib : FiberId W → Fiber W C} (h : Static fib) {f : FiberId W} {x : Fiber W C}
    (hx : x.mYieldToSchedulerFiber = inScheduler f ∧ Runs f x.mCb) : Static (Function.update fib f x) := by
  intro g
  by_cases hg : g = f
  · rw [hg, Function.update_self]
    exact hx
  · rw [Function.update_of_ne hg]
    exact h g

theorem Coherent.update {fib : FiberId W → Fiber W C} (h : Coherent fib) {f : FiberId W} {x : Fiber W C}
    (hx : Saved f x) : Coherent (Function.update fib f x) := by
  intro g
  by_cases hg : g = f
  · rw [hg, Function.update_self]
    exact hx
  · rw [Function.update_of_ne hg]
    exact h g

/-- What is new in the queue, the timers, the locals and the user's hands has been constructed. -/
theorem Typed.step {s' : State W E C} (h : Typed s) (hn : s.nextId ≤ s'.nextId)
    (hq : ∀ e ∈ s'.base.mTasks, e ∈ s.base.mTasks ∨ ∀ f ∈ e.task.fiber, Made s.nextId f)
    (ht : ∀ w, ∀ e ∈ (s'.base.worker w).task, e ∈ (s.base.worker w).task ∨ e ∈ s.base.mTasks)
    (hc : ∀ w, ∀ f ∈ (s'.thread w).cbFiber, f ∈ (s.thread w).cbFiber ∨ Made s'.nextId f)
    (htm : ∀ f ∈ s'.timers, f ∈ s.timers ∨ Made s.nextId f ∨ ∃ w, f = .idle w)
    (hu : ∀ f, 0 < s'.userRefs f → 0 < s.userRefs f ∨ Made s'.nextId f)
    (hm : ∀ n, s'.mMutex (.task n) ≠ none → s.mMutex (.task n) ≠ none ∨ n < s'.nextId) : Typed s' := by
  refine ⟨?_, ?_, ?_, ?_, ?_, ?_⟩
  · intro e he f hf
    rcases hq e he with he | hmade
    · exact (h.queue e he f hf).mono hn
    · exact (hmade f hf).mono hn
  · intro w e he f hf
    rcases ht w e he with he | he
    · exact (h.tasks w e he f hf).mono hn
    · exact (h.queue e he f hf).mono hn
  · intro w f hf
    rcases hc w f hf with hf | hf
    · exact (h.cbs w f hf).mono hn
    · exact hf
  · intro f hf
    rcases htm f hf with hf | hf | hf
    · rcases h.timers f hf with hf | hf
      · exact Or.inl (hf.mono hn)
      · exact Or.inr hf
    · exact Or.inl (hf.mono hn)
    · exact Or.inr hf
  · intro f hf
    rcases hu f hf with hf | hf
    · exact (h.users f hf).mono hn
    · exact hf
  · intro n hmn
    rcases hm n hmn with hmn | hmn
    · have hlt := h.mutex n hmn
      omega
    · exact hmn

/-- A step that refers to nobody new. -/
theorem Typed.same {s' : State W E C} (h : Typed s) (hq : ∀ e ∈ s'.base.mTasks, e ∈ s.base.mTasks)
    (ht : ∀ w, ∀ e ∈ (s'.base.worker w).task, e ∈ (s.base.worker w).task ∨ e ∈ s.base.mTasks)
    (hc : ∀ w, ∀ f ∈ (s'.thread w).cbFiber, f ∈ (s.thread w).cbFiber) (htm : s'.timers = s.timers)
    (hu : s'.userRefs = s.userRefs) (hm : s'.mMutex = s.mMutex) (hn : s'.nextId = s.nextId) : Typed s' := by
  apply h.step (Nat.le_of_eq hn.symm) (fun e he => Or.inl (hq e he)) ht (fun w f hf => Or.inl (hc w f hf))
  · intro f hf
    rw [htm] at hf
    exact Or.inl hf
  · intro f hf
    rw [hu] at hf
    exact Or.inl hf
  · intro n hmn
    rw [hm] at hmn
    exact Or.inl hmn

theorem cbFiber_update {f : W → Thread W} {w : W} {t : Thread W} (hc : t.cbFiber = (f w).cbFiber) (v : W) :
    (Function.update f w t v).cbFiber = (f v).cbFiber := by
  by_cases hv : v = w
  · rw [hv, Function.update_self, hc]
  · rw [Function.update_of_ne hv]

/-- A move of one thread that leaves the scheduler alone, and its `cb_fiber`. -/
theorem Typed.move (h : Typed s) {w : W} {t : Thread W} (hc : t.cbFiber = (s.thread w).cbFiber)
    (fib : FiberId W → Fiber W C) : Typed { s with thread := Function.update s.thread w t, fib := fib } := by
  refine h.same (fun _ he => he) (fun _ _ he => Or.inl he) ?_ rfl rfl rfl rfl
  intro v f hf
  rw [← cbFiber_update hc v]
  exact hf

theorem Inv.abort (h : Inv cfg s) (a : Sched.Assertion) : Inv cfg (s.abort a) :=
  ⟨h.static, h.coherent, ⟨h.typed.queue, h.typed.tasks, h.typed.cbs, h.typed.timers, h.typed.users, h.typed.mutex⟩,
    h.owned⟩

/-- One thread moves and changes fibers that it owns. -/
theorem Owned.write (h : Owned cfg s) (w : W) {s' : State W E C} (hm : s'.mMutex = s.mMutex)
    (hw : ∀ v, v ≠ w → s'.base.worker v = s.base.worker v) (ht : ∀ v, v ≠ w → s'.thread v = s.thread v)
    (hf : ∀ f, own cfg s.mMutex f ≠ some w → s'.fib f = s.fib f)
    (hl : Known cfg w (s'.base.worker w, s'.thread w) (view (own cfg s.mMutex) s'.fib w)) : Owned cfg s' := by
  unfold Owned
  rw [hm]
  apply Ownership.Inv.write h w _ hf hl
  intro v hv
  rw [hw v hv, ht v hv]

/-- The owners after a change of one mutex. -/
theorem own_update (mMutex : FiberId W → Option W) (n : Nat) (o : Option W) :
    own cfg (Function.update mMutex (.task n) o) = Function.update (own cfg mMutex) (.task n) o := by
  funext f
  by_cases hf : f = .task n
  · rw [hf, Function.update_self]
    simp [own]
  · rw [Function.update_of_ne hf]
    cases f with
    | task m => simp only [own, Function.update_of_ne hf]
    | _ => rfl

/-! ## Steps outside the workers -/

/-- What the scheduler's own steps do to its workers: a worker in `run()` moves, or a thread of the pool is started. -/
theorem base_worker {b : Sched.State W E (FiberId W) C} {a : Sched.Act W E (FiberId W) C} (ha : baseGuard s a)
    (v : W) (hv : (Sched.next cfg b a).worker v ≠ b.worker v) :
    ((s.thread v).pc = .run .main ∧ (Sched.guard cfg b a → (b.worker v).pc ≠ .start ∧
      (((Sched.next cfg b a).worker v).pc = .tickle ∨ ((Sched.next cfg b a).worker v).pc = .dispatch ∨
        ((Sched.next cfg b a).worker v).pc = .reset) ∧
      ((Sched.next cfg b a).worker v).idlePos = (b.worker v).idlePos)) ∨
      (b.worker v).pc = .unborn ∧ cfg.root ≠ some v ∧
        (Sched.next cfg b a).worker v = { b.worker v with pc := .start } := by
  cases a with
  | scheduleLock t fc thr =>
    simp only [Sched.next, Sched.State.push] at hv
    split at hv <;> exact absurd rfl hv
  | start e =>
    right
    simp only [Sched.next] at hv ⊢
    split_ifs at hv ⊢ with h₁ h₂
    · exact absurd rfl hv
    · exact absurd rfl hv
    · dsimp only at hv ⊢
      split_ifs at hv ⊢ with h₃
      · exact ⟨h₃.2, (cfg.mem_pool v).1 h₃.1, rfl⟩
      · exact absurd rfl hv
  | scan w =>
    left
    simp only [Sched.next, Sched.guard] at hv ⊢
    by_cases hw : v = w
    · subst hw
      refine ⟨ha.1, fun hpc => ⟨by rw [hpc]; simp, ?_⟩⟩
      split at hv
      · rename_i he
        simp [he]
      · rename_i e he
        split_ifs at hv with hne
        · simp [he, hne]
        · exact absurd rfl hv
    · split at hv
      · exact absurd (Sched.State.worker_ne _ hw _) hv
      · split at hv
        · exact absurd (Sched.State.worker_ne _ hw _) hv
        · exact absurd rfl hv
  | tickle w =>
    by_cases hw : v = w
    · subst hw
      refine Or.inl ⟨ha.1, fun hpc => ⟨?_, ?_⟩⟩
      · rw [show (b.worker v).pc = .tickle from hpc]
        simp
      · simp [Sched.next]
    · exact absurd (Sched.State.worker_ne _ hw _) hv
  | decr w =>
    by_cases hw : v = w
    · subst hw
      refine Or.inl ⟨ha.1, fun hpc => ⟨?_, ?_⟩⟩
      · rw [show (b.worker v).pc = .decr from hpc]
        simp
      · simp [Sched.next]
    · exact absurd (Sched.State.worker_ne _ hw _) hv
  | stopCheck e | stopAssert e | stopJoin e =>
    simp only [Sched.next] at hv
    split at hv <;> exact absurd rfl hv
  | wakeUp t | stopCall e | stopSet e | stopTickle e | stopSwap e | stopEnd e => exact absurd rfl hv
  | _ => cases ha

/-- The scheduler's position matters only before `idle_fiber->resume()`, and its task only inside a branch. -/
theorem Local.worker {w : W} {x x' : Sched.Worker (FiberId W) C} {t : Thread W} {v : View W C}
    (h : Local cfg w (x, t) v) (hpc : x'.pc = .idleInc → x.pc = .idleInc)
    (ht : x'.task = x.task ∨ t.pc = .run .main) : Local cfg w (x', t) v := by
  rcases ht with ht | hmain
  · have htarget : ∀ k, t.target x' k = t.target x k := by
      intro k
      cases k <;> simp only [Thread.target, ht]
    unfold Local at h ⊢
    dsimp only at h ⊢
    split at h
    · exact h
    · exact h
    · exact h
    · exact h
    · rename_i p _
      obtain ⟨hin, hst, hrun, hr, hat⟩ := h
      refine ⟨hin, hst, hrun, hr, ?_⟩
      cases p with
      | main => exact ⟨hat.1, hat.2.1, fun hx => hat.2.2 (hpc hx)⟩
      | check | unlock => simpa only [AtRun, Holds, htarget] using hat
      | set k | swap k => cases k <;> simpa only [AtRun, Holds, htarget] using hat
      | back k n => cases k <;> simpa only [AtRun, Holds, htarget] using hat
      | make => simpa only [AtRun, ht] using hat
      | lock => exact hat
    · exact h
    · obtain ⟨f, hst, hrun, hhas, hunder⟩ := h
      refine ⟨f, hst, hrun, hhas, ?_⟩
      cases f with
      | task n => simpa only [Under, htarget] using hunder
      | _ => exact hunder
  · simp only [Local, hmain] at h ⊢
    obtain ⟨hin, hst, hrun, hr, hat⟩ := h
    exact ⟨hin, hst, hrun, hr, hat.1, hat.2.1, fun hx => hat.2.2 (hpc hx)⟩

theorem IdleSync.move {w : W} {x x' : Sched.Worker (FiberId W) C} {t t' : Thread W} {v : View W C}
    (h : IdleSync w x t v) (hx : x'.idlePos = x.idlePos) (ht : t'.idleFiber = t.idleFiber) : IdleSync w x' t' v := by
  refine ⟨ht.trans h.1, h.2.imp fun y hy => ?_⟩
  rw [hx]
  exact hy

theorem sync_run {w : W} {x : Sched.Worker (FiberId W) C} {t : Thread W} {v : View W C} {p : RunPc}
    (hpc : t.pc = .run p) : Sync cfg w (x, t) v ↔ RunAt w x t v p := by
  simp only [Sync, hpc]

/-- A new thread is outside `run()`, and a thread that `start()` has created is not the caller. -/
theorem Sync.start {w : W} {x : Sched.Worker (FiberId W) C} {t : Thread W} {v : View W C} (h : Sync cfg w (x, t) v)
    (hl : Local cfg w (x, t) v) (hx : x.pc = .unborn) (hroot : cfg.root ≠ some w) :
    Sync cfg w ({ x with pc := .start }, t) v := by
  have hpc : t.pc = .unborn := by
    unfold Sync at h
    dsimp only at h
    split at h
    · assumption
    · rename_i hpc
      simp only [Local, hpc] at hl
      exact absurd hl.1 hroot
    · rw [hx] at h
      cases h.1
    · rw [hx] at h
      cases h
    · rename_i p hpc
      cases p with
      | main => exact absurd hx h.1
      | make | lock | check | unlock => cases hx.symm.trans h.1
      | set k | swap k | back k n => cases k <;> cases hx.symm.trans h.1
    · unfold MainSync at h
      split at h
      · cases hx.symm.trans h.1
      · cases hx.symm.trans h.1
      · rw [hx] at h
        unfold SchedAt at h
        split at h <;> cases h
      · exact h.elim
  unfold Sync
  rw [hpc]
  exact Or.inr rfl

/-- The scheduler's own steps keep the local invariants. -/
theorem owned_base (h : Owned cfg s) {a : Sched.Act W E (FiberId W) C} (hg : Sched.guard cfg s.base a)
    (ha : baseGuard s a) :
    Ownership.Inv (Known cfg) Free (own cfg s.mMutex) s.fib
      fun w => ((Sched.next cfg s.base a).worker w, s.thread w) := by
  apply Ownership.Inv.mono h
  rintro w v ⟨hl, hy⟩
  by_cases hw : (Sched.next cfg s.base a).worker w = s.base.worker w
  · rw [hw]
    exact ⟨hl, hy⟩
  · rcases base_worker ha w hw with ⟨hmain, hx⟩ | ⟨hpc, hroot, hx⟩
    · obtain ⟨hpc, hpc', hidle⟩ := hx hg
      have hrun := (sync_run hmain).1 hy
      refine ⟨hl.worker ?_ (Or.inr hmain), (sync_run hmain).2 ?_⟩
      · intro hn
        rcases hpc' with hpc' | hpc' | hpc' <;> cases hn.symm.trans hpc'
      · refine ⟨?_, ?_, ?_, ?_, fun _ => (hrun.2.2.2.2 hpc).move hidle rfl⟩
        all_goals rcases hpc' with hpc' | hpc' | hpc' <;> rw [hpc'] <;> simp
    · refine ⟨hl.worker ?_ ?_, ?_⟩
      · intro hidle
        rw [hx] at hidle
        cases hidle
      · rw [hx]
        exact Or.inl rfl
      · rw [hx]
        exact hy.start hl hpc hroot

/-- An entry for a task fiber. -/
theorem typed_push (h : Typed s) {t : W ⊕ E} {fc : FiberOrCallback (FiberId W) C} {thr : Int}
    (hmade : ∀ f, (ScheduleTask.make fc thr).fiber = some f → Made s.nextId f) :
    Typed { s with base := Sched.next cfg s.base (.scheduleLock t fc thr) } := by
  simp only [Sched.next, Sched.State.push]
  split
  · refine h.step (Nat.le_refl _) ?_ (fun _ _ he => Or.inl he) (fun _ _ hf => Or.inl hf) (fun _ hf => Or.inl hf)
      (fun _ hf => Or.inl hf) (fun _ hn => Or.inl hn)
    intro e he
    rcases List.mem_append.1 he with he | he
    · exact Or.inl he
    · rw [List.mem_singleton.1 he]
      exact Or.inr hmade
  · exact h.same (fun _ he => he) (fun _ _ he => Or.inl he) (fun _ _ hf => hf) rfl rfl rfl rfl

/-- What the scheduler's own steps do to the references in the queue and in the workers' tasks. -/
theorem typed_base (h : Typed s) {a : Sched.Act W E (FiberId W) C}
    (hpass : ∀ t fc thr f, a = .scheduleLock t fc thr → (ScheduleTask.make fc thr).fiber = some f → Made s.nextId f) :
    Typed { s with base := Sched.next cfg s.base a } := by
  refine h.step (Nat.le_refl _) ?_ (fun _ _ he => Sched.task_next he) (fun _ _ hf => Or.inl hf) (fun _ hf => Or.inl hf)
    (fun _ hf => Or.inl hf) (fun _ hn => Or.inl hn)
  intro e he
  rcases Sched.mem_next he with he | ⟨t, fc, thr, hact, hmake, -⟩
  · exact Or.inl he
  · refine Or.inr (fun f hf => hpass t fc thr f hact ?_)
    rw [← hmake]
    exact hf

section Users

omit [DecidableEq E]

/-- What is handed to `scheduleLock` is in a user's hands or runs its code. -/
theorem made_of_pass (husers : ∀ f, 0 < s.userRefs f → Made s.nextId f)
    (hrunning : ∀ w f, s.inUser w = true → (s.thread w).runningFiber = some f → Made s.nextId f) {t : W ⊕ E}
    {fc : FiberOrCallback (FiberId W) C} {thr : Int} {f : FiberId W} (hg : mayCall s t ∧ mayPass s t fc)
    (hf : (ScheduleTask.make fc thr).fiber = some f) : Made s.nextId f := by
  obtain ⟨hcall, hpass⟩ := hg
  cases fc with
  | fiber o =>
    simp only [ScheduleTask.make] at hf
    subst hf
    cases t with
    | inl w =>
      rcases hpass with hpass | hpass
      · exact husers f hpass
      · exact hrunning w f hcall hpass
    | inr e => exact husers f hpass
  | fiberPtr o =>
    simp only [ScheduleTask.make] at hf
    subst hf
    cases t <;> exact husers f hpass
  | callback c | callbackPtr c => cases hf

/-- A reference that is given up was there. -/
theorem users_drop {f g : FiberId W} (hg : 0 < Function.update s.userRefs f (s.userRefs f - 1) g) :
    0 < s.userRefs g := by
  by_cases hgf : g = f
  · rw [hgf, Function.update_self] at hg
    rw [hgf]
    omega
  · rwa [Function.update_of_ne hgf] at hg

/-- A reference that is there now was there before, or is to what has been constructed. -/
theorem users_take {f g : FiberId W} {n m : Nat} (hf : Made m f) (hg : 0 < Function.update s.userRefs f n g) :
    0 < s.userRefs g ∨ Made m g := by
  by_cases hgf : g = f
  · rw [hgf]
    exact Or.inr hf
  · rw [Function.update_of_ne hgf] at hg
    exact Or.inl hg

end Users

/-- What is handed to `scheduleLock` has been constructed. -/
theorem pass_made (h : Inv cfg s) {t : W ⊕ E} {fc : FiberOrCallback (FiberId W) C} {thr : Int} {f : FiberId W}
    (hg : mayCall s t ∧ mayPass s t fc) (hf : (ScheduleTask.make fc thr).fiber = some f) : Made s.nextId f :=
  made_of_pass h.typed.users (fun _ _ hu hrun => running_made h hu hrun) hg hf

theorem inv_base (h : Inv cfg s) {a : Sched.Act W E (FiberId W) C} (hg : guard cfg s (.base a)) :
    Inv cfg (next cfg s (.base a)) := by
  obtain ⟨hg, ha⟩ := hg
  have htyped : Typed { s with base := Sched.next cfg s.base a } := by
    apply typed_base h.typed
    rintro t fc thr f rfl hf
    exact pass_made h ha hf
  have howned := owned_base h.owned hg ha
  simp only [next]
  split
  · exact ⟨h.static, h.coherent, ⟨htyped.queue, htyped.tasks, htyped.cbs, htyped.timers, htyped.users, htyped.mutex⟩,
      howned⟩
  · rename_i f _
    exact ⟨h.static, h.coherent, htyped.step (Nat.le_refl _) (fun _ he => Or.inl he) (fun _ _ he => Or.inl he)
      (fun _ _ hf => Or.inl hf) (fun _ hf => Or.inl hf) (fun _ hg => Or.inl (users_drop hg))
      (fun _ hn => Or.inl hn), howned⟩
  · exact ⟨h.static, h.coherent, htyped, howned⟩

theorem inv_newFiber (h : Inv cfg s) (c : C) : Inv cfg (next cfg s (.newFiber c)) := by
  have hfree : own cfg s.mMutex (.task s.nextId) = none := by
    by_contra hne
    have hlt := h.typed.mutex s.nextId hne
    omega
  refine ⟨h.static.update ⟨rfl, Or.inr ⟨c, rfl⟩⟩, h.coherent.update (.make _ (by simp) _ _), ?_, ?_⟩
  · exact h.typed.step (Nat.le_succ _) (fun _ he => Or.inl he) (fun _ _ he => Or.inl he) (fun _ _ hf => Or.inl hf)
      (fun _ hf => Or.inl hf) (fun _ hf => users_take ⟨s.nextId, rfl, Nat.lt_succ_self _⟩ hf) (fun _ hn => Or.inl hn)
  · exact Ownership.Inv.renew h.owned hfree (fun n _ => Or.inl ⟨rfl, rfl, rfl⟩)

/-- User code takes or gives up a reference to `f`. -/
theorem Inv.users (h : Inv cfg s) {f : FiberId W} (hf : Made s.nextId f) (refs : FiberId W → Nat)
    (dead : FiberId W → Bool) (n : Nat) :
    Inv cfg { s with refs := refs, dead := dead, userRefs := Function.update s.userRefs f n } := by
  exact ⟨h.static, h.coherent, h.typed.step (Nat.le_refl _) (fun _ he => Or.inl he) (fun _ _ he => Or.inl he)
    (fun _ _ hf => Or.inl hf) (fun _ hf => Or.inl hf) (fun _ hg => users_take hf hg) (fun _ hn => Or.inl hn), h.owned⟩

theorem inv_getRunning (h : Inv cfg s) {w : W} (hg : guard cfg s (.getRunning w)) :
    Inv cfg (next cfg s (.getRunning w)) := by
  simp only [next]
  split
  · exact h.abort _
  · rename_i f hf
    exact h.users (running_made h hg hf) _ _ _

/-- No timer fires that an idle fiber's `sleep` has armed. -/
def NoIdleTimer (s : State W E C) : Act W E C → Prop
  | .fire _ i =>
    match s.timers[i]? with
    | some (.idle _) => False
    | _ => True
  | _ => True

instance (s : State W E C) (a : Act W E C) : Decidable (NoIdleTimer s a) := by
  refine decidable_of_iff ((match a with
    | .fire _ i => (match s.timers[i]? with | some (.idle _) => false | _ => true)
    | _ => true) = true) ?_
  cases a with
  | fire e i => rcases hf : s.timers[i]? with _ | (_ | _ | _ | _) <;> simp [NoIdleTimer, hf]
  | _ => simp [NoIdleTimer]

theorem inv_fire (h : Inv cfg s) {e : E} {i : Nat} (hp : NoIdleTimer s (.fire e i)) :
    Inv cfg (next cfg s (.fire e i)) := by
  simp only [next]
  split
  · exact h
  · rename_i f hf
    have hmade : Made s.nextId f := by
      rcases h.typed.timers f (List.mem_of_getElem? hf) with hm | ⟨v, rfl⟩
      · exact hm
      · simp only [NoIdleTimer, hf] at hp
    have htyped : Typed { s with base := Sched.next cfg s.base (.scheduleLock (.inr e) (.fiber (some f)) (-1)) } :=
      typed_push h.typed (fun g hg => by cases hg; exact hmade)
    have howned : (Sched.next cfg s.base (.scheduleLock (.inr e) (.fiber (some f)) (-1))).worker = s.base.worker := rfl
    refine ⟨h.static, h.coherent, ?_, ?_⟩
    · refine ⟨htyped.queue, htyped.tasks, htyped.cbs, ?_, htyped.users, htyped.mutex⟩
      intro g hg
      exact htyped.timers g (List.mem_of_mem_eraseIdx hg)
    · unfold Owned
      simp only [howned]
      exact h.owned

/-! ## Steps of `run()` -/

/-- The scheduler's part of a step of `w` that takes nothing from the queue. -/
structure BaseMoves (b b' : Sched.State W E (FiberId W) C) (w : W) : Prop where
  queue : b'.mTasks = b.mTasks
  workers : ∀ v, v ≠ w → b'.worker v = b.worker v
  task : ∀ e ∈ (b'.worker w).task, e ∈ (b.worker w).task

theorem BaseMoves.refl (b : Sched.State W E (FiberId W) C) (w : W) : BaseMoves b b w :=
  ⟨rfl, fun _ _ => rfl, fun _ he => he⟩

theorem BaseMoves.of {b b' : Sched.State W E (FiberId W) C} {w : W} {x : Sched.Worker (FiberId W) C}
    (hq : b'.mTasks = b.mTasks) (hw : b'.worker = Function.update b.worker w x)
    (hx : ∀ e ∈ x.task, e ∈ (b.worker w).task) : BaseMoves b b' w := by
  refine ⟨hq, ?_, ?_⟩
  · intro v hv
    rw [hw, Function.update_of_ne hv]
  · rw [hw, Function.update_self]
    exact hx

/-- **A worker moves**, and changes fibers that it owns. -/
theorem Inv.moved (h : Inv cfg s) {s' : State W E C} {w : W} {b : Sched.State W E (FiberId W) C} {t : Thread W}
    {fib : FiberId W → Fiber W C} {r : FiberId W → Nat} {d : FiberId W → Bool}
    (hs : s' = { s with base := b, thread := Function.update s.thread w t, fib := fib, refs := r, dead := d })
    (hb : BaseMoves s.base b w) (hc : ∀ f ∈ t.cbFiber, f ∈ (s.thread w).cbFiber) (hstatic : Static fib)
    (hcoherent : Coherent fib) (hcell : ∀ f, own cfg s.mMutex f ≠ some w → fib f = s.fib f)
    (hl : Known cfg w (b.worker w, t) (view (own cfg s.mMutex) fib w)) : Inv cfg s' := by
  subst hs
  refine ⟨hstatic, hcoherent, ?_, ?_⟩
  · refine h.typed.same ?_ ?_ ?_ rfl rfl rfl rfl
    · intro e he
      dsimp only at he
      rwa [hb.queue] at he
    · intro v e he
      by_cases hv : v = w
      · subst hv
        exact Or.inl (hb.task e he)
      · dsimp only at he
        rw [hb.workers v hv] at he
        exact Or.inl he
    · intro v f hf
      by_cases hv : v = w
      · subst hv
        simp only [Function.update_self] at hf
        exact hc f hf
      · simp only [Function.update_of_ne hv] at hf
        exact hf
  · refine h.owned.write w rfl hb.workers ?_ hcell ?_
    · intro v hv
      exact Function.update_of_ne hv _ _
    · simp only [Function.update_self]
      exact hl

/-- A worker moves, and no fiber changes. -/
theorem Inv.went (h : Inv cfg s) {s' : State W E C} {w : W} {b : Sched.State W E (FiberId W) C} {t : Thread W}
    {r : FiberId W → Nat} {d : FiberId W → Bool}
    (hs : s' = { s with base := b, thread := Function.update s.thread w t, refs := r, dead := d })
    (hb : BaseMoves s.base b w) (hc : ∀ f ∈ t.cbFiber, f ∈ (s.thread w).cbFiber)
    (hl : Known cfg w (b.worker w, t) (view (own cfg s.mMutex) s.fib w)) : Inv cfg s' :=
  h.moved hs hb hc h.static h.coherent (fun _ _ => rfl) hl

/-- A worker moves in the scheduler's positions alone. -/
theorem Inv.stood (h : Inv cfg s) {s' : State W E C} {w : W} {b : Sched.State W E (FiberId W) C}
    (hs : s' = { s with base := b }) (hb : BaseMoves s.base b w)
    (hl : Known cfg w (b.worker w, s.thread w) (view (own cfg s.mMutex) s.fib w)) : Inv cfg s' := by
  apply h.went (t := s.thread w) (r := s.refs) (d := s.dead) _ hb (fun _ hf => hf) hl
  rw [hs, Function.update_eq_self]

/-- A worker moves, and changes one fiber that it owns. -/
theorem Inv.wrote (h : Inv cfg s) {s' : State W E C} {w : W} {b : Sched.State W E (FiberId W) C} {t : Thread W}
    {f : FiberId W} {x : Fiber W C} {r : FiberId W → Nat} {d : FiberId W → Bool}
    (hs : s' = { s with
      base := b, thread := Function.update s.thread w t, fib := Function.update s.fib f x, refs := r, dead := d })
    (hown : own cfg s.mMutex f = some w) (hb : BaseMoves s.base b w) (hc : ∀ f ∈ t.cbFiber, f ∈ (s.thread w).cbFiber)
    (hstatic : x.mYieldToSchedulerFiber = inScheduler f ∧ Runs f x.mCb) (hsaved : Saved f x)
    (hl : Known cfg w (b.worker w, t) (view (own cfg s.mMutex) (Function.update s.fib f x) w)) : Inv cfg s' := by
  refine h.moved hs hb hc (h.static.update hstatic) (h.coherent.update hsaved) ?_ hl
  intro g hg
  exact Function.update_of_ne (by rintro rfl; exact hg hown) _ _

theorem local_run {w : W} {x : Sched.Worker (FiberId W) C} {t : Thread W} {v : View W C} {p : RunPc}
    (hpc : t.pc = .run p) : Local cfg w (x, t) v ↔ InRun cfg w t v ∧ t.stack = home (runner cfg w) ∧
      t.runningFiber = some (runner cfg w) ∧ Has v (runner cfg w) (fun y => y.mState = .running) ∧
      AtRun w x t v p := by
  simp only [Local, hpc]

theorem InRun.thread {w : W} {t t' : Thread W} {v : View W C} (h : InRun cfg w t v)
    (hs : t'.schedulerFiber = t.schedulerFiber) (hm : t'.mainFiber = t.mainFiber) : InRun cfg w t' v :=
  ⟨hs.trans h.scheduler, hm.trans h.main, h.below⟩

/-- From one position of `run()` to another. -/
theorem Known.run {w : W} {x x' : Sched.Worker (FiberId W) C} {t : Thread W} {v : View W C} {p p' : RunPc}
    (h : Known cfg w (x, t) v) (hpc : t.pc = .run p) (hat : AtRun w x t v p → AtRun w x' { t with pc := .run p' } v p')
    (hsync : RunAt w x t v p → RunAt w x' { t with pc := .run p' } v p') :
    Known cfg w (x', { t with pc := .run p' }) v := by
  obtain ⟨hin, hst, hrun, hr, hl⟩ := (local_run hpc).1 h.1
  exact ⟨(local_run rfl).2 ⟨hin.thread rfl rfl, hst, hrun, hr, hat hl⟩, (sync_run rfl).2 (hsync ((sync_run hpc).1 h.2))⟩

theorem Inv.known (h : Inv cfg s) (w : W) :
    Known cfg w (s.base.worker w, s.thread w) (view (own cfg s.mMutex) s.fib w) := h.owned.local' w

/-- A worker at the scheduler's position `pc` has its idle fiber. -/
theorem Inv.idle (h : Inv cfg s) {w : W} {pc : Sched.Pc} (hg : s.standsAt w pc) (hpc : pc ≠ .start) :
    IdleSync w (s.base.worker w) (s.thread w) (view (own cfg s.mMutex) s.fib w) := by
  obtain ⟨⟨hrun, -⟩, hx⟩ := hg
  refine ((sync_run hrun).1 (h.sync w)).2.2.2.2 ?_
  rw [hx]
  exact hpc

theorem inv_enter (h : Inv cfg s) {w : W} (hg : guard cfg s (.enter w)) : Inv cfg (next cfg s (.enter w)) := by
  obtain ⟨⟨hpc, -⟩, -⟩ := hg
  obtain ⟨hin, hst, hrun, hr, hno, -, -⟩ := (local_run hpc).1 (h.local w)
  refine h.wrote (f := .idle w) rfl rfl (BaseMoves.of rfl rfl fun e he => he) (fun f hf => hf) ⟨rfl, Or.inr rfl⟩
    (.make _ (by simp) _ _) ⟨?_, ?_⟩
  · refine (local_run (p := .main) (by exact hpc)).2 ⟨?_, hst, hrun, ?_, hno.frame, ?_, ?_⟩
    · exact InRun.thread (t := s.thread w) (hin.update (by simp) (by simp)) rfl rfl
    · exact hr.update (runner_ne_idle cfg w w)
    · intro i hi
      cases hi
      exact ⟨rfl, Has.self rfl (Or.inl ⟨rfl, rfl, rfl⟩)⟩
    · intro hidle
      simp [Sched.next] at hidle
  · refine (sync_run (p := .main) (by exact hpc)).2 ?_
    simp only [RunAt, Sched.next, Sched.State.setWorker, Function.update_self]
    exact ⟨by simp, by simp, by simp, by simp, fun _ => ⟨rfl, Has.self rfl ⟨by simp [Fiber.make], by simp⟩⟩⟩

theorem inv_top (h : Inv cfg s) {w : W} (hg : guard cfg s (.top w)) : Inv cfg (next cfg s (.top w)) := by
  have hsync := h.idle hg (by simp)
  obtain ⟨⟨hpc, -⟩, -⟩ := hg
  obtain ⟨hin, hst, hrun, hr, hno, hidle, -⟩ := (local_run hpc).1 (h.local w)
  refine h.went rfl (BaseMoves.of rfl rfl (by simp)) (fun f hf => hf) ⟨?_, ?_⟩
  · refine (local_run (p := .main) (by exact hpc)).2 ⟨hin.thread rfl rfl, hst, hrun, hr, hno, hidle, ?_⟩
    intro hidle
    simp [Sched.next] at hidle
  · refine (sync_run (p := .main) (by exact hpc)).2 ?_
    simp only [RunAt, Sched.next, Sched.State.setWorker, Function.update_self]
    exact ⟨by simp, by simp, by simp, by simp, fun _ => hsync.move rfl rfl⟩

theorem inv_dispatch (h : Inv cfg s) {w : W} (hg : guard cfg s (.dispatch w)) : Inv cfg (next cfg s (.dispatch w)) := by
  have hsync := h.idle hg (by simp)
  obtain ⟨⟨hpc, -⟩, -⟩ := hg
  have hl := h.known w
  simp only [next]
  split
  · rename_i e he
    have hnext : Sched.next cfg s.base (.dispatch w) = s.base.goto w .exec := by
      simp only [Sched.next, he]
    rw [hnext]
    refine h.went rfl (BaseMoves.of rfl rfl fun _ he => he) (fun f hf => hf) ?_
    simp only [Sched.State.goto, Sched.State.setWorker, Function.update_self]
    split_ifs with hf
    · exact hl.run hpc (fun hat => ⟨hat.1, hat.2.1⟩) (fun _ => ⟨rfl, hsync.move rfl rfl⟩)
    · refine hl.run hpc (fun hat => ⟨hat.1, hat.2.1, ?_⟩) (fun _ => ⟨rfl, hsync.move rfl rfl⟩)
      rw [he, Option.bind_some]
      simpa using hf
  · split
    · exact h.abort _
    · rename_i i hi
      obtain ⟨hin, hst, hrun, hr, hno, hidle, -⟩ := (local_run hpc).1 hl.1
      obtain ⟨rfl, hrest⟩ := hidle i hi
      refine h.stood rfl (BaseMoves.of rfl rfl fun _ he => he) ⟨?_, ?_⟩
      · refine (local_run (p := .main) (by exact hpc)).2 ⟨hin, hst, hrun, hr, hno, hidle, ?_⟩
        intro hx
        refine ⟨hi, has_iff.2 ⟨rfl, ?_⟩⟩
        have hrest := (has_iff.1 hrest).2
        cases hstate : (s.fib (.idle w)).mState with
        | ready => rfl
        | running => simp [Rest, hstate] at hrest
        | term => simp [hstate] at hx
      · refine (sync_run (p := .main) (by exact hpc)).2 ?_
        simp only [RunAt, Sched.State.goto, Sched.State.setWorker, Function.update_self]
        split_ifs with hterm
        · exact ⟨by simp, by simp, by simp, fun _ => (has_iff.1 hsync.2).2.1 hterm, fun _ => hsync.move rfl rfl⟩
        · exact ⟨by simp, by simp, by simp, by simp, fun _ => hsync.move rfl rfl⟩

theorem inv_idleInc (h : Inv cfg s) {w : W} (hg : guard cfg s (.idleInc w)) : Inv cfg (next cfg s (.idleInc w)) := by
  have hsync := h.idle hg (by simp)
  obtain ⟨⟨hpc, -⟩, hx⟩ := hg
  refine h.went rfl (BaseMoves.of rfl rfl fun _ he => he) (fun f hf => hf) ((h.known w).run hpc ?_ ?_)
  · rintro ⟨hno, hidle, hready⟩
    obtain ⟨hi, hready⟩ := hready hx
    refine ⟨hno, hi, ?_⟩
    obtain ⟨-, hrest⟩ := hidle _ hi
    rw [has_iff] at hrest hready ⊢
    exact ⟨hrest.1, hrest.2, hready.2⟩
  · intro _
    simp only [RunAt, Sched.next, Sched.State.goto, Sched.State.setWorker, Function.update_self]
    exact ⟨trivial, hsync.move rfl rfl⟩

theorem inv_idleDec (h : Inv cfg s) {w : W} (hg : guard cfg s (.idleDec w)) : Inv cfg (next cfg s (.idleDec w)) := by
  obtain ⟨hpc, -⟩ := hg
  refine h.went rfl (BaseMoves.of rfl rfl fun _ he => he) (fun f hf => hf) ((h.known w).run hpc ?_ ?_)
  · rintro ⟨hno, hidle⟩
    refine ⟨hno, hidle, ?_⟩
    intro hx
    simp [Sched.next] at hx
  · rintro ⟨-, hsync⟩
    simp only [RunAt, Sched.next, Sched.State.goto, Sched.State.setWorker, Function.update_self]
    exact ⟨by simp, by simp, by simp, by simp, fun _ => hsync.move rfl rfl⟩

theorem inv_reset (h : Inv cfg s) {w : W} (hg : guard cfg s (.reset w)) : Inv cfg (next cfg s (.reset w)) := by
  have hsync := h.idle hg (by simp)
  obtain ⟨⟨hpc, -⟩, -⟩ := hg
  obtain ⟨hin, hst, hrun, hr, hno, hidle, -⟩ := (local_run hpc).1 (h.local w)
  have hl : Known cfg w ((Sched.next cfg s.base (.reset w)).worker w, { s.thread w with cbFiber := none })
      (view (own cfg s.mMutex) s.fib w) := by
    refine ⟨(local_run (p := .main) (by exact hpc)).2 ⟨hin.thread rfl rfl, hst, hrun, hr, hno, hidle, ?_⟩, ?_⟩
    · intro hx
      simp [Sched.next] at hx
    · refine (sync_run (p := .main) (by exact hpc)).2 ?_
      simp only [RunAt, Sched.next, Sched.State.setWorker, Function.update_self]
      exact ⟨by simp, by simp, by simp, by simp, fun _ => hsync.move rfl rfl⟩
  have hb : BaseMoves s.base (Sched.next cfg s.base (.reset w)) w := BaseMoves.of rfl rfl (by simp)
  simp only [next]
  cases s.target w .task with
  | none => exact h.went rfl hb (by simp) hl
  | some f => exact h.went rfl hb (by simp) hl

end Sylar.Fibers
