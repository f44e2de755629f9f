import Sylar.Lib.Mutex
import Sylar.Fiber.Handled

/-!
# The order of the locks

The locks of the scheduler are `m_mutex` and the mutex of every fiber. `run()` takes the mutex of a task's fiber outside
every section, and keeps it while the fiber runs; the fiber's code, and `idle()`, take `m_mutex` for a section and
nothing in it. So a fiber's mutex comes before `m_mutex`, and nothing comes after that. This holds in every run, and of
the mutex of an idle fiber that a timer has queued as well.

- `sections`: the sections under `m_mutex`, which `Mutex.withMutex` takes apart;
- `Holder`, `holder_reach`: who has the mutex of a fiber is inside the branch of a task, and has the fiber at hand;
- `AtSection`: who waits for a fiber's mutex is in no section;
- `locks_acyclic`: who waits for which lock while holding which.
-/

set_option linter.unusedSectionVars false

namespace Sylar.Fibers.Isolated

open Trans Ownership

variable {W E C : Type} [DecidableEq W] [DecidableEq E] {cfg : Sylar.Config W E} {s : State W E C} {w : W}

/-! ## Threads and sections -/

/-- The kernel's thread: the caller thread's `run()` executes in the thread that ran the constructor. -/
def kernelThread (cfg : Sylar.Config W E) : W ⊕ E → W ⊕ E
  | .inl w => if cfg.root = some w then .inr cfg.owner else .inl w
  | .inr e => .inr e

/-- The sections under `m_mutex`: those of `scheduleLock`, `run` and `start`, that of `stop`, and those of `stopping()`,
which `stop`, `idle` and the destructor call. -/
def critical (s : State W E C) : Act W E C → Bool
  | .base (.scheduleLock _ _ _) | .base (.scan _) | .base (.start _) | .base (.stopCheck _) | .base (.stopSwap _)
    | .fire _ _ | .destroy _ => true
  | .idle w =>
    match s.idler w with
    | some v => (s.base.worker v).idlePos == .test
    | none => false
  | _ => false

def sections (cfg : Sylar.Config W E) : Mutex.Sections (State W E C) (Act W E C) (W ⊕ E) where
  mover a := (mover a).map (kernelThread cfg)
  critical := critical

/-- **The scheduler with `m_mutex`.** -/
def locking (C : Type) (cfg : Sylar.Config W E) :
    System (Mutex.State (State W E C) (W ⊕ E)) (Mutex.Act (Act W E C) (W ⊕ E)) :=
  Mutex.withMutex (system C cfg) (sections cfg)

instance [DecidableEq C] (cfg : Sylar.Config W E) (s : Mutex.State (State W E C) (W ⊕ E))
    (a : Mutex.Act (Act W E C) (W ⊕ E)) : Decidable ((locking C cfg).enabled s a) :=
  inferInstanceAs (Decidable ((Mutex.withMutex (system C cfg) (sections cfg)).enabled s a))

/-- `m_mutex` of the scheduler, and that of each fiber. -/
inductive Lock (W : Type) where
  | scheduler
  | fiber (f : FiberId W)

/-- The order: a fiber's mutex comes before `m_mutex`. -/
def Lock.rank : Lock W → Nat
  | .fiber _ => 0
  | .scheduler => 1

/-- The thread has the lock. -/
def HasLock (cfg : Sylar.Config W E) (s : Mutex.State (State W E C) (W ⊕ E)) (t : W ⊕ E) : Lock W → Prop
  | .scheduler => s.owner = some t
  | .fiber f => ∃ w, kernelThread cfg (.inl w) = t ∧ s.base.mMutex f = some w

/-- The thread waits for the lock, or is about to take it. -/
def WantsLock (cfg : Sylar.Config W E) (s : Mutex.State (State W E C) (W ⊕ E)) (t : W ⊕ E) : Lock W → Prop
  | .scheduler => s.phase t = .waiting
  | .fiber f => ∃ w, kernelThread cfg (.inl w) = t ∧ (s.base.thread w).pc = .run .lock ∧
      s.base.target w .task = some f

theorem kernelThread_inj {w v : W} (h : kernelThread cfg (.inl w) = kernelThread cfg (.inl v)) : w = v := by
  unfold kernelThread at h
  dsimp only at h
  split_ifs at h with hw hv
  · rw [hw] at hv
    exact Option.some_inj.1 hv
  · exact Sum.inl_injective h

/-! ## Who has the mutex of a fiber -/

/-- In front of the mutex of a fiber. -/
def Front (pc : Pc W) : Prop := pc = .run .make ∨ pc = .run .lock

/-- A worker that may have the mutex of the fiber: it is behind `lock` in the branch of a task, and has it at hand. -/
structure Holder (s : State W E C) (w : W) (f : FiberId W) : Prop where
  exec : (s.base.worker w).pc = .exec
  hand : s.target w .task = some f
  inside : ¬ Front (s.thread w).pc

/-- The switch of a `yield()` leads back behind a `resume()`. -/
theorem yswap_back (hi : Inv cfg s) {x : FiberId W} {ended : Bool} (hpc : (s.thread w).pc = .yield x ended) :
    ((next cfg s (.yswap w)).thread w).pc = .yield x ended ∨ ((next cfg s (.yswap w)).thread w).pc = .stopBack ∨
      ∃ k n, ((next cfg s (.yswap w)).thread w).pc = .run (.back k n) := by
  obtain ⟨-, ⟨-, hthread⟩ | ⟨r, c, pc, hr, -, hthread⟩⟩ := yswap_eq hi hpc
  · rw [hthread]
    exact Or.inl hpc
  · rw [hthread, Function.update_self]
    rcases hr with ⟨-, hback⟩ | ⟨-, hback⟩
    · exact Or.inr (Or.inr hback)
    · exact Or.inr (Or.inl hback)

/-- **A worker at work comes in front of no mutex.** -/
theorem front_next (hi : Inv cfg s) {a : Act W E C} (hg : guard cfg s a) (hp : ∀ w, Placed cfg s w)
    (hexec : (s.base.worker w).pc = .exec) (h : Front ((next cfg s a).thread w).pc) : Front (s.thread w).pc := by
  by_cases hactor : actor cfg a = some w
  · have hmain : (a = .entry w ∨ a = .sleep w ∨ a = .yield w ∨ a = .ret w ∨ a = .idle w ∨ a = .setTerm w ∨
        a = .dropSelf w ∨ a = .last w) → Front (s.thread w).pc := by
      intro ha
      obtain ⟨-, hr, -⟩ := remains_next hi hg ha
      rcases h with h | h <;> simp [h, Pc.InMainFunc] at hr
    have hroot : ∀ pc, (s.thread w).pc = pc → (pc = .native ∨ pc = .stopBack) → Front (s.thread w).pc := by
      intro pc hpc hpc'
      have hout := hp w
      rcases hpc' with rfl | rfl <;> simp only [Placed, Fit, hpc, Outer, hexec, reduceCtorEq, or_self] at hout
    cases a with
    | base a | getRunning v =>
      simp only [next] at h
      split at h <;> exact h
    | newFiber c | share f | release f | fire e i | destroy e => cases hactor
    | enter v | top v | dispatch v | reset v | idleInc v | leave v =>
      obtain rfl : v = w := Option.some_inj.1 hactor
      cases hexec.symm.trans hg.2
    | prologue v =>
      obtain rfl : v = w := Option.some_inj.1 hactor
      cases hexec.symm.trans hg.1
    | idleDec v =>
      obtain rfl : v = w := Option.some_inj.1 hactor
      cases hexec.symm.trans ((fit_run hg.1).1 (hp v))
    | make v =>
      obtain rfl : v = w := Option.some_inj.1 hactor
      exact Or.inl hg.1
    | lock v =>
      obtain rfl : v = w := Option.some_inj.1 hactor
      exact Or.inr hg.1.1
    | check v =>
      obtain rfl : v = w := Option.some_inj.1 hactor
      simp only [next] at h
      split at h
      · exact h
      · split at h <;> simp [Front] at h
    | set v k =>
      obtain rfl : v = w := Option.some_inj.1 hactor
      simp only [next] at h
      split at h
      · exact h
      · split at h
        · simp [Front] at h
        · exact h
    | swap v k =>
      obtain rfl : v = w := Option.some_inj.1 hactor
      rcases swap_eq hi hg with ⟨-, hthread⟩ | ⟨g, c, x, htarget, -, -, hthread⟩
      · rwa [hthread] at h
      · rw [hthread, Function.update_self] at h
        rcases (last_target hi hg htarget).2 with hl | hl | hl <;> simp [Front, hl] at h
    | unlock v =>
      obtain rfl : v = w := Option.some_inj.1 hactor
      simp only [next] at h
      split at h
      · exact h
      · simp [Front] at h
    | entry v | sleep v | yield v | ret v | idle v | setTerm v | dropSelf v | last v =>
      obtain rfl : v = w := Option.some_inj.1 hactor
      exact hmain (by simp)
    | yswap v =>
      obtain rfl : v = w := Option.some_inj.1 hactor
      simp only [guard] at hg
      split at hg
      · rename_i x ended hpc
        rcases yswap_back hi hpc with hto | hto | ⟨k, n, hto⟩ <;> simp [Front, hto] at h
      · exact hg.elim
    | stopResume e => exact hroot _ (hg.2 w hactor) (Or.inl rfl)
    | stopBack e => exact hroot _ (hg.2 w hactor) (Or.inr rfl)
  · rwa [thread_next cfg s hactor] at h

/-- A worker that has a mutex keeps what it stands for, up to its `unlock`. -/
theorem Holder.next {f : FiberId W} (h : Holder s w f) (hi : Inv cfg s) {a : Act W E C} (hg : guard cfg s a)
    (hp : ∀ w, Placed cfg s w) (ha : a ≠ .unlock w) : Holder (next cfg s a) w f := by
  have hmake : a ≠ .make w := by
    rintro rfl
    exact h.inside (Or.inl hg.1)
  have hreset : a ≠ .reset w := by
    rintro rfl
    cases h.exec.symm.trans hg.2
  rcases handling_next hi hg hp (Or.inl h.exec) with hr | ⟨htask, hpc | ⟨hu, -⟩ | ⟨hd, -⟩⟩
  · exact absurd hr hreset
  · exact ⟨hpc.trans h.exec, (target_next hmake hreset htask).trans h.hand,
      fun hfront => h.inside (front_next hi hg hp h.exec hfront)⟩
  · exact absurd hu ha
  · subst hd
    cases h.exec.symm.trans hg.1

/-- **What a step makes of the mutexes.** -/
theorem holder_next (hi : Inv cfg s) {a : Act W E C} (hg : guard cfg s a) (hp : ∀ w, Placed cfg s w)
    (h : ∀ w f, s.mMutex f = some w → Holder s w f) {f : FiberId W} (hf : (next cfg s a).mMutex f = some w) :
    Holder (next cfg s a) w f := by
  -- a mutex that was held before
  have hold : s.mMutex f = some w → a ≠ .unlock w → Holder (next cfg s a) w f :=
    fun hm ha => (h w f hm).next hi hg hp ha
  by_cases ha : ∀ v, a ≠ .lock v ∧ a ≠ .make v ∧ a ≠ .unlock v
  · rw [(Fibers.moves_next cfg s ha).locks] at hf
    exact hold hf (ha w).2.2
  · cases a with
    | lock v =>
      obtain ⟨⟨hpc, -⟩, g, hg', -⟩ := id hg
      have htarget : s.target v .task = some g := hg'
      have hthread : ((next cfg s (.lock v)).thread v).pc = .run .check := by simp [next, htarget]
      have hbase : (next cfg s (.lock v)).base = s.base := by simp [next, htarget]
      have hmutex : (next cfg s (.lock v)).mMutex = Function.update s.mMutex g (some v) := by simp [next, htarget]
      by_cases hfg : f = g
      · rw [hmutex, hfg, Function.update_self] at hf
        obtain rfl := Option.some_inj.1 hf
        refine ⟨?_, ?_, ?_⟩
        · rw [hbase]
          exact (fit_run hpc).1 (hp v)
        · rw [target_next (by simp) (by simp) (by rw [hbase]), htarget, hfg]
        · simp [hthread, Front]
      · rw [hmutex, Function.update_of_ne hfg] at hf
        exact hold hf (by simp)
    | make v =>
      by_cases hfn : f = .task s.nextId
      · have hm : (next cfg s (.make v)).mMutex f = some v := by simp [next, hfn]
        obtain rfl : v = w := Option.some_inj.1 (hm.symm.trans hf)
        obtain ⟨-, -, -, -, hnone, -⟩ := (stands_run hg.1).1 (hi.stands v)
        refine ⟨(fit_run hg.1).1 (hp v), ?_, ?_⟩
        · simp [next, State.target, Thread.target, hnone, hfn]
        · simp [next, Front]
      · have hm : (next cfg s (.make v)).mMutex f = s.mMutex f := by simp [next, hfn]
        rw [hm] at hf
        exact hold hf (by simp)
    | unlock v =>
      cases htarget : s.target v .task with
      | none =>
        have hm : (next cfg s (.unlock v)).mMutex = s.mMutex := by simp [next, htarget]
        rw [hm] at hf
        refine hold hf ?_
        rintro ⟨⟩
        cases htarget.symm.trans (h _ f hf).hand
      | some g =>
        have hm : (next cfg s (.unlock v)).mMutex = Function.update s.mMutex g none := by simp [next, htarget]
        rw [hm] at hf
        have hfg : f ≠ g := by
          rintro rfl
          rw [Function.update_self] at hf
          cases hf
        rw [Function.update_of_ne hfg] at hf
        refine hold hf ?_
        rintro ⟨⟩
        exact hfg (Option.some_inj.1 ((h _ f hf).hand.symm.trans htarget))
    | _ => exact absurd (fun v => by simp) ha

theorem holder_reach (h : (system C cfg).Reach Always s) : ∀ w f, s.mMutex f = some w → Holder s w f := by
  induction h using System.Reach.induct with
  | start s h₀ =>
    rw [show s = initial C cfg from h₀]
    intro w f hf
    cases hf
  | step s a hr he _ ih => exact fun w f hf => holder_next (inv_reach hr) he.2 (placed_reach hr) ih hf

/-! ## Who waits in front of a section -/

/-- A thread that waits for a fiber's mutex is in `run()`, and there in no section. -/
def AtSection (cfg : Sylar.Config W E) (s : State W E C) (t : W ⊕ E) : Prop :=
  ∀ w, kernelThread cfg (.inl w) = t → (s.thread w).pc ≠ .run .lock

/-- In front of a section a thread waits for no fiber's mutex. -/
theorem at_section (h : (system C cfg).Reach Always s) {a : Act W E C} (he : (system C cfg).enabled s a)
    (hc : critical s a = true) {t : W ⊕ E} (ht : (sections cfg).mover a = some t) : AtSection cfg s t := by
  -- a worker's own position
  have hworker : ∀ v pc, (s.thread v).pc = pc → pc ≠ .run .lock → kernelThread cfg (.inl v) = t →
      AtSection cfg s t := by
    rintro v pc rfl hpc rfl w hw
    rwa [kernelThread_inj hw]
  -- an outside thread that is not inside `resume()`
  have houtside : ∀ e, s.base.stop e ≠ .wait → .inr e = t → AtSection cfg s t := by
    rintro e he rfl w hw hpc
    unfold kernelThread at hw
    dsimp only at hw
    split_ifs at hw with hroot
    cases hw
    cases hpc.symm.trans ((caller_reach hroot h).native (Or.inl he))
  obtain ⟨u, hu, rfl⟩ := Option.map_eq_some_iff.1 ht
  have hg := he.2
  cases a with
  | base a =>
    cases a with
    | scheduleLock v fc thr =>
      cases hu
      cases v with
      | inl v =>
        obtain ⟨n, hpc, -⟩ := user_task (inv_reach h) hg.2.1
        exact hworker v _ hpc (by simp) rfl
      | inr e => exact houtside e (by rw [show s.base.stop e = .out from hg.1.1]; simp) rfl
    | scan v =>
      cases hu
      exact hworker v _ hg.2.1 (by simp) rfl
    | start e =>
      cases hu
      exact houtside e (by rw [hg.1.1]; simp) rfl
    | stopCheck e =>
      cases hu
      exact houtside e (by rw [show s.base.stop e = .check from hg.1]; simp) rfl
    | stopSwap e =>
      cases hu
      exact houtside e (by rw [show s.base.stop e = .swap from hg.1]; simp) rfl
    | _ => cases hc
  | fire e i =>
    cases hu
    exact houtside e (by rw [hg.1]; simp) rfl
  | destroy e =>
    cases hu
    exact houtside e (by rw [hg.1]; simp) rfl
  | idle v =>
    cases hu
    exact hworker v _ hg.1.1 (by simp) rfl
  | _ => cases hc

/-- A thread stays in front of its section, or in it, while others move. -/
theorem at_section_keep (h : (system C cfg).Reach Always s) {a : Act W E C} (he : (system C cfg).enabled s a)
    {t : W ⊕ E} (ht : (sections cfg).mover a ≠ some t) (hs : AtSection cfg s t) :
    AtSection cfg (next cfg s a) t := by
  rintro w rfl
  have hactor : actor cfg a ≠ some w := by
    intro hactor
    apply ht
    cases a with
    | stopResume e =>
      -- the thread that ran the constructor resumes its own `run()`
      have hroot : cfg.root = some w := hactor
      have howner := (caller_reach hroot h).calls.owner e
      rw [show s.base.stop e = .resume from he.2.1] at howner
      have heq : e = cfg.owner := howner.1 (by rw [hroot]; rfl)
      simp [sections, mover, kernelThread, hroot, heq]
    | stopBack e =>
      have hroot : cfg.root = some w := hactor
      have howner := (caller_reach hroot h).calls.owner e
      rw [show s.base.stop e = .wait from he.2.1.1] at howner
      simp [sections, mover, kernelThread, hroot, howner.2]
    | base a =>
      simp only [actor] at hactor
      split at hactor
      · rename_i v hv
        cases hactor
        simp [sections, hv]
      · cases hactor
    | newFiber c | share f | release f | fire e i | destroy e => cases hactor
    | _ =>
      cases hactor
      rfl
  rw [thread_next cfg s hactor]
  exact hs w rfl

/-! ## Who waits for what -/

section Locking

variable {s : Mutex.State (State W E C) (W ⊕ E)} {t : W ⊕ E}

/-- A thread that waits for a fiber's mutex has no lock. -/
theorem fiber_alone (h : (locking C cfg).Reach (Mutex.Lift Always) s) {f : FiberId W}
    (hf : WantsLock cfg s t (.fiber f)) (l : Lock W) : ¬ HasLock cfg s t l := by
  have hsite : ∀ t, s.phase t ≠ .out → AtSection cfg s.base t :=
    Mutex.site_reach h (fun s a t hr he hc ht => at_section hr he hc ht)
      (fun s a t hr he _ ht hs => at_section_keep hr he ht hs)
  obtain ⟨w, rfl, hpc, -⟩ := hf
  intro hl
  cases l with
  | scheduler =>
    refine hsite _ ?_ w rfl hpc
    rw [(Mutex.owner_iff h _).1 hl]
    simp
  | fiber g =>
    obtain ⟨v, hv, hm⟩ := hl
    obtain rfl := kernelThread_inj hv
    exact (holder_reach (Mutex.reach_base h) v g hm).inside (Or.inr hpc)

/-- A thread that has `m_mutex` waits for no lock. -/
theorem scheduler_last (h : (locking C cfg).Reach (Mutex.Lift Always) s) (ht : HasLock cfg s t .scheduler)
    (l : Lock W) : ¬ WantsLock cfg s t l := by
  intro hl
  cases l with
  | scheduler =>
    have hholding : s.phase t = .holding := (Mutex.owner_iff h t).1 ht
    rw [show s.phase t = .waiting from hl] at hholding
    cases hholding
  | fiber f => exact fiber_alone h hl .scheduler ht

/-- No thread has the mutexes of two fibers. -/
theorem fiber_unique (h : (locking C cfg).Reach (Mutex.Lift Always) s) {f g : FiberId W}
    (hf : HasLock cfg s t (.fiber f)) (hg : HasLock cfg s t (.fiber g)) : f = g := by
  obtain ⟨w, rfl, hw⟩ := hf
  obtain ⟨v, hv, hm⟩ := hg
  obtain rfl := kernelThread_inj hv
  have hholder := holder_reach (Mutex.reach_base h) v
  exact Option.some_inj.1 ((hholder f hw).hand.symm.trans (hholder g hm).hand)

/-- **The locks cannot deadlock.** In every run, a thread that waits for a fiber's mutex has no lock, one that has
`m_mutex` waits for none, and no thread has the mutexes of two fibers; so the threads that wait for each other form no
cycle. -/
theorem locks_acyclic (h : (locking C cfg).Reach Always s) :
    (∀ t f, WantsLock cfg s t (.fiber f) → ∀ l, ¬ HasLock cfg s t l) ∧
    (∀ t, HasLock cfg s t .scheduler → ∀ l, ¬ WantsLock cfg s t l) ∧
    (∀ t f g, HasLock cfg s t (.fiber f) → HasLock cfg s t (.fiber g) → f = g) ∧
    ∀ t, ¬ Relation.TransGen (Mutex.WaitsFor (HasLock cfg s) (WantsLock cfg s)) t t := by
  have h : (locking C cfg).Reach (Mutex.Lift Always) s := h.mono fun _ _ => Mutex.lift_always
  refine ⟨fun t f hf => fiber_alone h hf, fun t ht => scheduler_last h ht, fun t f g => fiber_unique h, fun t => ?_⟩
  apply Mutex.acyclic_of_rank Lock.rank
  intro t l m hw hh
  cases l with
  | fiber f => exact absurd hh (fiber_alone h hw m)
  | scheduler =>
    cases m with
    | scheduler => exact absurd hw (scheduler_last h hh .scheduler)
    | fiber g => exact Nat.zero_lt_one

end Locking

/-- The steps of a section. -/
def sectionRun (t : Fin 2 ⊕ Fin 3) (a : Act (Fin 2) (Fin 3) Nat) :
    List (Mutex.Act (Act (Fin 2) (Fin 3) Nat) (Fin 2 ⊕ Fin 3)) := [.request a, .acquire t, .step a]

/-- Worker `w` looks for a task. -/
def lookRun (w : Fin 2) : List (Mutex.Act (Act (Fin 2) (Fin 3) Nat) (Fin 2 ⊕ Fin 3)) :=
  [.step (.top w)] ++ sectionRun (.inl w) (.base (.scan w)) ++ [.step (.base (.tickle w)), .step (.dispatch w)]

/-- Worker `w` finds none, and resumes its idle fiber, which does `as` up to a `yield()`. -/
def restRun (w : Fin 2) (as : List (Mutex.Act (Act (Fin 2) (Fin 3) Nat) (Fin 2 ⊕ Fin 3))) :
    List (Mutex.Act (Act (Fin 2) (Fin 3) Nat) (Fin 2 ⊕ Fin 3)) :=
  lookRun w ++ [.step (.idleInc w), .step (.set w .idle), .step (.swap w .idle)] ++ as ++
    [.step (.yswap w), .step (.idleDec w)]

/-- A timer queues an idle fiber. -/
def fireRun (a : Fin 3) : List (Mutex.Act (Act (Fin 2) (Fin 3) Nat) (Fin 2 ⊕ Fin 3)) :=
  sectionRun (.inr a) (.fire a 0) ++ [.step (.base (.wakeUp (.inr a)))]

/-- The idle fiber of `w` arms two timers, which queue it twice. Worker `w` runs it as a task, and it asks for
`m_mutex`, which thread `b` has, while `v` waits for its mutex. -/
def contendedRun (w v : Fin 2) (a b : Fin 3) : List (Mutex.Act (Act (Fin 2) (Fin 3) Nat) (Fin 2 ⊕ Fin 3)) :=
  sectionRun (.inr a) (.base (.start a)) ++ [.step (.prologue w), .step (.enter w)] ++
    restRun w ([.step (.entry w)] ++ sectionRun (.inl w) (.idle w) ++ [.step (.idle w)]) ++
    restRun w [.step (.idle w)] ++ restRun w (sectionRun (.inl w) (.idle w) ++ [.step (.idle w)]) ++
    restRun w [.step (.idle w)] ++ fireRun a ++ fireRun a ++ lookRun w ++
    [.step (.lock w), .step (.check w), .step (.set w .task), .step (.swap w .task), .step (.prologue v),
      .step (.enter v)] ++ lookRun v ++
    [.request (.idle w), .step (.base (.stopCall b)), .request (.base (.stopCheck b)), .acquire (.inr b)]

/-- A worker waits for the other one, which runs its idle fiber as a task and waits for an outside thread. -/
theorem locks_acyclic_duo : ∃ s : Mutex.State (State (Fin 2) (Fin 3) Nat) (Fin 2 ⊕ Fin 3),
    WantsLock (Sched.duo .hooked) s (.inl 1) (.fiber (.idle 0)) ∧
    HasLock (Sched.duo .hooked) s (.inl 0) (.fiber (.idle 0)) ∧ WantsLock (Sched.duo .hooked) s (.inl 0) .scheduler ∧
    HasLock (Sched.duo .hooked) s (.inr 2) .scheduler ∧ ¬ Relation.TransGen
      (Mutex.WaitsFor (HasLock (Sched.duo .hooked) s) (WantsLock (Sched.duo .hooked) s)) (.inl 1) (.inl 1) := by
  have h : (System.exec (locking Nat (Sched.duo .hooked)) Always
      ⟨initial Nat (Sched.duo .hooked), none, fun _ => .out⟩ (contendedRun 0 1 1 2)).any (fun s =>
        decide (((s.base.thread 1).pc = .run .lock ∧ s.base.target 1 .task = some (.idle 0)) ∧
          s.base.mMutex (.idle 0) = some 0 ∧ s.phase (.inl 0) = .waiting ∧ s.owner = some (.inr 2))) = true := by
    decide +kernel
  obtain ⟨s, hsteps, hs⟩ := System.exists_exec h
  obtain ⟨⟨hpc, htarget⟩, hmutex, hphase, howner⟩ := of_decide_eq_true hs
  have hinit : (locking Nat (Sched.duo .hooked)).init ⟨initial Nat (Sched.duo .hooked), none, fun _ => .out⟩ :=
    ⟨rfl, rfl, fun _ => rfl⟩
  exact ⟨s, ⟨1, rfl, hpc, htarget⟩, ⟨0, rfl, hmutex⟩, hphase, howner,
    (locks_acyclic ((System.Reach.start hinit).steps hsteps)).2.2.2 _⟩

end Sylar.Fibers.Isolated
