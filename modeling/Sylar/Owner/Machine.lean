import Sylar.Fiber.Caller

/-!
# A thread and its schedulers

One thread that constructs, uses and destroys schedulers, one after the other, with its thread-local `_scheduler`
(`scheduler.cpp`), `_running_fiber`, `_scheduler_fiber` and `_main_fiber` (`fiber.cpp`). Between its constructor and its
destructor a scheduler goes through a run of `Sylar.Fiber.Machine`, in which this thread is `Config.owner`, and with
`use_caller` also the caller thread; the thread-local pointers of that thread are the ones here. The schedulers differ
in everything, the number of their threads included. What a context of the main fiber still holds when the next
scheduler is constructed is overwritten by the next `resume()`, so each scheduler starts as after its constructor.

- `Tls.construct`, `Gen.tls`, `Gen.scheduler`: who writes the thread-local variables;
- `system`: the thread;
- `inv_reach`: what the variables are, in terms of the schedulers.
-/

set_option linter.unusedSectionVars false

namespace Sylar.Owner

open Trans Fibers

/-- A fiber, as a pointer has it: the thread's main fiber, or a fiber that is made for the `i`-th scheduler. -/
inductive Ptr where
  | main
  | fiber (i : Nat) (f : FiberId Nat)
deriving DecidableEq, Repr

/-- The thread-local variables, `_main_fiber` a `shared_ptr`. -/
structure Tls where
  scheduler : Option Nat
  runningFiber : Option Ptr
  schedulerFiber : Option Ptr
  mainFiber : Option Ptr
deriving DecidableEq, Repr

/-- The `id`-th scheduler that the thread has constructed; `n` threads execute its `run()`. -/
structure Gen (E C : Type) where
  id : Nat
  n : Nat
  cfg : Sylar.Config (Fin n) E
  state : Fibers.State (Fin n) E C

/-- `schedulers` has the newest first. `failed` is behind a failed assertion of a constructor. -/
structure State (E C : Type) where
  tls : Tls
  schedulers : List (Gen E C)
  failed : Bool

/-- The steps: a constructor, and the step `a n` of the newest scheduler, if that has `n` threads. -/
inductive Act (E C : Type) where
  | construct (n : Nat) (cfg : Sylar.Config (Fin n) E)
  | step (a : ∀ n, Fibers.Act (Fin n) E C)

variable {E C : Type} [DecidableEq E]

/-! ## The thread-local variables -/

/-- Nothing has run in the thread. -/
def Tls.fresh : Tls := ⟨none, none, none, none⟩

/-- `Fiber::getRunningFiber()`. -/
def Tls.getRunningFiber (t : Tls) : Tls :=
  if t.runningFiber.isSome then t
  else { t with runningFiber := some .main, mainFiber := some .main, schedulerFiber := some .main }

/-- `threads` of the constructor. -/
def threads {W : Type} (cfg : Sylar.Config W E) : Nat := cfg.pool.length + if cfg.root.isSome then 1 else 0

/-- The constructor of the `i`-th scheduler behind its assertion. -/
def Tls.construct (t : Tls) (i : Nat) (useCaller : Bool) : Tls :=
  let t := { t with scheduler := some i }
  if useCaller then { t.getRunningFiber with schedulerFiber := some (.fiber i .sched) } else t

namespace Gen

/-- A pointer to a fiber of the scheduler. The main fiber of the caller thread is that of this thread. -/
def ptr (g : Gen E C) : FiberId (Fin g.n) → Ptr
  | .main w => if g.cfg.root = some w then .main else .fiber g.id (.main w)
  | .sched => .fiber g.id .sched
  | .idle w => .fiber g.id (.idle w)
  | .task k => .fiber g.id (.task k)

def useCaller (g : Gen E C) : Bool := g.cfg.root.isSome

/-- The thread's fiber pointers in a step of the scheduler, which are those of the caller thread. -/
def tls (g : Gen E C) (t : Tls) : Tls :=
  match g.cfg.root with
  | none => t
  | some w =>
    { t with
      runningFiber := (g.state.thread w).runningFiber.map g.ptr
      schedulerFiber := (g.state.thread w).schedulerFiber.map g.ptr
      mainFiber := (g.state.thread w).mainFiber.map g.ptr }

/-- `_scheduler` behind a step: `run()` sets it in the thread that executes it, and the destructor resets it. -/
def scheduler (g : Gen E C) (p : Option Nat) : Fibers.Act (Fin g.n) E C → Option Nat
  | .prologue w => if g.cfg.root = some w then some g.id else p
  | .destroy _ => if p = some g.id then none else p
  | _ => p

def step (g : Gen E C) (a : Fibers.Act (Fin g.n) E C) : Gen E C := { g with state := Fibers.next g.cfg g.state a }

end Gen

/-! ## The thread -/

/-- The thread is between two calls: of the constructors, the destructor, `start`, `scheduleLock` and `stop`. -/
def between (o : E) (s : State E C) : Prop :=
  match s.schedulers with
  | [] => True
  | g :: _ => g.state.base.aborted = none ∧ g.state.base.stop o = .out ∧ g.state.base.wake (.inr o) = none

/-- The destructor is called by this thread. -/
def byOwner {W : Type} (o : E) : Fibers.Act W E C → Prop
  | .destroy e => e = o
  | _ => True

/-- Where a step is possible. -/
def guard (o : E) (s : State E C) : Act E C → Prop
  | .construct _ cfg => between o s ∧ cfg.owner = o
  | .step a =>
    match s.schedulers with
    | [] => False
    | g :: _ => (Fibers.system C g.cfg).enabled g.state (a g.n) ∧ byOwner o (a g.n)

/-- What a step does. -/
def next (s : State E C) : Act E C → State E C
  | .construct n cfg =>
    if 0 < threads cfg ∧ s.tls.scheduler = none then
      { s with
        tls := s.tls.construct s.schedulers.length cfg.root.isSome
        schedulers := ⟨s.schedulers.length, n, cfg, Fibers.initial C cfg⟩ :: s.schedulers }
    else { s with failed := true }
  | .step a =>
    match s.schedulers with
    | [] => s
    | g :: gens =>
      let g' := g.step (a g.n)
      { s with
        tls := { (if g.state.destroyed then s.tls else g'.tls s.tls) with
          scheduler := g.scheduler s.tls.scheduler (a g.n) }
        schedulers := g' :: gens }

instance (o : E) (s : State E C) : Decidable (between o s) := by
  unfold between
  split <;> infer_instance

instance {W : Type} (o : E) (a : Fibers.Act W E C) : Decidable (byOwner o a) := by
  unfold byOwner
  split <;> infer_instance

instance [DecidableEq C] (o : E) (s : State E C) (a : Act E C) : Decidable (guard o s a) := by
  cases a with
  | construct n cfg => exact inferInstanceAs (Decidable (_ ∧ _))
  | step a =>
    dsimp only [guard]
    split <;> infer_instance

/-- **The thread**, from where it has no scheduler; it may have its main fiber. -/
def system (C : Type) (o : E) : System (State E C) (Act E C) where
  init s := s.schedulers = [] ∧ s.failed = false ∧ (s.tls = .fresh ∨ s.tls = Tls.fresh.getRunningFiber)
  enabled s a := s.failed = false ∧ guard o s a
  next := next

instance [DecidableEq C] (o : E) (s : State E C) (a : Act E C) : Decidable ((system C o).enabled s a) :=
  inferInstanceAs (Decidable (_ ∧ guard o s a))

/-! ## The invariant -/

/-- The schedulers are numbered in the order of their construction. -/
def Numbered : List (Gen E C) → Prop
  | [] => True
  | g :: gens => g.id = gens.length ∧ Numbered gens

/-- The thread has a main fiber where it has a running one. -/
def Tls.Home (t : Tls) : Prop := t.runningFiber = none ∨ t.runningFiber = some .main ∧ t.mainFiber = some .main

/-- The thread is the caller thread of a scheduler that is not destroyed. -/
def Calls (s : State E C) : Prop :=
  ∃ g gens w, s.schedulers = g :: gens ∧ g.state.destroyed = false ∧ g.cfg.root = some w ∧
    s.tls.runningFiber = (g.state.thread w).runningFiber.map g.ptr ∧ s.tls.mainFiber = some .main

/-- The newest scheduler of the caller thread, and else the main fiber, is what `_scheduler_fiber` is left with. -/
def SchedulerFiber (s : State E C) : Prop :=
  match s.schedulers.find? Gen.useCaller with
  | some g => s.tls.schedulerFiber = some (g.ptr .sched)
  | none => ∀ p ∈ s.tls.schedulerFiber, p = .main ∧ s.tls.mainFiber = some .main

/-- **The invariant.** -/
structure Inv (o : E) (s : State E C) : Prop where
  numbered : Numbered s.schedulers
  reach : ∀ g ∈ s.schedulers, g.cfg.owner = o ∧ (Fibers.system C g.cfg).Reach Always g.state
  past : ∀ g ∈ s.schedulers.tail, g.state.destroyed = true
  scheduler : s.tls.scheduler = s.schedulers.head?.bind fun g => if g.state.destroyed then none else some g.id
  home : Calls s ∨ s.tls.Home
  schedulerFiber : SchedulerFiber s

variable {o : E} {s : State E C}

theorem Inv.caller (h : Inv o s) {g : Gen E C} (hg : g ∈ s.schedulers) {w : Fin g.n} (hroot : g.cfg.root = some w) :
    Isolated.Inv g.cfg g.state ∧ Isolated.Caller g.cfg w g.state :=
  ⟨Isolated.inv_reach (h.reach g hg).2, Isolated.caller_reach hroot (h.reach g hg).2⟩

/-- While a scheduler is not destroyed, `_scheduler` refers to it, and else to none. -/
theorem Inv.newest (h : Inv o s) {g : Gen E C} {gens : List (Gen E C)} (hs : s.schedulers = g :: gens) :
    s.tls.scheduler = if g.state.destroyed then none else some g.id := by
  rw [h.scheduler, hs]
  rfl

/-- Where `_scheduler` is null, every scheduler is destroyed. -/
theorem Inv.destroyed (h : Inv o s) (hnone : s.tls.scheduler = none) :
    ∀ g ∈ s.schedulers, g.state.destroyed = true := by
  cases hs : s.schedulers with
  | nil => simp
  | cons g gens =>
    intro g' hg'
    rcases List.mem_cons.1 hg' with rfl | hg'
    · have hnew := h.newest hs
      rw [hnone] at hnew
      by_contra hd
      rw [if_neg hd] at hnew
      cases hnew
    · exact h.past g' (by rw [hs]; exact hg')

/-- Where `_scheduler` is null the thread is not inside a scheduler. -/
theorem Inv.home_of_none (h : Inv o s) (hnone : s.tls.scheduler = none) : s.tls.Home := by
  rcases h.home with ⟨g, gens, w, hs, hd, -⟩ | hhome
  · have hdest := h.destroyed hnone g (by rw [hs]; exact List.mem_cons_self ..)
    cases hd.symm.trans hdest
  · exact hhome

/-- The main fiber is made where there is none. -/
theorem Tls.Home.getRunningFiber {t : Tls} (h : t.Home) :
    t.getRunningFiber.runningFiber = some .main ∧ t.getRunningFiber.mainFiber = some .main := by
  unfold Tls.getRunningFiber
  rcases h with h | ⟨h, hmain⟩
  · rw [h]
    exact ⟨rfl, rfl⟩
  · rw [if_pos (by rw [h]; rfl)]
    exact ⟨h, hmain⟩

/-- The thread of the caller, after the constructor. -/
theorem initial_thread {W : Type} [DecidableEq W] {cfg : Sylar.Config W E} {w : W} (hroot : cfg.root = some w) :
    (Fibers.initial C cfg).thread w =
      ⟨.native w, .native, some (.main w), some (.main w), some .sched, none, none, 0⟩ :=
  if_pos hroot

theorem inv_construct (h : Inv o s) {n : Nat} {cfg : Sylar.Config (Fin n) E} (howner : cfg.owner = o)
    (hnone : s.tls.scheduler = none) :
    Inv o { s with
      tls := s.tls.construct s.schedulers.length cfg.root.isSome
      schedulers := ⟨s.schedulers.length, n, cfg, Fibers.initial C cfg⟩ :: s.schedulers } := by
  have hhome := h.home_of_none hnone
  have hreach : (Fibers.system C cfg).Reach Always (Fibers.initial C cfg) := .start rfl
  refine ⟨⟨rfl, h.numbered⟩, ?_, h.destroyed hnone, ?_, ?_, ?_⟩
  · intro g hg
    rcases List.mem_cons.1 hg with rfl | hg
    · exact ⟨howner, hreach⟩
    · exact h.reach g hg
  · cases hroot : cfg.root.isSome <;> simp [Tls.construct, Tls.getRunningFiber, Fibers.initial]
    split <;> rfl
  · cases hroot : cfg.root with
    | none => exact Or.inr hhome
    | some w =>
      left
      refine ⟨_, _, w, rfl, rfl, hroot, ?_, ?_⟩
      · have hrun := (Tls.Home.getRunningFiber (t := { s.tls with scheduler := some s.schedulers.length }) hhome).1
        dsimp only
        rw [initial_thread hroot]
        simpa [Tls.construct, Gen.ptr, hroot] using hrun
      · have hmain := (Tls.Home.getRunningFiber (t := { s.tls with scheduler := some s.schedulers.length }) hhome).2
        simpa [Tls.construct] using hmain
  · unfold SchedulerFiber
    cases hroot : cfg.root with
    | none =>
      rw [List.find?_cons_of_neg (by simp [Gen.useCaller, hroot])]
      exact h.schedulerFiber
    | some w =>
      rw [List.find?_cons_of_pos (by simp [Gen.useCaller, hroot])]
      rfl

/-- `_scheduler` in a step of the newest scheduler. -/
theorem scheduler_step {g : Gen E C} {a : Fibers.Act (Fin g.n) E C} (hu : usable g.state a) {p : Option Nat}
    (hp : p = if g.state.destroyed then none else some g.id) :
    g.scheduler p a = if (g.step a).state.destroyed then none else some g.id := by
  have hkeep : (∀ e, a ≠ .destroy e) → (g.step a).state.destroyed = g.state.destroyed := fun ha => destroyed_next ha
  cases a with
  | prologue w =>
    have hd : g.state.destroyed = false := hu
    rw [hkeep (by simp), hd]
    simp [Gen.scheduler, hp, hd]
  | destroy e =>
    have hd : g.state.destroyed = false := hu
    simp [Gen.scheduler, hp, hd, Gen.step, Fibers.next]
  | _ =>
    rw [hkeep (by simp)]
    exact hp

/-- The caller thread's pointers, taken over. -/
theorem tls_step {g : Gen E C} {w : Fin g.n} (hroot : g.cfg.root = some w)
    (hc : Isolated.Face w (g.state.thread w)) (t : Tls) :
    (g.tls t).runningFiber = (g.state.thread w).runningFiber.map g.ptr ∧ (g.tls t).mainFiber = some .main ∧
      (g.tls t).schedulerFiber = some (g.ptr .sched) := by
  have hmain : g.ptr (.main w) = .main := if_pos hroot
  simp only [Gen.tls, hroot, hc.main, hc.scheduler, Option.map_some, hmain]
  exact ⟨trivial, trivial, trivial⟩

theorem inv_step (h : Inv o s) {g : Gen E C} {gens : List (Gen E C)} (hs : s.schedulers = g :: gens)
    {a : Fibers.Act (Fin g.n) E C} (he : (Fibers.system C g.cfg).enabled g.state a) :
    Inv o { s with
      tls := { (if g.state.destroyed then s.tls else (g.step a).tls s.tls) with
        scheduler := g.scheduler s.tls.scheduler a }
      schedulers := g.step a :: gens } := by
  have hmem : g ∈ s.schedulers := by
    rw [hs]
    exact List.mem_cons_self ..
  have hreach : (Fibers.system C g.cfg).Reach Always (g.step a).state := (h.reach g hmem).2.step he trivial
  have hnumbered := h.numbered
  rw [hs] at hnumbered
  refine ⟨⟨hnumbered.1, hnumbered.2⟩, ?_, ?_, ?_, ?_, ?_⟩
  · intro g' hg'
    rcases List.mem_cons.1 hg' with rfl | hg'
    · exact ⟨(h.reach g hmem).1, hreach⟩
    · exact h.reach g' (by rw [hs]; exact List.mem_cons_of_mem _ hg')
  · intro g' hg'
    exact h.past g' (by rw [hs]; exact hg')
  · exact scheduler_step he.1.2 (h.newest hs)
  · cases hd : g.state.destroyed with
    | true =>
      -- nothing moves behind the destructor
      right
      rcases h.home with ⟨g', gens', w, hs', hd', -⟩ | hhome
      · rw [hs] at hs'
        cases hs'
        cases hd.symm.trans hd'
      · exact hhome
    | false =>
      cases hroot : g.cfg.root with
      | none =>
        right
        have hhome : s.tls.Home := by
          rcases h.home with ⟨g', gens', w, hs', -, hroot', -⟩ | hhome
          · rw [hs] at hs'
            cases hs'
            cases hroot.symm.trans hroot'
          · exact hhome
        have htls : (g.step a).tls s.tls = s.tls := by
          unfold Gen.tls
          rw [show (g.step a).cfg.root = none from hroot]
        rw [htls]
        exact hhome
      | some w =>
        have hcaller : Isolated.Caller g.cfg w (g.step a).state := Isolated.caller_reach hroot hreach
        obtain ⟨hrun, hmain, -⟩ := tls_step (g := g.step a) hroot hcaller.face s.tls
        cases hd' : (g.step a).state.destroyed with
        | false => exact Or.inl ⟨g.step a, gens, w, rfl, hd', hroot, hrun, hmain⟩
        | true =>
          right
          right
          refine ⟨hrun.trans ?_, hmain⟩
          have hnative := hcaller.native (Or.inr hd')
          rw [(hcaller.outside (Isolated.inv_reach hreach) hnative).1]
          exact congrArg some (if_pos hroot)
  · have hfiber := h.schedulerFiber
    unfold SchedulerFiber at hfiber ⊢
    rw [hs] at hfiber
    cases hroot : g.cfg.root with
    | none =>
      have htls : (g.step a).tls s.tls = s.tls := by
        unfold Gen.tls
        rw [show (g.step a).cfg.root = none from hroot]
      rw [List.find?_cons_of_neg (by simp [Gen.useCaller, hroot])] at hfiber
      rw [List.find?_cons_of_neg (by simp [Gen.useCaller, Gen.step, hroot]), htls, ite_self]
      exact hfiber
    | some w =>
      rw [List.find?_cons_of_pos (by simp [Gen.useCaller, hroot])] at hfiber
      rw [List.find?_cons_of_pos (by simp [Gen.useCaller, Gen.step, hroot])]
      cases hd : g.state.destroyed with
      | true => exact hfiber
      | false =>
        have hcaller : Isolated.Caller g.cfg w (g.step a).state := Isolated.caller_reach hroot hreach
        exact (tls_step (g := g.step a) hroot hcaller.face s.tls).2.2

/-- **The invariant holds in every reachable state.** -/
theorem inv_reach {P : State E C → Act E C → Prop} (h : (system C o).Reach P s) : Inv o s := by
  apply h.inv
  · rintro s ⟨hs, -, htls⟩
    refine ⟨?_, ?_, ?_, ?_, Or.inr ?_, ?_⟩
    · rw [hs]
      trivial
    · simp [hs]
    · simp [hs]
    · rcases htls with htls | htls <;> rw [hs, htls] <;> rfl
    · rcases htls with htls | htls <;> rw [htls]
      · exact Or.inl rfl
      · exact Or.inr ⟨rfl, rfl⟩
    · unfold SchedulerFiber
      rw [hs]
      rcases htls with htls | htls <;> rw [htls] <;> simp [Tls.fresh, Tls.getRunningFiber]
  · intro s a hi he _
    cases a with
    | construct n cfg =>
      simp only [system, next]
      split
      · rename_i hassert
        exact inv_construct hi he.2.2 hassert.2
      · exact ⟨hi.numbered, hi.reach, hi.past, hi.scheduler, hi.home, hi.schedulerFiber⟩
    | step a =>
      obtain ⟨-, hg⟩ := he
      simp only [guard] at hg
      simp only [system, next]
      split
      · exact hi
      · rename_i g gens hs
        rw [hs] at hg
        exact inv_step hi hs hg.1

end Sylar.Owner
