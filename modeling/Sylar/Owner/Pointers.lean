import Sylar.Owner.Machine

/-!
# What the thread-local pointers point to

Between two calls `_scheduler` is null or refers to a scheduler that is not destroyed, and `_running_fiber` is null or
refers to the main fiber. `_scheduler_fiber` is left at `m_schedulerFiber` of the newest scheduler with `use_caller`:
the destructor drops the last reference to that fiber and leaves the pointer alone.

- `pointed_iff`: the state in which nothing dangles;
- `pointers_kept`: the sequences of calls in which nothing ever does.
-/

set_option linter.unusedSectionVars false

namespace Sylar.Owner

open Trans Fibers

variable {E C : Type} [DecidableEq E] {o : E} {s : State E C}

/-- The fiber exists: somebody holds a `shared_ptr` to it. -/
def State.alive (s : State E C) : Ptr → Prop
  | .main => s.tls.mainFiber = some .main
  | p => ∃ g ∈ s.schedulers, ∃ f, g.ptr f = p ∧ 0 < g.state.refs f

/-- No thread-local pointer dangles. -/
structure Pointed (s : State E C) : Prop where
  scheduler : ∀ i ∈ s.tls.scheduler, ∃ g ∈ s.schedulers, g.id = i ∧ g.state.destroyed = false
  running : ∀ p ∈ s.tls.runningFiber, s.alive p
  schedulerFiber : ∀ p ∈ s.tls.schedulerFiber, s.alive p

/-- The newest scheduler with `use_caller`, if any, is not destroyed. -/
def Standing (s : State E C) : Prop := ∀ g ∈ s.schedulers.find? Gen.useCaller, g.state.destroyed = false

/-- The step is not the destructor of a scheduler that was constructed with `use_caller`. -/
def Gen.spares (g : Gen E C) : Fibers.Act (Fin g.n) E C → Prop
  | .destroy _ => g.useCaller = false
  | _ => True

/-- No scheduler that was constructed with `use_caller` is destroyed. -/
def Spares (s : State E C) : Act E C → Prop
  | .construct _ _ => True
  | .step a => ∀ g ∈ s.schedulers.head?, g.spares (a g.n)

instance (g : Gen E C) (a : Fibers.Act (Fin g.n) E C) : Decidable (g.spares a) := by
  unfold Gen.spares
  split <;> infer_instance

instance (s : State E C) : DecidablePred (Spares s)
  | .construct _ _ => isTrue trivial
  | .step a => inferInstanceAs (Decidable (∀ g ∈ s.schedulers.head?, g.spares (a g.n)))

/-! ## One state -/

theorem Numbered.id_lt : ∀ {gens : List (Gen E C)}, Numbered gens → ∀ g ∈ gens, g.id < gens.length
  | [], _ => by simp
  | g :: gens, h => by
    intro g' hg'
    rcases List.mem_cons.1 hg' with rfl | hg'
    · rw [h.1]
      simp
    · have hlt := Numbered.id_lt h.2 g' hg'
      rw [List.length_cons]
      omega

/-- A number has one scheduler. -/
theorem Numbered.inj : ∀ {gens : List (Gen E C)}, Numbered gens → ∀ g ∈ gens, ∀ g' ∈ gens, g.id = g'.id → g = g'
  | [], _ => by simp
  | g :: gens, h => by
    intro g₁ h₁ g₂ h₂ hid
    have hnew := h.1
    rcases List.mem_cons.1 h₁ with he₁ | h₁ <;> rcases List.mem_cons.1 h₂ with he₂ | h₂
    · exact he₁.trans he₂.symm
    · have hlt := Numbered.id_lt h.2 g₂ h₂
      rw [he₁] at hid
      omega
    · have hlt := Numbered.id_lt h.2 g₁ h₁
      rw [he₂] at hid
      omega
    · exact Numbered.inj h.2 g₁ h₁ g₂ h₂ hid

/-- A pointer to `m_schedulerFiber` of a scheduler is a pointer to no other fiber. -/
theorem alive_sched (h : Inv o s) {g : Gen E C} (hg : g ∈ s.schedulers) :
    s.alive (g.ptr .sched) ↔ 0 < g.state.refs .sched := by
  constructor
  · rintro ⟨g', hg', f, hptr, hrefs⟩
    cases f with
    | sched =>
      obtain rfl := Numbered.inj h.numbered g' hg' g hg (Ptr.fiber.inj hptr).1
      exact hrefs
    | main w =>
      simp only [Gen.ptr] at hptr
      split at hptr <;> simp at hptr
    | idle w | task k => simp [Gen.ptr] at hptr
  · intro hrefs
    exact ⟨g, hg, .sched, rfl, hrefs⟩

/-- Between two calls the thread is not inside `stop()` of its newest scheduler, nor of an older one. -/
theorem outside (h : Inv o s) (hb : between o s) {g : Gen E C} (hg : g ∈ s.schedulers) {w : Fin g.n}
    (hroot : g.cfg.root = some w) : (g.state.thread w).runningFiber = some (.main w) ∧
      (0 < g.state.refs .sched ↔ g.state.destroyed = false) := by
  obtain ⟨hinv, hcaller⟩ := h.caller hg hroot
  refine hcaller.outside hinv (hcaller.native ?_)
  cases hs : s.schedulers with
  | nil =>
    rw [hs] at hg
    cases hg
  | cons g' gens =>
    unfold between at hb
    rw [hs] at hg hb
    rcases List.mem_cons.1 hg with rfl | hg'
    · left
      rw [(h.reach g (by rw [hs]; exact List.mem_cons_self ..)).1, hb.2.1]
      simp
    · exact Or.inr (h.past g (by rw [hs]; exact hg'))

theorem scheduler_kept (h : Inv o s) :
    ∀ i ∈ s.tls.scheduler, ∃ g ∈ s.schedulers, g.id = i ∧ g.state.destroyed = false := by
  intro i hi
  cases hs : s.schedulers with
  | nil =>
    rw [h.scheduler, hs] at hi
    cases hi
  | cons g gens =>
    rw [h.newest hs] at hi
    cases hd : g.state.destroyed with
    | true =>
      rw [hd] at hi
      cases hi
    | false =>
      rw [hd] at hi
      exact ⟨g, List.mem_cons_self .., Option.some_inj.1 hi, hd⟩

theorem running_kept (h : Inv o s) (hb : between o s) : ∀ p ∈ s.tls.runningFiber, s.alive p := by
  intro p hp
  rcases h.home with ⟨g, gens, w, hs, -, hroot, hrun, hmain⟩ | hnone | ⟨hrun, hmain⟩
  · have hout := (outside h hb (g := g) (by rw [hs]; exact List.mem_cons_self ..) hroot).1
    rw [hrun, hout, Option.map_some, show g.ptr (.main w) = .main from if_pos hroot] at hp
    obtain rfl := Option.some_inj.1 hp
    exact hmain
  · rw [hnone] at hp
    cases hp
  · rw [hrun] at hp
    obtain rfl := Option.some_inj.1 hp
    exact hmain

/-- **`_scheduler` and `_running_fiber` never dangle between two calls**, and `_scheduler_fiber` does where the newest
scheduler with `use_caller` is destroyed. -/
theorem pointed_iff (h : Inv o s) (hb : between o s) : Pointed s ↔ Standing s := by
  have hfiber := h.schedulerFiber
  unfold SchedulerFiber at hfiber
  unfold Standing
  cases hf : s.schedulers.find? Gen.useCaller with
  | none =>
    rw [hf] at hfiber
    refine ⟨fun _ => by simp, fun _ => ⟨scheduler_kept h, running_kept h hb, ?_⟩⟩
    intro p hp
    obtain ⟨rfl, hmain⟩ := hfiber p hp
    exact hmain
  | some g =>
    rw [hf] at hfiber
    have hg : g ∈ s.schedulers := List.mem_of_find?_eq_some hf
    have hcaller : g.useCaller = true := List.find?_some hf
    obtain ⟨w, hroot⟩ := Option.isSome_iff_exists.1 hcaller
    have hiff : s.alive (g.ptr .sched) ↔ g.state.destroyed = false :=
      (alive_sched h hg).trans (outside h hb hg hroot).2
    constructor
    · intro hp g' hg'
      obtain rfl := Option.some_inj.1 hg'
      exact hiff.1 (hp.schedulerFiber _ hfiber)
    · intro hstand
      refine ⟨scheduler_kept h, running_kept h hb, ?_⟩
      intro p hp
      rw [hfiber] at hp
      obtain rfl := Option.some_inj.1 hp
      exact hiff.2 (hstand g rfl)

/-! ## Runs -/

/-- Where none of them is destroyed, all schedulers with `use_caller` are there. -/
theorem spared_reach (h : (system C o).Reach Spares s) :
    ∀ g ∈ s.schedulers, g.useCaller = true → g.state.destroyed = false := by
  apply h.inv (I := fun s : State E C => ∀ g ∈ s.schedulers, g.useCaller = true → g.state.destroyed = false)
  · rintro s ⟨hs, -⟩
    simp [hs]
  · intro s a hi he hp
    cases a with
    | construct n cfg =>
      simp only [system, next]
      split
      · intro g hg hcaller
        rcases List.mem_cons.1 hg with rfl | hg
        · rfl
        · exact hi g hg hcaller
      · exact hi
    | step a =>
      simp only [Spares] at hp
      simp only [system, next]
      split
      · exact hi
      · rename_i g gens hs
        rw [hs] at hp hi
        have hspares : g.spares (a g.n) := hp g rfl
        intro g' hg' hcaller
        rcases List.mem_cons.1 hg' with rfl | hg'
        · have hkeep : (g.step (a g.n)).state.destroyed = g.state.destroyed := by
            apply destroyed_next
            intro e ha
            rw [ha] at hspares
            cases hcaller.symm.trans hspares
          rw [hkeep]
          exact hi g (List.mem_cons_self ..) hcaller
        · exact hi g' (List.mem_cons_of_mem _ hg') hcaller

/-- The destructor of a scheduler with `use_caller` leaves `_scheduler_fiber` behind. -/
theorem spares_of_pointed (hr : (system C o).Reach Always s) {a : Act E C} (he : (system C o).enabled s a)
    (hp : between o (next s a) → Pointed (next s a)) : Spares s a := by
  have hinv : Inv o (next s a) := inv_reach (hr.step he trivial)
  cases a with
  | construct n cfg => trivial
  | step a =>
    intro g hhead
    obtain ⟨gens, hs⟩ := List.head?_eq_some_iff.1 hhead
    obtain ⟨-, hg⟩ := he
    simp only [guard, hs] at hg
    unfold Gen.spares
    split
    · rename_i e ha
      obtain ⟨⟨⟨habort, -⟩, hguard⟩, hby⟩ := hg
      rw [ha] at hguard hby
      obtain ⟨hout, hwake, -⟩ := hguard
      obtain rfl : e = o := hby
      have hnext : (next s (.step a)).schedulers = g.step (a g.n) :: gens := by
        simp only [next, hs]
      have hbase : (g.step (a g.n)).state.base = g.state.base := by
        rw [ha]
        exact base_dropAny g.state _
      have hb : between e (next s (.step a)) := by
        unfold between
        rw [hnext]
        dsimp only
        rw [hbase]
        exact ⟨habort, hout, hwake⟩
      have hstand := (pointed_iff hinv hb).1 (hp hb)
      unfold Standing at hstand
      rw [hnext] at hstand
      cases hcaller : g.useCaller with
      | false => rfl
      | true =>
        rw [List.find?_cons_of_pos (by exact hcaller), ha] at hstand
        cases hstand _ rfl
    · trivial

/-- **What the thread-local pointers point to.** The thread constructs, starts, stops and destroys schedulers, with any
number of threads and with or without `use_caller`, one after the other: no thread-local pointer dangles between any
two calls exactly if no scheduler with `use_caller` is destroyed. -/
theorem pointers_kept {s₀ t : State E C} {as : List (Act E C)} (h₀ : (system C o).init s₀)
    (h : (system C o).Steps Always s₀ as t) :
    (∀ bs cs u, as = bs ++ cs → (system C o).Steps Always s₀ bs u → between o u → Pointed u) ↔
      (system C o).Steps Spares s₀ as t := by
  have hsafe : ∀ u, (system C o).Reach Spares u → (between o u → Pointed u) := by
    intro u hu hb
    refine (pointed_iff (inv_reach hu) hb).2 ?_
    intro g hg
    exact spared_reach hu g (List.mem_of_find?_eq_some hg) (List.find?_some hg)
  exact h.stays_iff hsafe (fun u a hu he hp => spares_of_pointed hu he hp) h₀

/-- A scheduler with `use_caller` and no other thread. -/
def solo (idle : IdleMode) : Sylar.Config (Fin 1) (Fin 1) where
  tid w := w.val + 10
  tid_inj a b h := Fin.ext (by dsimp only at h; omega)
  tid_ne := by decide
  root := some 0
  pool := []
  mem_pool := by decide
  worker := by decide
  owner := 0
  idle := idle

/-- A step of a scheduler with one thread. -/
def one (a : Fibers.Act (Fin 1) (Fin 1) Nat) : Act (Fin 1) Nat := .step fun
  | 1 => a
  | _ => .release .sched

/-- The end of `MainFunc`. -/
def endRun : List (Fibers.Act (Fin 1) (Fin 1) Nat) := [.setTerm 0, .dropSelf 0, .last 0, .yswap 0]

/-- `stop()` of a scheduler without tasks, with its `run()`. -/
def stopRun : List (Fibers.Act (Fin 1) (Fin 1) Nat) :=
  [.base (.stopCall 0), .base (.stopCheck 0), .base (.stopSet 0), .base (.stopAssert 0), .base (.stopTickle 0),
    .stopResume 0, .entry 0, .prologue 0, .enter 0, .top 0, .base (.scan 0), .base (.tickle 0), .dispatch 0, .idleInc 0,
    .set 0 .idle, .swap 0 .idle, .entry 0, .idle 0, .idle 0] ++ endRun ++
  [.idleDec 0, .top 0, .base (.scan 0), .base (.tickle 0), .dispatch 0, .leave 0] ++ endRun ++
  [.stopBack 0, .base (.stopSwap 0), .base (.stopEnd 0)]

/-- The thread constructs the scheduler and stops it. -/
def soloRun : List (Act (Fin 1) Nat) := .construct 1 (solo .plain) :: stopRun.map one

theorem pointers_kept_solo : ∃ t : State (Fin 1) Nat,
    (system Nat 0).Steps Spares ⟨.fresh, [], false⟩ soloRun t ∧ between 0 t ∧ Pointed t := by
  have h : (System.exec (system Nat 0) Spares ⟨.fresh, [], false⟩ soloRun).any
      (fun s => decide (between 0 s)) = true := by
    decide +kernel
  obtain ⟨t, hsteps, hb⟩ := System.exists_exec h
  have hkept := pointers_kept ⟨rfl, rfl, Or.inl rfl⟩ (hsteps.mono fun _ _ _ => trivial)
  have hb := of_decide_eq_true hb
  refine ⟨t, hsteps, hb, hkept.2 hsteps soloRun [] t (List.append_nil _).symm ?_ hb⟩
  exact hsteps.mono fun _ _ _ => trivial

/-- Behind the destructor `_scheduler_fiber` refers to a fiber that is gone. -/
theorem scheduler_fiber_dangles :
    ¬ ∀ s : State (Fin 1) Nat, (system Nat 0).Reach Always s → between 0 s → Pointed s := by
  intro hall
  have h : (System.exec (system Nat 0) Always ⟨.fresh, [], false⟩ (soloRun ++ [one (.destroy 0)])).any (fun s =>
      decide (between 0 s) && (s.schedulers.find? Gen.useCaller).any fun g => g.state.destroyed) = true := by
    decide +kernel
  obtain ⟨t, hsteps, ht⟩ := System.exists_exec h
  rw [Bool.and_eq_true] at ht
  have hb : between 0 t := of_decide_eq_true ht.1
  obtain ⟨g, hg, hd⟩ := (Option.any_eq_true _ _).1 ht.2
  have hreach : (system Nat 0).Reach Always t := ⟨_, _, ⟨rfl, rfl, Or.inl rfl⟩, hsteps⟩
  have hstand := (pointed_iff (inv_reach hreach) hb).1 (hall t hreach hb) g hg
  cases hd.symm.trans hstand

end Sylar.Owner
